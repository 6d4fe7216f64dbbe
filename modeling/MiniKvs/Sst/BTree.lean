import MiniKvs.Sst.Node

/-! Building SST files (`btree.cpp`): from a memtable, and by merging two files.
Leaves are written from the last page downwards, then the internal levels, so
the root ends up in page 1. This works for files of any kind that a page can be put
in with `write`. -/

namespace MiniKvs

open Lib

namespace BTreeNode

/-! ### Flush -/

def appendEntry (node : BTreeNode) (e : Entry) : BTreeNode :=
  { node with numKeys := node.numKeys + 1, entries := node.entries ++ [e], isLeaf := true }

/-- Add an entry to the last leaf, or to a new one when that is full. -/
def pushEntry (leafNodes : List BTreeNode) (e : Entry) : List BTreeNode :=
  match leafNodes.getLast? with
  | none => [new.appendEntry e]
  | some leaf =>
    if leaf.numKeys = maxKeys then leafNodes ++ [new.appendEntry e]
    else leafNodes.dropLast ++ [leaf.appendEntry e]

def extractLeafNodesFromAvl : Node → List BTreeNode → List BTreeNode
  | .null, leafNodes => leafNodes
  | .node key value _ left right, leafNodes =>
    extractLeafNodesFromAvl right (pushEntry (extractLeafNodesFromAvl left leafNodes) ⟨key, value⟩)

def countLevels : ℕ → ℕ → ℕ → ℕ
  | 0, _, total => total
  | fuel + 1, current, total =>
    if current > 1 then
      let current := (current + maxKeys) / (maxKeys + 1)
      countLevels fuel current (total + current)
    else total

def getTotalNumberOfNodes (numOfLeafNodes : ℕ) : ℕ :=
  -- a single leaf still gets a root
  if numOfLeafNodes = 1 then 2 else countLevels numOfLeafNodes numOfLeafNodes numOfLeafNodes

def keys (node : BTreeNode) : List Uint32 :=
  (List.range node.numKeys).map fun i => (node.entry i).key

/-- The filter over all keys of the leaves, in order. -/
def filterOf (xxh64 : XXH64) (leafNodes : List BTreeNode) : BloomFilter :=
  (leafNodes.flatMap keys).foldl (BloomFilter.insert xxh64) (.new 5 leafNodes.length)

section Writers

variable {φ : Type} (write : φ → ℕ → PageData → Outcome φ)

/-- Write the leaves, the first at `offset`, with their offsets. -/
def writeLeafNodes : List BTreeNode → ℕ → φ → Outcome (List BTreeNode × φ)
  | [], _, file => .ok ([], file)
  | node :: nodes, offset, file => do
    let node := { node with fileOffset := offset }
    let file ← write file offset (.node node)
    let (nodes, file) ← writeLeafNodes nodes (offset - 1) file
    .ok (node :: nodes, file)

/-- How a parent refers to a node: its largest key and its offset. -/
def summary (node : BTreeNode) : Entry := ⟨node.lastKey, Fin.ofNat _ node.fileOffset⟩

/- The queue holds nodes in a flush and their summaries in a merge. -/
variable {α : Type} (refer : α → Entry) (enqueue : BTreeNode → α)

/-- Give parents to all nodes of the queue, `MAX_KEYS + 1` children to each. -/
def buildLevel : ℕ → List α → ℕ → φ → Outcome (List BTreeNode × φ)
  | 0, _, _, _ => .error .noReturn
  | fuel + 1, queue, offset, file =>
    if queue.length = 0 then .ok ([], file) else do
      let n := min (maxKeys + 1) queue.length
      let node : BTreeNode := ⟨n, (queue.take n).map refer, false, offset, 0, 0⟩
      let file ← write file offset (.node node)
      let (result, file) ← buildLevel fuel (queue.drop n) (offset - 1) file
      .ok (node :: result, file)

/-- Build levels until one has a single node, the root, and write the metadata to it. -/
def buildLevels (totalNumberOfNodes numOfLeafNodes : ℕ) :
    ℕ → List α → ℕ → φ → Outcome φ
  | 0, _, _, _ => .error .noReturn
  | fuel + 1, queue, offset, file => do
    let (result, file) ← buildLevel write refer (queue.length + 1) queue offset file
    match result with
    | [root] =>
      write file 1 (.node { root with
        totalNumberOfNodes := totalNumberOfNodes, numOfLeafNodes := numOfLeafNodes })
    | _ =>
      buildLevels totalNumberOfNodes numOfLeafNodes fuel (result.map enqueue)
        (offset - result.length) file

/-- The filter, the leaves and the levels of a flush. -/
def writeFlush (empty : φ) (xxh64 : XXH64) (leafNodes : List BTreeNode) : Outcome φ := do
  let file ← write empty 0 (.filter (filterOf xxh64 leafNodes))
  let numOfLeafNodes := leafNodes.length
  let totalNumberOfNodes := getTotalNumberOfNodes numOfLeafNodes
  let (queue, file) ← writeLeafNodes write leafNodes totalNumberOfNodes file
  buildLevels write summary id totalNumberOfNodes numOfLeafNodes (numOfLeafNodes + 1) queue
    (totalNumberOfNodes - numOfLeafNodes) file

/-- The leaves of the temporary file of a merge, the filter and the levels. -/
def writeMerge (empty : φ) (xxh64 : XXH64) (leafNodes : List BTreeNode) : Outcome φ := do
  let numOfLeafNodes := leafNodes.length
  let totalNumberOfNodes := getTotalNumberOfNodes numOfLeafNodes
  let (nodes, file) ← writeLeafNodes write leafNodes totalNumberOfNodes empty
  let file ← write file 0 (.filter (filterOf xxh64 leafNodes))
  buildLevels write id summary totalNumberOfNodes numOfLeafNodes (numOfLeafNodes + 1)
    (nodes.map summary) (totalNumberOfNodes - numOfLeafNodes) file

end Writers

def constructInternalNodesAndWriteToFile (xxh64 : XXH64) (leafNodes : List BTreeNode) :
    Outcome File := writeFlush File.write .empty xxh64 leafNodes

/-! ### Merge -/

/-- A position in the leaves of an SST. -/
structure Cursor where
  sst : File
  offset : ℕ
  minOffset : ℕ
  node : BTreeNode
  index : ℕ

namespace Cursor

def start (sst : File) : Outcome Cursor := do
  let root ← sst.readNode 1
  let node ← sst.readNode root.totalNumberOfNodes
  .ok { sst := sst
        offset := root.totalNumberOfNodes
        minOffset := root.totalNumberOfNodes - root.numOfLeafNodes + 1
        node := node
        index := 0 }

def exhausted (c : Cursor) : Bool := c.index ≥ c.node.numKeys

/-- The invalid entry stands for a list that has run out. -/
def entry (c : Cursor) : Entry :=
  if c.exhausted then ⟨Utils.invalidValue, Utils.invalidValue⟩ else c.node.entry c.index

/-- Go on to the next leaf when this one is used up and there is one. -/
def advance (taken : Bool) (c : Cursor) : Outcome Cursor :=
  let c := if taken then { c with index := c.index + 1 } else c
  if c.exhausted ∧ c.offset > c.minOffset then do
    let node ← c.sst.readNode (c.offset - 1)
    .ok { c with offset := c.offset - 1, node := node, index := 0 }
  else .ok c

end Cursor

/-- The output slot, and whether the old and the new entry are used up. A dropped
tombstone leaves a slot of zeros. -/
def mergeEntry (isLastLevel : Bool) (oldEntry newEntry : Entry) : Entry × Bool × Bool :=
  if oldEntry.value = Utils.tombStone ∧ isLastLevel ∧ newEntry.key = oldEntry.key then
    (⟨0, 0⟩, true, true)
  else if oldEntry.key = Utils.invalidValue then (newEntry, false, true)
  else if newEntry.key = Utils.invalidValue then (oldEntry, true, false)
  else if newEntry.key < oldEntry.key then (newEntry, false, true)
  else if newEntry.key > oldEntry.key then (oldEntry, true, false)
  -- they have the same key, always prefer the new one
  else (newEntry, true, true)

def leafOf (entries : List Entry) : BTreeNode := ⟨entries.length, entries, true, 0, 0, 0⟩

/-- The leaves of the merge, as they are written to the temporary file. -/
def mergeLeaves (isLastLevel : Bool) :
    ℕ → Cursor → Cursor → List Entry → List BTreeNode → Outcome (List BTreeNode)
  | 0, _, _, _, _ => .error .noReturn
  | fuel + 1, old, new, output, temp => do
    let (slot, takeOld, takeNew) := mergeEntry isLastLevel old.entry new.entry
    let old ← old.advance takeOld
    let new ← new.advance takeNew
    let output := output ++ [slot]
    let done := old.exhausted && new.exhausted
    if output.length ≥ maxKeys ∨ done then
      let temp := temp ++ [leafOf output]
      if done then .ok temp else mergeLeaves isLastLevel fuel old new [] temp
    else mergeLeaves isLastLevel fuel old new output temp

/-- Every round of the merge uses up an entry, unless the merge never ends. -/
def mergeFuel (sst : File) : ℕ :=
  match sst.readNode 1 with
  | .error _ => 0
  | .ok root => maxKeys * root.numOfLeafNodes

def mergeSsts (xxh64 : XXH64) (oldSst newSst : File) (isLastLevel : Bool) : Outcome File := do
  let old ← Cursor.start oldSst
  let new ← Cursor.start newSst
  let temp ← mergeLeaves isLastLevel (mergeFuel oldSst + mergeFuel newSst + 1) old new [] []
  writeMerge File.write .empty xxh64 temp

end BTreeNode

end MiniKvs
