import MiniKvs.Lib.Bisect
import MiniKvs.Pool.BufferPool
import MiniKvs.Sst.BTree

/-! Lookup and scan of an SST (`btree.cpp`). Both fetch pages one by one, through
the buffer pool or, for comparison, from the file alone; where the pages come
from is a parameter. -/

namespace MiniKvs

open Lib

/-- Where pages are fetched from, with the state that changes on the way. -/
structure Source (σ : Type) where
  filter : σ → Outcome (BloomFilter × σ)
  node : ℕ → σ → Outcome (BTreeNode × σ)

/-- Pages read from the file. -/
def fileSource (sst : File) : Source Unit where
  filter _ := sst.readFilter.map fun filter => (filter, ())
  node offset _ := (sst.readNode offset).map fun node => (node, ())

namespace BTreeNode

section Pool

variable (xxh64 : XXH64) (path : String) (sst : File)

/-- Fetch a page through the pool; `read` reads it from the file when it is not held. -/
def fetch (offset : ℕ) (read : Outcome PageData) (bufferPool : BufferPool PageData) :
    Outcome (PageData × BufferPool PageData) := do
  let pageId := Page.generatePageId path offset
  let (pageData, bufferPool) ← bufferPool.get xxh64.page pageId
  match pageData with
  | some pageData => .ok (pageData, bufferPool)
  | none =>
    let pageData ← read
    let bufferPool ← bufferPool.insert xxh64.page pageId pageData
    .ok (pageData, bufferPool)

def findNode (offset : ℕ) (bufferPool : BufferPool PageData) :
    Outcome (BTreeNode × BufferPool PageData) := do
  let (pageData, bufferPool) ← fetch xxh64 path offset ((sst.readNode offset).map .node) bufferPool
  let node ← pageData.asNode
  .ok (node, bufferPool)

def findFilter (bufferPool : BufferPool PageData) :
    Outcome (BloomFilter × BufferPool PageData) := do
  let (pageData, bufferPool) ← fetch xxh64 path 0 (sst.readFilter.map .filter) bufferPool
  let filter ← pageData.asFilter
  .ok (filter, bufferPool)

/-- Pages of the SST at `path`, through the buffer pool. -/
def poolSource : Source (BufferPool PageData) where
  filter := findFilter xxh64 path sst
  node := findNode xxh64 path sst

end Pool

/-- The binary search of a leaf. -/
def findValue (node : BTreeNode) (key : Uint32) : Uint32 :=
  let probe (mid : ℤ) : Ordering :=
    let entry := node.entry mid.toNat
    if entry.key = key then .eq else if entry.key < key then .lt else .gt
  match bisect probe node.numKeys 0 (node.numKeys - 1) with
  | none => Utils.invalidValue
  | some mid => (node.entry mid.toNat).value

/-- The binary search of an internal node, for the offset of the child whose range
includes the key. -/
def findChild (node : BTreeNode) (key : Uint32) : Option ℕ :=
  let probe (mid : ℤ) : Ordering :=
    if (node.entry mid.toNat).key ≥ key then
      if mid = 0 ∨ (node.entry (mid - 1).toNat).key < key then .eq else .gt
    else .lt
  (bisect probe node.numKeys 0 (node.numKeys - 1)).map fun mid => (node.entry mid.toNat).value.val

section Search

variable {σ : Type} (source : Source σ)

/-- The loop of `search_value_by_key`, from the node at `offset`. -/
def searchNode (key : Uint32) : ℕ → ℕ → σ → Outcome (Uint32 × σ)
  | 0, _, _ => .error .noReturn
  | fuel + 1, offset, s => do
    let (node, s) ← source.node offset s
    if node.numKeys = 0 then .ok (Utils.invalidValue, s)
    else if node.isLeaf then .ok (node.findValue key, s)
    else match node.findChild key with
      | none => .ok (Utils.invalidValue, s)
      | some offset => searchNode key fuel offset s

def search (xxh64 : XXH64) (key : Uint32) (fuel : ℕ) (s : σ) : Outcome (Uint32 × σ) := do
  let (filter, s) ← source.filter s
  if filter.get xxh64 key then searchNode source key fuel 1 s
  else .ok (Utils.invalidValue, s)

/-- The first loop of `scan`, down to the leaf where the range starts. -/
def descend (startKey : Uint32) : ℕ → ℕ → σ → Outcome (Option (ℕ × BTreeNode) × σ)
  | 0, _, _ => .error .noReturn
  | fuel + 1, offset, s => do
    let (node, s) ← source.node offset s
    if node.isLeaf then .ok (some (offset, node), s)
    else match node.findChild startKey with
      | none => .ok (none, s)
      | some offset => descend startKey fuel offset s

/-- The pairs of a leaf that are in range, and whether the range ends in it. -/
def scanEntries (startKey endKey : Uint32) : List Entry → List Entry × Bool
  | [] => ([], false)
  | e :: es =>
    if e.key < startKey then scanEntries startKey endKey es
    else if e.key > endKey then ([], true)
    else
      let (result, stop) := scanEntries startKey endKey es
      (e :: result, stop)

/-- The second loop of `scan`, over the leaves, which lie in consecutive pages. -/
def scanLeaves (startKey endKey : Uint32) :
    ℕ → ℕ → BTreeNode → List Entry → σ → Outcome (List Entry × σ)
  | 0, _, _, _, _ => .error .noReturn
  | fuel + 1, offset, node, result, s =>
    if node.isLeaf then
      let (found, stop) := scanEntries startKey endKey ((List.range node.numKeys).map node.entry)
      if stop then .ok (result ++ found, s)
      else do
        let (node, s) ← source.node (offset - 1) s
        scanLeaves startKey endKey fuel (offset - 1) node (result ++ found) s
    else .ok (result, s)

def scanFrom (startKey endKey : Uint32) (fuel : ℕ) (s : σ) : Outcome (List Entry × σ) := do
  let (found, s) ← descend source startKey fuel 1 s
  match found with
  | none => .ok ([], s)
  | some (offset, node) => scanLeaves source startKey endKey fuel offset node [] s

end Search

variable (xxh64 : XXH64)

/-- No descent and no walk over the leaves visits a page twice, so `num_pages` rounds do. -/
def searchValueByKey (key : Uint32) (path : String) (sst : File)
    (bufferPool : BufferPool PageData) : Outcome (Uint32 × BufferPool PageData) :=
  search (poolSource xxh64 path sst) xxh64 key sst.numPages bufferPool

def scan (startKey endKey : Uint32) (path : String) (sst : File)
    (bufferPool : BufferPool PageData) : Outcome (List Entry × BufferPool PageData) :=
  scanFrom (poolSource xxh64 path sst) startKey endKey sst.numPages bufferPool

end BTreeNode

end MiniKvs
