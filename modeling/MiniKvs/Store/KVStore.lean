import MiniKvs.Lib.SortedList
import MiniKvs.Store.Level

/-! The store (`kv_store.cpp`) on a directory of files, its operations and its
runs. A store is opened on a directory that does not exist yet, or on one that an
earlier store has left. -/

namespace MiniKvs

open Lib

/-- Between calls `currentMemtableEntries` is below `memtableSize`, so only `sstCount`
could leave the range of an int. -/
structure KVStore where
  memtable : Node
  memtableSize : ℕ
  currentMemtableEntries : ℕ
  dbPath : String
  sstCount : ℕ
  levels : List Level
  bufferPool : BufferPool PageData

/-- A store with its directory. -/
structure World where
  store : KVStore
  disk : Disk
  log : List Event

/-- The arguments of the constructor, in the ranges that it needs. -/
structure Config where
  memtableSize : ℕ
  initialSize : ℕ
  maxSize : ℕ
  memtableSize_pos : 1 ≤ memtableSize
  initialSize_pos : 1 ≤ initialSize
  initialSize_le : initialSize ≤ maxSize
  maxSize_lt : maxSize < 2147483648

namespace KVStore

def new (config : Config) : KVStore :=
  ⟨.null, config.memtableSize, 0, "", 0, [], .new config.initialSize config.maxSize⟩

/-- `directory` is what `directory_iterator` lists, if the directory exists. -/
def «open» (store : KVStore) (dbPath : String) (directory : Option (List String)) :
    Outcome KVStore := do
  let levels ← (directory.getD []).foldlM Level.loadIntoLsmTree store.levels
  .ok { store with dbPath := dbPath, levels := levels }

def scanMemtable (startKey endKey : Uint32) : Node → List Entry → List Entry
  | .null, result => result
  | .node key value _ left right, result =>
    let result := if startKey < key then scanMemtable startKey endKey left result else result
    let result := if startKey ≤ key ∧ key ≤ endKey then result ++ [⟨key, value⟩] else result
    if key < endKey then scanMemtable startKey endKey right result else result

end KVStore

/-- `std::sort` by the keys. -/
abbrev StdSort := SortBy Entry.key

section Operations

variable (xxh64 : XXH64) (sort : StdSort)

namespace World

/-- The SST paths in the order in which lookups and scans go through them. -/
def ssts (w : World) : List String := w.store.levels.flatMap Level.sstList

def writeMemtableToSst (w : World) : Outcome World := do
  let store := w.store
  let leafNodes := BTreeNode.extractLeafNodesFromAvl store.memtable []
  if leafNodes.length = 0 then .ok w else
    let sstNum :=
      if store.levels.length > 0 ∧ (store.levels.getD 0 ⟨[]⟩).sstList.length > 0 then 1 else 0
    let filePath := sstPath store.dbPath sstNum
    let file ← BTreeNode.constructInternalNodesAndWriteToFile xxh64 leafNodes
    let sstCount ← Utils.increment store.sstCount
    let tree ← Level.updateLevels (.pages xxh64) store.dbPath filePath
      { levels := store.levels
        bufferPool := store.bufferPool
        disk := w.disk.set filePath file
        log := w.log ++ [.flush store.levels filePath] }
    .ok { store := { store with
            memtable := AVLTree.clear
            currentMemtableEntries := 0
            sstCount := sstCount
            levels := tree.levels
            bufferPool := tree.bufferPool }
          disk := tree.disk
          log := tree.log }

def put (key value : Uint32) (w : World) : Outcome World := do
  let memtable ← AVLTree.put w.store.memtable key value
  let w := { w with store := { w.store with
    memtable := memtable
    currentMemtableEntries := w.store.currentMemtableEntries + 1 } }
  if w.store.currentMemtableEntries ≥ w.store.memtableSize then w.writeMemtableToSst xxh64
  else .ok w

/-- Put a tombstone in the memtable. Only `put` counts entries. -/
def deleteKey (key : Uint32) (w : World) : Outcome World := do
  let memtable ← AVLTree.put w.store.memtable key Utils.tombStone
  .ok { w with store := { w.store with memtable := memtable } }

def close (w : World) : Outcome World := w.writeMemtableToSst xxh64

/-- `search` looks the key up in an SST, with what is cached. -/
def findValueInSsts {φ σ : Type} (search : String → φ → σ → Outcome (Uint32 × σ)) (disk : Disk φ) :
    List String → σ → Outcome (Uint32 × σ)
  | [], cache => .ok (Utils.invalidValue, cache)
  | sst :: ssts, cache => do
    let file ← disk.read sst
    let (value, cache) ← search sst file cache
    if value = Utils.tombStone then .ok (Utils.invalidValue, cache)
    else if value ≠ Utils.invalidValue then .ok (value, cache)
    else findValueInSsts search disk ssts cache

def get (key : Uint32) (w : World) : Outcome (Uint32 × World) := do
  let value := AVLTree.get w.store.memtable key
  if value = Utils.tombStone then .ok (Utils.invalidValue, w)
  else if value ≠ Utils.invalidValue then .ok (value, w)
  else
    let (value, bufferPool) ←
      findValueInSsts (BTreeNode.searchValueByKey xxh64 key) w.disk w.ssts w.store.bufferPool
    .ok (value, { w with store := { w.store with bufferPool := bufferPool } })

/-- `scan` collects the entries of an SST that are in the range. -/
def scanSsts {φ σ : Type} (scan : String → φ → σ → Outcome (List Entry × σ)) (disk : Disk φ) :
    List String → List Entry → σ → Outcome (List Entry × σ)
  | [], result, cache => .ok (result, cache)
  | sst :: ssts, result, cache => do
    let file ← disk.read sst
    let (found, cache) ← scan sst file cache
    scanSsts scan disk ssts (result ++ found) cache

/-- Tombstones are not erased from the result, only their values are replaced. -/
def hideTombstone (e : Entry) : Entry :=
  if e.value = Utils.tombStone then { e with value := Utils.invalidValue } else e

def scan (startKey endKey : Uint32) (w : World) : Outcome (List Entry × World) := do
  let result := KVStore.scanMemtable startKey endKey w.store.memtable []
  let (result, bufferPool) ←
    scanSsts (BTreeNode.scan xxh64 startKey endKey) w.disk w.ssts result w.store.bufferPool
  .ok ((sort result).map hideTombstone,
    { w with store := { w.store with bufferPool := bufferPool } })

end World

inductive Op
  | put (key value : Uint32)
  | deleteKey (key : Uint32)
  | get (key : Uint32)
  | scan (startKey endKey : Uint32)
  | close

inductive Reply
  | done
  | value (v : Uint32)
  | pairs (es : List Entry)
  deriving DecidableEq

/-- One call, with what it returns. -/
def World.step : Op → World → Outcome (Reply × World)
  | .put key value, w => (w.put xxh64 key value).map fun w => (.done, w)
  | .deleteKey key, w => (w.deleteKey key).map fun w => (.done, w)
  | .get key, w => (w.get xxh64 key).map fun x => (.value x.1, x.2)
  | .scan startKey endKey, w => (w.scan xxh64 sort startKey endKey).map fun x => (.pairs x.1, x.2)
  | .close, w => (w.close xxh64).map fun w => (.done, w)

/-- A fresh store opened on what is left of the directory of `w`. -/
def World.reopened (w : World) (config : Config) (directory : List String) : Outcome World := do
  let store ← (KVStore.new config).open w.store.dbPath (some directory)
  .ok { w with store := store }

/-- A store opened on a directory that does not exist, and calls on it. -/
def runStore (config : Config) (dbPath : String) (ops : List Op) :
    Outcome (List Reply × World) := do
  let store ← (KVStore.new config).open dbPath none
  run (World.step xxh64 sort) ops ⟨store, .empty, []⟩

end Operations

end MiniKvs
