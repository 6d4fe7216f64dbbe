import MiniKvs.Store.ByteTree
import MiniKvs.Store.Durable
import MiniKvs.Store.Memtable

/-! The store as it lies in memory and on disk: the nodes of the memtable at their
addresses, the pool and the files as bytes. Over a run it does what the store over trees
and pages does, and no pointer is misused. -/

namespace MiniKvs

open Lib SstFiles BufferPool AVLTree.Pointers

/-- What stops a call: what stops it over trees and pages, or a misuse of memory. -/
inductive MachineFault
  | code (fault : Fault)
  | memory (fault : TreeHeap.Fault)

structure ByteStore where
  memtable : Memtable
  memtableSize : ℕ
  currentMemtableEntries : ℕ
  dbPath : String
  sstCount : ℕ
  levels : List Level
  bufferPool : BufferPool (List UInt8)

/-- A store with its directory. -/
structure ByteWorld where
  store : ByteStore
  disk : ByteDisk
  log : List Event

namespace ByteStore

def new (config : Config) : ByteStore :=
  ⟨.empty, config.memtableSize, 0, "", 0, [], .new config.initialSize config.maxSize⟩

def «open» (store : ByteStore) (dbPath : String) (directory : Option (List String)) :
    Outcome ByteStore := do
  let levels ← (directory.getD []).foldlM Level.loadIntoLsmTree store.levels
  .ok { store with dbPath := dbPath, levels := levels }

end ByteStore

namespace MachineFault

variable {α β : Type}

def ofCode (x : Outcome α) : Except MachineFault α := x.mapError .code

def ofMemory (x : Except TreeHeap.Fault α) : Except MachineFault α := x.mapError .memory

theorem ofCode_bind (x : Outcome α) (f : α → Outcome β) :
    ofCode (x >>= f) = ofCode x >>= fun a => ofCode (f a) := by
  cases x <;> rfl

theorem ofCode_map (x : Outcome α) (f : α → β) : ofCode (x.map f) = (ofCode x).map f := by
  cases x <;> rfl

theorem ofCode_run {ο ρ σ : Type} (step : ο → σ → Outcome (ρ × σ)) (os : List ο) (s : σ) :
    ofCode (run step os s) = run (fun o s => ofCode (step o s)) os s := by
  induction os generalizing s with
  | nil => rfl
  | cons o os ih =>
    rw [run_cons, run_cons, ofCode_bind]
    simp only [ofCode_bind, ih]
    rfl

theorem ofCode_eq_ok {x : Outcome α} {a : α} : ofCode x = .ok a ↔ x = .ok a := by
  cases x <;> simp [ofCode, Except.mapError]

@[simp] theorem ofMemory_ok (a : α) : ofMemory (.ok a) = .ok a := rfl

theorem ofCode_matches {R : α → β → Prop} {x : Outcome α} {y : Outcome β} (h : Matches R x y) :
    Matches R (ofCode x) (ofCode y) := by
  cases h with
  | ok h => exact .ok h
  | error e => exact .error _

end MachineFault

open MachineFault

section Operations

-- `before` is what the memory of each filter held; a recursion may go down `depth` levels
variable (xxh64 : XXH64) (sort : StdSort) (before : ℕ → ℕ → UInt8) (depth : ℕ)

namespace ByteWorld

def ssts (w : ByteWorld) : List String := w.store.levels.flatMap Level.sstList

def writeMemtableToSst (w : ByteWorld) : Except MachineFault ByteWorld := do
  let store := w.store
  let (leafNodes, memtable) ← ofMemory (store.memtable.extract depth)
  if leafNodes.length = 0 then .ok w else
    let sstNum :=
      if store.levels.length > 0 ∧ (store.levels.getD 0 ⟨[]⟩).sstList.length > 0 then 1 else 0
    let filePath := sstPath store.dbPath sstNum
    let file ← ofCode (BTreeNode.constructBytes xxh64 (before w.log.length) leafNodes)
    let sstCount ← ofCode (Utils.increment store.sstCount)
    let memtable ← ofMemory (memtable.clear depth)
    let tree ← ofCode (Level.updateLevels (.bytes xxh64 before) store.dbPath filePath
      { levels := store.levels
        bufferPool := store.bufferPool
        disk := w.disk.set filePath file
        log := w.log ++ [.flush store.levels filePath] })
    .ok { store := { store with
            memtable := memtable
            currentMemtableEntries := 0
            sstCount := sstCount
            levels := tree.levels
            bufferPool := tree.bufferPool }
          disk := tree.disk
          log := tree.log }

def put (key value : Uint32) (w : ByteWorld) : Except MachineFault ByteWorld := do
  let memtable ← ofMemory (w.store.memtable.put depth key value)
  let w := { w with store := { w.store with
    memtable := memtable
    currentMemtableEntries := w.store.currentMemtableEntries + 1 } }
  if w.store.currentMemtableEntries ≥ w.store.memtableSize then
    w.writeMemtableToSst xxh64 before depth
  else .ok w

def deleteKey (key : Uint32) (w : ByteWorld) : Except MachineFault ByteWorld := do
  let memtable ← ofMemory (w.store.memtable.put depth key Utils.tombStone)
  .ok { w with store := { w.store with memtable := memtable } }

def close (w : ByteWorld) : Except MachineFault ByteWorld :=
  w.writeMemtableToSst xxh64 before depth

/-- A lookup in the bytes of an SST. -/
def searchValueByKey (key : Uint32) (sst : String) (file : List UInt8) :
    BufferPool (List UInt8) → Outcome (Uint32 × BufferPool (List UInt8)) :=
  BTreeNode.search (BTreeNode.byteSource xxh64 sst file) xxh64 key (fileOf file).numPages

def get (key : Uint32) (w : ByteWorld) : Except MachineFault (Uint32 × ByteWorld) := do
  let (value, memtable) ← ofMemory (w.store.memtable.get depth key)
  let w := { w with store := { w.store with memtable := memtable } }
  if value = Utils.tombStone then .ok (Utils.invalidValue, w)
  else if value ≠ Utils.invalidValue then .ok (value, w)
  else
    let (value, bufferPool) ← ofCode
      (World.findValueInSsts (searchValueByKey xxh64 key) w.disk w.ssts w.store.bufferPool)
    .ok (value, { w with store := { w.store with bufferPool := bufferPool } })

def scanSst (startKey endKey : Uint32) (sst : String) (file : List UInt8) :
    BufferPool (List UInt8) → Outcome (List Entry × BufferPool (List UInt8)) :=
  BTreeNode.scanFrom (BTreeNode.byteSource xxh64 sst file) startKey endKey (fileOf file).numPages

def scan (startKey endKey : Uint32) (w : ByteWorld) :
    Except MachineFault (List Entry × ByteWorld) := do
  let (result, memtable) ← ofMemory (w.store.memtable.scan depth startKey endKey)
  let w := { w with store := { w.store with memtable := memtable } }
  let (result, bufferPool) ←
    ofCode (World.scanSsts (scanSst xxh64 startKey endKey) w.disk w.ssts result w.store.bufferPool)
  .ok ((sort result).map World.hideTombstone,
    { w with store := { w.store with bufferPool := bufferPool } })

/-- A fresh store opened on what is left of the directory of `w`. -/
def reopened (w : ByteWorld) (config : Config) (directory : List String) :
    Except MachineFault ByteWorld := do
  let store ← ofCode ((ByteStore.new config).open w.store.dbPath (some directory))
  .ok { w with store := store }

def call : Op → ByteWorld → Except MachineFault (Reply × ByteWorld)
  | .put key value, w => (w.put xxh64 before depth key value).map fun w => (.done, w)
  | .deleteKey key, w => (w.deleteKey depth key).map fun w => (.done, w)
  | .get key, w => (w.get xxh64 depth key).map fun x => (.value x.1, x.2)
  | .scan startKey endKey, w =>
    (w.scan xxh64 sort depth startKey endKey).map fun x => (.pairs x.1, x.2)
  | .close, w => (w.close xxh64 before depth).map fun w => (.done, w)

def step : Incident → ByteWorld → Except MachineFault (Reply × ByteWorld)
  | .call (.op op), w => w.call xxh64 sort before depth op
  | .call (.reopen config order _), w => do
    let w ← w.close xxh64 before depth
    let w ← w.reopened config (order w.disk.keys)
    .ok (.done, w)
  | .lost config order _, w => do
    let w ← w.reopened config (order w.disk.keys)
    .ok (.done, w)

end ByteWorld

/-- A store opened on a directory that does not exist, and what happens to it. -/
def runByteIncidents (config : Config) (dbPath : String) (incidents : List Incident) :
    Except MachineFault (List Reply × ByteWorld) := do
  let store ← ofCode ((ByteStore.new config).open dbPath none)
  run (ByteWorld.step xxh64 sort before depth) incidents ⟨store, .empty, []⟩

end Operations

/-! ### The memtable -/

/-- The memory of the memtable holds this tree. -/
def Memtable.Stands (m : Memtable) (node : Node) : Prop := ∃ es t, m.Holds es t ∧ erase t = node

namespace Memtable.Stands

variable {m : Memtable} {node : Node} (spare : ℕ)

theorem empty : Memtable.empty.Stands .null := ⟨[], .nil, holds_empty, rfl⟩

theorem put (h : m.Stands node) (key value : Uint32) :
    ∃ m' node', m.put (46 + spare) key value = .ok m' ∧
      AVLTree.put node key value = .ok node' ∧ m'.Stands node' := by
  obtain ⟨es, t, hm, rfl⟩ := h
  obtain ⟨m', t', hput, htree, hm'⟩ := hm.put (Nat.lt_add_right spare hm.depth_lt) key value
  exact ⟨m', erase t', hput, htree, _, t', hm', rfl⟩

theorem get (h : m.Stands node) (key : Uint32) :
    m.get (46 + spare) key = .ok (AVLTree.get node key, m) := by
  obtain ⟨es, t, hm, rfl⟩ := h
  exact hm.get (Nat.lt_add_right spare hm.depth_lt) key

theorem scan (h : m.Stands node) (startKey endKey : Uint32) : m.scan (46 + spare) startKey endKey =
    .ok (KVStore.scanMemtable startKey endKey node [], m) := by
  obtain ⟨es, t, hm, rfl⟩ := h
  exact hm.scan (Nat.lt_add_right spare hm.depth_lt) startKey endKey

theorem extract (h : m.Stands node) :
    m.extract (46 + spare) = .ok (BTreeNode.extractLeafNodesFromAvl node [], m) := by
  obtain ⟨es, t, hm, rfl⟩ := h
  exact hm.extract (Nat.lt_add_right spare hm.depth_lt)

theorem clear (h : m.Stands node) : ∃ m', m.clear (46 + spare) = .ok m' ∧ m'.Stands .null := by
  obtain ⟨es, t, hm, rfl⟩ := h
  obtain ⟨m', hclear, hm'⟩ := hm.clear (Nat.lt_add_right spare hm.depth_lt)
  exact ⟨m', hclear, [], .nil, hm', rfl⟩

end Memtable.Stands

/-! ### The store -/

structure ByteStore.Stands (xxh64 : XXH64) (store : ByteStore) (store' : KVStore) : Prop where
  memtable : store.memtable.Stands store'.memtable
  memtableSize : store.memtableSize = store'.memtableSize
  entries : store.currentMemtableEntries = store'.currentMemtableEntries
  dbPath : store.dbPath = store'.dbPath
  sstCount : store.sstCount = store'.sstCount
  levels : store.levels = store'.levels
  bufferPool : Matching xxh64 store.bufferPool store'.bufferPool

/-- Both stores open alike. -/
theorem ByteStore.stands_open (xxh64 : XXH64) (config : Config) (dbPath : String)
    (directory : Option (List String)) : Matches (ByteStore.Stands xxh64)
      ((ByteStore.new config).open dbPath directory)
      ((KVStore.new config).open dbPath directory) := by
  refine (Matches.of_eq rfl).bind ?_
  rintro levels _ - - rfl
  exact .ok ⟨.empty, rfl, rfl, rfl, rfl, rfl, .new config.initialSize_le config.maxSize_lt⟩

/-- The same store and directory: the memory of the memtable holds its tree, and the bytes of
every cached page and of every file are those of the page and of the file. -/
structure ByteWorld.Stands (xxh64 : XXH64) (w : ByteWorld) (w' : World) : Prop where
  store : w.store.Stands xxh64 w'.store
  disk : Represented w.disk.find w'.disk.find
  log : w.log = w'.log

namespace ByteWorld.Stands

variable {xxh64 : XXH64} {sort : StdSort} {before : ℕ → ℕ → UInt8} {spare : ℕ}
  {w : ByteWorld} {w' : World}

theorem ssts (h : w.Stands xxh64 w') : w.ssts = w'.ssts := by
  rw [ByteWorld.ssts, World.ssts, h.store.levels]

theorem with_memtable (h : w.Stands xxh64 w') {m : Memtable} {node : Node} (hm : m.Stands node)
    {entries entries' : ℕ} (he : entries = entries') : Stands xxh64
      { w with store := { w.store with memtable := m, currentMemtableEntries := entries } }
      { w' with store := { w'.store with memtable := node, currentMemtableEntries := entries' } } :=
  ⟨{ h.store with memtable := hm, entries := he }, h.disk, h.log⟩

theorem with_pool (h : w.Stands xxh64 w') {pool : BufferPool (List UInt8)}
    {pool' : BufferPool PageData} (hp : Matching xxh64 pool pool') : Stands xxh64
      { w with store := { w.store with bufferPool := pool } }
      { w' with store := { w'.store with bufferPool := pool' } } :=
  ⟨{ h.store with bufferPool := hp }, h.disk, h.log⟩

theorem write (h : w.Stands xxh64 w') : Matches (Stands xxh64)
    (w.writeMemtableToSst xxh64 before (46 + spare)) (ofCode (w'.writeMemtableToSst xxh64)) := by
  obtain ⟨m, hclear, hm⟩ := h.store.memtable.clear spare
  rw [ByteWorld.writeMemtableToSst, World.writeMemtableToSst, h.store.memtable.extract spare]
  simp only [ofMemory_ok, ok_bind, BTreeNode.extractLeafNodesFromAvl_eq]
  by_cases hnil : ((chunks BTreeNode.maxKeys (AVLTree.entries w'.store.memtable)).map
      BTreeNode.leafOf).length = 0
  · rw [if_pos hnil, if_pos hnil]
    exact .ok h
  · rw [if_neg hnil, if_neg hnil]
    simp only [ofCode_bind, hclear, ofMemory_ok, ok_bind, h.store.levels, h.store.dbPath,
      h.store.sstCount, h.log]
    rw [List.length_eq_zero_iff] at hnil
    refine (ofCode_matches (BTreeNode.constructBytes_matches hnil
      fun _ => BTreeNode.chunk_fits)).bind fun bytes file _ hfile hr => ?_
    refine (Matches.of_eq rfl).bind ?_
    rintro sstCount _ - - rfl
    have hdisk := ByteTree.represented_set h.disk hr
      (BTreeNode.construct_filterFirst hnil (ofCode_eq_ok.mp hfile))
    refine (ofCode_matches (ByteTree.updateLevels_matches _
      ⟨rfl, h.store.bufferPool, hdisk _, rfl⟩)).bind fun tree tree' _ _ ht => ?_
    exact .ok ⟨⟨hm, h.store.memtableSize, rfl, rfl, rfl, ht.levels, ht.bufferPool⟩, ht.disk, ht.log⟩

theorem put (h : w.Stands xxh64 w') (key value : Uint32) : Matches (Stands xxh64)
    (w.put xxh64 before (46 + spare) key value) (ofCode (w'.put xxh64 key value)) := by
  obtain ⟨m, memtable, hput, htree, hm⟩ := h.store.memtable.put spare key value
  have hentries := congrArg (· + 1) h.store.entries
  have hfull : w.store.currentMemtableEntries + 1 ≥ w.store.memtableSize ↔
      w'.store.currentMemtableEntries + 1 ≥ w'.store.memtableSize := by
    rw [h.store.entries, h.store.memtableSize]
  rw [ByteWorld.put, World.put, hput, htree]
  simp only [ofMemory_ok, ok_bind]
  by_cases hge : w'.store.currentMemtableEntries + 1 ≥ w'.store.memtableSize
  · rw [if_pos (hfull.mpr hge), if_pos hge]
    exact (h.with_memtable hm hentries).write
  · rw [if_neg (mt hfull.mp hge), if_neg hge]
    exact .ok (h.with_memtable hm hentries)

theorem deleteKey (h : w.Stands xxh64 w') (key : Uint32) : Matches (Stands xxh64)
    (w.deleteKey (46 + spare) key) (ofCode (w'.deleteKey key)) := by
  obtain ⟨m, memtable, hput, htree, hm⟩ := h.store.memtable.put spare key Utils.tombStone
  rw [ByteWorld.deleteKey, World.deleteKey, hput, htree]
  exact .ok ⟨{ h.store with memtable := hm }, h.disk, h.log⟩

section Ssts

variable {bytes : List UInt8} {file : File} {disk : ByteDisk} {disk' : Disk}
  {pool : BufferPool (List UInt8)} {pool' : BufferPool PageData}

theorem searchValueByKey (hr : Represents bytes file) (hf : file.FilterFirst) (key : Uint32)
    (sst : String) (hp : Matching xxh64 pool pool') :
    Matches (fun x y => x.1 = y.1 ∧ Matching xxh64 x.2 y.2)
      (ByteWorld.searchValueByKey xxh64 key sst bytes pool)
      (BTreeNode.searchValueByKey xxh64 key sst file pool') := by
  have hsearch := (BTreeNode.byteSource_nodesMatch xxh64 sst hr hf).search
    (BTreeNode.byteSource_filtersMatch xxh64 sst hr hf) xxh64 key (fileOf bytes).numPages hp
  rw [ByteWorld.searchValueByKey]
  rwa [(hr.agrees hf).numPages] at hsearch ⊢

theorem scanSst (hr : Represents bytes file) (hf : file.FilterFirst) (startKey endKey : Uint32)
    (sst : String) (hp : Matching xxh64 pool pool') :
    Matches (fun x y => x.1 = y.1 ∧ Matching xxh64 x.2 y.2)
      (ByteWorld.scanSst xxh64 startKey endKey sst bytes pool)
      (BTreeNode.scan xxh64 startKey endKey sst file pool') := by
  have hscan := (BTreeNode.byteSource_nodesMatch xxh64 sst hr hf).scanFrom startKey endKey
    (fileOf bytes).numPages hp
  rw [ByteWorld.scanSst]
  rwa [(hr.agrees hf).numPages] at hscan ⊢

theorem findValueInSsts (h : Represented disk.find disk'.find) (key : Uint32)
    (ssts : List String) (hp : Matching xxh64 pool pool') :
    Matches (fun x y => x.1 = y.1 ∧ Matching xxh64 x.2 y.2)
      (World.findValueInSsts (ByteWorld.searchValueByKey xxh64 key) disk ssts pool)
      (World.findValueInSsts (BTreeNode.searchValueByKey xxh64 key) disk' ssts pool') := by
  induction ssts generalizing pool pool' with
  | nil => exact .ok ⟨rfl, hp⟩
  | cons sst ssts ih =>
    rw [World.findValueInSsts, World.findValueInSsts, ByteTree.read_eq_load, ByteTree.read_eq_load]
    refine (h.load sst).bind fun bytes file _ _ hb => ?_
    refine (searchValueByKey hb.1 hb.2 key sst hp).bind ?_
    rintro ⟨value, pool₁⟩ ⟨value', pool₁'⟩ - - ⟨hvalue : value = value', hp₁⟩
    subst hvalue
    simp only
    split_ifs
    · exact .ok ⟨rfl, hp₁⟩
    · exact .ok ⟨rfl, hp₁⟩
    · exact ih hp₁

theorem scanSsts (h : Represented disk.find disk'.find) (startKey endKey : Uint32)
    (ssts : List String) (result : List Entry) (hp : Matching xxh64 pool pool') :
    Matches (fun x y => x.1 = y.1 ∧ Matching xxh64 x.2 y.2)
      (World.scanSsts (ByteWorld.scanSst xxh64 startKey endKey) disk ssts result pool)
      (World.scanSsts (BTreeNode.scan xxh64 startKey endKey) disk' ssts result pool') := by
  induction ssts generalizing result pool pool' with
  | nil => exact .ok ⟨rfl, hp⟩
  | cons sst ssts ih =>
    rw [World.scanSsts, World.scanSsts, ByteTree.read_eq_load, ByteTree.read_eq_load]
    refine (h.load sst).bind fun bytes file _ _ hb => ?_
    refine (scanSst hb.1 hb.2 startKey endKey sst hp).bind ?_
    rintro ⟨found, pool₁⟩ ⟨found', pool₁'⟩ - - ⟨hfound : found = found', hp₁⟩
    subst hfound
    exact ih _ hp₁

end Ssts

theorem get (h : w.Stands xxh64 w') (key : Uint32) :
    Matches (fun x y => x.1 = y.1 ∧ x.2.Stands xxh64 y.2) (w.get xxh64 (46 + spare) key)
      (ofCode (w'.get xxh64 key)) := by
  rw [ByteWorld.get, World.get, h.store.memtable.get spare key]
  simp only [ofMemory_ok, ok_bind]
  split_ifs
  · exact .ok ⟨rfl, h⟩
  · exact .ok ⟨rfl, h⟩
  · rw [ofCode_bind, ← h.ssts]
    refine (ofCode_matches (findValueInSsts h.disk key w.ssts h.store.bufferPool)).bind ?_
    rintro ⟨value, pool⟩ ⟨value', pool'⟩ - - ⟨hvalue : value = value', hp⟩
    exact .ok ⟨hvalue, h.with_pool hp⟩

theorem scan (h : w.Stands xxh64 w') (startKey endKey : Uint32) :
    Matches (fun x y => x.1 = y.1 ∧ x.2.Stands xxh64 y.2)
      (w.scan xxh64 sort (46 + spare) startKey endKey)
      (ofCode (w'.scan xxh64 sort startKey endKey)) := by
  rw [ByteWorld.scan, World.scan, h.store.memtable.scan spare startKey endKey]
  simp only [ofMemory_ok, ok_bind]
  rw [ofCode_bind, ← h.ssts]
  refine (ofCode_matches (scanSsts h.disk startKey endKey w.ssts
    (KVStore.scanMemtable startKey endKey w'.store.memtable []) h.store.bufferPool)).bind ?_
  rintro ⟨found, pool⟩ ⟨found', pool'⟩ - - ⟨hfound : found = found', hp⟩
  subst hfound
  exact .ok ⟨rfl, h.with_pool hp⟩

theorem reopened (h : w.Stands xxh64 w') (config : Config) (directory : List String) :
    Matches (Stands xxh64) (w.reopened config directory)
      (ofCode (w'.reopened config directory)) := by
  rw [ByteWorld.reopened, World.reopened, ofCode_bind, h.store.dbPath]
  refine (ofCode_matches (ByteStore.stands_open xxh64 config _ _)).bind fun _ _ _ _ hs => ?_
  exact .ok ⟨hs, h.disk, h.log⟩

theorem call (h : w.Stands xxh64 w') (op : Op) :
    Matches (fun x y => x.1 = y.1 ∧ x.2.Stands xxh64 y.2) (w.call xxh64 sort before (46 + spare) op)
      (ofCode (World.step xxh64 sort op w')) := by
  cases op with
  | put key value =>
    rw [ByteWorld.call, World.step, ofCode_map]
    exact (h.put key value).map fun _ _ hw => ⟨rfl, hw⟩
  | deleteKey key =>
    rw [ByteWorld.call, World.step, ofCode_map]
    exact (h.deleteKey key).map fun _ _ hw => ⟨rfl, hw⟩
  | get key =>
    rw [ByteWorld.call, World.step, ofCode_map]
    exact (h.get key).map fun _ _ hw => ⟨congrArg Reply.value hw.1, hw.2⟩
  | scan startKey endKey =>
    rw [ByteWorld.call, World.step, ofCode_map]
    exact (h.scan startKey endKey).map fun _ _ hw => ⟨congrArg Reply.pairs hw.1, hw.2⟩
  | close =>
    rw [ByteWorld.call, World.step, ofCode_map]
    exact h.write.map fun _ _ hw => ⟨rfl, hw⟩

theorem step (h : w.Stands xxh64 w') (incident : Incident) :
    Matches (fun x y => x.1 = y.1 ∧ x.2.Stands xxh64 y.2)
      (ByteWorld.step xxh64 sort before (46 + spare) incident w)
      (ofCode (Incident.step xxh64 sort incident w')) := by
  cases incident with
  | call c =>
    cases c with
    | op op => exact h.call op
    | reopen config order perm =>
      rw [ByteWorld.step, Incident.step, Call.step, ofCode_bind]
      refine h.write.bind fun w₁ w₁' _ _ h₁ => ?_
      rw [ofCode_bind, ByteTree.represented_keys h₁.disk]
      exact (h₁.reopened config _).bind fun _ _ _ _ h₂ => .ok ⟨rfl, h₂⟩
  | lost config order perm =>
    rw [ByteWorld.step, Incident.step, ofCode_bind, ByteTree.represented_keys h.disk]
    exact (h.reopened config _).bind fun _ _ _ _ h₂ => .ok ⟨rfl, h₂⟩

end ByteWorld.Stands

/-- Whatever happens to a store, its replies and its failures are those of the store over
trees and pages, and so no pointer is misused. Whatever the memory of the filters held, what
lies in memory and on disk afterwards stands for that store and its directory. -/
theorem runByteIncidents_matches (xxh64 : XXH64) (sort : StdSort) (before : ℕ → ℕ → UInt8)
    (spare : ℕ) (config : Config) (dbPath : String) (incidents : List Incident) :
    Matches (fun x y => x.1 = y.1 ∧ x.2.Stands xxh64 y.2)
      (runByteIncidents xxh64 sort before (46 + spare) config dbPath incidents)
      (ofCode (runIncidents xxh64 sort config dbPath incidents)) := by
  rw [runByteIncidents, runIncidents, ofCode_bind]
  refine (ofCode_matches (ByteStore.stands_open xxh64 config dbPath none)).bind
    fun store store' _ _ hs => ?_
  rw [ofCode_run]
  exact run_matches (R := ByteWorld.Stands xxh64) (fun incident _ _ h => h.step incident) incidents
    ⟨hs, ByteTree.represented_empty, rfl⟩

end MiniKvs
