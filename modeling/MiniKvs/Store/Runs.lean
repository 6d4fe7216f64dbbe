import MiniKvs.Store.Rest

/-! Runs of a store on a directory of its own. Every operation leaves the tree at
rest, so in every state reached the levels count the flushes in binary and the
buffer pool is a cache of the files. -/

namespace MiniKvs

open Lib Level

variable {xxh64 : XXH64} {sort : StdSort} {dbPath : String} {slots : List (Option Sst)}
  {w w' : World}

namespace AtRest

theorem stores (h : AtRest xxh64 dbPath slots w) :
    Stores xxh64 dbPath (listed 0 slots) w.disk w.store.bufferPool w.log := h.settled.stores

theorem levels (h : AtRest xxh64 dbPath slots w) :
    w.store.levels = levelsOf dbPath 0 (slots.map Option.isSome) := h.settled.levels

theorem with_memtable (h : AtRest xxh64 dbPath slots w) (memtable : Node) (entries : ℕ) :
    AtRest xxh64 dbPath slots { w with store := { w.store with
      memtable := memtable, currentMemtableEntries := entries } } :=
  ⟨h.path, h.settled, h.bits, h.log⟩

theorem with_pool (h : AtRest xxh64 dbPath slots w) {pool : BufferPool PageData}
    (hs : Stores xxh64 dbPath (listed 0 slots) w.disk pool w.log) :
    AtRest xxh64 dbPath slots { w with store := { w.store with bufferPool := pool } } :=
  ⟨h.path, ⟨h.settled.levels, hs, h.settled.age, h.settled.doubling, h.settled.proper⟩, h.bits,
    h.log⟩

theorem start (config : Config) (dbPath : String) : AtRest xxh64 dbPath []
    ⟨{ KVStore.new config with dbPath := dbPath }, .empty, []⟩ where
  path := rfl
  settled :=
    { levels := rfl
      stores :=
        { nodup := List.nodup_nil
          stored := by simp [listed]
          only := fun path file hf => by cases hf
          coherent := .new config.initialSize_le config.maxSize_lt }
      age := rfl
      doubling := trivial
      proper := fun before e after h => by simp at h }
  bits := rfl
  log := rfl

theorem close (h : AtRest xxh64 dbPath slots w) (hw : w.writeMemtableToSst xxh64 = .ok w') :
    ∃ slots', AtRest xxh64 dbPath slots' w' := by
  by_cases hne : AVLTree.entries w.store.memtable = []
  · rw [write_nil hne] at hw
    cases hw
    exact ⟨slots, h⟩
  · obtain ⟨slots', tree, -, -, h', -⟩ := h.write hne hw
    exact ⟨slots', h'⟩

theorem put (h : AtRest xxh64 dbPath slots w) {key value : Uint32}
    (hw : w.put xxh64 key value = .ok w') : ∃ slots', AtRest xxh64 dbPath slots' w' := by
  obtain ⟨memtable, -, hw⟩ := bind_eq_ok.mp hw
  simp only at hw
  split_ifs at hw
  · exact (h.with_memtable memtable _).close hw
  · cases hw
    exact ⟨slots, h.with_memtable memtable _⟩

theorem deleteKey (h : AtRest xxh64 dbPath slots w) {key : Uint32}
    (hw : w.deleteKey key = .ok w') : AtRest xxh64 dbPath slots w' := by
  obtain ⟨memtable, -, hw⟩ := bind_eq_ok.mp hw
  cases hw
  exact h.with_memtable memtable _

end AtRest

/-! ### Reads through the pool -/

/-- `get`, with every page read from its file. -/
def World.getDirect (xxh64 : XXH64) (key : Uint32) (w : World) : Outcome Uint32 :=
  let value := AVLTree.get w.store.memtable key
  if value = Utils.tombStone then .ok Utils.invalidValue
  else if value ≠ Utils.invalidValue then .ok value
  else findValueInFiles xxh64 w.disk key w.ssts

/-- `scan`, with every page read from its file. -/
def World.scanDirect (sort : StdSort) (startKey endKey : Uint32) (w : World) :
    Outcome (List Entry) := do
  let result := KVStore.scanMemtable startKey endKey w.store.memtable []
  let result ← scanFiles w.disk startKey endKey w.ssts result
  .ok ((sort result).map hideTombstone)

namespace AtRest

theorem get (h : AtRest xxh64 dbPath slots w) {key value : Uint32}
    (hw : w.get xxh64 key = .ok (value, w')) :
    w.getDirect xxh64 key = .ok value ∧ AtRest xxh64 dbPath slots w' := by
  simp only [World.get] at hw
  simp only [World.getDirect]
  split_ifs at hw ⊢ with h1 h2
  · cases hw; exact ⟨rfl, h⟩
  · cases hw; exact ⟨rfl, h⟩
  · obtain ⟨⟨v, pool⟩, hf, hw⟩ := bind_eq_ok.mp hw
    cases hw
    obtain ⟨hd, hs⟩ := h.stores.findValueInSsts hf
    exact ⟨hd, h.with_pool hs⟩

theorem scan (h : AtRest xxh64 dbPath slots w) {startKey endKey : Uint32} {result : List Entry}
    (hw : w.scan xxh64 sort startKey endKey = .ok (result, w')) :
    w.scanDirect sort startKey endKey = .ok result ∧ AtRest xxh64 dbPath slots w' := by
  obtain ⟨⟨found, pool⟩, hf, hw⟩ := bind_eq_ok.mp hw
  cases hw
  obtain ⟨hd, hs⟩ := h.stores.scanSsts hf
  exact ⟨by simp only [World.scanDirect, hd, ok_bind], h.with_pool hs⟩

/-- Every call leaves the tree at rest. -/
theorem step (h : AtRest xxh64 dbPath slots w) {op : Op} {r : Reply}
    (hw : World.step xxh64 sort op w = .ok (r, w')) : ∃ slots', AtRest xxh64 dbPath slots' w' := by
  cases op with
  | put key value =>
    obtain ⟨w₁, h₁, he⟩ := map_eq_ok.mp hw
    cases he
    exact h.put h₁
  | deleteKey key =>
    obtain ⟨w₁, h₁, he⟩ := map_eq_ok.mp hw
    cases he
    exact ⟨slots, h.deleteKey h₁⟩
  | get key =>
    obtain ⟨x, h₁, he⟩ := map_eq_ok.mp hw
    cases he
    exact ⟨slots, (h.get h₁).2⟩
  | scan startKey endKey =>
    obtain ⟨x, h₁, he⟩ := map_eq_ok.mp hw
    cases he
    exact ⟨slots, (h.scan h₁).2⟩
  | close =>
    obtain ⟨w₁, h₁, he⟩ := map_eq_ok.mp hw
    cases he
    exact h.close h₁

theorem run {ops : List Op} {rs : List Reply} (h : AtRest xxh64 dbPath slots w)
    (hw : Lib.run (World.step xxh64 sort) ops w = .ok (rs, w')) :
    ∃ slots', AtRest xxh64 dbPath slots' w' :=
  run_invariant (World.step xxh64 sort) (I := fun w => ∃ slots, AtRest xxh64 dbPath slots w)
    (fun _ _ _ _ ⟨_, hs⟩ hw => hs.step hw) ⟨slots, h⟩ hw

end AtRest

/-- The tree is at rest in every state that a run reaches. -/
theorem runStore_atRest {config : Config} {ops : List Op} {rs : List Reply}
    (h : runStore xxh64 sort config dbPath ops = .ok (rs, w)) :
    ∃ slots, AtRest xxh64 dbPath slots w :=
  (AtRest.start config dbPath).run h

/-! ### The levels are a binary counter -/

/-- The levels, the files and the log after `flushes w.log` flushes. -/
structure IsCounter (dbPath : String) (w : World) : Prop where
  length : w.store.levels.length = (flushes w.log).size
  level : ∀ i, w.store.levels.getD i ⟨[]⟩ =
    ⟨if (flushes w.log).testBit i then [sstPath dbPath (2 * i)] else []⟩
  files : ∀ path, path ∈ w.disk.keys ↔ path ∈ w.ssts
  ages : ∀ i, (flushes w.log).testBit i = true →
    ∃ first, origin w.log (sstPath dbPath (2 * i)) = List.range' first (2 ^ i) ∧
      ∀ j, i < j → (flushes w.log).testBit j = true →
        ∀ b ∈ origin w.log (sstPath dbPath (2 * j)), b < first
  proper : AllProper w.log

theorem getD_levelsOf (c : ℕ) (bits : List Bool) (i : ℕ) : (levelsOf dbPath c bits).getD i ⟨[]⟩ =
    ⟨if bits.getI i then [sstPath dbPath (2 * (c + i))] else []⟩ := by
  induction bits generalizing c i with
  | nil => rfl
  | cons b bits ih =>
    cases i with
    | zero => rfl
    | succ i =>
      rw [levelsOf, List.getD_cons_succ, ih, List.getI_cons_succ, Nat.add_right_comm]
      rfl

namespace AtRest

theorem isSome_iff {i : ℕ} :
    (slots.map Option.isSome).getI i = true ↔ ∃ x, slots[i]? = some (some x) := by
  rcases Nat.lt_or_ge i slots.length with hlt | hge
  · rw [List.getI_eq_getElem _ (by simpa using hlt), List.getElem_map, Option.isSome_iff_exists,
      List.getElem?_eq_getElem hlt]
    simp only [Option.some.injEq]
  · rw [List.getI_eq_default _ (by simpa using hge), List.getElem?_eq_none hge]
    simp

theorem testBit_iff (h : AtRest xxh64 dbPath slots w) {i : ℕ} :
    (flushes w.log).testBit i = true ↔ ∃ x, slots[i]? = some (some x) := by
  rw [Nat.testBit_eq_inth, ← h.bits, isSome_iff]

theorem origin_slot (h : AtRest xxh64 dbPath slots w) {i : ℕ} {x : Sst}
    (hi : slots[i]? = some (some x)) : origin w.log (sstPath dbPath (2 * i)) = x.flushes :=
  (h.stores.stored (2 * i, x) (mem_listed.mpr ⟨i, hi, by rw [Nat.zero_add]⟩)).origin

theorem mem_ssts (h : AtRest xxh64 dbPath slots w) {path : String} :
    path ∈ w.ssts ↔ ∃ x ∈ listed 0 slots, path = sstPath dbPath x.1 := by
  rw [World.ssts, h.levels, mem_levelsOf]

theorem isCounter (h : AtRest xxh64 dbPath slots w) : IsCounter dbPath w where
  length := by rw [h.levels, length_levelsOf, h.bits, Nat.size_eq_bits_len]
  level i := by rw [h.levels, getD_levelsOf, h.bits, Nat.testBit_eq_inth, Nat.zero_add]
  files path := by
    rw [OrdMap.mem_keys, h.mem_ssts, Option.isSome_iff_exists]
    constructor
    · rintro ⟨file, hf⟩
      exact h.stores.only path file hf
    · rintro ⟨x, hx, rfl⟩
      obtain ⟨file, hf, -⟩ := (h.stores.stored x hx).file
      exact ⟨file, hf⟩
  ages i hi := by
    obtain ⟨x, hx⟩ := h.testBit_iff.mp hi
    have hruns : (runsOf slots)[i]? = some (some x.flushes) := by
      rw [List.getElem?_map, hx]; rfl
    have hage : oldestFirst (runsOf slots) = List.range (flushes w.log) := h.settled.age
    obtain ⟨first, hfirst, hdeep⟩ := consecutive_of_oldestFirst hage hruns
    have hlen := h.settled.doubling.length hruns
    rw [pow_zero, Nat.one_mul] at hlen
    rw [hlen] at hfirst
    refine ⟨first, by rw [h.origin_slot hx, hfirst], fun j hij hj b hb => ?_⟩
    obtain ⟨y, hy⟩ := h.testBit_iff.mp hj
    rw [h.origin_slot hy] at hb
    exact hdeep j y.flushes hij (by rw [List.getElem?_map, hy]; rfl) b hb
  proper := h.settled.proper

end AtRest

/-- After any run the levels count the flushes in binary, older SSTs lie deeper,
and all flushes and compactions on the way were proper. -/
theorem runStore_isCounter (xxh64 : XXH64) (sort : StdSort) (config : Config) (dbPath : String)
    (ops : List Op) {rs : List Reply} (h : runStore xxh64 sort config dbPath ops = .ok (rs, w)) :
    IsCounter dbPath w := by
  obtain ⟨slots, hs⟩ := runStore_atRest h
  exact hs.isCounter

/-- Every put fills the memtable, and the pool keeps two pages at most. -/
def smallConfig : Config where
  memtableSize := 1
  initialSize := 1
  maxSize := 2
  memtableSize_pos := le_rfl
  initialSize_pos := le_rfl
  initialSize_le := by norm_num
  maxSize_lt := by norm_num

def constHash : XXH64 := ⟨fun _ => 0, fun _ _ => 0⟩

/-- Three flushes, the second one with a compaction. -/
theorem runStore_isCounter_three : ∃ w, IsCounter "/a" w ∧ flushes w.log = 3 := by
  have hrun := eq_ok_okOr ([], ⟨.new smallConfig, .empty, []⟩)
    (x := runStore constHash .insertion smallConfig "/a" [.put 5 7, .put 6 8, .get 5, .put 5 9])
    (by decide)
  exact ⟨_, runStore_isCounter constHash .insertion smallConfig "/a" _ hrun, by decide⟩

/-! ### The pool is a cache of the files -/

/-- The pages held are pages of listed SSTs as the files hold them, each once, and a
read through the pool, if it returns, returns what the files say. -/
structure IsCache (xxh64 : XXH64) (sort : StdSort) (w : World) : Prop where
  page : ∀ p ∈ w.store.bufferPool.hashtable.stored, ∃ path ∈ w.ssts, ∃ file offset,
    p.pageId = Page.generatePageId path offset ∧ w.disk.find path = some file ∧
      offset < file.numPages ∧ file.page offset = some p.data
  nodup : (w.store.bufferPool.hashtable.stored.map Page.pageId).Nodup
  get : ∀ key value w', w.get xxh64 key = .ok (value, w') → w.getDirect xxh64 key = .ok value
  scan : ∀ startKey endKey result w', w.scan xxh64 sort startKey endKey = .ok (result, w') →
    w.scanDirect sort startKey endKey = .ok result

theorem AtRest.isCache (h : AtRest xxh64 dbPath slots w) : IsCache xxh64 sort w where
  page p hp := by
    obtain ⟨ps, hholds, hcurrent⟩ := h.stores.coherent
    obtain ⟨path, file, offset, hf, hid, hpage⟩ :=
      hcurrent p (hholds.table.stored.mem_iff.mp hp)
    obtain ⟨leaves, hl⟩ := h.stores.layout hf
    exact ⟨path, h.mem_ssts.mpr (h.stores.only path file hf), file, offset, hid, hf,
      hl.lt_numPages hpage, hpage⟩
  nodup := by
    obtain ⟨ps, hholds, -⟩ := h.stores.coherent
    exact (hholds.table.stored.map Page.pageId).nodup_iff.mpr hholds.table.ids
  get key value w' hw := (h.get hw).1
  scan startKey endKey result w' hw := (h.scan hw).1

end MiniKvs
