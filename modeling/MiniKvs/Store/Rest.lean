import MiniKvs.Store.Contents

/-! The LSM tree at rest, between operations. Its levels are the ones of the
number of flushes in binary; the SSTs hold, from the deepest level up, all flushes
in order, and twice as many from level to level. -/

namespace MiniKvs

open Lib Level

/-- The SSTs of the levels from `c` on, with their numbers. -/
def listed : ℕ → List (Option Sst) → List (ℕ × Sst)
  | _, [] => []
  | c, s :: slots => (s.toList.map fun x => (2 * c, x)) ++ listed (c + 1) slots

abbrev runsOf (slots : List (Option Sst)) : List (Option (List ℕ)) :=
  slots.map (Option.map Sst.flushes)

/-- The call writes to a path that is not listed; a compaction has two SSTs, of
which the first is older, and takes a level for the last only if no deeper one has
an SST. -/
def Proper (before : List Event) : Event → Prop
  | .flush levels path => path ∉ levels.flatMap sstList
  | .compact levels currentLevel path isLastLevel =>
    path ∉ levels.flatMap sstList ∧
    (∃ old new, levels.getD currentLevel ⟨[]⟩ = ⟨[old, new]⟩ ∧ origin before old ≠ [] ∧
      origin before new ≠ [] ∧ ∀ a ∈ origin before old, ∀ b ∈ origin before new, a < b) ∧
    (isLastLevel = true → ∀ i, currentLevel < i → (levels.getD i ⟨[]⟩).sstList = [])

def AllProper (log : List Event) : Prop :=
  ∀ before e after, log = before ++ e :: after → Proper before e

theorem AllProper.concat {log : List Event} {e : Event} (h : AllProper log) (he : Proper log e) :
    AllProper (log ++ [e]) := by
  intro before e' after heq
  rcases List.eq_nil_or_concat' after with rfl | ⟨after, e'', rfl⟩
  · obtain ⟨rfl, h'⟩ := List.append_inj' heq rfl
    cases h'
    exact he
  · rw [← List.cons_append, ← List.append_assoc] at heq
    exact h before e' after (List.append_inj' heq rfl).1

/-! ### Numbers and paths -/

variable {dbPath : String} {slots slots' : List (Option Sst)} {c : ℕ}

theorem le_of_mem_listed {x : ℕ × Sst} (h : x ∈ listed c slots) : 2 * c ≤ x.1 := by
  induction slots generalizing c with
  | nil => cases h
  | cons s slots ih =>
    rw [listed, List.mem_append] at h
    rcases h with h | h
    · obtain ⟨y, -, rfl⟩ := List.mem_map.mp h
      exact le_rfl
    · have := ih h
      omega

theorem mem_listed {x : ℕ × Sst} :
    x ∈ listed c slots ↔ ∃ i, slots[i]? = some (some x.2) ∧ x.1 = 2 * (c + i) := by
  induction slots generalizing c with
  | nil => simp [listed]
  | cons s slots ih =>
    rw [listed, List.mem_append, ih, List.mem_map]
    constructor
    · rintro (⟨y, hy, rfl⟩ | ⟨i, hi, hx⟩)
      · exact ⟨0, by simpa using hy, rfl⟩
      · exact ⟨i + 1, hi, by omega⟩
    · rintro ⟨i, hi, hx⟩
      cases i with
      | zero => exact .inl ⟨x.2, by simpa using hi, Prod.ext hx.symm rfl⟩
      | succ i => exact .inr ⟨i, hi, by omega⟩

/-- The number that a compaction writes to is free. -/
theorem out_notMem_listed :
    2 * c + (slots.headD none).isSome.toNat ∉ (listed c slots).map Prod.fst := by
  cases slots with
  | nil => exact List.not_mem_nil
  | cons s slots =>
    intro h
    obtain ⟨x, hx, he⟩ := List.mem_map.mp h
    rw [listed, List.mem_append] at hx
    rcases hx with hx | hx
    · cases s with
      | none => cases hx
      | some y =>
        simp only [Option.toList_some, List.map_cons, List.map_nil, List.mem_singleton] at hx
        rw [hx, List.headD_cons, Option.isSome_some, Bool.toNat_true] at he
        simp only at he
        omega
    · have h1 := le_of_mem_listed hx
      rw [he] at h1
      have h2 := Bool.toNat_le (List.headD (s :: slots) none).isSome
      omega

theorem out_notMem_compacted {x y : Sst} : 2 * (c + 1) + (slots.headD none).isSome.toNat ∉
    ((2 * c + 1, x) :: (2 * c, y) :: listed (c + 1) slots).map Prod.fst := by
  simp only [List.map_cons, List.mem_cons, not_or]
  exact ⟨by omega, by omega, out_notMem_listed⟩

theorem mem_levelsOf {path : String} :
    path ∈ (levelsOf dbPath c (slots.map Option.isSome)).flatMap sstList ↔
      ∃ x ∈ listed c slots, path = sstPath dbPath x.1 := by
  induction slots generalizing c with
  | nil => simp [levelsOf, listed]
  | cons s slots ih =>
    rw [List.map_cons, levelsOf, List.flatMap_cons, List.mem_append, ih, listed]
    cases s with
    | none => simp
    | some y => simp [or_and_right, exists_or]

theorem headD_isSome (slots : List (Option Sst)) :
    (slots.map Option.isSome).headD false = (slots.headD none).isSome := by cases slots <;> rfl

/-! ### A new SST settles -/

/-- An SST with contents `x` has come to level `c`; the slots are the levels from there on. -/
structure Arrived (xxh64 : XXH64) (dbPath : String) (c : ℕ) (slots : List (Option Sst)) (x : Sst)
    (tree : Tree) : Prop where
  levels : tree.levels =
    stage dbPath c (slots.headD none).isSome (slots.tail.map Option.isSome)
  stores : Stores xxh64 dbPath ((2 * c + (slots.headD none).isSome.toNat, x) :: listed c slots)
    tree.disk tree.bufferPool tree.log
  age : oldestFirst (runsOf slots) ++ x.flushes = List.range (flushes tree.log)
  doubling : Doubling (2 ^ c) (runsOf slots)
  length : x.flushes.length = 2 ^ c
  proper : AllProper tree.log

/-- The levels from `c` on are at rest, those above are empty. -/
structure Settled (xxh64 : XXH64) (dbPath : String) (c : ℕ) (slots : List (Option Sst))
    (tree : Tree) : Prop where
  levels : tree.levels =
    levelsOf dbPath 0 (List.replicate c false ++ slots.map Option.isSome)
  stores : Stores xxh64 dbPath (listed c slots) tree.disk tree.bufferPool tree.log
  age : oldestFirst (runsOf slots) = List.range (flushes tree.log)
  doubling : Doubling (2 ^ c) (runsOf slots)
  proper : AllProper tree.log

variable {xxh64 : XXH64} {x y : Sst} {tree tree' : Tree}

theorem Settled.cons (h : Settled xxh64 dbPath (c + 1) slots tree) :
    Settled xxh64 dbPath c (none :: slots) tree where
  levels := by rw [h.levels, List.replicate_succ', List.append_assoc]; rfl
  stores := h.stores
  age := by
    have := h.age
    simpa [oldestFirst] using this
  doubling := by
    have := h.doubling
    rw [pow_succ'] at this
    exact ⟨fun r hr => (by cases hr), this⟩
  proper := h.proper

theorem Arrived.settled_nil (h : Arrived xxh64 dbPath c [] x tree) :
    Settled xxh64 dbPath c [some x] tree where
  levels := by rw [h.levels]; exact stage_false dbPath c []
  stores := h.stores
  age := h.age
  doubling := ⟨fun r hr => by cases hr; exact h.length, trivial⟩
  proper := h.proper

theorem Arrived.settled_free (h : Arrived xxh64 dbPath c (none :: slots) x tree) :
    Settled xxh64 dbPath c (some x :: slots) tree where
  levels := by rw [h.levels]; exact stage_false dbPath c _
  stores := h.stores
  age := by
    have := h.age
    simpa [oldestFirst] using this
  doubling := ⟨fun r hr => by cases hr; exact h.length, h.doubling.2⟩
  proper := h.proper

theorem getD_compacting (c : ℕ) (bits : List Bool) : (compacting dbPath c bits).getD c ⟨[]⟩ =
    ⟨[sstPath dbPath (2 * c), sstPath dbPath (2 * c + 1)]⟩ := by
  rw [compacting, List.getD_eq_getElem?_getD,
    List.getElem?_append_right (by rw [List.length_replicate]), List.length_replicate, Nat.sub_self]
  rfl

theorem ssts_compacting (c : ℕ) (bits : List Bool) : (compacting dbPath c bits).flatMap sstList =
    sstPath dbPath (2 * c) :: sstPath dbPath (2 * c + 1) ::
      (levelsOf dbPath (c + 1) bits).flatMap sstList := by
  have hempty : (List.replicate c (⟨[]⟩ : Level)).flatMap sstList = [] := by
    rw [List.flatMap_replicate]; simp
  rw [compacting, List.flatMap_append, hempty, List.nil_append, List.flatMap_cons]
  cases bits <;> rfl

/-- A compaction does what it should with the levels that it sees. -/
theorem Arrived.proper_compact (h : Arrived xxh64 dbPath c (some y :: slots) x tree) :
    Proper tree.log (compactEvent dbPath c (slots.map Option.isSome)) := by
  have hs := h.stores
  have hy := (hs.stored (2 * c, y) (by simp [listed])).origin
  have hx := (hs.stored (2 * c + 1, x) List.mem_cons_self).origin
  simp only at hx hy
  have hlen := h.doubling.1 y.flushes rfl
  have hage := h.age
  refine ⟨?_, ⟨_, _, getD_compacting c _, ?_, ?_, ?_⟩, fun hlast i hi => ?_⟩
  · rw [ssts_compacting, compactPath, headD_isSome, List.mem_cons, List.mem_cons, mem_levelsOf,
      sstPath_inj, sstPath_inj]
    have hout := @out_notMem_listed slots (c + 1)
    rintro (he | he | ⟨z, hz, he⟩)
    · omega
    · omega
    · exact hout (sstPath_inj.mp he ▸ List.mem_map_of_mem hz)
  · rw [hy]
    exact List.ne_nil_of_length_pos (by rw [hlen]; positivity)
  · rw [hx]
    exact List.ne_nil_of_length_pos (by rw [h.length]; positivity)
  · have hsorted := List.pairwise_lt_range (n := flushes tree.log)
    have hruns : oldestFirst (runsOf (some y :: slots)) =
        oldestFirst (runsOf slots) ++ y.flushes := rfl
    rw [← hage, hruns, List.append_assoc] at hsorted
    rw [hx, hy]
    exact (List.pairwise_append.mp (List.pairwise_append.mp hsorted).2.1).2.2
  · have hnil : slots = [] := by simpa using hlast
    subst hnil
    rw [compacting, List.getD_eq_getElem?_getD,
      List.getElem?_append_right (by rw [List.length_replicate]; omega), List.length_replicate]
    obtain ⟨d, hd⟩ : ∃ d, i - c = d + 1 := ⟨i - c - 1, by omega⟩
    rw [hd, List.getElem?_cons_succ]
    cases d with
    | zero => rfl
    | succ d => rfl

/-- The two SSTs become one that has arrived a level deeper. -/
theorem Arrived.compacted {pool' : BufferPool PageData} {disk' : Disk}
    (h : Arrived xxh64 dbPath c (some y :: slots) x tree)
    (hp : removePages (.pages xxh64) tree.disk [sstPath dbPath (2 * c), sstPath dbPath (2 * c + 1)]
      tree.bufferPool = .ok pool')
    (hd : compactFiles xxh64 (sstPath dbPath (2 * c)) (sstPath dbPath (2 * c + 1))
      (compactPath dbPath c (slots.map Option.isSome)) (slots.map Option.isSome).isEmpty
      tree.disk = .ok disk') :
    ∃ m, Merged slots.isEmpty y x m ∧ Arrived xxh64 dbPath (c + 1) slots m
      { levels := stage dbPath (c + 1) ((slots.map Option.isSome).headD false)
          (slots.map Option.isSome).tail
        bufferPool := pool'
        disk := disk'
        log := tree.log ++ [compactEvent dbPath c (slots.map Option.isSome)] } := by
  have hbits : (slots.map Option.isSome).isEmpty = slots.isEmpty := List.isEmpty_map
  rw [compactPath, headD_isSome, hbits] at hd
  obtain ⟨m, hm, hs⟩ := h.stores.compact out_notMem_compacted (getD_compacting c _) hp hd
  have hlog : flushes (tree.log ++ [compactEvent dbPath c (slots.map Option.isSome)]) =
      flushes tree.log := flushes_compact ..
  have hdoubling := h.doubling.2
  rw [← pow_succ'] at hdoubling
  refine ⟨m, hm, ?_, ?_, ?_, hdoubling, ?_, ?_⟩
  · simp only [headD_isSome, List.map_tail]
  · rw [compactEvent, compactPath, headD_isSome, hbits]
    exact hs
  · rw [hlog, ← h.age, hm.1]
    exact (List.append_assoc ..).symm
  · rw [hm.1, List.length_append, h.length, h.doubling.1 y.flushes rfl]
    ring
  · exact h.proper.concat h.proper_compact

/-- The rounds end with the SST in a level that was free. -/
theorem Arrived.settles : ∀ {slots : List (Option Sst)} {fuel c : ℕ} {x : Sst} {tree : Tree},
    Arrived xxh64 dbPath c slots x tree →
    compactLevels (.pages xxh64) dbPath fuel c tree = .ok tree' →
    ∃ slots', Carry Merged slots x slots' ∧ Settled xxh64 dbPath c slots' tree' ∧
      tree'.log = tree.log ++ compactEvents dbPath c (slots.map Option.isSome)
  | slots, 0, _, _, _, _, hr => by cases hr
  | [], fuel + 1, c, x, tree, h, hr => by
    rw [compactLevels_false h.levels] at hr
    cases hr
    exact ⟨_, .extend x, h.settled_nil, (List.append_nil _).symm⟩
  | none :: slots, fuel + 1, c, x, tree, h, hr => by
    rw [compactLevels_false h.levels] at hr
    cases hr
    exact ⟨_, .free x slots, h.settled_free, (List.append_nil _).symm⟩
  | some y :: slots, fuel + 1, c, x, tree, h, hr => by
    rw [compactLevels_true h.levels] at hr
    obtain ⟨pool', hp, hr⟩ := bind_eq_ok.mp hr
    obtain ⟨disk', hd, hr⟩ := bind_eq_ok.mp hr
    obtain ⟨m, hm, h₁⟩ := h.compacted hp hd
    obtain ⟨slots', hc, hs, hlog⟩ := h₁.settles hr
    refine ⟨none :: slots', .taken hm hc, hs.cons, ?_⟩
    rw [hlog, List.append_assoc]
    rfl

/-! ### The store at rest -/

structure AtRest (xxh64 : XXH64) (dbPath : String) (slots : List (Option Sst)) (w : World) :
    Prop where
  path : w.store.dbPath = dbPath
  settled : Settled xxh64 dbPath 0 slots ⟨w.store.levels, w.store.bufferPool, w.disk, w.log⟩
  bits : slots.map Option.isSome = (flushes w.log).bits
  log : w.log = logOf dbPath (flushes w.log)

/-- The memtable has no entries, as after a flush. -/
def World.flushed (w : World) (tree : Tree) : World where
  store := { w.store with
    memtable := .null
    currentMemtableEntries := 0
    sstCount := w.store.sstCount + 1
    levels := tree.levels
    bufferPool := tree.bufferPool }
  disk := tree.disk
  log := tree.log

/-- What `update_levels` starts from when a memtable has been written to `file`. -/
def arrival (dbPath : String) (slots : List (Option Sst)) (w : World) (file : File) : Tree where
  levels := stage dbPath 0 (slots.headD none).isSome (slots.tail.map Option.isSome)
  bufferPool := w.store.bufferPool
  disk := w.disk.set (sstPath dbPath (slots.headD none).isSome.toNat) file
  log := w.log ++ [.flush w.store.levels (sstPath dbPath (slots.headD none).isSome.toNat)]

namespace AtRest

variable {w w' : World} {file : File}

theorem leafNodes_eq_nil (memtable : Node) :
    (BTreeNode.extractLeafNodesFromAvl memtable []).length = 0 ↔ AVLTree.entries memtable = [] := by
  rw [BTreeNode.extractLeafNodesFromAvl_eq, List.length_map, List.length_eq_zero_iff,
    chunks_eq_nil BTreeNode.maxKeys_pos]

theorem write_nil (h : AVLTree.entries w.store.memtable = []) :
    w.writeMemtableToSst xxh64 = .ok w := by
  rw [World.writeMemtableToSst]
  simp only [leafNodes_eq_nil, if_pos h]

theorem write_eq (h : AtRest xxh64 dbPath slots w) (hne : AVLTree.entries w.store.memtable ≠ []) :
    w.writeMemtableToSst xxh64 = (do
      let file ← sstOf xxh64 (AVLTree.entries w.store.memtable)
      let _ ← Utils.increment w.store.sstCount
      let tree ← compactLevels (.pages xxh64) dbPath (slots.tail.length + 2) 0
        (arrival dbPath slots w file)
      .ok (w.flushed tree)) := by
  have hlevels : w.store.levels = levelsOf dbPath 0 (slots.map Option.isSome) := h.settled.levels
  have hhead := headD_isSome slots
  rw [World.writeMemtableToSst]
  simp only [leafNodes_eq_nil, if_neg hne, BTreeNode.flush_eq, h.path, hlevels, sstNum_levelsOf]
  congr 1
  funext file
  rw [updateLevels_eq rfl]
  simp only [hhead, ← List.map_tail, List.length_map, arrival, hlevels, World.flushed, h.path,
    Utils.increment]
  split_ifs
  · rfl
  · rfl

/-- A written memtable has arrived at the first level. -/
theorem arrived (h : AtRest xxh64 dbPath slots w) {es : List Entry} (hne : es ≠ [])
    (hfile : sstOf xxh64 es = .ok file) :
    Arrived xxh64 dbPath 0 slots ⟨[flushes w.log], es⟩ (arrival dbPath slots w file) := by
  have hs := h.settled
  have hfree := @out_notMem_listed slots 0
  rw [Nat.mul_zero, Nat.zero_add] at hfree
  have hlevels : w.store.levels = levelsOf dbPath 0 (slots.map Option.isSome) := hs.levels
  refine ⟨rfl, ?_, ?_, hs.doubling, rfl, hs.proper.concat ?_⟩
  · rw [Nat.mul_zero, Nat.zero_add]
    exact hs.stores.flush hfree hne hfile _
  · have hage : oldestFirst (runsOf slots) = List.range (flushes w.log) := hs.age
    rw [hage, arrival, flushes_flush, List.range_succ]
  · rw [Proper, hlevels, mem_levelsOf]
    rintro ⟨x, hx, he⟩
    exact hfree (sstPath_inj.mp he ▸ List.mem_map_of_mem hx)

/-- After a flush the tree is at rest again, one further in the count. -/
theorem write (h : AtRest xxh64 dbPath slots w) (hne : AVLTree.entries w.store.memtable ≠ [])
    (hw : w.writeMemtableToSst xxh64 = .ok w') :
    ∃ slots' tree, Carry Merged slots ⟨[flushes w.log], AVLTree.entries w.store.memtable⟩ slots' ∧
      w' = w.flushed tree ∧ AtRest xxh64 dbPath slots' w' ∧
      flushes w'.log = flushes w.log + 1 ∧ w.store.sstCount + 1 < 2147483648 := by
  rw [h.write_eq hne] at hw
  obtain ⟨file, hf, hw⟩ := bind_eq_ok.mp hw
  obtain ⟨_, hincr, hw⟩ := bind_eq_ok.mp hw
  obtain ⟨tree, ht, hw⟩ := bind_eq_ok.mp hw
  cases hw
  obtain ⟨slots', hc, hs, hlog⟩ := (h.arrived hne hf).settles ht
  have hlevels : w.store.levels = levelsOf dbPath 0 (slots.map Option.isSome) := h.settled.levels
  have hevents : tree.log = w.log ++ flushEvents dbPath (slots.map Option.isSome) := by
    rw [hlog, arrival, hlevels, flushEvents, headD_isSome, List.append_assoc]
    rfl
  have hcount : flushes tree.log = flushes w.log + 1 := by
    rw [hlog, flushes_compactEvents, arrival, flushes_flush]
  refine ⟨slots', tree, hc, rfl, ⟨h.path, hs, ?_, ?_⟩, hcount, Utils.increment_eq_ok.mp hincr |>.1⟩
  · rw [hc.isSome, h.bits, inc_bits]
    exact congrArg _ hcount.symm
  · show tree.log = logOf dbPath (flushes tree.log)
    rw [hcount, logOf, List.range_succ, List.flatMap_append, List.flatMap_singleton, ← h.bits,
      hevents]
    exact congrArg (· ++ _) h.log

end AtRest

end MiniKvs
