import MiniKvs.Store.Runs

/-! The size of the memtable. Puts are counted and the count triggers the flush, but
tombstones are not counted, so a memtable that deletes have filled can grow beyond
its size. -/

namespace MiniKvs

open Lib

namespace World

/-- The distinct keys of the memtable, those of tombstones included. -/
def memtableKeys (w : World) : Finset Uint32 :=
  ((AVLTree.entries w.store.memtable).map Entry.key).toFinset

/-- The call adds no key to a full memtable, unless it is the put that flushes it. -/
def HasRoom (w : World) : Op → Prop
  | .put key _ => key ∈ w.memtableKeys ∨ w.memtableKeys.card < w.store.memtableSize ∨
      w.store.memtableSize ≤ w.store.currentMemtableEntries + 1
  | .deleteKey key => key ∈ w.memtableKeys ∨ w.memtableKeys.card < w.store.memtableSize
  | _ => True

instance (w : World) : (op : Op) → Decidable (w.HasRoom op)
  | .put _ _ => inferInstanceAs (Decidable (_ ∈ _ ∨ _ < _ ∨ _ ≤ _))
  | .deleteKey _ => inferInstanceAs (Decidable (_ ∈ _ ∨ _ < _))
  | .get _ => .isTrue trivial
  | .scan _ _ => .isTrue trivial
  | .close => .isTrue trivial

/-- The memtable of a store with this `memtable_size` is a balanced search tree. -/
structure IsTree (size : ℕ) (w : World) : Prop where
  balanced : AVLTree.Balanced w.store.memtable
  sorted : SortedBy Entry.key (AVLTree.entries w.store.memtable)
  size : w.store.memtableSize = size

def Bounded (size : ℕ) (w : World) : Prop := w.memtableKeys.card ≤ size

instance (size : ℕ) (w : World) : Decidable (w.Bounded size) := inferInstanceAs (Decidable (_ ≤ _))

variable {xxh64 : XXH64} {sort : StdSort} {size : ℕ} {w w' : World}

theorem IsTree.empty (hm : w.store.memtable = .null) (hs : w.store.memtableSize = size) :
    IsTree size w := by
  refine ⟨?_, ?_, hs⟩
  · rw [hm]; trivial
  · rw [hm]; exact sortedBy_nil

theorem memtableKeys_null (hm : w.store.memtable = .null) : w.memtableKeys = ∅ := by
  rw [memtableKeys, hm]; rfl

/-- After a flush the memtable is empty. -/
theorem writeMemtableToSst_memtable (h : w.writeMemtableToSst xxh64 = .ok w') :
    w'.store.memtable = .null ∧ w'.store.memtableSize = w.store.memtableSize := by
  simp only [writeMemtableToSst] at h
  split_ifs at h with hnil
  · cases h
    refine ⟨?_, rfl⟩
    rw [BTreeNode.extractLeafNodesFromAvl_eq, List.length_map, List.length_eq_zero_iff,
      chunks_eq_nil BTreeNode.maxKeys_pos] at hnil
    exact AVLTree.entries_eq_nil.mp hnil
  all_goals
    obtain ⟨file, -, h⟩ := bind_eq_ok.mp h
    obtain ⟨sstCount, -, h⟩ := bind_eq_ok.mp h
    obtain ⟨tree, -, h⟩ := bind_eq_ok.mp h
    cases h
    exact ⟨rfl, rfl⟩

theorem IsTree.flush (h : IsTree size w) (hw : w.writeMemtableToSst xxh64 = .ok w') :
    IsTree size w' ∧ w'.memtableKeys = ∅ := by
  obtain ⟨hm, hs⟩ := writeMemtableToSst_memtable hw
  exact ⟨.empty hm (hs.trans h.size), memtableKeys_null hm⟩

def withMemtable (w : World) (memtable : Node) (entries : ℕ) : World :=
  { w with store := { w.store with memtable := memtable, currentMemtableEntries := entries } }

theorem mem_memtableKeys {key : Uint32} :
    key ∈ w.memtableKeys ↔ (findKey Entry.key (AVLTree.entries w.store.memtable) key).isSome := by
  rw [memtableKeys, List.mem_toFinset, List.mem_map, ← Option.ne_none_iff_isSome, Ne,
    findKey_eq_none]
  push Not
  rfl

theorem put_eq (xxh64 : XXH64) (key value : Uint32) (w : World) :
    w.put xxh64 key value = AVLTree.put w.store.memtable key value >>= fun memtable =>
      if w.store.memtableSize ≤ w.store.currentMemtableEntries + 1 then
        (w.withMemtable memtable (w.store.currentMemtableEntries + 1)).writeMemtableToSst xxh64
      else .ok (w.withMemtable memtable (w.store.currentMemtableEntries + 1)) := rfl

theorem deleteKey_eq (key : Uint32) (w : World) :
    w.deleteKey key = AVLTree.put w.store.memtable key Utils.tombStone >>= fun memtable =>
      .ok (w.withMemtable memtable w.store.currentMemtableEntries) := rfl

/-- A new entry adds its key. -/
theorem IsTree.put (h : IsTree size w) (key value : Uint32) :
    ∃ memtable, AVLTree.put w.store.memtable key value = .ok memtable ∧
      ∀ entries, IsTree size (w.withMemtable memtable entries) ∧
        (w.withMemtable memtable entries).memtableKeys = insert key w.memtableKeys := by
  obtain ⟨memtable, hput, hb, he⟩ := AVLTree.put_spec h.balanced h.sorted key value
  have hs : SortedBy Entry.key (AVLTree.entries memtable) := by
    rw [he]; exact h.sorted.insertKey _
  refine ⟨memtable, hput, fun entries => ⟨⟨hb, hs, h.size⟩, ?_⟩⟩
  ext k
  rw [Finset.mem_insert, mem_memtableKeys, mem_memtableKeys]
  simp only [withMemtable, he, findKey_insertKey]
  by_cases hk : key = k
  · rw [if_pos hk]
    exact iff_of_true rfl (.inl hk.symm)
  · rw [if_neg hk]
    exact (or_iff_right (Ne.symm hk)).symm

/-- After it the memtable is in bounds when the key was there or there was room. -/
theorem bounded_insert_iff (h : IsTree size w) (hb : w.Bounded size) {key : Uint32}
    (hkeys : w'.memtableKeys = insert key w.memtableKeys) :
    w'.Bounded size ↔ key ∈ w.memtableKeys ∨ w.memtableKeys.card < w.store.memtableSize := by
  rw [Bounded, hkeys, h.size]
  by_cases hk : key ∈ w.memtableKeys
  · rw [Finset.insert_eq_of_mem hk]
    exact iff_of_true hb (.inl hk)
  · rw [Finset.card_insert_of_notMem hk]
    exact (or_iff_right hk).symm

/-! ### One call -/

theorem get_memtable {key value : Uint32} (h : w.get xxh64 key = .ok (value, w')) :
    w'.store.memtable = w.store.memtable ∧ w'.store.memtableSize = w.store.memtableSize := by
  simp only [World.get] at h
  split_ifs at h
  · cases h; exact ⟨rfl, rfl⟩
  · cases h; exact ⟨rfl, rfl⟩
  · obtain ⟨⟨v, pool⟩, -, h⟩ := bind_eq_ok.mp h
    cases h
    exact ⟨rfl, rfl⟩

theorem scan_memtable {startKey endKey : Uint32} {result : List Entry}
    (h : w.scan xxh64 sort startKey endKey = .ok (result, w')) :
    w'.store.memtable = w.store.memtable ∧ w'.store.memtableSize = w.store.memtableSize := by
  obtain ⟨⟨found, pool⟩, -, h⟩ := bind_eq_ok.mp h
  cases h
  exact ⟨rfl, rfl⟩

theorem IsTree.of_same (h : IsTree size w) (hsame : w'.store.memtable = w.store.memtable ∧
    w'.store.memtableSize = w.store.memtableSize) :
    IsTree size w' ∧ w'.memtableKeys = w.memtableKeys := by
  obtain ⟨hm, hs⟩ := hsame
  exact ⟨⟨hm ▸ h.balanced, hm ▸ h.sorted, hs.trans h.size⟩, by rw [memtableKeys, hm, memtableKeys]⟩

/-- A call that has room keeps the memtable within its size. -/
theorem IsTree.step (h : IsTree size w) (hb : w.Bounded size) {op : Op} (hroom : w.HasRoom op)
    {r : Reply}
    (hw : World.step xxh64 sort op w = .ok (r, w')) : IsTree size w' ∧ w'.Bounded size := by
  have hempty : IsTree size w' ∧ w'.memtableKeys = ∅ → IsTree size w' ∧ w'.Bounded size :=
    fun hf => ⟨hf.1, by rw [Bounded, hf.2, Finset.card_empty]; exact Nat.zero_le _⟩
  have hsame : IsTree size w' ∧ w'.memtableKeys = w.memtableKeys →
      IsTree size w' ∧ w'.Bounded size := fun hs => ⟨hs.1, by rw [Bounded, hs.2]; exact hb⟩
  cases op with
  | put key value =>
    obtain ⟨w₁, hput, he⟩ := map_eq_ok.mp hw
    cases he
    obtain ⟨memtable, hm, hnew⟩ := h.put key value
    obtain ⟨htree, hkeys⟩ := hnew (w.store.currentMemtableEntries + 1)
    rw [put_eq, hm, ok_bind] at hput
    split_ifs at hput with hfull
    · exact hempty (htree.flush hput)
    · cases hput
      refine ⟨htree, (bounded_insert_iff h hb hkeys).mpr ?_⟩
      exact hroom.imp_right fun hr => hr.resolve_right hfull
  | deleteKey key =>
    obtain ⟨w₁, hdelete, he⟩ := map_eq_ok.mp hw
    cases he
    obtain ⟨memtable, hm, hnew⟩ := h.put key Utils.tombStone
    obtain ⟨htree, hkeys⟩ := hnew w.store.currentMemtableEntries
    rw [deleteKey_eq, hm, ok_bind] at hdelete
    cases hdelete
    exact ⟨htree, (bounded_insert_iff h hb hkeys).mpr hroom⟩
  | get key =>
    obtain ⟨x, hget, he⟩ := map_eq_ok.mp hw
    cases he
    exact hsame (h.of_same (get_memtable hget))
  | scan startKey endKey =>
    obtain ⟨x, hscan, he⟩ := map_eq_ok.mp hw
    cases he
    exact hsame (h.of_same (scan_memtable hscan))
  | close =>
    obtain ⟨w₁, hclose, he⟩ := map_eq_ok.mp hw
    cases he
    exact hempty (h.flush hclose)

/-- A call without room succeeds, and the memtable is larger than its size. -/
theorem IsTree.overflow (h : IsTree size w) (hb : w.Bounded size) {op : Op}
    (hroom : ¬ w.HasRoom op) :
    ∃ r w', World.step xxh64 sort op w = .ok (r, w') ∧ ¬ w'.Bounded size := by
  cases op with
  | put key value =>
    obtain ⟨memtable, hm, hnew⟩ := h.put key value
    obtain ⟨-, hkeys⟩ := hnew (w.store.currentMemtableEntries + 1)
    simp only [HasRoom, not_or, not_le, not_lt] at hroom
    refine ⟨.done, w.withMemtable memtable (w.store.currentMemtableEntries + 1), ?_, ?_⟩
    · rw [World.step, put_eq, hm, ok_bind, if_neg (not_le.mpr hroom.2.2)]
      rfl
    · rw [bounded_insert_iff h hb hkeys]
      exact not_or.mpr ⟨hroom.1, not_lt.mpr hroom.2.1⟩
  | deleteKey key =>
    obtain ⟨memtable, hm, hnew⟩ := h.put key Utils.tombStone
    obtain ⟨-, hkeys⟩ := hnew w.store.currentMemtableEntries
    refine ⟨.done, w.withMemtable memtable w.store.currentMemtableEntries, ?_, ?_⟩
    · rw [World.step, deleteKey_eq, hm, ok_bind]
      rfl
    · rw [bounded_insert_iff h hb hkeys]
      exact hroom
  | get key => exact absurd trivial hroom
  | scan startKey endKey => exact absurd trivial hroom
  | close => exact absurd trivial hroom

end World

/-! ### Runs -/

theorem KVStore.open_memtable {config : Config} {dbPath : String}
    {directory : Option (List String)} {store : KVStore}
    (h : (KVStore.new config).open dbPath directory = .ok store) :
    store.memtable = .null ∧ store.memtableSize = config.memtableSize := by
  obtain ⟨levels, -, h⟩ := bind_eq_ok.mp h
  cases h
  exact ⟨rfl, rfl⟩

/-- In a run on an open store the memtable keeps within its size exactly when every
call finds room. -/
theorem memtable_bounded_iff (xxh64 : XXH64) (sort : StdSort) {config : Config} {dbPath : String}
    {directory : Option (List String)} {store : KVStore}
    (hopen : (KVStore.new config).open dbPath directory = .ok store) (disk : Disk)
    (log : List Event) (ops : List Op) :
    Throughout (World.step xxh64 sort) (World.Bounded config.memtableSize) ⟨store, disk, log⟩ ops ↔
      Along (World.step xxh64 sort) World.HasRoom ⟨store, disk, log⟩ ops := by
  obtain ⟨hm, hs⟩ := KVStore.open_memtable hopen
  refine throughout_iff_along (World.step xxh64 sort)
    (fun o w r w' hi hq hg h => World.IsTree.step hi hq hg h)
    (fun o w hi hq hg => World.IsTree.overflow hi hq hg) (.empty hm hs) ?_
  rw [World.Bounded, World.memtableKeys_null hm, Finset.card_empty]
  exact Nat.zero_le _

/-- Key 5 is deleted and put again, which flushes it, then key 6 is deleted. -/
theorem memtable_bounded_iff_delete :
    Throughout (World.step constHash .insertion) (World.Bounded 1)
      ⟨{ KVStore.new smallConfig with dbPath := "/a" }, .empty, []⟩
      [.deleteKey 5, .put 5 7, .deleteKey 6, .get 5, .close] :=
  (@memtable_bounded_iff constHash .insertion smallConfig "/a" none _ rfl .empty [] _).mpr
  (by decide)

/-- Two keys are deleted; the memtable should hold one. -/
theorem not_memtable_bounded : ¬ ∀ (xxh64 : XXH64) (sort : StdSort) (config : Config)
    (dbPath : String) (ops : List Op) (rs : List Reply) (w : World),
    runStore xxh64 sort config dbPath ops = .ok (rs, w) → w.Bounded config.memtableSize := by
  intro h
  have hrun := eq_ok_okOr ([], ⟨.new smallConfig, .empty, []⟩)
    (x := runStore constHash .insertion smallConfig "/a" [.deleteKey 5, .deleteKey 6]) (by decide)
  have hbound := h constHash .insertion smallConfig "/a" _ _ _ hrun
  exact absurd hbound (by decide)

end MiniKvs
