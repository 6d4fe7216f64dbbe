import MiniKvs.Store.Bounded
import MiniKvs.Store.Reopen
import MiniKvs.Store.Serving

/-! Opening a database on an object that was used before. `open` adds the SSTs that
it finds to the levels, and nothing takes the old ones out, so the new database is
by itself only if the object lists no SST. Such an object has an unused pool too. -/

namespace MiniKvs

open Lib Level

variable {xxh64 : XXH64} {sort : StdSort} {dbPath : String} {config : Config}

/-- The objects that calls can lead to, on whatever files they find. -/
inductive Used (xxh64 : XXH64) (sort : StdSort) (config : Config) : KVStore → Prop
  | new : Used xxh64 sort config (.new config)
  | «open» {store store' : KVStore} {dbPath : String} {directory : Option (List String)} :
    Used xxh64 sort config store → store.open dbPath directory = .ok store' →
      Used xxh64 sort config store'
  | step {store : KVStore} {disk : Disk} {log : List Event} {op : Op} {r : Reply} {w : World} :
    Used xxh64 sort config store → World.step xxh64 sort op ⟨store, disk, log⟩ = .ok (r, w) →
      Used xxh64 sort config w.store

/-- Each SST of the directory is found to belong to the level that its number gives. -/
def NumbersFound (dbPath : String) (directory : List String) : Prop :=
  ∀ n, sstPath dbPath n ∈ directory → foundLevel (sstPath dbPath n) = some (n / sizeRatio)

/-- What stores of one directory can leave, each opened on what the one before it left. -/
inductive IsDatabase (xxh64 : XXH64) (sort : StdSort) (dbPath : String) : World → Prop
  | start (config : Config) :
    IsDatabase xxh64 sort dbPath ⟨{ KVStore.new config with dbPath := dbPath }, .empty, []⟩
  | step {op : Op} {r : Reply} {w w' : World} :
    IsDatabase xxh64 sort dbPath w → World.step xxh64 sort op w = .ok
      (r, w') → IsDatabase xxh64 sort dbPath w'
  | reopen {config : Config} {directory : List String} {w w' : World} :
    IsDatabase xxh64 sort dbPath w → directory.Perm w.disk.keys → NumbersFound dbPath directory →
      w.reopened config directory = .ok w' → IsDatabase xxh64 sort dbPath w'

/-- The store is on database `b` and nothing else. -/
structure Isolates (xxh64 : XXH64) (sort : StdSort) (dbPath : String) (b : World)
    (store : KVStore) : Prop where
  levels : ∀ i path, path ∈ (store.levels.getD i ⟨[]⟩).sstList ↔
    path ∈ b.disk.keys ∧ ∃ n, path = sstPath dbPath n ∧ n / sizeRatio = i
  once : ∀ i, (store.levels.getD i ⟨[]⟩).sstList.Nodup
  get : ∀ key, ∃ value w', World.get xxh64 key ⟨store, b.disk, b.log⟩ = .ok (value, w') ∧
    findValueInFiles xxh64 b.disk key b.ssts = .ok value
  run : ∀ ops rs w', run (World.step xxh64 sort) ops ⟨store, b.disk, b.log⟩ = .ok (rs, w') →
    IsCounter dbPath w' ∧ IsCache xxh64 sort w'

/-! ### What is listed -/

theorem mem_flatMap_getD {levels : List Level} {path : String} :
    path ∈ levels.flatMap sstList ↔ ∃ i, path ∈ (levels.getD i ⟨[]⟩).sstList := by
  rw [List.mem_flatMap]
  constructor
  · rintro ⟨level, hl, hp⟩
    obtain ⟨i, hi, rfl⟩ := List.mem_iff_getElem.mp hl
    exact ⟨i, by rwa [List.getD_eq_getElem _ _ hi]⟩
  · rintro ⟨i, hp⟩
    rcases Nat.lt_or_ge i levels.length with hi | hi
    · rw [List.getD_eq_getElem _ _ hi] at hp
      exact ⟨_, List.getElem_mem hi, hp⟩
    · rw [List.getD_eq_default _ _ hi] at hp
      cases hp

theorem getD_modify_push {levels : List Level} {level : ℕ} (hlt : level < levels.length)
    (sst : String) (i : ℕ) : ((levels.modify level (push sst)).getD i ⟨[]⟩).sstList =
      (levels.getD i ⟨[]⟩).sstList ++ if level = i then [sst] else [] := by
  rw [List.getD_eq_getElem?_getD, List.getD_eq_getElem?_getD, List.getElem?_modify]
  by_cases hi : level = i
  · subst hi
    rw [List.getElem?_eq_getElem hlt]
    simp [push]
  · simp [hi]

theorem getD_append_replicate (levels : List Level) (n i : ℕ) :
    (levels ++ List.replicate n (⟨[]⟩ : Level)).getD i ⟨[]⟩ = levels.getD i ⟨[]⟩ := by
  rcases Nat.lt_or_ge i levels.length with hi | hi
  · rw [List.getD_append _ _ _ _ hi]
  · rw [List.getD_append_right _ _ _ _ hi, List.getD_eq_default _ _ hi]
    simp

/-- An SST is loaded behind those that its level lists. -/
theorem loadIntoLsmTree_getD {levels levels' : List Level} {sst : String}
    (h : loadIntoLsmTree levels sst = .ok levels') :
    (foundLevel sst).isSome ∧ ∀ i, (levels'.getD i ⟨[]⟩).sstList =
      (levels.getD i ⟨[]⟩).sstList ++ if foundLevel sst = some i then [sst] else [] := by
  obtain ⟨level, hlevel, rfl⟩ := loadIntoLsmTree_eq_ok.mp h
  refine ⟨by rw [hlevel]; rfl, fun i => ?_⟩
  have hlt : level <
      (levels ++ List.replicate (level + 1 - levels.length) (⟨[]⟩ : Level)).length := by
    rw [List.length_append, List.length_replicate]
    omega
  rw [getD_modify_push hlt, getD_append_replicate, hlevel]
  simp only [Option.some.injEq]

theorem foldlM_loadIntoLsmTree_getD : ∀ {directory : List String} {levels levels' : List Level},
    directory.foldlM loadIntoLsmTree levels = .ok levels' →
    (∀ path ∈ directory, (foundLevel path).isSome) ∧ ∀ i, (levels'.getD i ⟨[]⟩).sstList =
      (levels.getD i ⟨[]⟩).sstList ++ directory.filter fun path => foundLevel path = some i := by
  intro directory
  induction directory with
  | nil =>
    intro levels levels' h
    cases h
    exact ⟨by simp, by simp⟩
  | cons path directory ih =>
    intro levels levels' h
    rw [List.foldlM_cons] at h
    obtain ⟨levels₁, h₁, h₂⟩ := bind_eq_ok.mp h
    obtain ⟨hfound, hget⟩ := loadIntoLsmTree_getD h₁
    obtain ⟨hfound', hget'⟩ := ih h₂
    refine ⟨fun p hp => ?_, fun i => ?_⟩
    · rcases List.mem_cons.mp hp with rfl | hp
      · exact hfound
      · exact hfound' p hp
    · rw [hget', hget, List.filter_cons, List.append_assoc]
      by_cases hi : foundLevel path = some i
      · simp [hi]
      · simp [hi]

/-! ### Once an SST is listed -/

/-- An object that lists no SST is as good as new; otherwise some SST is listed. -/
def FreshOrListed (config : Config) (store : KVStore) : Prop :=
  store.levels = [] ∧ store.bufferPool = .new config.initialSize config.maxSize ∨
    store.levels.flatMap sstList ≠ []

theorem listed_of_getD {levels : List Level} (i : ℕ)
    (h : (levels.getD i ⟨[]⟩).sstList ≠ []) : levels.flatMap sstList ≠ [] := by
  obtain ⟨path, hp⟩ := List.exists_mem_of_ne_nil _ h
  exact List.ne_nil_of_mem (mem_flatMap_getD.mpr ⟨i, hp⟩)

theorem compact_sstList {level level' : Level} {sstNum before : ℕ} {isLastLevel : Bool}
    {disk disk' : Disk} (h : compact (.pages xxh64) dbPath level sstNum isLastLevel before disk =
      .ok (level', disk')) : level'.sstList = [sstPath dbPath sstNum] := by
  unfold compact at h
  split at h
  · obtain ⟨oldSst, -, h⟩ := bind_eq_ok.mp h
    obtain ⟨newSst, -, h⟩ := bind_eq_ok.mp h
    obtain ⟨output, -, h⟩ := bind_eq_ok.mp h
    cases h
    rfl
  · cases h

/-- A compaction moves an SST one level deeper. -/
theorem compactLevels_listed {fuel : ℕ} : ∀ {c : ℕ} {tree tree' : Tree},
    tree.levels.flatMap sstList ≠ [] → compactLevels (.pages xxh64) dbPath fuel c tree = .ok tree' →
    tree'.levels.flatMap sstList ≠ [] := by
  induction fuel with
  | zero => intro c tree tree' _ h; cases h
  | succ fuel ih =>
    intro c tree tree' hl h
    rw [compactLevels] at h
    cases hlevel : tree.levels[c]? with
    | none =>
      simp only [hlevel] at h
      cases h
      exact hl
    | some level =>
      simp only [hlevel] at h
      by_cases hfull : level.sstList.length ≥ sizeRatio
      · rw [if_pos hfull] at h
        obtain ⟨pool, -, h⟩ := bind_eq_ok.mp h
        obtain ⟨⟨level', disk⟩, hcompact, h⟩ := bind_eq_ok.mp h
        have hc := (List.getElem?_eq_some_iff.mp hlevel).1
        have hlt : c + 1 < (if c ≥ tree.levels.length - 1 then
            addNewLevel tree.levels else tree.levels).length := by
          split_ifs
          · rw [addNewLevel, List.length_append, List.length_singleton]
            omega
          · omega
        refine ih (listed_of_getD (c + 1) ?_) h
        simp only [List.getD_eq_getElem?_getD, List.getElem?_set_ne (Nat.lt_succ_self c).ne,
          List.getElem?_modify, List.getElem?_eq_getElem hlt, compact_sstList hcompact]
        simp
      · rw [if_neg hfull] at h
        cases h
        exact hl

theorem writeMemtableToSst_freshOrListed {w w' : World} (h : FreshOrListed config w.store)
    (hw : w.writeMemtableToSst xxh64 = .ok w') : FreshOrListed config w'.store := by
  simp only [World.writeMemtableToSst] at hw
  by_cases hnil : (BTreeNode.extractLeafNodesFromAvl w.store.memtable []).length = 0
  · rw [if_pos hnil] at hw
    cases hw
    exact h
  · rw [if_neg hnil] at hw
    obtain ⟨file, -, hw⟩ := bind_eq_ok.mp hw
    obtain ⟨sstCount, -, hw⟩ := bind_eq_ok.mp hw
    obtain ⟨tree, htree, hw⟩ := bind_eq_ok.mp hw
    cases hw
    refine .inr (compactLevels_listed (listed_of_getD 0 ?_) htree)
    have hlt : 0 < (if w.store.levels.length = 0 then addNewLevel w.store.levels
        else w.store.levels).length := by
      split_ifs
      · rw [addNewLevel, List.length_append]
        exact Nat.succ_pos _
      · omega
    change ((List.modify _ 0 (push _)).getD 0 ⟨[]⟩).sstList ≠ []
    rw [getD_modify_push hlt, if_pos rfl]
    simp

theorem open_freshOrListed {store store' : KVStore} {directory : Option (List String)}
    (h : FreshOrListed config store) (ho : store.open dbPath directory = .ok store') :
    FreshOrListed config store' := by
  obtain ⟨levels, hl, he⟩ := bind_eq_ok.mp ho
  cases he
  obtain ⟨hfound, hget⟩ := foldlM_loadIntoLsmTree_getD hl
  rcases h with ⟨hnil, hpool⟩ | hlisted
  · cases hd : directory.getD [] with
    | nil =>
      rw [hd] at hl
      cases hl
      exact .inl ⟨hnil, hpool⟩
    | cons path paths =>
      obtain ⟨i, hi⟩ := Option.isSome_iff_exists.mp (hfound path (by rw [hd]; simp))
      refine .inr (listed_of_getD i ?_)
      rw [hget, hd, List.filter_cons, if_pos (by simpa using hi)]
      simp
  · obtain ⟨path, hp⟩ := List.exists_mem_of_ne_nil _ hlisted
    obtain ⟨i, hi⟩ := mem_flatMap_getD.mp hp
    refine .inr (listed_of_getD i ?_)
    rw [hget]
    exact List.append_ne_nil_of_left_ne_nil (List.ne_nil_of_mem hi) _

/-- Without an SST a lookup does not come to the pool. -/
theorem step_freshOrListed {w w' : World} {op : Op} {r : Reply} (h : FreshOrListed config w.store)
    (hw : World.step xxh64 sort op w = .ok (r, w')) : FreshOrListed config w'.store := by
  cases op with
  | put key value =>
    obtain ⟨w₁, h₁, he⟩ := map_eq_ok.mp hw
    cases he
    rw [World.put_eq] at h₁
    obtain ⟨memtable, -, h₁⟩ := bind_eq_ok.mp h₁
    split_ifs at h₁
    · exact writeMemtableToSst_freshOrListed (w := w.withMemtable memtable _) h h₁
    · cases h₁
      exact h
  | deleteKey key =>
    obtain ⟨w₁, h₁, he⟩ := map_eq_ok.mp hw
    cases he
    obtain ⟨memtable, -, h₁⟩ := bind_eq_ok.mp h₁
    cases h₁
    exact h
  | get key =>
    obtain ⟨x, h₁, he⟩ := map_eq_ok.mp hw
    cases he
    rcases h with ⟨hnil, hpool⟩ | hlisted
    · simp only [World.get] at h₁
      split_ifs at h₁
      · cases h₁; exact .inl ⟨hnil, hpool⟩
      · cases h₁; exact .inl ⟨hnil, hpool⟩
      · rw [World.ssts, hnil] at h₁
        cases h₁
        exact .inl ⟨rfl, hpool⟩
    · obtain ⟨pool, hp⟩ := World.get_pool h₁
      rw [hp]
      exact .inr hlisted
  | scan startKey endKey =>
    obtain ⟨x, h₁, he⟩ := map_eq_ok.mp hw
    cases he
    rcases h with ⟨hnil, hpool⟩ | hlisted
    · simp only [World.scan, World.ssts, hnil] at h₁
      cases h₁
      exact .inl ⟨rfl, hpool⟩
    · obtain ⟨pool, hp⟩ := World.scan_pool h₁
      rw [hp]
      exact .inr hlisted
  | close =>
    obtain ⟨w₁, h₁, he⟩ := map_eq_ok.mp hw
    cases he
    exact writeMemtableToSst_freshOrListed h h₁

theorem Used.freshOrListed {store : KVStore} (h : Used xxh64 sort config store) :
    FreshOrListed config store := by
  induction h with
  | new => exact .inl ⟨rfl, rfl⟩
  | «open» _ ho ih => exact open_freshOrListed ih ho
  | step _ hw ih => exact step_freshOrListed ih hw

/-! ### Databases -/

variable {slots : List (Option Sst)} {b : World} {store : KVStore}

theorem AtRest.found_of_numbersFound (h : AtRest xxh64 dbPath slots b) {directory : List String}
    (hd : directory.Perm b.disk.keys) (hn : NumbersFound dbPath directory) {i : ℕ}
    (hi : (flushes b.log).testBit i = true) : foundLevel (sstPath dbPath (2 * i)) = some i := by
  rw [hn (2 * i) (hd.mem_iff.mpr (h.mem_keys.mpr ⟨i, hi, rfl⟩))]
  exact congrArg some (Nat.mul_div_cancel_left i two_pos)

theorem IsDatabase.atRest (h : IsDatabase xxh64 sort dbPath b) :
    ∃ slots, AtRest xxh64 dbPath slots b := by
  induction h with
  | start config => exact ⟨[], .start config dbPath⟩
  | step _ hw ih =>
    obtain ⟨slots, hs⟩ := ih
    exact hs.step hw
  | reopen _ hd hn hw ih =>
    obtain ⟨slots, hs⟩ := ih
    rw [hs.reopened (fun _ => hs.found_of_numbersFound hd hn) hd] at hw
    cases hw
    exact ⟨slots, hs.restarted _⟩

theorem runStore_isDatabase {ops : List Op} {rs : List Reply} {w : World}
    (h : runStore xxh64 sort config dbPath ops = .ok (rs, w)) :
    IsDatabase xxh64 sort dbPath w ∧ Used xxh64 sort config w.store :=
  run_invariant (World.step xxh64 sort)
    (I := fun w => IsDatabase xxh64 sort dbPath w ∧ Used xxh64 sort config w.store)
    (fun _ _ _ _ ⟨hb, hu⟩ hw => ⟨hb.step hw, hu.step hw⟩)
    ⟨.start config, @Used.open _ _ _ _ _ dbPath none .new rfl⟩ h

/-- An object with an unused pool takes the levels over. -/
theorem AtRest.adopted (h : AtRest xxh64 dbPath slots b) (hpath : store.dbPath = dbPath)
    (hlevels : store.levels = b.store.levels)
    (hpool : store.bufferPool = .new config.initialSize config.maxSize) :
    AtRest xxh64 dbPath slots ⟨store, b.disk, b.log⟩ where
  path := hpath
  settled :=
    { levels := hlevels.trans h.levels
      stores := by
        simp only [hpool]
        exact h.stores.with_pool (.new config.initialSize_le config.maxSize_lt)
      age := h.settled.age
      doubling := h.settled.doubling
      proper := h.settled.proper }
  bits := h.bits
  log := h.log

theorem Stores.findValueInSsts_ok {cs : List (ℕ × Sst)} {disk : Disk} {log : List Event}
    (key : Uint32) : ∀ {ssts : List String} {pool : BufferPool PageData},
    Stores xxh64 dbPath cs disk pool log → BufferPool.Steady xxh64.page pool →
    (∀ path ∈ ssts, path ∈ disk.keys) →
    ∃ value pool', World.findValueInSsts (BTreeNode.searchValueByKey xxh64 key) disk ssts pool =
      .ok (value, pool') := by
  intro ssts
  induction ssts with
  | nil => intro pool _ _ _; exact ⟨_, pool, rfl⟩
  | cons path ssts ih =>
    intro pool h hs hkeys
    obtain ⟨file, hf⟩ :=
      Option.isSome_iff_exists.mp (OrdMap.mem_keys.mp (hkeys path List.mem_cons_self))
    obtain ⟨pool₁, hsearch, h₁, hs₁⟩ := h.searchValueByKey_steady hs hf key
    obtain ⟨value, pool', hrest⟩ := ih h₁ hs₁ fun p hp => hkeys p (List.mem_cons_of_mem path hp)
    rw [World.findValueInSsts, Disk.read_eq_ok.mpr hf, ok_bind, hsearch, ok_bind]
    simp only
    split_ifs
    · exact ⟨_, _, rfl⟩
    · exact ⟨_, _, rfl⟩
    · exact ⟨value, pool', hrest⟩

theorem AtRest.isolates (h : AtRest xxh64 dbPath slots b) (hpath : store.dbPath = dbPath)
    (hlevels : store.levels = b.store.levels) (hmem : store.memtable = .null)
    (hpool : store.bufferPool = .new config.initialSize config.maxSize) :
    Isolates xxh64 sort dbPath b store := by
  have h' := h.adopted hpath hlevels hpool
  have hssts : World.ssts ⟨store, b.disk, b.log⟩ = b.ssts :=
    congrArg (List.flatMap sstList) hlevels
  refine ⟨fun i path => ?_, fun i => ?_, fun key => ?_, fun ops rs w' hr => ?_⟩
  · rw [hlevels, h.isCounter.level, h.mem_keys]
    constructor
    · intro hp
      split_ifs at hp with hi
      · obtain rfl := List.mem_singleton.mp hp
        exact ⟨⟨i, hi, rfl⟩, 2 * i, rfl, Nat.mul_div_cancel_left i two_pos⟩
      · cases hp
    · rintro ⟨⟨j, hj, rfl⟩, n, hn, rfl⟩
      obtain rfl := sstPath_inj.mp hn
      rw [sizeRatio, Nat.mul_div_cancel_left j two_pos, if_pos hj]
      exact List.mem_singleton_self _
  · rw [hlevels, h.isCounter.level]
    split_ifs
    · exact List.nodup_singleton _
    · exact List.nodup_nil
  · obtain ⟨value, pool', hf⟩ := h'.stores.findValueInSsts_ok key
      (by simp only [hpool]; exact .new config.initialSize_le config.maxSize_lt)
      (fun path hp => (h'.isCounter.files path).mpr hp)
    have hnull : AVLTree.get store.memtable key = Utils.invalidValue := by rw [hmem]; rfl
    have hget : World.get xxh64 key ⟨store, b.disk, b.log⟩ =
        .ok (value, ⟨{ store with bufferPool := pool' }, b.disk, b.log⟩) := by
      simp only [World.get, hnull, hf, ok_bind]
      rfl
    refine ⟨value, _, hget, ?_⟩
    have hdirect := (h'.get hget).1
    simp only [World.getDirect, hnull, hssts] at hdirect
    exact hdirect
  · obtain ⟨slots', hs⟩ := h'.run hr
    exact ⟨hs.isCounter, hs.isCache⟩

/-- An SST that was listed before is listed beside those of the database. -/
theorem Isolates.nothing_listed {store' : KVStore} {directory : Option (List String)}
    (h : Isolates xxh64 sort dbPath b store') (ho : store.open dbPath directory = .ok store')
    (hd : (directory.getD []).Perm b.disk.keys) : store.levels.flatMap sstList = [] := by
  obtain ⟨levels, hl, he⟩ := bind_eq_ok.mp ho
  cases he
  obtain ⟨hfound, hget⟩ := foldlM_loadIntoLsmTree_getD hl
  have hlevels : ∀ i path, path ∈ (levels.getD i ⟨[]⟩).sstList ↔
    path ∈ b.disk.keys ∧ ∃ n, path = sstPath dbPath n ∧ n / sizeRatio = i := h.levels
  have honce : ∀ i, (levels.getD i ⟨[]⟩).sstList.Nodup := h.once
  rw [List.eq_nil_iff_forall_not_mem]
  intro path hp
  obtain ⟨i, hi⟩ := mem_flatMap_getD.mp hp
  have hmem : path ∈ (levels.getD i ⟨[]⟩).sstList := by
    rw [hget]
    exact List.mem_append_left _ hi
  obtain ⟨hkey, n, hn, hni⟩ := (hlevels i path).mp hmem
  -- the directory has it too, and it is loaded into the same level
  have hdir := hd.mem_iff.mpr hkey
  obtain ⟨j, hj⟩ := Option.isSome_iff_exists.mp (hfound path hdir)
  have hmem' : path ∈ (levels.getD j ⟨[]⟩).sstList := by
    rw [hget]
    exact List.mem_append_right _ (List.mem_filter.mpr ⟨hdir, by simpa using hj⟩)
  obtain ⟨-, n', hn', hnj⟩ := (hlevels j path).mp hmem'
  obtain rfl := sstPath_inj.mp (hn.symm.trans hn')
  obtain rfl := hni.symm.trans hnj
  have hnodup := honce i
  rw [hget, List.nodup_append] at hnodup
  exact hnodup.2.2 path hi path (List.mem_filter.mpr ⟨hdir, by simpa using hj⟩) rfl

theorem Isolates.numbersFound {store' : KVStore} {directory : Option (List String)}
    (h : Isolates xxh64 sort dbPath b store') (ho : store.open dbPath directory = .ok store') :
    NumbersFound dbPath (directory.getD []) := by
  obtain ⟨levels, hl, he⟩ := bind_eq_ok.mp ho
  cases he
  obtain ⟨hfound, hget⟩ := foldlM_loadIntoLsmTree_getD hl
  intro n hn
  obtain ⟨j, hj⟩ := Option.isSome_iff_exists.mp (hfound _ hn)
  have hmem : sstPath dbPath n ∈ (levels.getD j ⟨[]⟩).sstList := by
    rw [hget]
    exact List.mem_append_right _ (List.mem_filter.mpr ⟨hn, by simpa using hj⟩)
  obtain ⟨-, n', hn', hnj⟩ := (h.levels j _).mp hmem
  obtain rfl := sstPath_inj.mp hn'
  rw [hj, hnj]

/-- After a run that ends with a close, `open` leaves the object on the database alone
exactly when it lists no SST before and finds the numbers of the SSTs there. -/
theorem open_isolates_iff (xxh64 : XXH64) (sort : StdSort) {config : Config} {store : KVStore}
    (hused : Used xxh64 sort config store) {disk : Disk} {log : List Event} {r : Reply} {w : World}
    (hclose : World.step xxh64 sort .close ⟨store, disk, log⟩ = .ok (r, w)) {dbPath : String}
    {b : World} (hb : IsDatabase xxh64 sort dbPath b) {directory : Option (List String)}
    (hd : (directory.getD []).Perm b.disk.keys) :
    (∃ store', w.store.open dbPath directory = .ok store' ∧ Isolates xxh64 sort dbPath b store') ↔
      w.ssts = [] ∧ NumbersFound dbPath (directory.getD []) := by
  constructor
  · rintro ⟨store', ho, hi⟩
    exact ⟨hi.nothing_listed ho hd, hi.numbersFound ho⟩
  · rintro ⟨hnil, hn⟩
    obtain ⟨slots, hs⟩ := hb.atRest
    rcases (Used.step hused hclose).freshOrListed with ⟨hlevels, hpool⟩ | hlisted
    · obtain ⟨w₁, h₁, he⟩ := map_eq_ok.mp hclose
      cases he
      have hload := hs.load (fun _ => hs.found_of_numbersFound hd hn) hd
      refine ⟨{ w.store with dbPath := dbPath, levels := b.store.levels }, ?_,
        hs.isolates rfl rfl (World.writeMemtableToSst_memtable h₁).1 hpool⟩
      rw [KVStore.open, hlevels, hload]
      rfl
    · exact absurd hnil hlisted

/-- An object that was closed without an entry, then opened on a directory with one SST. -/
theorem open_isolates_iff_one : ∃ b store', b.disk.keys = ["/b/sst_0.dat"] ∧
    ({ KVStore.new smallConfig with dbPath := "/a" } : KVStore).open "/b" (some ["/b/sst_0.dat"]) =
      .ok store' ∧ Isolates constHash .insertion "/b" b store' := by
  obtain ⟨rs, b, hrun, hkeys⟩ : ∃ rs b,
      runStore constHash .insertion smallConfig "/b" [.put 5 7, .close] = .ok (rs, b) ∧
        b.disk.keys = ["/b/sst_0.dat"] :=
    ⟨_, _, eq_ok_okOr ([], ⟨.new smallConfig, .empty, []⟩) (by decide), by decide⟩
  have hused : Used constHash .insertion smallConfig
      { KVStore.new smallConfig with dbPath := "/a" } :=
    @Used.open _ _ _ _ _ "/a" none .new rfl
  have hfound : NumbersFound "/b" ["/b/sst_0.dat"] := by
    intro n hn
    obtain rfl : n = 0 := sstPath_inj.mp ((List.mem_singleton.mp hn).trans (by decide))
    exact foundLevel_sstPath (i := 0) (by decide) (by norm_num)
  obtain ⟨store', ho, hi⟩ := (@open_isolates_iff constHash _ _ _ hused .empty [] .done _ rfl "/b" _
    (runStore_isDatabase hrun).1 (some ["/b/sst_0.dat"]) (by rw [hkeys]; exact .refl _)).mpr
      ⟨rfl, hfound⟩
  exact ⟨_, store', hkeys, ho, hi⟩

/-- The SST of the first directory is still listed when a new one is opened. -/
theorem not_open_isolates : ¬ ∀ (xxh64 : XXH64) (sort : StdSort) (config : Config)
    (store : KVStore) (disk : Disk) (log : List Event) (r : Reply) (w : World) (dbPath : String)
    (b : World) (directory : Option (List String)), Used xxh64 sort config store →
    World.step xxh64 sort .close ⟨store, disk, log⟩ = .ok (r, w) → IsDatabase xxh64 sort dbPath b →
    (directory.getD []).Perm b.disk.keys →
    ∃ store', w.store.open dbPath directory = .ok store' ∧ Isolates xxh64 sort dbPath b store' := by
  intro h
  have hrun := eq_ok_okOr ([], ⟨.new smallConfig, .empty, []⟩)
    (x := runStore constHash .insertion smallConfig "/a" [.put 5 7]) (by decide)
  have hclose := eq_ok_okOr (.done, ⟨.new smallConfig, .empty, []⟩)
    (x := World.step constHash .insertion .close (okOr ([], ⟨.new smallConfig, .empty, []⟩)
      (runStore constHash .insertion smallConfig "/a" [.put 5 7])).2) (by decide)
  obtain ⟨store', ho, hi⟩ := h constHash .insertion smallConfig _ _ _ _ _ "/b" _ none
    (runStore_isDatabase hrun).2 hclose (.start smallConfig) (.refl _)
  exact absurd (hi.nothing_listed ho (.refl _)) (by decide)

end MiniKvs
