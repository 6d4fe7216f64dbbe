import MiniKvs.Sst.Unfiltered
import MiniKvs.Store.Runs

/-! What callers of the store cannot see: the filters, the buffer pool with its sizes, and
the hash. Two stores that differ in these alone answer alike and leave the same directory,
up to the filters in it. -/

namespace MiniKvs

open Lib Level BTreeNode

variable {xxh64 xxh64' : XXH64} {sort : StdSort} {dbPath : String} {slots : List (Option Sst)}
  {w w' v v' : World}

/-! ### Lookups without the filters -/

/-- `find_value_in_ssts`, with no page cached and no filter asked. -/
def findValueInTrees (disk : Disk) (key : Uint32) : List String → Outcome Uint32
  | [] => .ok Utils.invalidValue
  | sst :: ssts => do
    let file ← disk.read sst
    let (value, _) ← searchNode (fileSource file) key file.numPages 1 ()
    if value = Utils.tombStone then .ok Utils.invalidValue
    else if value ≠ Utils.invalidValue then .ok value
    else findValueInTrees disk key ssts

/-- `get`, with no page cached and no filter asked. -/
def World.getUnfiltered (key : Uint32) (w : World) : Outcome Uint32 :=
  let value := AVLTree.get w.store.memtable key
  if value = Utils.tombStone then .ok Utils.invalidValue
  else if value ≠ Utils.invalidValue then .ok value
  else findValueInTrees w.disk key w.ssts

namespace AtRest

theorem layout (h : AtRest xxh64 dbPath slots w) {path : String} (hp : path ∈ w.ssts) :
    ∃ file leaves, w.disk.read path = .ok file ∧ Layout xxh64 leaves file := by
  obtain ⟨x, hx, rfl⟩ := h.mem_ssts.mp hp
  obtain ⟨file, hf, -⟩ := (h.stores.stored x hx).file
  obtain ⟨leaves, hl⟩ := h.stores.layout hf
  exact ⟨file, leaves, Disk.read_eq_ok.mpr hf, hl⟩

/-- The lookup without filters ends, and finds what the filtered one finds. -/
theorem search_trees (h : AtRest xxh64 dbPath slots w) (key : Uint32) :
    ∀ {ssts : List String}, (∀ path ∈ ssts, path ∈ w.ssts) →
      ∃ value, findValueInTrees w.disk key ssts = .ok value ∧
        findValueInFiles xxh64 w.disk key ssts = .ok value
  | [], _ => ⟨_, rfl, rfl⟩
  | sst :: ssts, hsub => by
    obtain ⟨file, leaves, hf, hl⟩ := h.layout (hsub sst List.mem_cons_self)
    obtain ⟨value, htree, hfile⟩ :=
      h.search_trees key fun path hp => hsub path (List.mem_cons_of_mem _ hp)
    have hsearch := h.stores.search_file (Disk.read_eq_ok.mp hf) key
    rw [hl.lookupValue_eq_treeValue] at hsearch
    simp only [findValueInTrees, findValueInFiles, hf, ok_bind, hsearch,
      hl.searchNode_file]
    split_ifs
    · exact ⟨_, rfl, rfl⟩
    · exact ⟨_, rfl, rfl⟩
    · exact ⟨value, htree, hfile⟩

theorem getUnfiltered (h : AtRest xxh64 dbPath slots w) (key : Uint32) :
    ∃ value, w.getUnfiltered key = .ok value ∧ w.getDirect xxh64 key = .ok value := by
  rw [World.getUnfiltered, World.getDirect]
  split_ifs
  · exact ⟨_, rfl, rfl⟩
  · exact ⟨_, rfl, rfl⟩
  · exact h.search_trees key fun _ hp => hp

end AtRest

/-- In every state reached a lookup that returns gives what the trees alone give. -/
theorem runStore_getUnfiltered (xxh64 : XXH64) (sort : StdSort) (config : Config) (dbPath : String)
    (ops : List Op) (rs : List Reply) (w : World) (key : Uint32)
    (h : runStore xxh64 sort config dbPath ops = .ok (rs, w)) :
    ∃ value, w.getUnfiltered key = .ok value ∧
      ∀ found w', w.get xxh64 key = .ok (found, w') → found = value := by
  obtain ⟨slots, hslots⟩ := runStore_atRest h
  obtain ⟨value, htree, hdirect⟩ := hslots.getUnfiltered key
  refine ⟨value, htree, fun found w' hget => ?_⟩
  have hfound := (hslots.get hget).1
  rw [hdirect] at hfound
  exact (Except.ok.inj hfound).symm

/-- The filters let every key pass under a constant hash. -/
theorem runStore_getUnfiltered_three : ∃ (w : World) (value : Uint32),
    w.getUnfiltered 4 = .ok value ∧
      ∀ found w', w.get constHash 4 = .ok (found, w') → found = value := by
  have hrun := eq_ok_okOr ([], ⟨.new smallConfig, .empty, []⟩)
    (x := runStore constHash .insertion smallConfig "/a" [.put 5 7, .put 6 8, .put 5 9])
    (by decide +kernel)
  exact ⟨_, runStore_getUnfiltered constHash .insertion smallConfig "/a" _ _ _ 4 hrun⟩

/-! ### Stores that differ in pool and hash -/

/-- The stores differ at most in their pools. -/
def KVStore.Alike (store store' : KVStore) : Prop :=
  store' = { store with bufferPool := store'.bufferPool }

namespace KVStore.Alike

variable {store store' store'' : KVStore}

theorem symm (h : store.Alike store') : store'.Alike store := by
  rw [KVStore.Alike, h]

theorem trans (h : store.Alike store') (h' : store'.Alike store'') : store.Alike store'' := by
  rw [KVStore.Alike] at h ⊢
  rw [h] at h'
  exact h'

end KVStore.Alike

/-- The stores differ at most in their pools, and in the filters of their files. -/
structure World.Alike (w w' : World) : Prop where
  store : w.store.Alike w'.store
  log : w'.log = w.log
  files : ∀ path, Option.Rel File.SameNodes (w.disk.find path) (w'.disk.find path)

/-- Reads change the pool alone. -/
theorem World.get_alike {key value : Uint32} (h : w.get xxh64 key = .ok (value, v)) :
    w.store.Alike v.store ∧ v.log = w.log := by
  simp only [World.get] at h
  split_ifs at h
  · cases h
    exact ⟨rfl, rfl⟩
  · cases h
    exact ⟨rfl, rfl⟩
  · obtain ⟨x, -, h⟩ := bind_eq_ok.mp h
    cases h
    exact ⟨rfl, rfl⟩

theorem World.scan_alike {startKey endKey : Uint32} {found : List Entry}
    (h : w.scan xxh64 sort startKey endKey = .ok (found, v)) :
    w.store.Alike v.store ∧ v.log = w.log := by
  obtain ⟨x, -, h⟩ := bind_eq_ok.mp h
  cases h
  exact ⟨rfl, rfl⟩

/-- A merge has one result, however long it may take. -/
theorem mergeSlots_unique {isLastLevel : Bool} {fuel : ℕ} : ∀ {fuel' : ℕ}
    {old new slots slots' : List Entry}, mergeSlots isLastLevel fuel old new = .ok slots →
    mergeSlots isLastLevel fuel' old new = .ok slots' → slots = slots' := by
  induction fuel with
  | zero => intro _ _ _ _ _ h; cases h
  | succ fuel ih =>
    intro fuel' old new slots slots' h h'
    cases fuel' with
    | zero => cases h'
    | succ fuel' =>
      rw [mergeSlots_succ] at h h'
      split_ifs at h h'
      · exact Except.ok.inj (h.symm.trans h')
      · obtain ⟨rest, hr, rfl⟩ := map_eq_ok.mp h
        obtain ⟨rest', hr', rfl⟩ := map_eq_ok.mp h'
        rw [ih hr hr']

theorem Merged.unique {isLastLevel : Bool} {x y m m' : Sst} (h : Merged isLastLevel x y m)
    (h' : Merged isLastLevel x y m') : m = m' := by
  obtain ⟨hflushes, fuel, -, hslots⟩ := h
  obtain ⟨hflushes', fuel', -, hslots'⟩ := h'
  cases m
  cases m'
  rw [Sst.mk.injEq]
  exact ⟨hflushes.trans hflushes'.symm, mergeSlots_unique hslots hslots'⟩

/-- Two stores at rest on the same contents. -/
structure Twins (xxh64 xxh64' : XXH64) (dbPath : String) (slots : List (Option Sst))
    (w w' : World) : Prop where
  left : AtRest xxh64 dbPath slots w
  right : AtRest xxh64' dbPath slots w'
  store : w.store.Alike w'.store

namespace Twins

theorem flushes_eq (h : Twins xxh64 xxh64' dbPath slots w w') : flushes w'.log = flushes w.log :=
  Nat.eq_of_testBit_eq fun i => by
    rw [Nat.testBit_eq_inth, Nat.testBit_eq_inth, ← h.left.bits, ← h.right.bits]

theorem ssts (h : Twins xxh64 xxh64' dbPath slots w w') : w'.ssts = w.ssts := by
  rw [World.ssts, World.ssts, h.left.levels, h.right.levels]

/-- Both directories have the files of the same entries. -/
theorem find (h : Twins xxh64 xxh64' dbPath slots w w') {path : String} (hp : path ∈ w.ssts) :
    ∃ file file' leaves leaves', w.disk.find path = some file ∧ w'.disk.find path = some file' ∧
      file.SameNodes file' ∧ Layout xxh64 leaves file ∧ Layout xxh64' leaves' file' := by
  obtain ⟨x, hx, rfl⟩ := h.left.mem_ssts.mp hp
  obtain ⟨file, hf, hne, hsst⟩ := (h.left.stores.stored x hx).file
  obtain ⟨file', hf', -, hsst'⟩ := (h.right.stores.stored x hx).file
  exact ⟨file, file', _, _, hf, hf', .of_sstOf hne hsst hsst', .of_sstOf hne hsst,
    .of_sstOf hne hsst'⟩

theorem alike (h : Twins xxh64 xxh64' dbPath slots w w') : w.Alike w' where
  store := h.store
  log := by rw [h.left.log, h.right.log, h.flushes_eq]
  files path := by
    by_cases hp : path ∈ w.ssts
    · obtain ⟨file, file', _, _, hf, hf', hsame, -⟩ := h.find hp
      rw [hf, hf']
      exact .some hsame
    · have hp' : path ∉ w'.ssts := by rwa [h.ssts]
      rw [← h.left.isCounter.files, OrdMap.mem_keys, Option.not_isSome_iff_eq_none] at hp
      rw [← h.right.isCounter.files, OrdMap.mem_keys, Option.not_isSome_iff_eq_none] at hp'
      rw [hp, hp']
      exact .none

/-! ### Reads -/

theorem search_trees (h : Twins xxh64 xxh64' dbPath slots w w') (key : Uint32) :
    ∀ {ssts : List String}, (∀ path ∈ ssts, path ∈ w.ssts) →
      findValueInTrees w.disk key ssts = findValueInTrees w'.disk key ssts
  | [], _ => rfl
  | sst :: ssts, hsub => by
    obtain ⟨file, file', _, _, hf, hf', hsame, hl, hl'⟩ := h.find (hsub sst List.mem_cons_self)
    have ih := h.search_trees key fun path hp => hsub path (List.mem_cons_of_mem _ hp)
    rw [findValueInTrees, findValueInTrees, Disk.read_eq_ok.mpr hf,
      Disk.read_eq_ok.mpr hf', ok_bind, ok_bind, hl.searchNode_file, hl'.searchNode_file,
      hsame.treeValue hl hl', ih]

theorem scan_files (h : Twins xxh64 xxh64' dbPath slots w w') (startKey endKey : Uint32) :
    ∀ {ssts : List String} (result : List Entry), (∀ path ∈ ssts, path ∈ w.ssts) →
      scanFiles w.disk startKey endKey ssts result =
        scanFiles w'.disk startKey endKey ssts result
  | [], _, _ => rfl
  | sst :: ssts, result, hsub => by
    obtain ⟨file, file', _, _, hf, hf', hsame, hl, hl'⟩ := h.find (hsub sst List.mem_cons_self)
    have ih := fun result =>
      h.scan_files startKey endKey result fun path hp => hsub path (List.mem_cons_of_mem _ hp)
    rw [scanFiles, scanFiles, Disk.read_eq_ok.mpr hf, Disk.read_eq_ok.mpr hf',
      ok_bind, ok_bind, hsame.scanFrom hl hl']
    simp only [ih]

theorem memtable (h : Twins xxh64 xxh64' dbPath slots w w') :
    w'.store.memtable = w.store.memtable := by rw [h.store]

theorem get (h : Twins xxh64 xxh64' dbPath slots w w') {key value value' : Uint32}
    (hw : w.get xxh64 key = .ok (value, v)) (hw' : w'.get xxh64' key = .ok (value', v')) :
    value = value' ∧ Twins xxh64 xxh64' dbPath slots v v' := by
  obtain ⟨hd, hrest⟩ := h.left.get hw
  obtain ⟨hd', hrest'⟩ := h.right.get hw'
  obtain ⟨a, hu, ha⟩ := h.left.getUnfiltered key
  obtain ⟨a', hu', ha'⟩ := h.right.getUnfiltered key
  have hsame : w.getUnfiltered key = w'.getUnfiltered key := by
    rw [World.getUnfiltered, World.getUnfiltered, h.memtable, h.ssts,
      h.search_trees key fun _ hp => hp]
  rw [hu, hu', Except.ok.injEq] at hsame
  rw [hd, Except.ok.injEq] at ha
  rw [hd', Except.ok.injEq] at ha'
  exact ⟨by rw [ha, ha', hsame], hrest, hrest',
    ((World.get_alike hw).1.symm.trans h.store).trans (World.get_alike hw').1⟩

theorem scan (h : Twins xxh64 xxh64' dbPath slots w w') {startKey endKey : Uint32}
    {found found' : List Entry} (hw : w.scan xxh64 sort startKey endKey = .ok (found, v))
    (hw' : w'.scan xxh64' sort startKey endKey = .ok (found', v')) :
    found = found' ∧ Twins xxh64 xxh64' dbPath slots v v' := by
  obtain ⟨hd, hrest⟩ := h.left.scan hw
  obtain ⟨hd', hrest'⟩ := h.right.scan hw'
  have hsame : w.scanDirect sort startKey endKey = w'.scanDirect sort startKey endKey := by
    rw [World.scanDirect, World.scanDirect, h.memtable, h.ssts,
      h.scan_files startKey endKey _ fun _ hp => hp]
  rw [hd, hd', Except.ok.injEq] at hsame
  exact ⟨hsame, hrest, hrest',
    ((World.scan_alike hw).1.symm.trans h.store).trans (World.scan_alike hw').1⟩

/-! ### Writes -/

theorem with_memtable (h : Twins xxh64 xxh64' dbPath slots w w') (memtable : Node)
    {entries entries' : ℕ} (he : entries' = entries) : Twins xxh64 xxh64' dbPath slots
      { w with store := { w.store with
        memtable := memtable, currentMemtableEntries := entries } }
      { w' with store := { w'.store with
        memtable := memtable, currentMemtableEntries := entries' } } where
  left := h.left.with_memtable memtable entries
  right := h.right.with_memtable memtable entries'
  store := by
    have hs := h.store
    rw [KVStore.Alike] at hs ⊢
    rw [hs, he]

/-- Both stores write the same entries, and carry them into the same levels. -/
theorem write (h : Twins xxh64 xxh64' dbPath slots w w')
    (hw : w.writeMemtableToSst xxh64 = .ok v) (hw' : w'.writeMemtableToSst xxh64' = .ok v') :
    ∃ slots', Twins xxh64 xxh64' dbPath slots' v v' := by
  by_cases hne : AVLTree.entries w.store.memtable = []
  · rw [AtRest.write_nil hne] at hw
    rw [AtRest.write_nil (by rwa [h.memtable])] at hw'
    cases hw
    cases hw'
    exact ⟨slots, h⟩
  · obtain ⟨slots₁, tree, hc, rfl, hrest, -⟩ := h.left.write hne hw
    obtain ⟨slots₂, tree', hc', rfl, hrest', -⟩ := h.right.write (by rwa [h.memtable]) hw'
    rw [h.flushes_eq, h.memtable] at hc'
    obtain rfl := hc.unique (fun _ _ _ _ _ hm hm' => hm.unique hm') hc'
    refine ⟨slots₁, hrest, hrest', ?_⟩
    have hlevels : tree.levels = tree'.levels := hrest.levels.trans hrest'.levels.symm
    have hs := h.store
    rw [KVStore.Alike] at hs ⊢
    rw [World.flushed, World.flushed, hs, hlevels]

theorem put (h : Twins xxh64 xxh64' dbPath slots w w') {key value : Uint32}
    (hw : w.put xxh64 key value = .ok v) (hw' : w'.put xxh64' key value = .ok v') :
    ∃ slots', Twins xxh64 xxh64' dbPath slots' v v' := by
  have hentries : w'.store.currentMemtableEntries + 1 = w.store.currentMemtableEntries + 1 := by
    rw [h.store]
  have hfull : w'.store.currentMemtableEntries + 1 ≥ w'.store.memtableSize ↔
      w.store.currentMemtableEntries + 1 ≥ w.store.memtableSize := by
    rw [h.store]
  obtain ⟨memtable, hput, hw⟩ := bind_eq_ok.mp hw
  obtain ⟨memtable', hput', hw'⟩ := bind_eq_ok.mp hw'
  rw [h.memtable, hput, Except.ok.injEq] at hput'
  subst hput'
  have htwins := h.with_memtable memtable hentries
  simp only at hw hw'
  by_cases hf : w.store.currentMemtableEntries + 1 ≥ w.store.memtableSize
  · rw [if_pos hf] at hw
    rw [if_pos (hfull.mpr hf)] at hw'
    exact htwins.write hw hw'
  · rw [if_neg hf] at hw
    rw [if_neg (mt hfull.mp hf)] at hw'
    cases hw
    cases hw'
    exact ⟨slots, htwins⟩

theorem deleteKey (h : Twins xxh64 xxh64' dbPath slots w w') {key : Uint32}
    (hw : w.deleteKey key = .ok v) (hw' : w'.deleteKey key = .ok v') :
    Twins xxh64 xxh64' dbPath slots v v' := by
  obtain ⟨memtable, hput, hw⟩ := bind_eq_ok.mp hw
  obtain ⟨memtable', hput', hw'⟩ := bind_eq_ok.mp hw'
  rw [h.memtable, hput, Except.ok.injEq] at hput'
  subst hput'
  cases hw
  cases hw'
  exact h.with_memtable memtable (by rw [h.store])

theorem step (h : Twins xxh64 xxh64' dbPath slots w w') {op : Op} {r r' : Reply}
    (hw : World.step xxh64 sort op w = .ok (r, v))
    (hw' : World.step xxh64' sort op w' = .ok (r', v')) :
    r = r' ∧ ∃ slots', Twins xxh64 xxh64' dbPath slots' v v' := by
  cases op with
  | put key value =>
    obtain ⟨w₁, h₁, he⟩ := map_eq_ok.mp hw
    obtain ⟨w₁', h₁', he'⟩ := map_eq_ok.mp hw'
    cases he
    cases he'
    exact ⟨rfl, h.put h₁ h₁'⟩
  | deleteKey key =>
    obtain ⟨w₁, h₁, he⟩ := map_eq_ok.mp hw
    obtain ⟨w₁', h₁', he'⟩ := map_eq_ok.mp hw'
    cases he
    cases he'
    exact ⟨rfl, slots, h.deleteKey h₁ h₁'⟩
  | get key =>
    obtain ⟨x, h₁, he⟩ := map_eq_ok.mp hw
    obtain ⟨x', h₁', he'⟩ := map_eq_ok.mp hw'
    cases he
    cases he'
    obtain ⟨hvalue, htwins⟩ := h.get h₁ h₁'
    exact ⟨congrArg Reply.value hvalue, slots, htwins⟩
  | scan startKey endKey =>
    obtain ⟨x, h₁, he⟩ := map_eq_ok.mp hw
    obtain ⟨x', h₁', he'⟩ := map_eq_ok.mp hw'
    cases he
    cases he'
    obtain ⟨hfound, htwins⟩ := h.scan h₁ h₁'
    exact ⟨congrArg Reply.pairs hfound, slots, htwins⟩
  | close =>
    obtain ⟨w₁, h₁, he⟩ := map_eq_ok.mp hw
    obtain ⟨w₁', h₁', he'⟩ := map_eq_ok.mp hw'
    cases he
    cases he'
    exact ⟨rfl, h.write h₁ h₁'⟩

end Twins

/-- Runs that return give the same replies whatever the pool and the hash, and leave the
same store and directory but for pool and filters. -/
theorem runStore_alike (xxh64 xxh64' : XXH64) (sort : StdSort) (config config' : Config)
    (dbPath : String) (ops : List Op) (rs rs' : List Reply) (w w' : World)
    (hsize : config'.memtableSize = config.memtableSize)
    (h : runStore xxh64 sort config dbPath ops = .ok (rs, w))
    (h' : runStore xxh64' sort config' dbPath ops = .ok (rs', w')) : rs = rs' ∧ w.Alike w' := by
  have hstart : Twins xxh64 xxh64' dbPath []
      ⟨{ KVStore.new config with dbPath := dbPath }, .empty, []⟩
      ⟨{ KVStore.new config' with dbPath := dbPath }, .empty, []⟩ :=
    ⟨.start config dbPath, .start config' dbPath, by
      rw [KVStore.Alike, KVStore.new, KVStore.new, hsize]⟩
  obtain ⟨hreplies, slots, htwins⟩ := run_agree (World.step xxh64 sort)
    (R := fun w w' => ∃ slots, Twins xxh64 xxh64' dbPath slots w w')
    (fun _ _ _ _ _ _ _ ⟨_, ht⟩ hw hw' => ht.step hw hw') ⟨[], hstart⟩ h h'
  exact ⟨hreplies, htwins.alike⟩

/-- A pool of four to eight pages. -/
def largeConfig : Config :=
  { smallConfig with
    initialSize := 4
    maxSize := 8
    initialSize_pos := by norm_num
    initialSize_le := by norm_num
    maxSize_lt := by norm_num }

def spreadHash : XXH64 where
  page pageId := UInt64.ofNat pageId.length
  key key seed := UInt64.ofNat (key.val + 7 * seed)

theorem runStore_alike_two : ∃ w w' : World, w.Alike w' ∧ flushes w.log = 2 := by
  have hrun := eq_ok_okOr ([], ⟨.new smallConfig, .empty, []⟩)
    (x := runStore constHash .insertion smallConfig "/a" [.put 5 7, .get 5, .put 5 9])
    (by decide +kernel)
  have hrun' := eq_ok_okOr ([], ⟨.new largeConfig, .empty, []⟩)
    (x := runStore spreadHash .insertion largeConfig "/a" [.put 5 7, .get 5, .put 5 9])
    (by decide +kernel)
  exact ⟨_, _, (runStore_alike constHash spreadHash .insertion smallConfig largeConfig "/a" _ _ _
    _ _ rfl hrun hrun').2, by decide +kernel⟩

end MiniKvs
