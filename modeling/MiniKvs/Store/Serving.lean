import MiniKvs.Store.Runs
import MiniKvs.Store.Snapshot

/-! Calls that succeed. As long as the LRU list of the pool is intact, reads do not
fail and answer from the newest entry of a key; a flush succeeds when its SSTs fit,
its merges keep the newer entries and the pages it drops are not a stale front. -/

namespace MiniKvs

open Lib Level BufferPool BTreeNode

variable {xxh64 : XXH64} {dbPath : String} {slots : List (Option Sst)} {w w' : World}
  {cs : List (ℕ × Sst)} {disk : Disk} {pool pool' : BufferPool PageData} {log : List Event} {c : ℕ}

abbrev contents (slots : List (Option Sst)) : List (Option (List Entry)) :=
  slots.map (Option.map Sst.entries)

/-- The SSTs of the levels, in the order in which they are read. -/
theorem ssts_levelsOf (slots : List (Option Sst)) :
    (levelsOf dbPath c (slots.map Option.isSome)).flatMap sstList =
      (listed c slots).map fun x => sstPath dbPath x.1 := by
  induction slots generalizing c with
  | nil => rfl
  | cons s slots ih =>
    rw [List.map_cons, levelsOf, List.flatMap_cons, ih, listed, List.map_append]
    cases s <;> rfl

/-! ### Reads -/

namespace Stores

theorem searchValueByKey_steady (h : Stores xxh64 dbPath cs disk pool log)
    (hs : Steady xxh64.page pool) {path : String} {file : File} (hf : disk.find path = some file)
    (key : Uint32) :
    ∃ pool', BTreeNode.searchValueByKey xxh64 key path file pool =
      .ok (lookupValue xxh64 file key, pool') ∧ Stores xxh64 dbPath cs disk pool' log ∧
        Steady xxh64.page pool' := by
  obtain ⟨leaves, hl⟩ := h.layout hf
  obtain ⟨pool', hr, hc, hs'⟩ :=
    hl.search_serves (poolSource_serves (Disk.current_backs hf)) ⟨h.coherent, hs⟩ key
  exact ⟨pool', hr, h.with_pool hc, hs'⟩

theorem scan_steady (h : Stores xxh64 dbPath cs disk pool log) (hs : Steady xxh64.page pool)
    {path : String} {file : File} (hf : disk.find path = some file) (startKey endKey : Uint32) :
    ∃ pool', BTreeNode.scan xxh64 startKey endKey path file pool =
      .ok (scanValue file startKey endKey, pool') ∧ Stores xxh64 dbPath cs disk pool' log ∧
        Steady xxh64.page pool' := by
  obtain ⟨leaves, hl⟩ := h.layout hf
  obtain ⟨pool', hr, hc, hs'⟩ := hl.scanFrom_serves
    (poolSource_serves (Disk.current_backs hf)) ⟨h.coherent, hs⟩ startKey endKey
  exact ⟨pool', hr, h.with_pool hc, hs'⟩

/-- The value of a key that is looked up in the slots from `c` on. -/
theorem findValueInSsts_steady {key : Uint32} : ∀ {slots : List (Option Sst)} {c : ℕ}
    {pool : BufferPool PageData}, Stores xxh64 dbPath cs disk pool log → Steady xxh64.page pool →
    (∀ x ∈ listed c slots, x ∈ cs) → AllSorted Entry.key (contents slots) →
    (∀ e ∈ lookup Entry.key (contents slots) key, e.value ≠ Utils.invalidValue) →
    ∃ pool', World.findValueInSsts (BTreeNode.searchValueByKey xxh64 key) disk
      ((listed c slots).map fun x => sstPath dbPath x.1) pool =
        .ok ((Snapshot.live (lookup Entry.key (contents slots) key)).getD Utils.invalidValue,
          pool') ∧
      Stores xxh64 dbPath cs disk pool' log ∧ Steady xxh64.page pool'
  | [], _, pool, h, hs, _, _, _ => ⟨pool, rfl, h, hs⟩
  | none :: slots, c, pool, h, hs, hsub, hsorted, hval => by
    have hsub' : ∀ x ∈ listed (c + 1) slots, x ∈ cs := hsub
    have ih := findValueInSsts_steady h hs hsub' hsorted.tail hval
    exact ih
  | some x :: slots, c, pool, h, hs, hsub, hsorted, hval => by
    obtain ⟨file, hf, hne, hfile⟩ := (h.stored (2 * c, x) (hsub _ (by simp [listed]))).file
    obtain ⟨pool₁, hsearch, h₁, hs₁⟩ := h.searchValueByKey_steady hs hf key
    have hlist : (listed c (some x :: slots)).map (fun x => sstPath dbPath x.1) =
        sstPath dbPath (2 * c) :: (listed (c + 1) slots).map fun x => sstPath dbPath x.1 := rfl
    have hlookup : lookup Entry.key (contents (some x :: slots)) key =
        (findKey Entry.key x.entries key).or (lookup Entry.key (contents slots) key) := rfl
    rw [lookupValue_of_sstOf hne hsorted.head hfile] at hsearch
    rw [hlookup] at hval ⊢
    rw [hlist, World.findValueInSsts, Disk.read_eq_ok.mpr hf, ok_bind, hsearch, ok_bind]
    simp only [valueIn]
    rcases Option.eq_none_or_eq_some (findKey Entry.key x.entries key) with hkey | ⟨e, hkey⟩
    · rw [hkey, Option.none_or] at hval
      simp only [hkey, Option.map_none, Option.getD_none, Option.none_or]
      rw [if_neg (by decide), if_neg (by simp)]
      exact findValueInSsts_steady h₁ hs₁
        (fun y hy => hsub y (List.mem_append_right _ hy)) hsorted.tail hval
    · have hvalue := hval e (by rw [hkey]; rfl)
      simp only [hkey, Option.map_some, Option.getD_some, Option.some_or, Snapshot.live,
        Option.bind_some]
      split_ifs with htomb
      · exact ⟨pool₁, rfl, h₁, hs₁⟩
      · exact ⟨pool₁, rfl, h₁, hs₁⟩

theorem scanSsts_steady {startKey endKey : Uint32} : ∀ {slots : List (Option Sst)} {c : ℕ}
    {pool : BufferPool PageData} (result : List Entry), Stores xxh64 dbPath cs disk pool log →
    Steady xxh64.page pool → (∀ x ∈ listed c slots, x ∈ cs) →
    AllSorted Entry.key (contents slots) →
    ∃ pool', World.scanSsts (BTreeNode.scan xxh64 startKey endKey) disk
      ((listed c slots).map fun x => sstPath dbPath x.1) result pool =
        .ok (result ++ (contents slots).flatMap fun es => entriesIn startKey endKey (es.getD []),
          pool') ∧
      Stores xxh64 dbPath cs disk pool' log ∧ Steady xxh64.page pool'
  | [], _, pool, result, h, hs, _, _ =>
    ⟨pool, by simp only [contents, List.map_nil, List.flatMap_nil, List.append_nil]; rfl, h, hs⟩
  | none :: slots, c, pool, result, h, hs, hsub, hsorted => by
    have hsub' : ∀ x ∈ listed (c + 1) slots, x ∈ cs := hsub
    have ih := @scanSsts_steady startKey endKey slots (c + 1) pool result h hs hsub' hsorted.tail
    exact ih
  | some x :: slots, c, pool, result, h, hs, hsub, hsorted => by
    obtain ⟨file, hf, hne, hfile⟩ := (h.stored (2 * c, x) (hsub _ (by simp [listed]))).file
    obtain ⟨pool₁, hscan, h₁, hs₁⟩ := h.scan_steady hs hf startKey endKey
    have hlist : (listed c (some x :: slots)).map (fun x => sstPath dbPath x.1) =
        sstPath dbPath (2 * c) :: (listed (c + 1) slots).map fun x => sstPath dbPath x.1 := rfl
    rw [(Layout.of_sstOf hne hfile).scanValue_eq (.of_chunks hsorted.head),
      flatten_chunks maxKeys_pos] at hscan
    rw [hlist, World.scanSsts, Disk.read_eq_ok.mpr hf, ok_bind, hscan, ok_bind]
    simp only
    obtain ⟨pool', hr, h', hs'⟩ := scanSsts_steady (result ++ entriesIn startKey endKey x.entries)
      h₁ hs₁ (fun y hy => hsub y (List.mem_append_right _ hy)) hsorted.tail
    exact ⟨pool', by rw [hr, List.append_assoc]; rfl, h', hs'⟩

end Stores

/-! ### Compactions -/

theorem Snapshot.Fits.sstOf {es : List Entry} (hf : Snapshot.Fits es) (hne : es ≠ [])
    (xxh64 : XXH64) : ∃ file, MiniKvs.sstOf xxh64 es = .ok file := by
  obtain ⟨file, h, -⟩ := construct_spec xxh64 (mt (chunks_eq_nil maxKeys_pos).mp hne) hf
  exact ⟨file, h⟩

/-- No page of these SSTs is a stale front. -/
def Unstale (dbPath : String) (ns : List ℕ) (pool : BufferPool PageData) : Prop :=
  ∀ n ∈ ns, ∀ offset,
    ¬ pool.evictionPolicy.StaleFront (Page.generatePageId (sstPath dbPath n) offset)

namespace Stores

/-- The pages of an SST that is not there are not in the pool. -/
theorem unstale (h : Stores xxh64 dbPath cs disk pool log) (hs : Steady xxh64.page pool) {n : ℕ}
    (hn : n ∉ cs.map Prod.fst) (offset : ℕ) :
    ¬ pool.evictionPolicy.StaleFront (Page.generatePageId (sstPath dbPath n) offset) := by
  intro hst
  obtain ⟨data, path, file, o, hf, hid, -⟩ := hs.staleFront_current h.coherent hst
  rw [← (Page.generatePageId_inj.mp hid).1, h.not_find hn] at hf
  cases hf

/-- Two SSTs leave the pool, and what is stale afterwards was so before. -/
theorem removePages_steady {old new : ℕ} {x y : Sst}
    (h : Stores xxh64 dbPath ((new, y) :: (old, x) :: cs) disk pool log)
    (hs : Steady xxh64.page pool) (hu : Unstale dbPath [old, new] pool) :
    ∃ pool', Level.removePages (.pages xxh64) disk [sstPath dbPath old, sstPath dbPath new] pool =
        .ok pool' ∧ Steady xxh64.page pool' ∧
      ∀ id, pool'.evictionPolicy.StaleFront id → pool.evictionPolicy.StaleFront id := by
  obtain ⟨fn, hfn, -⟩ := (h.stored (new, y) (by simp)).file
  obtain ⟨fo, hfo, -⟩ := (h.stored (old, x) (by simp)).file
  have hunstale : ∀ id ∈ Disk.pageIds (sstPath dbPath old) fo ++
      Disk.pageIds (sstPath dbPath new) fn, ¬ pool.evictionPolicy.StaleFront id := by
    intro id hid
    rcases List.mem_append.mp hid with hid | hid
    · obtain ⟨offset, -, rfl⟩ := List.mem_map.mp hid
      exact hu old (by simp) offset
    · obtain ⟨offset, -, rfl⟩ := List.mem_map.mp hid
      exact hu new (by simp) offset
  rw [Disk.removePages_eq xxh64 hfo hfn]
  exact hs.removeAll hunstale

/-- What a compaction drops, the next one need not fear, nor the pages of its output. -/
theorem unstale_deeper {old new out : ℕ} {ns : List ℕ} (h : Stores xxh64 dbPath cs disk pool log)
    (hs : Steady xxh64.page pool) (hout : out ∉ cs.map Prod.fst)
    (hu : Unstale dbPath (new :: old :: ns) pool)
    (hst : ∀ id, pool'.evictionPolicy.StaleFront id → pool.evictionPolicy.StaleFront id) :
    Unstale dbPath (out :: ns) pool' := by
  intro n hn
  rcases List.mem_cons.mp hn with rfl | hn
  · exact fun offset hst' => h.unstale hs hout offset (hst _ hst')
  · exact fun offset hst' => hu n (by simp only [List.mem_cons]; tauto) offset (hst _ hst')

/-- A merge that keeps the newer entries succeeds. -/
theorem compactFiles_fits {old new out : ℕ} {x y : Sst} {isLastLevel : Bool}
    (h : Stores xxh64 dbPath ((new, y) :: (old, x) :: cs) disk pool log)
    (hout : out ∉ (((new, y) :: (old, x) :: cs).map Prod.fst))
    (hkey : ∀ e ∈ x.entries, e.key ≠ Utils.invalidValue)
    (hclash : NoClash isLastLevel x.entries y.entries)
    (hfits : Snapshot.Fits (mergeNewer Entry.key x.entries y.entries)) :
    ∃ disk', Level.compactFiles xxh64 (sstPath dbPath old) (sstPath dbPath new)
      (sstPath dbPath out) isLastLevel disk = .ok disk' := by
  simp only [List.map_cons, List.mem_cons, not_or] at hout
  have hnew : sstPath dbPath out ≠ sstPath dbPath new := fun he => hout.1 (sstPath_inj.mp he)
  have hold : sstPath dbPath out ≠ sstPath dbPath old := fun he => hout.2.1 (sstPath_inj.mp he)
  obtain ⟨fn, hfn, hne, hsn⟩ := (h.stored (new, y) (by simp)).file
  obtain ⟨fo, hfo, heo, hso⟩ := (h.stored (old, x) (by simp)).file
  simp only at hfn hne hsn hfo heo hso
  obtain ⟨output, houtput⟩ := hfits.sstOf (mergeNewer_ne_nil hne) xxh64
  rw [Level.compactFiles, Disk.read_eq_ok.mpr ((OrdMap.find_set_of_ne _ _ hold).trans hfo),
    Disk.read_eq_ok.mpr ((OrdMap.find_set_of_ne _ _ hnew).trans hfn)]
  simp only [ok_bind, mergeSsts_union heo hne hso hsn hkey hclash, houtput]
  exact ⟨_, rfl⟩

end Stores

/-! ### Flushes -/

theorem Snapshot.Settles.fits {slots : List (Option (List Entry))} {es : List Entry}
    (h : Snapshot.Settles slots es) : Snapshot.Fits es := by
  match slots, h with
  | [], h => exact h
  | none :: _, h => exact h
  | some _ :: _, h => exact h.1

/-- A merge that keeps the newer entries is the union. -/
theorem Merged.entries_eq {isLastLevel : Bool} {old new merged : Sst}
    (h : Merged isLastLevel old new merged) (hne : new.entries ≠ [])
    (hkey : ∀ e ∈ old.entries, e.key ≠ Utils.invalidValue)
    (hclash : NoClash isLastLevel old.entries new.entries) :
    merged.entries = mergeNewer Entry.key old.entries new.entries := by
  obtain ⟨-, fuel, hfuel, hm⟩ := h
  have hpos := List.length_pos_iff.mpr hne
  rw [mergeSlots_eq_mergeNewer (by omega) (by omega) hkey hclash] at hm
  exact (Except.ok.inj hm).symm

/-- The contents after an SST has settled are those of the snapshot. -/
theorem contents_of_carry {slots slots' : List (Option Sst)} {x : Sst}
    (h : Carry Merged slots x slots') (hne : x.entries ≠ [])
    (hs : Snapshot.Settles (contents slots) x.entries) :
    contents slots' = settle Entry.key (contents slots) x.entries := by
  induction h with
  | extend a => rfl
  | free a slots => rfl
  | taken hm rest ih =>
    obtain ⟨-, hkey, hclash, hrest⟩ := hs
    rw [List.isEmpty_map] at hclash
    have hentries := hm.entries_eq hne hkey hclash
    rw [contents, List.map_cons, ← contents, ih (hentries ▸ mergeNewer_ne_nil hne)
      (hentries ▸ hrest), hentries]
    rfl

/-- The numbers of the SSTs whose pages may be dropped once an SST has come to level `c`. -/
def dropping (c : ℕ) (slots : List (Option Sst)) : List ℕ :=
  (2 * c + (slots.headD none).isSome.toNat) ::
    (listed c (slots.takeWhile Option.isSome)).map Prod.fst

namespace Arrived

/-- A round drops the pages of its two SSTs and leaves the list intact. -/
theorem drop_steady {x y : Sst} {tree : Tree}
    (h : Arrived xxh64 dbPath c (some y :: slots) x tree)
    (hs : Steady xxh64.page tree.bufferPool)
    (hu : Unstale dbPath (dropping c (some y :: slots)) tree.bufferPool) :
    ∃ pool', removePages (.pages xxh64) tree.disk
        [sstPath dbPath (2 * c), sstPath dbPath (2 * c + 1)] tree.bufferPool = .ok pool' ∧
      Steady xxh64.page pool' ∧ Unstale dbPath (dropping (c + 1) slots) pool' := by
  have hstores : Stores xxh64 dbPath ((2 * c + 1, x) :: (2 * c, y) :: listed (c + 1) slots)
    tree.disk tree.bufferPool tree.log := h.stores
  have hnumbers : dropping c (some y :: slots) =
      (2 * c + 1) :: 2 * c :: (listed (c + 1) (slots.takeWhile Option.isSome)).map Prod.fst := rfl
  rw [hnumbers] at hu
  have htwo : Unstale dbPath [2 * c, 2 * c + 1] tree.bufferPool := by
    intro n hn
    refine hu n ?_
    simp only [List.mem_cons, List.not_mem_nil, or_false] at hn ⊢
    tauto
  obtain ⟨pool', hp, hs', hst⟩ := hstores.removePages_steady hs htwo
  exact ⟨pool', hp, hs', hstores.unstale_deeper hs out_notMem_compacted hu hst⟩

/-- Rounds that succeed leave the list intact. -/
theorem keeps_steady : ∀ {slots : List (Option Sst)} {fuel c : ℕ} {x : Sst} {tree tree' : Tree},
    Arrived xxh64 dbPath c slots x tree → Steady xxh64.page tree.bufferPool →
    Unstale dbPath (dropping c slots) tree.bufferPool →
    compactLevels (.pages xxh64) dbPath fuel c tree = .ok tree' →
    Steady xxh64.page tree'.bufferPool
  | slots, 0, _, _, _, _, _, _, _, hr => by cases hr
  | [], fuel + 1, c, x, tree, _, h, hs, _, hr => by
    rw [compactLevels_false h.levels] at hr
    cases hr
    exact hs
  | none :: slots, fuel + 1, c, x, tree, _, h, hs, _, hr => by
    rw [compactLevels_false h.levels] at hr
    cases hr
    exact hs
  | some y :: slots, fuel + 1, c, x, tree, _, h, hs, hu, hr => by
    obtain ⟨pool', hp, hs', hu'⟩ := h.drop_steady hs hu
    rw [compactLevels_true h.levels, List.tail_cons, hp, ok_bind] at hr
    obtain ⟨disk', hd, hr⟩ := bind_eq_ok.mp hr
    obtain ⟨m, -, h₁⟩ := h.compacted hp hd
    exact h₁.keeps_steady hs' hu' hr

/-- The rounds succeed. -/
theorem settles_steady : ∀ {slots : List (Option Sst)} {fuel c : ℕ} {x : Sst} {tree : Tree},
    Arrived xxh64 dbPath c slots x tree → Steady xxh64.page tree.bufferPool →
    slots.length < fuel → Snapshot.Settles (contents slots) x.entries →
    Unstale dbPath (dropping c slots) tree.bufferPool →
    ∃ tree', compactLevels (.pages xxh64) dbPath fuel c tree = .ok tree'
  | slots, 0, _, _, _, _, _, hfuel, _, _ => by omega
  | [], fuel + 1, c, x, tree, h, _, _, _, _ => ⟨tree, compactLevels_false h.levels⟩
  | none :: slots, fuel + 1, c, x, tree, h, _, _, _, _ => ⟨tree, compactLevels_false h.levels⟩
  | some y :: slots, fuel + 1, c, x, tree, h, hs, hfuel, hset, hu => by
    obtain ⟨-, hkey, hclash, hrest⟩ := hset
    rw [List.isEmpty_map] at hclash
    have hstores : Stores xxh64 dbPath ((2 * c + 1, x) :: (2 * c, y) :: listed (c + 1) slots)
      tree.disk tree.bufferPool tree.log := h.stores
    obtain ⟨pool', hp, hs', hu'⟩ := h.drop_steady hs hu
    obtain ⟨disk', hd⟩ := hstores.compactFiles_fits out_notMem_compacted hkey hclash hrest.fits
    have hpath : compactPath dbPath c (slots.map Option.isSome) =
        sstPath dbPath (2 * (c + 1) + (slots.headD none).isSome.toNat) := by
      rw [compactPath, headD_isSome]
    rw [← hpath, ← List.isEmpty_map (f := Option.isSome)] at hd
    obtain ⟨m, hm, h₁⟩ := h.compacted hp hd
    obtain ⟨_, -, hne, -⟩ := (hstores.stored (2 * c + 1, x) List.mem_cons_self).file
    have hentries := hm.entries_eq hne hkey hclash
    obtain ⟨tree', hr⟩ := h₁.settles_steady hs' (by simpa using hfuel) (hentries ▸ hrest) hu'
    refine ⟨tree', ?_⟩
    rw [compactLevels_true h.levels, List.tail_cons, hp, ok_bind, hd, ok_bind, hr]

end Arrived

namespace AtRest

/-- The pool has no page of the SST that is written, so only those listed count. -/
theorem unstale_dropping (h : AtRest xxh64 dbPath slots w)
    (hs : Steady xxh64.page w.store.bufferPool)
    (hu : Unstale dbPath ((listed 0 (slots.takeWhile Option.isSome)).map Prod.fst)
      w.store.bufferPool) :
    Unstale dbPath (dropping 0 slots) w.store.bufferPool := by
  intro n hn
  rcases List.mem_cons.mp hn with rfl | hn
  · exact fun offset => h.stores.unstale hs out_notMem_listed offset
  · exact hu n hn

/-- A flush that drops no stale front leaves the list intact. -/
theorem write_keeps (h : AtRest xxh64 dbPath slots w) (hs : Steady xxh64.page w.store.bufferPool)
    (hne : AVLTree.entries w.store.memtable ≠ [])
    (hu : Unstale dbPath ((listed 0 (slots.takeWhile Option.isSome)).map Prod.fst)
      w.store.bufferPool) (hw : w.writeMemtableToSst xxh64 = .ok w') :
    Steady xxh64.page w'.store.bufferPool := by
  rw [h.write_eq hne] at hw
  obtain ⟨file, hfile, hw⟩ := bind_eq_ok.mp hw
  obtain ⟨_, -, hw⟩ := bind_eq_ok.mp hw
  obtain ⟨tree, ht, hw⟩ := bind_eq_ok.mp hw
  cases hw
  exact (h.arrived hne hfile).keeps_steady hs (h.unstale_dropping hs hu) ht

/-- A flush that loses nothing. -/
theorem write_steady (h : AtRest xxh64 dbPath slots w) (hs : Steady xxh64.page w.store.bufferPool)
    (hne : AVLTree.entries w.store.memtable ≠ [])
    (hset : Snapshot.Settles (contents slots) (AVLTree.entries w.store.memtable))
    (hcount : w.store.sstCount + 1 < 2147483648)
    (hu : Unstale dbPath ((listed 0 (slots.takeWhile Option.isSome)).map Prod.fst)
      w.store.bufferPool) :
    ∃ slots' tree, w.writeMemtableToSst xxh64 = .ok (w.flushed tree) ∧
      AtRest xxh64 dbPath slots' (w.flushed tree) ∧ Steady xxh64.page tree.bufferPool ∧
      contents slots' =
        settle Entry.key (contents slots) (AVLTree.entries w.store.memtable) := by
  obtain ⟨file, hfile⟩ := hset.fits.sstOf hne xxh64
  have hlen : slots.length < slots.tail.length + 2 := by
    rw [List.length_tail]
    omega
  obtain ⟨tree, ht⟩ :=
    (h.arrived hne hfile).settles_steady hs hlen hset (h.unstale_dropping hs hu)
  have hw : w.writeMemtableToSst xxh64 = .ok (w.flushed tree) := by
    rw [h.write_eq hne, hfile, ok_bind, Utils.increment_eq_ok.mpr ⟨hcount, rfl⟩, ok_bind, ht]
    rfl
  obtain ⟨slots', tree', hc, he, h', -⟩ := h.write hne hw
  exact ⟨slots', tree, hw, h', h.write_keeps hs hne hu hw, contents_of_carry hc hne hset⟩

end AtRest

end MiniKvs
