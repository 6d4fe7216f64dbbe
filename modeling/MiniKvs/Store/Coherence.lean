import MiniKvs.Store.ReadCost

/-! The buffer pool as a cache of the files. The pages held are those of the files in
every state reached. A read through the pool then returns, with what the files say,
just when the pool can serve the pages that it asks for. A pool with its LRU list intact
can, and a flush that drops no stale front page leaves it so. -/

namespace MiniKvs

open Lib Level BufferPool

variable {xxh64 : XXH64} {sort : StdSort} {config : Config} {dbPath : String}
  {slots : List (Option Sst)} {w w' : World}

namespace World

/-- A lookup returns, and returns what the files say. -/
def GetsDirect (xxh64 : XXH64) (key : Uint32) (w : World) : Prop :=
  ∃ value w', w.get xxh64 key = .ok (value, w') ∧ w.getDirect xxh64 key = .ok value

def ScansDirect (xxh64 : XXH64) (sort : StdSort) (startKey endKey : Uint32) (w : World) : Prop :=
  ∃ result w', w.scan xxh64 sort startKey endKey = .ok (result, w') ∧
    w.scanDirect sort startKey endKey = .ok result

/-- The pool can serve the pages of every read. -/
structure Serves (xxh64 : XXH64) (w : World) : Prop where
  asked : ∀ key, ∃ pool,
    w.store.bufferPool.serve xxh64.page (w.pagesAsked xxh64 key) = .ok pool
  scanned : ∀ startKey endKey, ∃ pool,
    w.store.bufferPool.serve xxh64.page (w.pagesScanned startKey endKey) = .ok pool

end World

/-- The pages held are those of the files, and every read through the pool returns
what it would return from the files. -/
structure IsCoherent (xxh64 : XXH64) (sort : StdSort) (w : World) : Prop
    extends IsCache xxh64 sort w where
  gets : ∀ key, w.GetsDirect xxh64 key
  scans : ∀ startKey endKey, w.ScansDirect xxh64 sort startKey endKey

/-! ### Reads that return -/

/-- A read that is right whenever it returns, and returns just when its pages are served. -/
theorem exists_direct_iff {ε α σ τ : Type} {read : Except ε (α × σ)} {direct : Except ε α}
    {pool : α × σ → τ} {served : Except ε τ} (hserve : read.map pool = served)
    (hdirect : ∀ a s, read = .ok (a, s) → direct = .ok a) :
    (∃ a s, read = .ok (a, s) ∧ direct = .ok a) ↔ ∃ t, served = .ok t := by
  rw [← hserve]
  constructor
  · rintro ⟨a, s, hr, -⟩
    exact ⟨_, map_eq_ok.mpr ⟨_, hr, rfl⟩⟩
  · rintro ⟨t, ht⟩
    obtain ⟨⟨a, s⟩, hr, -⟩ := map_eq_ok.mp ht
    exact ⟨a, s, hr, hdirect a s hr⟩

namespace AtRest

theorem getsDirect_iff_serve (h : AtRest xxh64 dbPath slots w) (key : Uint32) :
    w.GetsDirect xxh64 key ↔
      ∃ pool, w.store.bufferPool.serve xxh64.page (w.pagesAsked xxh64 key) = .ok pool :=
  exists_direct_iff (h.get_eq_serve key) fun _ _ hw => (h.get hw).1

theorem scansDirect_iff_serve (h : AtRest xxh64 dbPath slots w) (startKey endKey : Uint32) :
    w.ScansDirect xxh64 sort startKey endKey ↔
      ∃ pool, w.store.bufferPool.serve xxh64.page (w.pagesScanned startKey endKey) =
        .ok pool :=
  exists_direct_iff (h.scan_eq_serve startKey endKey) fun _ _ hw => (h.scan hw).1

theorem isCoherent_iff_serves (h : AtRest xxh64 dbPath slots w) :
    IsCoherent xxh64 sort w ↔ w.Serves xxh64 := by
  constructor
  · rintro ⟨-, hgets, hscans⟩
    exact ⟨fun key => (h.getsDirect_iff_serve key).mp (hgets key), fun startKey endKey =>
      (h.scansDirect_iff_serve startKey endKey).mp (hscans startKey endKey)⟩
  · rintro ⟨hasked, hscanned⟩
    exact ⟨h.isCache, fun key => (h.getsDirect_iff_serve key).mpr (hasked key),
      fun startKey endKey =>
        (h.scansDirect_iff_serve startKey endKey).mpr (hscanned startKey endKey)⟩

/-! ### Calls that keep the list intact -/

theorem flush_keeps (h : AtRest xxh64 dbPath slots w) (hs : Steady xxh64.page w.store.bufferPool)
    (hfront : AVLTree.entries w.store.memtable ≠ [] →
      ∀ id ∈ w.dropped, ¬ w.store.bufferPool.evictionPolicy.StaleFront id)
    (hw : w.writeMemtableToSst xxh64 = .ok w') : Steady xxh64.page w'.store.bufferPool := by
  by_cases hne : AVLTree.entries w.store.memtable = []
  · rw [write_nil hne] at hw
    cases hw
    exact hs
  · exact h.write_keeps hs hne (h.unstale hs (hfront hne)) hw

theorem put_keeps (h : AtRest xxh64 dbPath slots w) (hs : Steady xxh64.page w.store.bufferPool)
    {key value : Uint32} (hfront : (Call.op (.put key value)).KeepsFront w)
    (hw : w.put xxh64 key value = .ok w') : Steady xxh64.page w'.store.bufferPool := by
  obtain ⟨memtable, -, hw⟩ := bind_eq_ok.mp hw
  simp only at hw
  split_ifs at hw with hfull
  · exact (h.with_memtable memtable _).flush_keeps hs (fun _ => hfront hfull) hw
  · cases hw
    exact hs

theorem get_keeps (h : AtRest xxh64 dbPath slots w) (hs : Steady xxh64.page w.store.bufferPool)
    {key value : Uint32} (hw : w.get xxh64 key = .ok (value, w')) :
    Steady xxh64.page w'.store.bufferPool := by
  have hserve := h.get_eq_serve key
  rw [hw] at hserve
  exact hs.of_serve hserve.symm

theorem scan_keeps (h : AtRest xxh64 dbPath slots w) (hs : Steady xxh64.page w.store.bufferPool)
    {startKey endKey : Uint32} {result : List Entry}
    (hw : w.scan xxh64 sort startKey endKey = .ok (result, w')) :
    Steady xxh64.page w'.store.bufferPool := by
  have hserve : (w.scan xxh64 sort startKey endKey).map (fun x => x.2.store.bufferPool) = _ :=
    h.scan_eq_serve startKey endKey
  rw [hw] at hserve
  exact hs.of_serve hserve.symm

theorem step_keeps (h : AtRest xxh64 dbPath slots w) (hs : Steady xxh64.page w.store.bufferPool)
    {op : Op} {r : Reply} (hfront : (Call.op op).KeepsFront w)
    (hw : World.step xxh64 sort op w = .ok (r, w')) : Steady xxh64.page w'.store.bufferPool := by
  cases op with
  | put key value =>
    obtain ⟨w₁, h₁, he⟩ := map_eq_ok.mp hw
    cases he
    exact h.put_keeps hs hfront h₁
  | deleteKey key =>
    obtain ⟨w₁, h₁, he⟩ := map_eq_ok.mp hw
    cases he
    obtain ⟨memtable, -, h₁⟩ := bind_eq_ok.mp h₁
    cases h₁
    exact hs
  | get key =>
    obtain ⟨x, h₁, he⟩ := map_eq_ok.mp hw
    cases he
    exact h.get_keeps hs h₁
  | scan startKey endKey =>
    obtain ⟨x, h₁, he⟩ := map_eq_ok.mp hw
    cases he
    exact h.scan_keeps hs h₁
  | close =>
    obtain ⟨w₁, h₁, he⟩ := map_eq_ok.mp hw
    cases he
    exact h.flush_keeps hs hfront h₁

end AtRest

/-! ### Runs -/

theorem runStore_eq (ops : List Op) : runStore xxh64 sort config dbPath ops =
    run (World.step xxh64 sort) ops (.start config dbPath) := rfl

theorem World.Serves.of_steady (hs : Steady xxh64.page w.store.bufferPool) : w.Serves xxh64 := by
  refine ⟨fun key => ?_, fun startKey endKey => ?_⟩
  · obtain ⟨pool, hp, -⟩ := hs.serve (w.pagesAsked xxh64 key)
    exact ⟨pool, hp⟩
  · obtain ⟨pool, hp, -⟩ := hs.serve (w.pagesScanned startKey endKey)
    exact ⟨pool, hp⟩

/-- In every state that a run reaches the pages held are those of the files, and reads return
what the files say just when the pool can serve the pages that they ask for. It can in every
state of a run whose flushes drop no stale front page. -/
theorem runStore_isCoherent (xxh64 : XXH64) (sort : StdSort) (config : Config) (dbPath : String)
    (ops : List Op) :
    (∀ rs w, runStore xxh64 sort config dbPath ops = .ok (rs, w) →
      IsCache xxh64 sort w ∧ (IsCoherent xxh64 sort w ↔ w.Serves xxh64)) ∧
    (Along (World.step xxh64 sort) (fun w op => (Call.op op).KeepsFront w)
        (.start config dbPath) ops →
      Throughout (World.step xxh64 sort) (IsCoherent xxh64 sort) (.start config dbPath) ops) := by
  refine ⟨fun rs w h => ?_, fun hfront => ?_⟩
  · obtain ⟨slots, hslots⟩ := runStore_atRest h
    exact ⟨hslots.isCache, hslots.isCoherent_iff_serves⟩
  · refine throughout_of_along (World.step xxh64 sort)
      (I := fun w => ∃ slots, AtRest xxh64 dbPath slots w ∧ Steady xxh64.page w.store.bufferPool)
      ?_ ?_ ⟨[], .start config dbPath, .new config.initialSize_le config.maxSize_lt⟩ hfront
    · rintro w ⟨slots, hslots, hs⟩
      exact hslots.isCoherent_iff_serves.mpr (.of_steady hs)
    · rintro op w r w' ⟨slots, hslots, hs⟩ hop hw
      obtain ⟨slots', hslots'⟩ := hslots.step hw
      exact ⟨slots', hslots', hslots.step_keeps hs hop hw⟩

/-- Pages of the first SST are dropped when its name gets new contents, and reads go on. -/
theorem runStore_isCoherent_reuse : ∃ w, IsCoherent constHash .insertion w ∧ w.Serves constHash ∧
    w.store.bufferPool.hashtable.stored.map Page.pageId = ["/a/sst_0.dat-2", "/a/sst_0.dat-1"] := by
  obtain ⟨⟨rs, w⟩, hrun⟩ : ∃ x, runStore constHash .insertion smallConfig "/a"
      [.put 5 7, .get 5, .put 6 8, .put 5 9, .get 5] = .ok x :=
    ⟨_, eq_ok_okOr ([], World.start smallConfig "/a") (by decide +kernel)⟩
  obtain ⟨hstate, hrunning⟩ := runStore_isCoherent constHash .insertion smallConfig "/a"
    [.put 5 7, .get 5, .put 6 8, .put 5 9, .get 5]
  obtain ⟨-, hserves⟩ := hstate rs w hrun
  have hheld : (runStore constHash .insertion smallConfig "/a"
      [.put 5 7, .get 5, .put 6 8, .put 5 9, .get 5]).map
        (fun x => x.2.store.bufferPool.hashtable.stored.map Page.pageId) =
      .ok ["/a/sst_0.dat-2", "/a/sst_0.dat-1"] := by decide +kernel
  rw [hrun] at hheld
  rw [runStore_eq] at hrun
  have hcoherent := (hrunning (by decide +kernel)).finish _ hrun
  exact ⟨w, hcoherent, hserves.mp hcoherent, Except.ok.inj hheld⟩

/-- The scan leaves a stale front page, which the next flush drops; the lookup after it
evicts a page that is no longer held. -/
theorem not_runStore_isCoherent : ¬ ∀ (xxh64 : XXH64) (sort : StdSort) (config : Config)
    (dbPath : String) (ops : List Op) (rs : List Reply) (w : World),
    runStore xxh64 sort config dbPath ops = .ok (rs, w) →
    (∀ path ∈ w.disk.keys, ∀ file ∈ w.disk.find path, file.numPages < 524288) →
    IsCoherent xxh64 sort w := by
  intro h
  obtain ⟨⟨rs, w⟩, hrun⟩ : ∃ x, runStore constHash .insertion smallConfig "/a"
      [.put 5 7, .get 5, .scan 5 5, .put 6 8] = .ok x :=
    ⟨_, eq_ok_okOr ([], World.start smallConfig "/a") (by decide +kernel)⟩
  have hend : (runStore constHash .insertion smallConfig "/a"
      [.put 5 7, .get 5, .scan 5 5, .put 6 8]).map (fun x =>
        (decide (∀ path ∈ x.2.disk.keys, ∀ file ∈ x.2.disk.find path, file.numPages < 524288),
          (x.2.get constHash 5).isOk)) = .ok (true, false) := by decide +kernel
  rw [hrun] at hend
  obtain ⟨hsmall, hfails⟩ := Prod.mk.inj (Except.ok.inj hend)
  obtain ⟨value, w', hget, -⟩ :=
    (h constHash .insertion smallConfig "/a" _ rs w hrun (of_decide_eq_true hsmall)).gets 5
  simp only [hget] at hfails
  cases hfails

end MiniKvs
