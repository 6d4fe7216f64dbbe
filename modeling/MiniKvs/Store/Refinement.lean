import MiniKvs.Store.Reopen
import MiniKvs.Store.Serving

/-! The store refines the map. While the snapshot says that flushes lose nothing
and no flush drops a page that a lookup has just moved to the front of the LRU
list, every call succeeds and answers as the map does. -/

namespace MiniKvs

open Lib Level BufferPool

/-! ### When the pool survives a flush -/

/-- The pages that a flush drops from the pool, those of the SSTs up to the first free level. -/
def World.dropped (w : World) : List String :=
  ((w.store.levels.takeWhile fun level => level.sstList ≠ []).flatMap sstList).flatMap fun path =>
    (w.disk.find path).elim [] (Disk.pageIds path)

namespace Call

/-- The call writes the memtable to an SST. -/
def Flushes (w : World) : Call → Prop
  | .op (.put _ _) => w.store.currentMemtableEntries + 1 ≥ w.store.memtableSize
  | .op .close => AVLTree.entries w.store.memtable ≠ []
  | .reopen _ _ _ => AVLTree.entries w.store.memtable ≠ []
  | _ => False

instance (w : World) : (call : Call) → Decidable (call.Flushes w)
  | .op (.put _ _) => inferInstanceAs (Decidable (_ ≥ _))
  | .op (.deleteKey _) => .isFalse id
  | .op (.get _) => .isFalse id
  | .op (.scan _ _) => .isFalse id
  | .op .close => inferInstanceAs (Decidable (_ ≠ []))
  | .reopen _ _ _ => inferInstanceAs (Decidable (_ ≠ []))

/-- No page that is dropped stands in front of the LRU list because of a lookup. -/
def KeepsFront (w : World) (call : Call) : Prop :=
  call.Flushes w → ∀ id ∈ w.dropped, ¬ w.store.bufferPool.evictionPolicy.StaleFront id

instance (w : World) (call : Call) : Decidable (call.KeepsFront w) :=
  inferInstanceAs (Decidable (call.Flushes w → ∀ id ∈ w.dropped,
    ¬ w.store.bufferPool.evictionPolicy.StaleFront id))

end Call

variable {xxh64 : XXH64} {sort : StdSort} {dbPath : String} {slots : List (Option Sst)}
  {w w' : World} {t : Snapshot} {m : KVMap}

theorem takeWhile_levelsOf (c : ℕ) (slots : List (Option Sst)) :
    ((levelsOf dbPath c (slots.map Option.isSome)).takeWhile fun level => level.sstList ≠ []) =
      levelsOf dbPath c ((slots.takeWhile Option.isSome).map Option.isSome) := by
  induction slots generalizing c with
  | nil => rfl
  | cons s slots ih =>
    cases s with
    | none => rfl
    | some x =>
      rw [List.map_cons, levelsOf, List.takeWhile_cons_of_pos (by simp),
        List.takeWhile_cons_of_pos rfl, List.map_cons, levelsOf, ih]

/-- The pages dropped are all that a flush could remove from the pool. -/
theorem AtRest.unstale (h : AtRest xxh64 dbPath slots w)
    (hs : Steady xxh64.page w.store.bufferPool)
    (hd : ∀ id ∈ w.dropped, ¬ w.store.bufferPool.evictionPolicy.StaleFront id) :
    Unstale dbPath ((listed 0 (slots.takeWhile Option.isSome)).map Prod.fst)
      w.store.bufferPool := by
  intro n hn offset hst
  obtain ⟨data, path, file, o, hf, hid, hpage⟩ := hs.staleFront_current h.stores.coherent hst
  obtain ⟨rfl, rfl⟩ := Page.generatePageId_inj.mp hid
  obtain ⟨x, hx, rfl⟩ := List.mem_map.mp hn
  have hmem : sstPath dbPath x.1 ∈
      (w.store.levels.takeWhile fun level => level.sstList ≠ []).flatMap sstList := by
    rw [h.levels, takeWhile_levelsOf, ssts_levelsOf]
    exact List.mem_map_of_mem hx
  refine hd _ (List.mem_flatMap.mpr ⟨_, hmem, ?_⟩) hst
  rw [hf]
  exact h.stores.mem_pageIds hf hpage

/-! ### The store and its snapshot -/

structure Models (xxh64 : XXH64) (dbPath : String) (w : World) (t : Snapshot) : Prop where
  memtable : AVLTree.entries w.store.memtable = t.memtable
  balanced : AVLTree.Balanced w.store.memtable
  entries : w.store.currentMemtableEntries = t.entries
  memtableSize : w.store.memtableSize = t.memtableSize
  sstCount : w.store.sstCount = t.sstCount
  slots : ∃ slots, AtRest xxh64 dbPath slots w ∧ contents slots = t.slots
  steady : Steady xxh64.page w.store.bufferPool

/-- The pairs of a scan before they are sorted. -/
def Snapshot.inRange (startKey endKey : Uint32) (t : Snapshot) : List Entry :=
  entriesIn startKey endKey t.memtable ++
    t.slots.flatMap fun es => entriesIn startKey endKey (es.getD [])

/-- The pruned traversal finds the entries in the range. -/
theorem scanMemtable_eq {startKey endKey : Uint32} {node : Node} (result : List Entry)
    (hs : SortedBy Entry.key (AVLTree.entries node)) :
    KVStore.scanMemtable startKey endKey node result =
      result ++ entriesIn startKey endKey (AVLTree.entries node) := by
  induction node generalizing result with
  | null => exact (List.append_nil result).symm
  | node key value height left right ihl ihr =>
    obtain ⟨hl, hr, hlk, hrk⟩ := AVLTree.sorted_node.mp hs
    have hleft : ¬ startKey < key → entriesIn startKey endKey (AVLTree.entries left) = [] :=
      fun h => List.filter_eq_nil_iff.mpr fun e he => by
        have := (hlk e he).trans_le (not_lt.mp h)
        simp [this.not_ge]
    have hright : ¬ key < endKey → entriesIn startKey endKey (AVLTree.entries right) = [] :=
      fun h => List.filter_eq_nil_iff.mpr fun e he => by
        have := (not_lt.mp h).trans_lt (hrk e he)
        simp [this.not_ge]
    have hnode : entriesIn startKey endKey (AVLTree.entries (.node key value height left right)) =
        entriesIn startKey endKey (AVLTree.entries left) ++
          ((if startKey ≤ key ∧ key ≤ endKey then [⟨key, value⟩] else []) ++
            entriesIn startKey endKey (AVLTree.entries right)) := by
      rw [AVLTree.entries, entriesIn, List.filter_append, List.filter_cons]
      split_ifs with h1 h2 h2
      · rfl
      · exact absurd (by simpa using h1) h2
      · exact absurd (by simpa using h2) h1
      · rfl
    have hl' : (if startKey < key then KVStore.scanMemtable startKey endKey left result
        else result) = result ++ entriesIn startKey endKey (AVLTree.entries left) := by
      split_ifs with h
      · exact ihl result hl
      · rw [hleft h, List.append_nil]
    rw [KVStore.scanMemtable, hnode]
    simp only [hl']
    split_ifs with h1 h2 h2
    · rw [ihr _ hr]
      simp only [List.append_assoc]
    · rw [ihr _ hr]
      simp only [List.append_assoc, List.nil_append]
    · rw [hright h1]
      simp only [List.append_assoc, List.append_nil]
    · rw [hright h1]
      simp only [List.append_nil]

namespace Models

theorem start (config : Config) (dbPath : String) :
    Models xxh64 dbPath ⟨{ KVStore.new config with dbPath := dbPath }, .empty, []⟩
      (.new config) where
  memtable := rfl
  balanced := trivial
  entries := rfl
  memtableSize := rfl
  sstCount := rfl
  slots := ⟨[], .start config dbPath, rfl⟩
  steady := .new config.initialSize_le config.maxSize_lt

/-- Reads change only the pool. -/
theorem with_pool (h : Models xxh64 dbPath w t) (hslots : AtRest xxh64 dbPath slots w)
    (hcontents : contents slots = t.slots) {pool : BufferPool PageData}
    (hc : Stores xxh64 dbPath (listed 0 slots) w.disk pool w.log) (hs : Steady xxh64.page pool) :
    Models xxh64 dbPath { w with store := { w.store with bufferPool := pool } } t :=
  ⟨h.memtable, h.balanced, h.entries, h.memtableSize, h.sstCount,
    ⟨slots, hslots.with_pool hc, hcontents⟩, hs⟩

/-- The memtable gets a new tree. -/
theorem with_memtable (h : Models xxh64 dbPath w t) {memtable : Node}
    (hb : AVLTree.Balanced memtable) {entries entries' : ℕ} (he : entries = entries') :
    Models xxh64 dbPath
      { w with store := { w.store with
        memtable := memtable, currentMemtableEntries := entries } }
      { t with memtable := AVLTree.entries memtable, entries := entries' } := by
  obtain ⟨slots, hslots, hcontents⟩ := h.slots
  exact ⟨rfl, hb, he, h.memtableSize, h.sstCount,
    ⟨slots, hslots.with_memtable memtable entries, hcontents⟩, h.steady⟩

theorem ssts (hslots : AtRest xxh64 dbPath slots w) :
    w.ssts = (listed 0 slots).map fun x => sstPath dbPath x.1 := by
  rw [World.ssts, hslots.levels, ssts_levelsOf]

/-- A lookup answers as the map does. -/
theorem get (h : Models xxh64 dbPath w t) (hd : t.Denotes m) (key : Uint32) :
    ∃ w', w.get xxh64 key = .ok ((m key).getD Utils.invalidValue, w') ∧
      Models xxh64 dbPath w' t := by
  obtain ⟨slots, hslots, hcontents⟩ := h.slots
  have hsorted := hd.memtable
  rw [← h.memtable] at hsorted
  have hfind := hd.map key
  have hvalue := hd.value key
  rw [Snapshot.find] at hfind hvalue
  rw [World.get, AVLTree.get_eq hsorted, h.memtable, hfind]
  rcases Option.eq_none_or_eq_some (findKey Entry.key t.memtable key) with hkey | ⟨e, hkey⟩
  · -- the memtable does not have the key
    rw [hkey, Option.none_or, ← hcontents] at hvalue
    have hslotsSorted := hd.slots
    rw [← hcontents] at hslotsSorted
    obtain ⟨pool, hr, hstores, hsteady⟩ := hslots.stores.findValueInSsts_steady h.steady
      (fun x hx => hx) hslotsSorted hvalue
    rw [← ssts hslots, hcontents] at hr
    simp only [hkey, Option.map_none, Option.getD_none, Option.none_or]
    rw [if_neg (by decide), if_neg (by simp), hr]
    exact ⟨_, rfl, h.with_pool hslots hcontents hstores hsteady⟩
  · have hne := hvalue e (by rw [hkey]; rfl)
    simp only [hkey, Option.map_some, Option.getD_some, Option.some_or, Snapshot.live,
      Option.bind_some]
    split_ifs with htomb
    · exact ⟨w, rfl, h⟩
    · exact ⟨w, rfl, h⟩

theorem scan (h : Models xxh64 dbPath w t) (hd : t.Denotes m) (startKey endKey : Uint32) :
    ∃ w', w.scan xxh64 sort startKey endKey = .ok
      ((sort (t.inRange startKey endKey)).map
        World.hideTombstone, w') ∧ Models xxh64 dbPath w' t := by
  obtain ⟨slots, hslots, hcontents⟩ := h.slots
  have hsorted := hd.memtable
  rw [← h.memtable] at hsorted
  have hslotsSorted := hd.slots
  rw [← hcontents] at hslotsSorted
  obtain ⟨pool, hr, hstores, hsteady⟩ := hslots.stores.scanSsts_steady
    (KVStore.scanMemtable startKey endKey w.store.memtable []) h.steady (fun x hx => hx)
    hslotsSorted
  rw [← ssts hslots, hcontents] at hr
  rw [World.scan, hr, scanMemtable_eq _ hsorted, h.memtable]
  exact ⟨_, rfl, h.with_pool hslots hcontents hstores hsteady⟩

/-- A flush that the snapshot allows and the pool survives. -/
theorem flush (h : Models xxh64 dbPath w t) (hf : t.Flushable)
    (hfront : AVLTree.entries w.store.memtable ≠ [] →
      ∀ id ∈ w.dropped, ¬ w.store.bufferPool.evictionPolicy.StaleFront id) :
    ∃ w', w.writeMemtableToSst xxh64 = .ok w' ∧ Models xxh64 dbPath w' t.flush := by
  obtain ⟨slots, hslots, hcontents⟩ := h.slots
  by_cases hne : AVLTree.entries w.store.memtable = []
  · have hnil : t.memtable = [] := h.memtable ▸ hne
    rw [Snapshot.flush, if_pos hnil]
    exact ⟨w, AtRest.write_nil hne, h⟩
  · have hne' : t.memtable ≠ [] := h.memtable ▸ hne
    obtain ⟨hset, hcount⟩ := hf hne'
    rw [← h.memtable, ← hcontents] at hset
    rw [← h.sstCount] at hcount
    obtain ⟨slots', tree, hw, h', hs', hc⟩ :=
      hslots.write_steady h.steady hne hset hcount (hslots.unstale h.steady (hfront hne))
    rw [Snapshot.flush, if_neg hne']
    refine ⟨_, hw, rfl, trivial, rfl, h.memtableSize, congrArg (· + 1) h.sstCount,
      ⟨slots', h', ?_⟩, hs'⟩
    rw [hc, hcontents, h.memtable]

/-- The memtable with an entry put in. -/
theorem insert (h : Models xxh64 dbPath w t) (hd : t.Denotes m) (key value : Uint32)
    {entries entries' : ℕ} (hn : entries = entries') :
    ∃ memtable, AVLTree.put w.store.memtable key value = .ok memtable ∧
      Models xxh64 dbPath
        { w with store := { w.store with
          memtable := memtable, currentMemtableEntries := entries } }
        { t with
          memtable := insertKey Entry.key ⟨key, value⟩ t.memtable, entries := entries' } := by
  have hsorted := hd.memtable
  rw [← h.memtable] at hsorted
  obtain ⟨memtable, hput, hb, he⟩ := AVLTree.put_spec h.balanced hsorted key value
  have h' := h.with_memtable hb hn
  rw [he, h.memtable] at h'
  exact ⟨memtable, hput, h'⟩

theorem put (h : Models xxh64 dbPath w t) (hd : t.Denotes m) {key value : Uint32}
    (hsafe : t.Safe dbPath (.op (.put key value)))
    (hfront : (Call.op (.put key value)).KeepsFront w) :
    ∃ w', w.put xxh64 key value = .ok w' ∧
      Models xxh64 dbPath w' (t.next (.op (.put key value))) := by
  have hentries : w.store.currentMemtableEntries + 1 = t.entries + 1 := by rw [h.entries]
  obtain ⟨memtable, hput, h'⟩ := h.insert hd key value hentries
  have hfull : w.store.currentMemtableEntries + 1 ≥ w.store.memtableSize ↔
      (t.put key value).entries ≥ t.memtableSize := by
    rw [h.entries, h.memtableSize]
    rfl
  rw [World.put, hput, ok_bind, Snapshot.next]
  simp only
  by_cases hf : w.store.currentMemtableEntries + 1 ≥ w.store.memtableSize
  · rw [if_pos hf, if_pos (hfull.mp hf)]
    exact h'.flush (hsafe (hfull.mp hf)) fun _ => hfront hf
  · rw [if_neg hf, if_neg (mt hfull.mpr hf)]
    exact ⟨_, rfl, h'⟩

theorem deleteKey (h : Models xxh64 dbPath w t) (hd : t.Denotes m) (key : Uint32) :
    ∃ w', w.deleteKey key = .ok w' ∧ Models xxh64 dbPath w' (t.deleteKey key) := by
  obtain ⟨memtable, hput, h'⟩ := h.insert hd key Utils.tombStone h.entries
  rw [World.deleteKey, hput]
  exact ⟨_, rfl, h'⟩

/-- A fresh store on the directory. -/
theorem reopened (h : Models xxh64 dbPath w t) (config : Config)
    (hp : searchName dbPath.toList = none) (hlen : t.slots.length ≤ 1073741824)
    {directory : List String} (hdir : directory.Perm w.disk.keys) :
    ∃ w', w.reopened config directory = .ok w' ∧
      Models xxh64 dbPath w' (t.restarted config) := by
  obtain ⟨slots, hslots, hcontents⟩ := h.slots
  rw [← hcontents, contents, List.length_map] at hlen
  refine ⟨_, hslots.reopened (fun _ => hslots.found hp hlen) hdir config, rfl, trivial, rfl, rfl,
    rfl, ?_, ?_⟩
  · exact ⟨slots, hslots.restarted config, hcontents⟩
  · exact .new config.initialSize_le config.maxSize_lt

/-- A call that is safe succeeds and answers as the map does. -/
theorem step (h : Models xxh64 dbPath w t) (hd : t.Denotes m) {call : Call}
    (hsafe : t.Safe dbPath call) (hfront : call.KeepsFront w) :
    ∃ r w', call.step xxh64 sort w = .ok (r, w') ∧ Models xxh64 dbPath w' (t.next call) ∧
      m.Replies call r := by
  cases call with
  | op call =>
    cases call with
    | put key value =>
      obtain ⟨w', hw, h'⟩ := h.put hd hsafe hfront
      exact ⟨.done, w', map_eq_ok.mpr ⟨w', hw, rfl⟩, h', trivial⟩
    | deleteKey key =>
      obtain ⟨w', hw, h'⟩ := h.deleteKey hd key
      exact ⟨.done, w', map_eq_ok.mpr ⟨w', hw, rfl⟩, h', trivial⟩
    | get key =>
      obtain ⟨w', hw, h'⟩ := h.get hd key
      exact ⟨_, w', map_eq_ok.mpr ⟨_, hw, rfl⟩, h', rfl⟩
    | scan startKey endKey =>
      obtain ⟨w', hw, h'⟩ := h.scan hd startKey endKey
      exact ⟨_, w', map_eq_ok.mpr ⟨_, hw, rfl⟩, h', trivial⟩
    | close =>
      obtain ⟨w', hw, h'⟩ := h.flush hsafe hfront
      exact ⟨.done, w', map_eq_ok.mpr ⟨w', hw, rfl⟩, h', trivial⟩
  | reopen config order perm =>
    obtain ⟨hflush, hp, hlen⟩ := hsafe
    obtain ⟨w₁, hw₁, h₁⟩ := h.flush hflush hfront
    obtain ⟨w', hw', h'⟩ := h₁.reopened config hp hlen (perm w₁.disk.keys)
    exact ⟨.done, w', by rw [Call.step, World.close, hw₁, ok_bind, hw', ok_bind], h', trivial⟩

end Models

/-! ### Runs -/

def World.start (config : Config) (dbPath : String) : World :=
  ⟨{ KVStore.new config with dbPath := dbPath }, .empty, []⟩

/-- Snapshot and map side by side. -/
def nextBoth (call : Call) (x : Snapshot × KVMap) : Snapshot × KVMap :=
  (x.1.next call, x.2.next call)

/-- A run of safe calls, with snapshot and map at its end. -/
theorem runCalls_models {config : Config} {calls : List Call}
    (hvalues : ∀ call ∈ calls, call.ValueOk)
    (hsafe : AlongTotal Snapshot.next (Snapshot.Safe dbPath) (.new config) calls)
    (hfront : Along (Call.step xxh64 sort) (fun w call => call.KeepsFront w) (.start config dbPath)
      calls) :
    ∃ rs w, runCalls xxh64 sort config dbPath calls = .ok (rs, w) ∧
      Models xxh64 dbPath w (finalState Snapshot.next (.new config) calls) ∧
      (finalState Snapshot.next (.new config) calls).Denotes
        (finalState KVMap.next (fun _ => none) calls) ∧
      Answers KVMap.next KVMap.Replies (fun _ => none) calls rs := by
  have hG : AlongTotal nextBoth (fun x call => x.1.Safe dbPath call ∧ call.ValueOk)
      (.new config, fun _ => none) calls :=
    AlongTotal.of_map (f := Prod.fst)
      (G := fun t call => Snapshot.Safe dbPath t call ∧ call.ValueOk)
      (fun _ _ => rfl) (hsafe.and hvalues)
  obtain ⟨rs, w, hrun, ⟨hmodels, hdenotes⟩, hanswers⟩ := run_simulates (Call.step xxh64 sort)
    (R := fun w (x : Snapshot × KVMap) => Models xxh64 dbPath w x.1 ∧ x.1.Denotes x.2)
    (Q := fun x => x.2.Replies)
    (fun w x call hR hG hP => by
      obtain ⟨r, w', hw, h', hr⟩ := hR.1.step hR.2 hG.1 hP
      exact ⟨r, w', hw, ⟨h', hR.2.next hG.2⟩, hr⟩)
    ⟨Models.start config dbPath, Snapshot.Denotes.new config⟩ hG hfront
  have hfst : (finalState nextBoth (.new config, fun _ => none) calls).1 =
      finalState Snapshot.next (.new config) calls :=
    finalState_map (f := Prod.fst) (fun _ _ => rfl) calls _
  have hsnd : (finalState nextBoth (.new config, fun _ => none) calls).2 =
      finalState KVMap.next (fun _ => none) calls :=
    finalState_map (f := Prod.snd) (fun _ _ => rfl) calls _
  rw [hfst] at hmodels hdenotes
  rw [hsnd] at hdenotes
  exact ⟨rs, w, hrun, hmodels, hdenotes, Answers.map (f := Prod.snd) (fun _ _ => rfl) hanswers⟩

/-- In a run of safe calls that drops no stale front page, every call succeeds and
every lookup returns what was put last. -/
theorem runCalls_refines (xxh64 : XXH64) (sort : StdSort) (config : Config) (dbPath : String)
    (calls : List Call) (hvalues : ∀ call ∈ calls, call.ValueOk)
    (hsafe : AlongTotal Snapshot.next (Snapshot.Safe dbPath) (.new config) calls)
    (hfront : Along (Call.step xxh64 sort) (fun w call => call.KeepsFront w) (.start config dbPath)
      calls) :
    ∃ rs w, runCalls xxh64 sort config dbPath calls = .ok (rs, w) ∧
      Answers KVMap.next KVMap.Replies (fun _ => none) calls rs := by
  obtain ⟨rs, w, hrun, -, -, hanswers⟩ := runCalls_models hvalues hsafe hfront
  exact ⟨rs, w, hrun, hanswers⟩

/-- Overwritten, deleted and reopened, with two compactions on the way. -/
def sampleCalls : List Call :=
  [.op (.put 5 7), .op (.put 6 8), .op (.get 5), .reopen smallConfig List.reverse List.reverse_perm,
    .op (.put 5 9), .op (.deleteKey 6), .op (.put 7 1), .op (.get 5), .op (.get 6)]

theorem runCalls_refines_sample : ∃ rs w,
    runCalls constHash .insertion smallConfig "/a" sampleCalls = .ok (rs, w) ∧
      Answers KVMap.next KVMap.Replies (fun _ => none) sampleCalls rs :=
  runCalls_refines constHash .insertion smallConfig "/a" sampleCalls (by decide) (by decide +kernel)
    (by decide)

/-- A key that is deleted, flushed and put again is lost in the merge. -/
theorem not_runCalls_refines : ¬ ∀ (xxh64 : XXH64) (sort : StdSort) (config : Config)
    (dbPath : String)
    (calls : List Call), (∀ call ∈ calls, call.ValueOk) → searchName dbPath.toList = none →
    ∃ rs w, runCalls xxh64 sort config dbPath calls = .ok (rs, w) ∧
      Answers KVMap.next KVMap.Replies (fun _ => none) calls rs := by
  intro h
  obtain ⟨rs, w, hrun, hanswers⟩ := h constHash .insertion smallConfig "/a"
    [.op (.deleteKey 5), .op .close, .op (.put 5 7), .op (.get 5)] (by decide) (by decide)
  have hlost : (runCalls constHash .insertion smallConfig "/a"
      [.op (.deleteKey 5), .op .close, .op (.put 5 7), .op (.get 5)]).map Prod.fst =
      .ok [.done, .done, .done, .value 4294967295] := by decide
  rw [hrun] at hlost
  cases hlost
  have hlast : Reply.value 4294967295 = .value 7 := hanswers.2.2.2.1
  cases hlast

end MiniKvs
