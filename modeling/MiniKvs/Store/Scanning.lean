import MiniKvs.Store.Refinement

/-! Scans of the whole store. A scan puts the entries of all sources together,
sorts them and blanks out tombstones; it drops neither older versions nor deleted
keys, so it is right just when there are none in the range. -/

namespace MiniKvs

open Lib BTreeNode

variable {xxh64 : XXH64} {sort : StdSort} {dbPath : String} {w : World} {t : Snapshot} {m : KVMap}
  {startKey endKey : Uint32}

namespace Snapshot

/-- All entries, older versions and tombstones too. -/
def stored (t : Snapshot) : List Entry := t.memtable ++ t.slots.flatMap fun es => es.getD []

theorem inRange_eq (t : Snapshot) : t.inRange startKey endKey =
    entriesIn startKey endKey t.stored := by
  rw [inRange, stored, entriesIn_append]
  congr 1
  induction t.slots with
  | nil => rfl
  | cons es slots ih => rw [List.flatMap_cons, List.flatMap_cons, entriesIn_append, ih]

theorem mem_inRange {e : Entry} : e ∈ t.inRange startKey endKey ↔
    e ∈ t.stored ∧ startKey ≤ e.key ∧ e.key ≤ endKey := by
  rw [inRange_eq, entriesIn, List.mem_filter, decide_eq_true_iff]

/-- What a lookup finds is stored. -/
theorem stored_of_find {key : Uint32} {e : Entry} (h : t.find key = some e) :
    e ∈ t.stored ∧ e.key = key := by
  rw [find, Option.or_eq_some_iff] at h
  rcases h with h | ⟨-, h⟩
  · exact ⟨List.mem_append_left _ (findKey_mem h).1, (findKey_mem h).2⟩
  · exact ⟨List.mem_append_right _ (lookup_mem h).1, (lookup_mem h).2⟩

theorem find_of_stored {e : Entry} (h : e ∈ t.stored) : ∃ e', t.find e.key = some e' := by
  rw [← Option.ne_none_iff_exists', Ne, find, Option.or_eq_none_iff]
  rintro ⟨hmem, hslots⟩
  rcases List.mem_append.mp h with h | h
  · exact findKey_eq_none.mp hmem e h rfl
  · obtain ⟨e', he⟩ : ∃ e', lookup Entry.key t.slots e.key = some e' := exists_lookup h
    rw [hslots] at he
    cases he

/-- In the range every key has one version, and that is not a tombstone. -/
def Clean (startKey endKey : Uint32) (t : Snapshot) : Prop :=
  ((t.inRange startKey endKey).map Entry.key).Nodup ∧
    ∀ e ∈ t.inRange startKey endKey, e.value ≠ Utils.tombStone

instance (startKey endKey : Uint32) (t : Snapshot) : Decidable (t.Clean startKey endKey) :=
  inferInstanceAs (Decidable (_ ∧ _))

/-- A key with one version in the range is found in it. -/
theorem find_of_mem_inRange (hn : ((t.inRange startKey endKey).map Entry.key).Nodup) {e : Entry}
    (he : e ∈ t.inRange startKey endKey) : t.find e.key = some e := by
  obtain ⟨hs, hrange⟩ := mem_inRange.mp he
  obtain ⟨e', hf⟩ := find_of_stored hs
  obtain ⟨hs', hkey⟩ := stored_of_find hf
  have he' : e' ∈ t.inRange startKey endKey := mem_inRange.mpr ⟨hs', hkey ▸ hrange⟩
  rw [hf, List.inj_on_of_nodup_map hn he' he hkey]

/-- What a scan returns. -/
def scanned (sort : StdSort) (startKey endKey : Uint32) (t : Snapshot) : List Entry :=
  (sort (t.inRange startKey endKey)).map World.hideTombstone

theorem hideTombstone_key (e : Entry) : (World.hideTombstone e).key = e.key := by
  unfold World.hideTombstone
  split_ifs <;> rfl

theorem hideTombstone_of_ne {e : Entry} (h : e.value ≠ Utils.tombStone) :
    World.hideTombstone e = e := if_neg h

theorem mem_scanned {e : Entry} : e ∈ t.scanned sort startKey endKey ↔
    ∃ e' ∈ t.inRange startKey endKey, World.hideTombstone e' = e := by
  rw [scanned, List.mem_map]
  simp only [SortBy.mem_apply]

theorem sortedBy_scanned : SortedBy Entry.key (t.scanned sort startKey endKey) ↔
    ((t.inRange startKey endKey).map Entry.key).Nodup := by
  rw [← sort.sortedBy_apply, SortedBy, SortedBy, scanned, List.pairwise_map]
  simp only [hideTombstone_key]

end Snapshot

/-- The pairs of the map in the range, in ascending order of their keys. -/
def KVMap.Lists (m : KVMap) (startKey endKey : Uint32) (es : List Entry) : Prop :=
  SortedBy Entry.key es ∧
    ∀ e, e ∈ es ↔ (startKey ≤ e.key ∧ e.key ≤ endKey) ∧ m e.key = some e.value

namespace Snapshot.Denotes

theorem map_eq_some (hd : t.Denotes m) {key value : Uint32} : m key = some value ↔
    ∃ e, t.find key = some e ∧ e.value = value ∧ value ≠ Utils.tombStone := by
  rw [hd.map, live, Option.bind_eq_some_iff]
  constructor
  · rintro ⟨e, he, hv⟩
    split_ifs at hv with htomb
    cases hv
    exact ⟨e, he, rfl, htomb⟩
  · rintro ⟨e, he, rfl, htomb⟩
    exact ⟨e, he, if_neg htomb⟩

/-- A scan lists the map exactly when the range is clean. -/
theorem lists_scanned (hd : t.Denotes m) (startKey endKey : Uint32) :
    m.Lists startKey endKey (t.scanned sort startKey endKey) ↔ t.Clean startKey endKey := by
  constructor
  · rintro ⟨hsorted, hmem⟩
    refine ⟨sortedBy_scanned.mp hsorted, fun e he htomb => ?_⟩
    -- a tombstone would come out as a pair with the invalid value
    have hin : (⟨e.key, Utils.invalidValue⟩ : Entry) ∈ t.scanned sort startKey endKey :=
      mem_scanned.mpr ⟨e, he, if_pos htomb⟩
    obtain ⟨e', hf, hv, -⟩ := hd.map_eq_some.mp ((hmem _).mp hin).2
    exact hd.value _ e' hf hv
  · rintro ⟨hnodup, htomb⟩
    refine ⟨sortedBy_scanned.mpr hnodup, fun e => ?_⟩
    rw [mem_scanned]
    constructor
    · rintro ⟨e', he', rfl⟩
      rw [hideTombstone_of_ne (htomb e' he')]
      exact ⟨(mem_inRange.mp he').2, hd.map_eq_some.mpr
        ⟨e', find_of_mem_inRange hnodup he', rfl, htomb e' he'⟩⟩
    · rintro ⟨hrange, hm⟩
      obtain ⟨e', hf, hv, hne⟩ := hd.map_eq_some.mp hm
      obtain ⟨hs, hkey⟩ := stored_of_find hf
      obtain rfl : e' = e := by
        cases e'
        cases e
        simp only at hkey hv
        rw [hkey, hv]
      exact ⟨e', mem_inRange.mpr ⟨hs, hrange⟩, hideTombstone_of_ne (hv ▸ hne)⟩

end Snapshot.Denotes

/-- After a run of safe calls a scan lists what the map has in the range exactly
when the entries stored for the range are one for each key and no tombstones. -/
theorem runCalls_scan_iff (xxh64 : XXH64) (sort : StdSort) (config : Config) (dbPath : String)
    (calls : List Call) (hvalues : ∀ call ∈ calls, call.ValueOk)
    (hsafe : AlongTotal Snapshot.next (Snapshot.Safe dbPath) (.new config) calls)
    (hfront : Along (Call.step xxh64 sort) (fun w call => call.KeepsFront w) (.start config dbPath)
      calls) :
    ∃ rs w, runCalls xxh64 sort config dbPath calls = .ok (rs, w) ∧ ∀ startKey endKey,
      ∃ result w', w.scan xxh64 sort startKey endKey = .ok (result, w') ∧
        ((finalState KVMap.next (fun _ => none) calls).Lists startKey endKey result ↔
          (finalState Snapshot.next (.new config) calls).Clean startKey endKey) := by
  obtain ⟨rs, w, hrun, hmodels, hdenotes, -⟩ := runCalls_models hvalues hsafe hfront
  refine ⟨rs, w, hrun, fun startKey endKey => ?_⟩
  obtain ⟨w', hscan, -⟩ := hmodels.scan hdenotes startKey endKey
  exact ⟨_, w', hscan, hdenotes.lists_scanned startKey endKey⟩

/-- Two keys in two SSTs, and a deleted key outside of the range. -/
theorem runCalls_scan_iff_two : ∃ rs w, runCalls constHash .insertion smallConfig "/a"
      [.op (.put 5 7), .op (.put 6 8), .op (.deleteKey 9), .op (.put 1 2), .op (.get 5)] =
        .ok (rs, w) ∧
    ∃ result w', w.scan constHash .insertion 1 8 = .ok (result, w') ∧
      (finalState KVMap.next (fun _ => none)
        [.op (.put 5 7), .op (.put 6 8), .op (.deleteKey 9), .op (.put 1 2), .op (.get 5)]).Lists
          1 8 result := by
  obtain ⟨rs, w, hrun, hscan⟩ := runCalls_scan_iff constHash .insertion smallConfig "/a"
    [.op (.put 5 7), .op (.put 6 8), .op (.deleteKey 9), .op (.put 1 2), .op (.get 5)]
    (by decide) (by decide +kernel) (by decide)
  obtain ⟨result, w', hr, hiff⟩ := hscan 1 8
  exact ⟨rs, w, hrun, result, w', hr, hiff.mpr (by decide +kernel)⟩

/-- A key that was deleted in the memtable comes out with the invalid value. -/
theorem not_runCalls_scan : ¬ ∀ (xxh64 : XXH64) (sort : StdSort) (config : Config) (dbPath : String)
    (calls : List Call), (∀ call ∈ calls, call.ValueOk) →
    Level.searchName dbPath.toList = none → ∀ startKey endKey, ∃ rs w result w',
      runCalls xxh64 sort config dbPath calls = .ok (rs, w) ∧
        w.scan xxh64 sort startKey endKey = .ok (result, w') ∧
        (finalState KVMap.next (fun _ => none) calls).Lists startKey endKey result := by
  intro h
  obtain ⟨rs, w, result, w', hrun, hscan, hlists⟩ := h constHash .insertion smallConfig "/a"
    [.op (.deleteKey 5)] (by decide) (by decide) 0 9
  cases hrun
  cases hscan
  have hin := (hlists.2 ⟨5, 4294967295⟩).mp (by decide)
  have hnone : (none : Option Uint32) = some 4294967295 := hin.2
  cases hnone

end MiniKvs
