import MiniKvs.Sst.Height
import MiniKvs.Store.Scanning

/-! How many pages a read of the store asks for. A lookup asks each SST for five pages at
most and for no page twice, and there are as many SSTs as the number of flushes has ones.
A scan asks each SST for six pages, and for one more for 508 pairs that it returns. What is
asked for is what the pool has to serve, from its own pages or from the files. -/

namespace MiniKvs

open Lib Level BufferPool BTreeNode

variable {xxh64 : XXH64} {sort : StdSort} {dbPath : String} {slots : List (Option Sst)} {w : World}
  {cs : List (ℕ × Sst)} {disk : Disk} {pool : BufferPool PageData} {log : List Event} {c : ℕ}
  {key startKey endKey : Uint32}

/-! ### The pages that a read asks for -/

/-- The pages that a lookup asks for, SST by SST until one has the key. -/
def Disk.pagesAsked (xxh64 : XXH64) (disk : Disk) (key : Uint32) :
    List String → List (String × PageData)
  | [] => []
  | sst :: ssts =>
    match disk.find sst with
    | none => []
    | some file => BTreeNode.pagesAsked xxh64 sst file key ++
        if lookupValue xxh64 file key = Utils.invalidValue then disk.pagesAsked xxh64 key ssts
        else []

/-- The pages that a scan asks for. -/
def Disk.pagesScanned (disk : Disk) (startKey endKey : Uint32) :
    List String → List (String × PageData)
  | [] => []
  | sst :: ssts =>
    match disk.find sst with
    | none => []
    | some file =>
      BTreeNode.pagesScanned sst file startKey endKey ++ disk.pagesScanned startKey endKey ssts

namespace World

/-- No page is asked for if the memtable has the key. -/
def pagesAsked (xxh64 : XXH64) (key : Uint32) (w : World) : List (String × PageData) :=
  if AVLTree.get w.store.memtable key = Utils.invalidValue then w.disk.pagesAsked xxh64 key w.ssts
  else []

def pagesScanned (startKey endKey : Uint32) (w : World) : List (String × PageData) :=
  w.disk.pagesScanned startKey endKey w.ssts

end World

theorem BufferPool.serve_append (pages pages' : List (String × PageData)) :
    ∀ pool : BufferPool PageData, pool.serve xxh64.page (pages ++ pages') =
      pool.serve xxh64.page pages >>= fun pool => pool.serve xxh64.page pages' := by
  induction pages with
  | nil => intro pool; rfl
  | cons x pages ih =>
    intro pool
    rw [List.cons_append, serve_cons, serve_cons x pages]
    cases pool.serve xxh64.page [x] with
    | error e => rfl
    | ok pool₁ => exact ih pool₁

namespace Stores

/-- Beside its answer, a lookup is the serving of these pages. -/
theorem findValueInSsts_eq_serve (key : Uint32) : ∀ {ssts : List String}
    {pool : BufferPool PageData}, Stores xxh64 dbPath cs disk pool log →
    (∀ sst ∈ ssts, ∃ file, disk.find sst = some file) →
    (World.findValueInSsts (BTreeNode.searchValueByKey xxh64 key) disk ssts pool).map Prod.snd =
      pool.serve xxh64.page (disk.pagesAsked xxh64 key ssts)
  | [], _, _, _ => rfl
  | sst :: ssts, pool, h, hfiles => by
    obtain ⟨file, hf⟩ := hfiles sst List.mem_cons_self
    obtain ⟨leaves, hl⟩ := h.layout hf
    have hsearch := searchValueByKey_eq_serve hl (Disk.current_backs hf) h.coherent key
    rw [World.findValueInSsts, Disk.read_eq_ok.mpr hf, ok_bind, Disk.pagesAsked, hf]
    simp only [serve_append, hsearch]
    cases hs : pool.serve xxh64.page (BTreeNode.pagesAsked xxh64 sst file key) with
    | error e => rfl
    | ok pool₁ =>
      rw [hs] at hsearch
      have h₁ := (h.searchValueByKey hf hsearch).2
      simp only [Except.map, ok_bind]
      by_cases htomb : lookupValue xxh64 file key = Utils.tombStone
      · rw [if_pos htomb, if_neg (htomb ▸ by decide)]
        rfl
      · rw [if_neg htomb]
        by_cases hnone : lookupValue xxh64 file key = Utils.invalidValue
        · rw [if_neg (not_not.mpr hnone), if_pos hnone]
          exact findValueInSsts_eq_serve key h₁ fun s hs => hfiles s (List.mem_cons_of_mem _ hs)
        · rw [if_pos hnone, if_neg hnone]
          rfl

theorem scanSsts_eq_serve (startKey endKey : Uint32) : ∀ {ssts : List String}
    (result : List Entry) {pool : BufferPool PageData}, Stores xxh64 dbPath cs disk pool log →
    (∀ sst ∈ ssts, ∃ file, disk.find sst = some file) →
    (World.scanSsts (BTreeNode.scan xxh64 startKey endKey) disk ssts result pool).map Prod.snd =
      pool.serve xxh64.page (disk.pagesScanned startKey endKey ssts)
  | [], _, _, _, _ => rfl
  | sst :: ssts, result, pool, h, hfiles => by
    obtain ⟨file, hf⟩ := hfiles sst List.mem_cons_self
    obtain ⟨leaves, hl⟩ := h.layout hf
    have hscan := scan_eq_serve hl (Disk.current_backs hf) h.coherent startKey endKey
    rw [World.scanSsts, Disk.read_eq_ok.mpr hf, ok_bind, Disk.pagesScanned, hf]
    simp only [serve_append, hscan]
    cases hs : pool.serve xxh64.page (BTreeNode.pagesScanned sst file startKey endKey) with
    | error e => rfl
    | ok pool₁ =>
      rw [hs] at hscan
      have h₁ := (h.scan hf hscan).2
      exact scanSsts_eq_serve startKey endKey _ h₁ fun s hs =>
        hfiles s (List.mem_cons_of_mem _ hs)

end Stores

namespace AtRest

theorem find_ssts (h : AtRest xxh64 dbPath slots w) :
    ∀ sst ∈ w.ssts, ∃ file, w.disk.find sst = some file := by
  intro sst hs
  obtain ⟨x, hx, rfl⟩ := h.mem_ssts.mp hs
  obtain ⟨file, hf, -⟩ := (h.stores.stored x hx).file
  exact ⟨file, hf⟩

/-- Beside its answer, `get` is the serving of these pages, and fails where that fails. -/
theorem get_eq_serve (h : AtRest xxh64 dbPath slots w) (key : Uint32) :
    (w.get xxh64 key).map (fun x => x.2.store.bufferPool) =
      w.store.bufferPool.serve xxh64.page (w.pagesAsked xxh64 key) := by
  rw [World.pagesAsked, World.get]
  simp only
  by_cases htomb : AVLTree.get w.store.memtable key = Utils.tombStone
  · rw [if_pos htomb, if_neg (htomb ▸ by decide)]
    rfl
  · rw [if_neg htomb]
    by_cases hnone : AVLTree.get w.store.memtable key = Utils.invalidValue
    · rw [if_neg (not_not.mpr hnone), if_pos hnone,
        ← h.stores.findValueInSsts_eq_serve key h.find_ssts]
      cases World.findValueInSsts (BTreeNode.searchValueByKey xxh64 key) w.disk w.ssts
        w.store.bufferPool <;> rfl
    · rw [if_pos hnone, if_neg hnone]
      rfl

theorem scan_eq_serve (h : AtRest xxh64 dbPath slots w) (startKey endKey : Uint32) :
    (w.scan xxh64 sort startKey endKey).map (fun x => x.2.store.bufferPool) =
      w.store.bufferPool.serve xxh64.page (w.pagesScanned startKey endKey) := by
  rw [World.pagesScanned, World.scan, ← h.stores.scanSsts_eq_serve startKey endKey
    (KVStore.scanMemtable startKey endKey w.store.memtable []) h.find_ssts]
  cases World.scanSsts (BTreeNode.scan xxh64 startKey endKey) w.disk w.ssts
    (KVStore.scanMemtable startKey endKey w.store.memtable []) w.store.bufferPool <;> rfl

end AtRest

/-! ### Lookups -/

/-- There is an SST at this path. -/
def IsSst (xxh64 : XXH64) (disk : Disk) (path : String) : Prop :=
  ∃ es file, es ≠ [] ∧ disk.find path = some file ∧ sstOf xxh64 es = .ok file

/-- A page of this SST, with what it holds. -/
def IsPageOf (disk : Disk) (path : String) (x : String × PageData) : Prop :=
  ∃ file offset, disk.find path = some file ∧ x.1 = Page.generatePageId path offset ∧
    file.page offset = some x.2

theorem IsPageOf.path_inj {path path' : String} {x x' : String × PageData}
    (h : IsPageOf disk path x) (h' : IsPageOf disk path' x') (hid : x.1 = x'.1) : path = path' := by
  obtain ⟨-, o, -, hx, -⟩ := h
  obtain ⟨-, o', -, hx', -⟩ := h'
  exact (Page.generatePageId_inj.mp (hx.symm.trans (hid.trans hx'))).1

/-- The pages at these offsets. -/
theorem isPageOf_of_mem {path : String} {file : File} (hf : disk.find path = some file)
    {offsets : List ℕ} {x : String × PageData} (hx : x ∈ offsets.filterMap fun offset =>
      (file.page offset).map fun data => (Page.generatePageId path offset, data)) :
    IsPageOf disk path x := by
  obtain ⟨o, -, ho⟩ := List.mem_filterMap.mp hx
  obtain ⟨data, hp, rfl⟩ := Option.map_eq_some_iff.mp ho
  exact ⟨file, o, hf, rfl, hp⟩

theorem nodup_ids {path : String} (file : File) {offsets : List ℕ} (hn : offsets.Nodup) :
    ((offsets.filterMap fun offset => (file.page offset).map fun data =>
      (Page.generatePageId path offset, data)).map Prod.fst).Nodup := by
  rw [List.map_filterMap]
  refine hn.filterMap fun o o' id ho ho' => ?_
  obtain ⟨x, hx, rfl⟩ := Option.map_eq_some_iff.mp ho
  obtain ⟨x', hx', hid⟩ := Option.map_eq_some_iff.mp ho'
  obtain ⟨data, -, rfl⟩ := Option.map_eq_some_iff.mp hx
  obtain ⟨data', -, rfl⟩ := Option.map_eq_some_iff.mp hx'
  exact (Page.generatePageId_inj.mp hid.symm).2

namespace Disk

theorem mem_pagesAsked {x : String × PageData} : ∀ {ssts : List String},
    x ∈ disk.pagesAsked xxh64 key ssts → ∃ sst ∈ ssts, IsPageOf disk sst x
  | [], h => by cases h
  | sst :: ssts, h => by
    rw [pagesAsked] at h
    cases hf : disk.find sst with
    | none => rw [hf] at h; cases h
    | some file =>
      rw [hf] at h
      rcases List.mem_append.mp h with h | h
      · exact ⟨sst, List.mem_cons_self, isPageOf_of_mem hf h⟩
      · split_ifs at h
        · obtain ⟨s, hs, hx⟩ := mem_pagesAsked h
          exact ⟨s, List.mem_cons_of_mem _ hs, hx⟩
        · cases h

theorem pagesAsked_bound (key : Uint32) : ∀ {ssts : List String},
    (∀ sst ∈ ssts, IsSst xxh64 disk sst) → ssts.Nodup →
    (disk.pagesAsked xxh64 key ssts).length ≤ 5 * ssts.length ∧
      ((disk.pagesAsked xxh64 key ssts).map Prod.fst).Nodup
  | [], _, _ => ⟨le_rfl, List.nodup_nil⟩
  | sst :: ssts, hssts, hn => by
    obtain ⟨es, file, hne, hf, hsst⟩ := hssts sst List.mem_cons_self
    obtain ⟨hns, hn⟩ := List.nodup_cons.mp hn
    obtain ⟨hlen, hnodup⟩ := pagesAsked_bound key
      (fun s hs => hssts s (List.mem_cons_of_mem _ hs)) hn
    obtain ⟨hpages, hoffsets⟩ := lookupPages_bound hne hsst key
    have hheight := treeHeight_sstOf_le hne hsst
    have hfive : (BTreeNode.pagesAsked xxh64 sst file key).length ≤ 5 :=
      (List.length_filterMap_le _ _).trans (by omega)
    rw [pagesAsked, hf, List.length_cons]
    simp only
    split_ifs
    · rw [List.length_append, List.map_append]
      refine ⟨by omega, (nodup_ids file hoffsets).append hnodup fun id hid hid' => ?_⟩
      -- the pages of another SST have other ids
      obtain ⟨x, hx, rfl⟩ := List.mem_map.mp hid
      obtain ⟨x', hx', he⟩ := List.mem_map.mp hid'
      obtain ⟨s, hs, hpage⟩ := mem_pagesAsked hx'
      exact hns (IsPageOf.path_inj (isPageOf_of_mem hf hx) hpage he.symm ▸ hs)
    · rw [List.append_nil]
      exact ⟨by omega, nodup_ids file hoffsets⟩

end Disk

theorem length_listed : ∀ (slots : List (Option Sst)) (c : ℕ),
    (listed c slots).length = (slots.map Option.isSome).count true
  | [], _ => rfl
  | none :: slots, c => by
    rw [List.map_cons, List.count_cons_of_ne (by simp)]
    exact length_listed slots (c + 1)
  | some x :: slots, c => by
    rw [List.map_cons, Option.isSome_some, List.count_cons_self, ← length_listed slots (c + 1)]
    rfl

namespace AtRest

theorem isSst (h : AtRest xxh64 dbPath slots w) : ∀ sst ∈ w.ssts, IsSst xxh64 w.disk sst := by
  intro sst hs
  obtain ⟨x, hx, rfl⟩ := h.mem_ssts.mp hs
  obtain ⟨file, hf, hne, hsst⟩ := (h.stores.stored x hx).file
  exact ⟨x.2.entries, file, hne, hf, hsst⟩

theorem nodup_ssts (h : AtRest xxh64 dbPath slots w) : w.ssts.Nodup := by
  have hmap : w.ssts = ((listed 0 slots).map Prod.fst).map (sstPath dbPath) := by
    rw [Models.ssts h, List.map_map]
    rfl
  rw [hmap]
  exact h.stores.nodup.map fun _ _ => sstPath_inj.mp

/-- The number of SSTs. -/
theorem length_ssts (h : AtRest xxh64 dbPath slots w) :
    w.ssts.length = (flushes w.log).bits.count true := by
  rw [Models.ssts h, List.length_map, length_listed, h.bits]

end AtRest

/-- In every state reached, `get` asks for current pages, for none twice and for five at most
in each SST, and fails only where the pool cannot serve them. -/
theorem runStore_getCost (xxh64 : XXH64) (sort : StdSort) (config : Config) (dbPath : String)
    (ops : List Op) (rs : List Reply) (w : World) (key : Uint32)
    (h : runStore xxh64 sort config dbPath ops = .ok (rs, w)) :
    (w.get xxh64 key).map (fun x => x.2.store.bufferPool) =
        w.store.bufferPool.serve xxh64.page (w.pagesAsked xxh64 key) ∧
      (∀ x ∈ w.pagesAsked xxh64 key, w.disk.Current x.1 x.2) ∧
      ((w.pagesAsked xxh64 key).map Prod.fst).Nodup ∧
      (w.pagesAsked xxh64 key).length ≤ 5 * (flushes w.log).bits.count true := by
  obtain ⟨slots, hrest⟩ := runStore_atRest h
  obtain ⟨hlen, hnodup⟩ := Disk.pagesAsked_bound key hrest.isSst hrest.nodup_ssts
  rw [hrest.length_ssts] at hlen
  refine ⟨hrest.get_eq_serve key, ?_⟩
  rw [World.pagesAsked]
  split_ifs
  · refine ⟨fun x hx => ?_, hnodup, hlen⟩
    obtain ⟨sst, -, file, o, hf, hid, hp⟩ := Disk.mem_pagesAsked hx
    exact ⟨sst, file, o, hf, hid, hp⟩
  · exact ⟨fun x hx => absurd hx List.not_mem_nil, List.nodup_nil, Nat.zero_le _⟩

/-- Three flushes, two SSTs; the key is in neither. -/
theorem runStore_getCost_three : ∃ w : World, flushes w.log = 3 ∧
    (w.pagesAsked constHash 9).length ≤ 10 := by
  have hrun := eq_ok_okOr ([], ⟨.new smallConfig, .empty, []⟩)
    (x := runStore constHash .insertion smallConfig "/a" [.put 5 7, .put 6 8, .put 5 9])
    (by decide +kernel)
  obtain ⟨-, -, -, hlen⟩ := runStore_getCost constHash .insertion smallConfig "/a" _ _ _ 9 hrun
  exact ⟨_, by decide +kernel, hlen.trans (by decide +kernel)⟩

/-! ### Scans -/

theorem length_pagesScanned_sstOf_le {x : Sst} {file : File} (hne : x.entries ≠ [])
    (hs : SortedBy Entry.key x.entries) (h : sstOf xxh64 x.entries = .ok file) (path : String)
    (startKey endKey : Uint32) :
    (BTreeNode.pagesScanned path file startKey endKey).length ≤
      6 + (entriesIn startKey endKey x.entries).length / maxKeys := by
  have hpages := length_scanPages_le hne hs h startKey endKey
  have hheight := treeHeight_sstOf_le hne h
  exact (List.length_filterMap_le _ _).trans (hpages.trans (Nat.add_le_add_right (by omega) _))

/-- The SSTs hold their slots, which are sorted. -/
theorem Stores.length_pagesScanned_le (h : Stores xxh64 dbPath cs disk pool log)
    (startKey endKey : Uint32) :
    ∀ {slots : List (Option Sst)} {c : ℕ}, (∀ x ∈ listed c slots, x ∈ cs) →
    AllSorted Entry.key (contents slots) →
    (disk.pagesScanned startKey endKey
        ((listed c slots).map fun x => sstPath dbPath x.1)).length ≤
      6 * (listed c slots).length + ((contents slots).flatMap fun es =>
        entriesIn startKey endKey (es.getD [])).length / maxKeys
  | [], _, _, _ => Nat.zero_le _
  | none :: slots, c, hsub, hsorted => by
    have hsub' : ∀ x ∈ listed (c + 1) slots, x ∈ cs := hsub
    have ih := h.length_pagesScanned_le startKey endKey hsub' hsorted.tail
    exact ih
  | some x :: slots, c, hsub, hsorted => by
    obtain ⟨file, hf, hne, hfile⟩ := (h.stored (2 * c, x) (hsub _ (by simp [listed]))).file
    have hfirst := length_pagesScanned_sstOf_le hne hsorted.head hfile (sstPath dbPath (2 * c))
      startKey endKey
    have hrest := h.length_pagesScanned_le startKey endKey (c := c + 1)
      (fun y hy => hsub y (List.mem_append_right _ hy)) hsorted.tail
    have hlist : listed c (some x :: slots) = (2 * c, x) :: listed (c + 1) slots := rfl
    have hcontents : contents (some x :: slots) = some x.entries :: contents slots := rfl
    rw [hlist, hcontents, List.map_cons, List.length_cons, Disk.pagesScanned, hf,
      List.flatMap_cons, List.length_append, Option.getD_some]
    simp only [List.length_append]
    calc _ ≤ (6 + (entriesIn startKey endKey x.entries).length / maxKeys) +
          (6 * (listed (c + 1) slots).length + ((contents slots).flatMap fun es =>
            entriesIn startKey endKey (es.getD [])).length / maxKeys) := Nat.add_le_add hfirst hrest
      _ = 6 * ((listed (c + 1) slots).length + 1) +
          ((entriesIn startKey endKey x.entries).length / maxKeys + ((contents slots).flatMap
            fun es => entriesIn startKey endKey (es.getD [])).length / maxKeys) := by ring
      _ ≤ _ := Nat.add_le_add_left Nat.div_add_div_le_add_div _

/-- After a run of safe calls, a scan asks for six pages at most in each SST, and for one more
for 508 pairs that it returns. -/
theorem runCalls_scanCost (xxh64 : XXH64) (sort : StdSort) (config : Config) (dbPath : String)
    (calls : List Call) (hvalues : ∀ call ∈ calls, call.ValueOk)
    (hsafe : AlongTotal Snapshot.next (Snapshot.Safe dbPath) (.new config) calls)
    (hfront : Along (Call.step xxh64 sort) (fun w call => call.KeepsFront w) (.start config dbPath)
      calls) :
    ∃ rs w, runCalls xxh64 sort config dbPath calls = .ok (rs, w) ∧ ∀ startKey endKey,
      ∃ result w', w.scan xxh64 sort startKey endKey = .ok (result, w') ∧
        w.store.bufferPool.serve xxh64.page (w.pagesScanned startKey endKey) =
          .ok w'.store.bufferPool ∧
        (w.pagesScanned startKey endKey).length ≤
          6 * w.ssts.length + result.length / BTreeNode.maxKeys := by
  obtain ⟨rs, w, hrun, hmodels, hdenotes, -⟩ := runCalls_models hvalues hsafe hfront
  refine ⟨rs, w, hrun, fun startKey endKey => ?_⟩
  obtain ⟨w', hscan, -⟩ := hmodels.scan hdenotes startKey endKey
  obtain ⟨slots, hslots, hcontents⟩ := hmodels.slots
  refine ⟨_, w', hscan, ?_, ?_⟩
  · rw [← hslots.scan_eq_serve, hscan]
    rfl
  · have hsorted := hdenotes.slots
    rw [← hcontents] at hsorted
    have hlen := hslots.stores.length_pagesScanned_le startKey endKey
      (fun x hx => hx) hsorted
    rw [World.pagesScanned, Models.ssts hslots]
    refine hlen.trans ?_
    rw [List.length_map, List.length_map, SortBy.length_apply, Snapshot.inRange,
      List.length_append, ← hcontents]
    exact Nat.add_le_add_left (Nat.div_le_div_right (Nat.le_add_left _ _)) _

/-- Overwritten, deleted and reopened. -/
theorem runCalls_scanCost_sample : ∃ rs w,
    runCalls constHash .insertion smallConfig "/a" sampleCalls = .ok (rs, w) ∧ ∀ startKey endKey,
      ∃ result w', w.scan constHash .insertion startKey endKey = .ok (result, w') ∧
        w.store.bufferPool.serve constHash.page (w.pagesScanned startKey endKey) =
          .ok w'.store.bufferPool ∧
        (w.pagesScanned startKey endKey).length ≤
          6 * w.ssts.length + result.length / BTreeNode.maxKeys :=
  runCalls_scanCost constHash .insertion smallConfig "/a" sampleCalls (by decide)
    (by decide +kernel) (by decide)

end MiniKvs
