import MiniKvs.Sst.Cached

/-! Range scans of one SST through the buffer pool. A scan asks the pool for the
pages that a scan of the file itself reads, all of them nodes of the file. -/

namespace MiniKvs

open Lib BufferPool

namespace BTreeNode

/-- The file as a source that notes down which pages it is asked for. -/
def traceSource (sst : File) : Source (List ℕ) where
  filter offsets := sst.readFilter.map fun filter => (filter, offsets ++ [0])
  node offset offsets := (sst.readNode offset).map fun node => (node, offsets ++ [offset])

/-- The pages that a scan reads, in order. -/
def scanPages (sst : File) (startKey endKey : Uint32) : List ℕ :=
  okOr [] ((scanFrom (traceSource sst) startKey endKey sst.numPages []).map Prod.snd)

/-- The pages that a scan asks the pool for, with what the file holds there. -/
def pagesScanned (path : String) (sst : File) (startKey endKey : Uint32) :
    List (String × PageData) :=
  (scanPages sst startKey endKey).filterMap fun offset =>
    (sst.page offset).map fun data => (Page.generatePageId path offset, data)

variable {xxh64 : XXH64} {leaves : List (List Entry)} {sst : File} {path : String}
  {startKey endKey : Uint32}

theorem traceSource_reads (sst : File) : Reads (traceSource sst) sst.page fun _ => True where
  filter offsets f f' offsets' _ hp h := by
    rw [traceSource, File.readFilter, hp] at h
    cases h
    exact ⟨rfl, trivial⟩
  node offset offsets n n' offsets' _ hp h := by
    simp only [traceSource, File.readNode, hp] at h
    cases hpos : File.position offset with
    | error e => rw [hpos] at h; cases h
    | ok p => rw [hpos] at h; cases h; exact ⟨rfl, trivial⟩

theorem visit_traceSource : ∀ {offsets : List ℕ} (seen : List ℕ),
    (∀ o ∈ offsets, IsNode sst.page o) →
    visit (traceSource sst) offsets seen = .ok (seen ++ offsets)
  | [], seen, _ => by rw [List.append_nil]; rfl
  | o :: offsets, seen, ho => by
    obtain ⟨hp, hlt⟩ := ho o List.mem_cons_self
    have hnode : (traceSource sst).node o seen = .ok (nodeAt sst.page o, seen ++ [o]) := by
      simp only [traceSource, File.readNode_of_page hlt hp]
      rfl
    have ih := visit_traceSource (seen ++ [o]) fun o' h => ho o' (List.mem_cons_of_mem o h)
    rw [List.append_assoc, List.singleton_append] at ih
    rw [visit, hnode, ok_bind]
    exact ih

namespace Layout

/-- From whatever source, a scan fetches the pages that it reads from the file. -/
theorem scanFrom_eq_scanPages (hl : Layout xxh64 leaves sst) (startKey endKey : Uint32) :
    (∀ o ∈ scanPages sst startKey endKey, IsNode sst.page o) ∧
      ∀ {σ : Type} {source : Source σ} {Inv : σ → Prop} {s : σ}, Reads source sst.page Inv →
        Inv s → scanFrom source startKey endKey sst.numPages s =
          (visit source (scanPages sst startKey endKey) s).map fun s =>
            (scanValue sst startKey endKey, s) := by
  obtain ⟨offsets, result, hnode, -, heq⟩ := hl.scanFrom_eq startKey endKey
  have hpages : scanPages sst startKey endKey = offsets := by
    rw [scanPages, heq (traceSource_reads sst) trivial, visit_traceSource [] hnode]
    rfl
  have hvalue : scanValue sst startKey endKey = result := by
    have hserve := fileSource_serves sst
    obtain ⟨s', hv, -⟩ := hserve.visit hnode trivial
    rw [scanValue, heq hserve.toReads trivial, hv]
    rfl
  rw [hpages, hvalue]
  exact ⟨hnode, heq⟩

theorem mem_of_isNode (hl : Layout xxh64 leaves sst) {o : ℕ} (h : IsNode sst.page o) :
    1 ≤ o ∧ o ≤ getTotalNumberOfNodes leaves.length := by
  constructor
  · by_contra hc
    obtain rfl : o = 0 := by omega
    have hp := h.1
    rw [hl.filter] at hp
    cases hp
  · by_contra hc
    have hp := h.1
    rw [hl.beyond o (not_le.mp hc)] at hp
    cases hp

end Layout

variable {Current : String → PageData → Prop} {pool : BufferPool PageData}

/-- Through a coherent pool a scan returns what the file gives, and fails only where
the pool cannot serve a page. -/
theorem scan_eq_serve (hl : Layout xxh64 leaves sst) (hb : Backs Current path sst)
    (hc : Coherent xxh64.page Current pool) (startKey endKey : Uint32) :
    scan xxh64 startKey endKey path sst pool =
      (pool.serve xxh64.page (pagesScanned path sst startKey endKey)).map fun pool =>
        (scanValue sst startKey endKey, pool) := by
  obtain ⟨hnode, heq⟩ := hl.scanFrom_eq_scanPages startKey endKey
  rw [scan, heq (poolSource_reads hb) hc, visit_eq_serve hb hnode hc]
  rfl

/-- What a scan finds in the SST of a memtable. -/
theorem Layout.scanValue_entries {root : Node}
    (hl : Layout xxh64 (chunks maxKeys (AVLTree.entries root)) sst)
    (hs : SortedBy Entry.key (AVLTree.entries root)) (startKey endKey : Uint32) :
    scanValue sst startKey endKey = entriesIn startKey endKey (AVLTree.entries root) := by
  rw [hl.scanValue_eq (.of_chunks hs), flatten_chunks maxKeys_pos]

/-- A scan of the SST of a memtable reads nodes of the file only, and through a pool
with current pages it returns the pairs in range exactly when the pool serves the
pages that the scan asks for. -/
theorem scan_iff_serve (xxh64 : XXH64) (path : String) {root : Node} (hne : root ≠ .null)
    (hs : SortedBy Entry.key (AVLTree.entries root))
    (hrange : getTotalNumberOfNodes (extractLeafNodesFromAvl root []).length < 524288) :
    ∃ sst, constructInternalNodesAndWriteToFile xxh64 (extractLeafNodesFromAvl root []) = .ok sst ∧
      ∀ startKey endKey : Uint32,
        (∀ o ∈ scanPages sst startKey endKey,
          1 ≤ o ∧ o ≤ getTotalNumberOfNodes (extractLeafNodesFromAvl root []).length) ∧
        ∀ pool : BufferPool PageData, Coherent xxh64.page (PageOf path sst) pool →
          (scan xxh64 startKey endKey path sst pool).map Prod.snd =
            pool.serve xxh64.page (pagesScanned path sst startKey endKey) ∧
          ((∃ pool', scan xxh64 startKey endKey path sst pool =
            .ok (entriesIn startKey endKey (AVLTree.entries root), pool')) ↔
          ∃ pool', pool.serve xxh64.page (pagesScanned path sst startKey endKey) = .ok pool') := by
  obtain ⟨sst, hsst, hl⟩ := exists_flush xxh64 hne hrange
  refine ⟨sst, hsst, fun startKey endKey => ⟨fun o ho => ?_, fun pool hc => ?_⟩⟩
  · rw [extractLeafNodesFromAvl_eq, List.length_map]
    exact hl.mem_of_isNode ((hl.scanFrom_eq_scanPages startKey endKey).1 o ho)
  · rw [scan_eq_serve hl (pageOf_backs path sst) hc, hl.scanValue_entries hs]
    refine ⟨?_, exists_map_pair⟩
    cases pool.serve xxh64.page (pagesScanned path sst startKey endKey) <;> rfl

/-- As long as its list is intact, a pool with current pages serves every scan, and is such
a pool afterwards. -/
theorem scan_steady (xxh64 : XXH64) (path : String) {root : Node} (hne : root ≠ .null)
    (hs : SortedBy Entry.key (AVLTree.entries root))
    (hrange : getTotalNumberOfNodes (extractLeafNodesFromAvl root []).length < 524288) :
    ∃ sst, constructInternalNodesAndWriteToFile xxh64 (extractLeafNodesFromAvl root []) = .ok sst ∧
      ∀ (startKey endKey : Uint32) (pool : BufferPool PageData),
        Coherent xxh64.page (PageOf path sst) pool → Steady xxh64.page pool →
        ∃ pool', scan xxh64 startKey endKey path sst pool =
            .ok (entriesIn startKey endKey (AVLTree.entries root), pool') ∧
          Coherent xxh64.page (PageOf path sst) pool' ∧ Steady xxh64.page pool' := by
  obtain ⟨sst, hsst, hl⟩ := exists_flush xxh64 hne hrange
  refine ⟨sst, hsst, fun startKey endKey pool hc hsteady => ?_⟩
  have hserves := @poolSource_serves xxh64 path sst _ (pageOf_backs path sst)
  obtain ⟨pool', hr, hinv⟩ := hl.scanFrom_serves hserves ⟨hc, hsteady⟩ startKey endKey
  rw [hl.scanValue_entries hs] at hr
  exact ⟨pool', hr, hinv⟩

/-- The pool holds pages of a scan of the whole SST when a part of it is scanned. -/
theorem scan_iff_serve_used : ∃ sst pool pool',
    constructInternalNodesAndWriteToFile ⟨fun _ => 0, fun _ _ => 0⟩
      (extractLeafNodesFromAvl threeEntries []) = .ok sst ∧
    scan ⟨fun _ => 0, fun _ _ => 0⟩ 0 9 "a" sst (BufferPool.new 1 2) =
      .ok ([⟨3, 1⟩, ⟨5, 4294967294⟩, ⟨8, 9⟩], pool) ∧
    scan ⟨fun _ => 0, fun _ _ => 0⟩ 4 9 "a" sst pool =
      .ok ([⟨5, 4294967294⟩, ⟨8, 9⟩], pool') := by
  have hs : SortedBy Entry.key (AVLTree.entries threeEntries) := by unfold SortedBy; decide
  obtain ⟨sst, hsst, h⟩ := scan_iff_serve ⟨fun _ => 0, fun _ _ => 0⟩ "a"
    (Node.noConfusion : threeEntries ≠ .null) hs (by decide)
  obtain ⟨sst', hsst', hsteady⟩ := scan_steady ⟨fun _ => 0, fun _ _ => 0⟩ "a"
    (Node.noConfusion : threeEntries ≠ .null) hs (by decide)
  obtain rfl : sst = sst' := Except.ok.inj (hsst.symm.trans hsst')
  obtain ⟨pool, hall, hc, hp⟩ := hsteady 0 9 (.new 1 2) (.new (by norm_num) (by norm_num))
    (.new (by norm_num) (by norm_num))
  obtain ⟨pool₁, hserve, -⟩ := hp.serve (pagesScanned "a" sst 4 9)
  obtain ⟨pool', hpart⟩ := ((h 4 9).2 pool hc).2.mpr ⟨pool₁, hserve⟩
  exact ⟨sst, pool, pool', hsst, hall, hpart⟩

namespace LostFront

/-- The pool that has lost its front page, after a lookup has asked for the filter. -/
def lostTwice : BufferPool PageData :=
  okOr lost (lost.serve hashes.page
    [(Page.generatePageId "a" 0, (file.page 0).getD (.node .new))])

theorem lostTwice_coherent : Coherent hashes.page (PageOf "a" file) lostTwice := by
  have hserve : lost.serve hashes.page
      [(Page.generatePageId "a" 0, (file.page 0).getD (.node .new))] = .ok lostTwice :=
    eq_ok_okOr _ (by decide)
  refine lost_coherent.serve ?_ hserve
  intro x hx
  rw [List.mem_singleton.mp hx]
  exact ⟨0, rfl, by decide⟩

end LostFront

/-- A pool that has lost its front page to a removal holds current pages only, and
fails the scan when it has to evict. -/
theorem not_scan_remove : ¬ ∀ (xxh64 : XXH64) (path : String) (root : Node)
    (sst : File) (startKey endKey : Uint32) (pool : BufferPool PageData), root ≠ .null →
    SortedBy Entry.key (AVLTree.entries root) →
    getTotalNumberOfNodes (extractLeafNodesFromAvl root []).length < 524288 →
    constructInternalNodesAndWriteToFile xxh64 (extractLeafNodesFromAvl root []) = .ok sst →
    Coherent xxh64.page (PageOf path sst) pool →
    ∃ pool', scan xxh64 startKey endKey path sst pool =
      .ok (entriesIn startKey endKey (AVLTree.entries root), pool') := by
  intro h
  have hfile : constructInternalNodesAndWriteToFile LostFront.hashes
      (extractLeafNodesFromAvl LostFront.root []) = .ok LostFront.file :=
    eq_ok_okOr _ (by decide)
  obtain ⟨pool', hv⟩ := h LostFront.hashes "a" LostFront.root LostFront.file 5 5
    LostFront.lostTwice Node.noConfusion (List.pairwise_singleton _ _) (by decide) hfile
    LostFront.lostTwice_coherent
  have hnull : (scan LostFront.hashes 5 5 "a" LostFront.file LostFront.lostTwice).map Prod.fst =
      .error .nullDereference := by decide
  rw [hv] at hnull
  cases hnull

end BTreeNode

end MiniKvs
