import Mathlib.Data.Nat.Log
import MiniKvs.Sst.CachedScan

/-! How many pages a lookup or a scan of one SST asks for. Every level of the tree has
one node for 509 nodes of the level below, so a descent takes logarithmically many
pages, three levels and a leaf at most. Behind the leaf where it starts, a scan goes on
only over leaves that lie in the range, and all of these but the last are full. -/

namespace MiniKvs

open Lib

namespace BTreeNode

variable {leaves : List (List Entry)} {total : ℕ} {page page' : ℕ → Option PageData}
  {file file' : File} {xxh64 : XXH64} {key startKey endKey : Uint32} {es : List Entry}

/-! ### The height of the tree -/

/-- The levels of internal nodes over `n` leaves; a single leaf still gets a root. -/
def treeHeight (n : ℕ) : ℕ := max 1 (Nat.clog (maxKeys + 1) n)

theorem treeHeight_of_parents_eq_one {n : ℕ} (h : parents n = 1) : treeHeight n = 1 := by
  have hn : n ≤ (maxKeys + 1) ^ 1 := by
    simp only [parents, maxKeys] at h ⊢
    omega
  exact max_eq_left (Nat.clog_le_of_le_pow hn)

theorem treeHeight_of_parents {n : ℕ} (h : 1 < parents n) :
    treeHeight n = treeHeight (parents n) + 1 := by
  have hb : 1 < maxKeys + 1 := by decide
  have hup : (n + (maxKeys + 1) - 1) / (maxKeys + 1) = parents n := by rw [parents]; rfl
  have hpos := Nat.clog_pos hb h
  rw [treeHeight, treeHeight, Nat.clog_of_two_le hb (one_lt_of_one_lt_parents h), hup,
    max_eq_right (Nat.le_add_left 1 _), max_eq_right hpos]

/-- Three levels, as far as the positions fit an int. -/
theorem treeHeight_le_three {n : ℕ} (h : n < 524288) : treeHeight n ≤ 3 := by
  have hn : n ≤ (maxKeys + 1) ^ 3 := by
    simp only [maxKeys]
    omega
  exact max_le (by decide) (Nat.clog_le_of_le_pow hn)

/-- The metadata of the root are no part of the tree. -/
theorem Subtree.withRoot {h i n : ℕ} {node root : BTreeNode}
    (hs : Subtree leaves total page (h + 1) 1 i n) (hp : page 1 = some (.node node))
    (hp' : page' 1 = some (.node root)) (hnum : root.numKeys = node.numKeys)
    (hentries : root.entries = node.entries) (hleaf : root.isLeaf = node.isLeaf)
    (hother : ∀ o, 1 < o → page' o = page o) : Subtree leaves total page' (h + 1) 1 i n := by
  obtain ⟨hlt, cs, hne, hcon, ⟨node', hnode, hpar⟩, hcs⟩ := hs
  rw [hp, Option.some.injEq, PageData.node.injEq] at hnode
  subst hnode
  refine ⟨hlt, cs, hne, hcon, ⟨root, hp', ?_⟩, fun c hc => ?_⟩
  · exact ⟨hnum.trans hpar.numKeys, hentries.trans hpar.entries, hleaf.trans hpar.isLeaf⟩
  · obtain ⟨hoff, hsub⟩ := hcs c hc
    exact ⟨hoff, hsub.frame fun o ho => hother o (hoff.trans_le ho)⟩

/-- A level of one node is a tree over all leaves. -/
theorem LevelBuilt.subtree_root {h : ℕ} {node : BTreeNode} {cs : List Child}
    (hb : LevelBuilt leaves total (h + 1) 0 leaves.length 1 file file' [node] cs) :
    Subtree leaves total file'.page (h + 1) 1 0 leaves.length ∧
      file'.page 1 = some (.node node) := by
  obtain ⟨c, rfl⟩ := List.length_eq_one_iff.mp hb.placed.length_eq.symm
  obtain ⟨hsub, hc1, hc2⟩ := hb.subtrees c List.mem_cons_self
  rw [List.length_singleton] at hc1
  have hoff : c.off = 1 := by omega
  obtain ⟨hci, -, hcn⟩ := hb.consecutive
  simp only [Consecutive, zero_add] at hcn
  rw [hoff, hci, hcn] at hsub
  obtain ⟨hpage, -⟩ := List.forall₂_cons.mp hb.placed
  exact ⟨hsub, hoff ▸ hpage⟩

theorem buildLevels_height {fuel : ℕ} : ∀ {h : ℕ} {cs : List Child} {file file' : File}, cs ≠ [] →
    Consecutive 0 cs leaves.length →
    (∀ c ∈ cs, Subtree leaves total file.page h c.off c.i c.n ∧
      internalNodes cs.length < c.off) → internalNodes cs.length < 524288 →
    buildLevels File.write id summary total leaves.length fuel (cs.map (Child.entry leaves))
      (internalNodes cs.length) file = .ok file' →
    Subtree leaves total file'.page (h + treeHeight cs.length) 1 0 leaves.length := by
  induction fuel with
  | zero => intro h cs file file' _ _ _ _ hb; cases hb
  | succ fuel ih =>
    intro h cs file file' hne hcon hcs hlt hb
    have hpos := List.length_pos_iff.mpr hne
    obtain ⟨nodes, file₁, cs', hlevel, hlen, hbuilt⟩ := buildLevel_spec (Nat.lt_succ_self _) hcon
      hcs (parents_le_internalNodes hpos) hlt
    have hlen' : nodes.length = cs'.length := hbuilt.placed.length_eq
    rw [buildLevels, List.length_map, hlevel] at hb
    simp only [ok_bind] at hb
    rcases Nat.lt_or_ge 1 (parents cs.length) with hp | hp
    · -- more than one node: they are the queue of the next level
      obtain ⟨a, b, t, rfl⟩ : ∃ a b t, nodes = a :: b :: t := by
        rcases nodes with _ | ⟨a, _ | ⟨b, t⟩⟩
        · simp only [List.length_nil] at hlen; omega
        · simp only [List.length_cons, List.length_nil] at hlen; omega
        · exact ⟨a, b, t, rfl⟩
      have hint := internalNodes_of_parents hp
      have hrest : internalNodes cs.length - (a :: b :: t).length =
          internalNodes cs'.length := by
        rw [hlen, ← hlen', hlen]
        omega
      simp only [hbuilt.summaries, hrest] at hb
      have ht := ih (by rintro rfl; simp at hlen') hbuilt.consecutive (fun c hc => by
        obtain ⟨h1, h2, -⟩ := hbuilt.subtrees c hc
        exact ⟨h1, by rw [← hlen', hlen]; omega⟩) (by rw [← hlen', hlen]; omega) hb
      rwa [← hlen', hlen, Nat.add_assoc, Nat.add_comm 1, ← treeHeight_of_parents hp] at ht
    · -- a single node: the root
      have hp1 : parents cs.length = 1 := le_antisymm hp (parents_pos hpos)
      obtain ⟨root, rfl⟩ := List.length_eq_one_iff.mp (hlen.trans hp1)
      rw [internalNodes_of_parents_eq_one hpos hp1] at hbuilt
      obtain ⟨hsub, hpage⟩ := hbuilt.subtree_root
      obtain ⟨-, rfl⟩ := File.write_eq_ok.mp hb
      rw [treeHeight_of_parents_eq_one hp1]
      exact hsub.withRoot hpage (File.put_page_self ..) rfl rfl rfl
        fun o ho => File.put_page_of_ne file₁ _ ho.ne'

/-- The leaves as children of the lowest level. -/
theorem summaries_placed (leaves : List (List Entry)) (total : ℕ) :
    (placed leaves total).map summary =
      ((List.range' 0 leaves.length).map fun i => (⟨total - i, i, 1⟩ : Child)).map
        (Child.entry leaves) := by
  apply List.ext_getElem?
  intro i
  rw [List.getElem?_map, getElem?_placed, List.getElem?_map, List.getElem?_map]
  by_cases hi : i < leaves.length
  · rw [List.getElem?_eq_getElem hi, List.getElem?_range' hi]
    simp only [Option.map_some, summary, Child.entry, lastKey_leafAt, Nat.zero_add, Nat.one_mul,
      List.getD_eq_getElem _ _ hi, Nat.add_sub_cancel]
    rfl
  · rw [List.getElem?_eq_none (not_lt.mp hi), List.getElem?_eq_none (by simpa using hi)]
    rfl

/-- The file of these leaves is a tree of that height. -/
theorem construct_height (hne : leaves ≠ [])
    (h : constructInternalNodesAndWriteToFile xxh64 (leaves.map leafOf) = .ok file) :
    Subtree leaves (getTotalNumberOfNodes leaves.length) file.page (treeHeight leaves.length) 1 0
      leaves.length := by
  have hlt := total_lt_of_construct hne h
  have htotal := getTotalNumberOfNodes_eq leaves.length
  set total := getTotalNumberOfNodes leaves.length with htot
  rw [constructInternalNodesAndWriteToFile, writeFlush] at h
  obtain ⟨file₀, -, h⟩ := bind_eq_ok.mp h
  obtain ⟨file₁, hr, hleaf, -⟩ :=
    writeLeafNodes_spec leaves total file₀ (by omega) (by omega)
  simp only [List.length_map, ← htot, hr, ok_bind] at h
  rw [buildLevels_map, summaries_placed, show total - leaves.length =
    internalNodes leaves.length by omega] at h
  set cs : List Child := (List.range' 0 leaves.length).map fun i => ⟨total - i, i, 1⟩ with hcs
  have hlen : cs.length = leaves.length := by simp [hcs]
  have hsub : ∀ c ∈ cs, Subtree leaves total file₁.page 0 c.off c.i c.n ∧
      internalNodes cs.length < c.off := by
    intro c hc
    obtain ⟨i, hi, rfl⟩ := List.mem_map.mp hc
    have hi' : i < leaves.length := by
      have := List.mem_range'.mp hi
      omega
    have hes := List.getElem?_eq_getElem hi'
    exact ⟨⟨rfl, rfl, by simp only; omega, leaves[i], hes, hleaf i _ hes⟩, by
      simp only [hlen]; omega⟩
  have hcon := consecutive_range' total leaves.length 0
  rw [Nat.zero_add] at hcon
  have ht := @buildLevels_height leaves total (leaves.length + 1) 0 cs file₁ file
    (by rw [← List.length_pos_iff, hlen]; exact List.length_pos_iff.mpr hne) hcon hsub
    (by rw [hlen]; omega) (by rw [hlen]; exact h)
  rwa [hlen, Nat.zero_add] at ht

/-! ### Lookups -/

theorem Subtree.child_lt {h off i n o : ℕ} (hs : Subtree leaves total page (h + 1) off i n)
    (ho : (nodeAt page off).findChild key = some o) : off < o := by
  obtain ⟨-, cs, -, -, ⟨node, hp, hn⟩, hcs⟩ := hs
  rw [nodeAt_of_page hp] at ho
  obtain ⟨j, hj, rfl⟩ := findChild_mem ho
  rw [hn.numKeys] at hj
  obtain ⟨hlt, hsub⟩ := hcs cs[j] (List.getElem_mem hj)
  rw [BTreeNode.entry, hn.entries, List.getD_eq_getElem _ _ (by simpa using hj), List.getElem_map,
    Child.entry_value hsub.node.2]
  exact hlt

/-- A descent asks for one page of each level, each behind the one before. -/
theorem Subtree.locate_pages (key : Uint32) : ∀ {h off i n : ℕ} (fuel : ℕ),
    Subtree leaves total page h off i n →
    (BTreeNode.locate page key fuel off).1.length ≤ h + 1 ∧
      (BTreeNode.locate page key fuel off).1.Pairwise (· < ·) ∧
      ∀ o ∈ (BTreeNode.locate page key fuel off).1, off ≤ o := by
  intro h
  induction h with
  | zero =>
    intro off i n fuel hs
    cases fuel with
    | zero => exact ⟨Nat.zero_le _, .nil, by simp [BTreeNode.locate]⟩
    | succ fuel =>
      rw [BTreeNode.locate, if_pos hs.isLeaf_zero]
      exact ⟨le_rfl, List.pairwise_singleton _ _, by simp⟩
  | succ h ih =>
    intro off i n fuel hs
    cases fuel with
    | zero => exact ⟨Nat.zero_le _, .nil, by simp [BTreeNode.locate]⟩
    | succ fuel =>
      rw [BTreeNode.locate, hs.isLeaf_succ]
      simp only [Bool.false_eq_true, if_false]
      cases hc : (nodeAt page off).findChild key with
      | none => exact ⟨Nat.succ_le_succ (Nat.zero_le _), List.pairwise_singleton _ _, by simp⟩
      | some o =>
        obtain ⟨i', n', hsub⟩ := hs.findChild hc
        obtain ⟨hlen, hpair, hge⟩ := ih fuel hsub
        have hlt := hs.child_lt hc
        refine ⟨Nat.succ_le_succ hlen, .cons (fun o' ho' => hlt.trans_le (hge o' ho')) hpair, ?_⟩
        intro o' ho'
        rcases List.mem_cons.mp ho' with rfl | ho'
        · exact le_rfl
        · exact hlt.le.trans (hge o' ho')

/-- A lookup asks for the filter and, if that lets the key pass, for the pages of a descent. -/
theorem lookupPages_bound (hne : es ≠ []) (h : sstOf xxh64 es = .ok file) (key : Uint32) :
    (0 :: lookupPages xxh64 file key).length ≤ treeHeight (chunks maxKeys es).length + 2 ∧
      (0 :: lookupPages xxh64 file key).Nodup := by
  have hl := Layout.of_sstOf hne h
  have hs := construct_height (mt (chunks_eq_nil maxKeys_pos).mp hne) h
  obtain ⟨hlen, hpair, hge⟩ := hs.locate_pages key file.numPages
  rw [lookupPages, hl.filter]
  simp only
  split_ifs
  · refine ⟨by rw [List.length_cons]; omega, List.nodup_cons.mpr ⟨fun h0 => ?_, hpair.nodup⟩⟩
    exact absurd (hge 0 h0) (by norm_num)
  · exact ⟨by rw [List.length_singleton]; omega, List.nodup_singleton 0⟩

theorem treeHeight_sstOf_le (hne : es ≠ []) (h : sstOf xxh64 es = .ok file) :
    treeHeight (chunks maxKeys es).length ≤ 3 := by
  have hlt := (Layout.of_sstOf hne h).total_lt
  have htotal := getTotalNumberOfNodes_eq (chunks maxKeys es).length
  exact treeHeight_le_three (by omega)

/-! ### Scans -/

theorem Layout.scanPages_of_none (hl : Layout xxh64 leaves file)
    (hloc : (locate file.page startKey file.numPages 1).2 = none) :
    scanPages file startKey endKey = (locate file.page startKey file.numPages 1).1 := by
  obtain ⟨h, hfuel, hs⟩ := hl.exists_subtree
  rw [scanPages, scanFrom, descend_eq_visit (traceSource_reads file) hs hfuel trivial,
    visit_traceSource [] fun o ho => hl.mem_locate ho]
  simp only [Except.map, ok_bind, hloc, Option.map_none, okOr, List.nil_append]

theorem Layout.scanPages_of_some (hl : Layout xxh64 leaves file) {m : ℕ} (hm : m < leaves.length)
    (hloc : (locate file.page startKey file.numPages 1).2 =
      some (getTotalNumberOfNodes leaves.length - m)) :
    scanPages file startKey endKey = (locate file.page startKey file.numPages 1).1 ++
      (leafWalk startKey endKey (leaves.drop m)
        (getTotalNumberOfNodes leaves.length - m)).1 := by
  obtain ⟨h, hfuel, hs⟩ := hl.exists_subtree
  have htotal := getTotalNumberOfNodes_eq leaves.length
  have hint := internalNodes_pos hl.length_pos
  rw [scanPages, scanFrom, descend_eq_visit (traceSource_reads file) hs hfuel trivial,
    visit_traceSource [] fun o ho => hl.mem_locate ho]
  simp only [Except.map, ok_bind, hloc, Option.map_some]
  rw [hl.scanLeaves_eq (traceSource_reads file) _ [] rfl hm.le
    (by rw [List.length_drop, hl.numPages]; omega) trivial, visit_traceSource _ fun o ho => ?_]
  · simp only [Except.map, okOr, List.nil_append]
  · have hmem := mem_leafWalk ho
    rw [List.length_drop] at hmem
    exact hl.isNode (by omega) (by omega)

/-- A leaf in which the range does not end has no key above it. -/
theorem le_of_scanEntries : ∀ {es : List Entry}, (scanEntries startKey endKey es).2 = false →
    ∀ e ∈ es, startKey ≤ e.key → e.key ≤ endKey
  | [], _, e, he, _ => by cases he
  | a :: es, h, e, he, hk => by
    rw [scanEntries] at h
    split_ifs at h with h1 h2
    · rcases List.mem_cons.mp he with rfl | he
      · exact absurd h1 (not_lt.mpr hk)
      · exact le_of_scanEntries h e he hk
    · rcases List.mem_cons.mp he with rfl | he
      · exact not_lt.mp h2
      · exact le_of_scanEntries h e he hk

/-- The leaves of a walk are full and in the range, but for the last. -/
theorem leafWalk_full (endKey : Uint32) (es : List Entry) :
    (∀ e ∈ es, startKey ≤ e.key) → ∀ offset,
    maxKeys * (leafWalk startKey endKey (chunks maxKeys es) offset).1.length ≤
      (entriesIn startKey endKey es).length + maxKeys := by
  induction es using chunks_induction maxKeys_pos with
  | nil => intro _ offset; simp [leafWalk]
  | cut es hne ih =>
    intro hge offset
    rw [chunks_of_ne_nil maxKeys_pos hne]
    simp only [leafWalk]
    split_ifs with hstop
    · simp
    · have hrest := ih (fun e he => hge e (List.mem_of_mem_drop he)) (offset - 1)
      have htake : entriesIn startKey endKey (es.take maxKeys) = es.take maxKeys :=
        List.filter_eq_self.mpr fun e he => by
          have h1 := hge e (List.mem_of_mem_take he)
          have h2 := le_of_scanEntries (Bool.not_eq_true _ ▸ hstop) e he h1
          simp [h1, h2]
      have hsplit : (entriesIn startKey endKey es).length = min maxKeys es.length +
          (entriesIn startKey endKey (es.drop maxKeys)).length := by
        rw [← List.length_take, ← htake, ← List.length_append, ← entriesIn_append,
          List.take_append_drop]
      simp only [List.length_cons]
      rcases Nat.lt_or_ge maxKeys es.length with hlen | hlen
      · rw [hsplit, min_eq_left hlen.le]
        linarith
      · have hnil : es.drop maxKeys = [] := List.drop_of_length_le hlen
        simp [hnil, leafWalk]

theorem IsLeafOf.drop_ne_nil {m : ℕ} (hm : IsLeafOf (chunks maxKeys es) startKey m) :
    es.drop (m * maxKeys) ≠ [] := by
  intro hnil
  have hdrop := drop_chunks maxKeys_pos m es
  rw [hnil, chunks_nil, List.drop_eq_nil_iff] at hdrop
  exact absurd hm.lt (not_lt.mpr hdrop)

/-- The keys behind the leaf where a scan starts are in the range or above it. -/
theorem IsLeafOf.le_of_mem {m : ℕ} (hs : SortedBy Entry.key es)
    (hm : IsLeafOf (chunks maxKeys es) startKey m) :
    ∀ e ∈ (es.drop (m * maxKeys)).drop maxKeys, startKey ≤ e.key := by
  have hdrop := drop_chunks maxKeys_pos m es
  rw [List.drop_eq_getElem_cons hm.lt, chunks_of_ne_nil maxKeys_pos hm.drop_ne_nil,
    List.cons.injEq] at hdrop
  obtain ⟨a, ha, hak⟩ := (Ordered.of_chunks hs).lastKeyAt_mem hm.lt
  have hcut : SortedBy Entry.key (es.drop (m * maxKeys)) := hs.sublist (List.drop_sublist _ _)
  rw [← List.take_append_drop maxKeys (es.drop (m * maxKeys))] at hcut
  intro e he
  have hlt := (sortedBy_append.mp hcut).2.2 a (hdrop.1 ▸ ha) e he
  exact (hak ▸ hm.le).trans hlt.le

/-- In a sorted file a scan asks for a page of each level, for the leaves that hold its result,
508 pairs each, and for at most two more. -/
theorem length_scanPages_le (hne : es ≠ []) (hs : SortedBy Entry.key es)
    (h : sstOf xxh64 es = .ok file) (startKey endKey : Uint32) :
    (scanPages file startKey endKey).length ≤ treeHeight (chunks maxKeys es).length + 3 +
      (entriesIn startKey endKey es).length / maxKeys := by
  have hl := Layout.of_sstOf hne h
  have ho := Ordered.of_chunks hs
  obtain ⟨hlen, -⟩ := (construct_height (mt (chunks_eq_nil maxKeys_pos).mp hne) h).locate_pages
    startKey file.numPages
  obtain ⟨n, hfuel, hsub⟩ := hl.exists_subtree
  generalize hr : (entriesIn startKey endKey es).length / maxKeys = r
  rcases exists_leaf (chunks maxKeys es) startKey with ⟨m, hm⟩ | ha
  · have hlt := hm.lt
    rw [hl.scanPages_of_some hlt (hsub.locate ho hm hfuel (Nat.zero_le _) (by omega) (by omega)),
      List.length_append, drop_chunks maxKeys_pos]
    -- the leaf where the scan starts may hold little of the range
    have hfull := leafWalk_full endKey _ (hm.le_of_mem hs)
    have hfound : (entriesIn startKey endKey ((es.drop (m * maxKeys)).drop maxKeys)).length ≤
        (entriesIn startKey endKey es).length :=
      (((List.drop_sublist _ _).trans (List.drop_sublist _ _)).filter _).length_le
    rw [chunks_of_ne_nil maxKeys_pos hm.drop_ne_nil]
    simp only [leafWalk]
    split_ifs
    · rw [List.length_nil]
      omega
    · have hwalk := fun offset => (Nat.le_div_iff_mul_le maxKeys_pos).mpr
        ((Nat.mul_comm _ _).trans_le ((hfull offset).trans (Nat.add_le_add_right hfound _)))
      rw [Nat.add_div_right _ maxKeys_pos, hr] at hwalk
      have hbound := hwalk (getTotalNumberOfNodes (chunks maxKeys es).length - m - 1)
      simp only [List.length_cons]
      omega
  · rw [hl.scanPages_of_none (hsub.locate_above ha (by omega))]
    omega

end BTreeNode

end MiniKvs
