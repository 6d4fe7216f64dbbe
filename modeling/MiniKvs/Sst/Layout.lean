import MiniKvs.Lib.Chunks
import MiniKvs.Sst.BTree

/-! The layout of a built SST. Leaf `i` of the list `leaves` lies in page
`total - i`; the pages below hold the internal levels, bottom up, each node
above the pages of its children, and page 1 holds the root. -/

namespace MiniKvs

open Lib

namespace BTreeNode

/-- The leaf with the entries `es`, written to page `offset`. -/
def leafAt (es : List Entry) (offset : ℕ) : BTreeNode := { leafOf es with fileOffset := offset }

theorem lastKey_leafAt (es : List Entry) (offset : ℕ) :
    (leafAt es offset).lastKey = (leafOf es).lastKey := rfl

/-! ### The number of nodes -/

/-- The number of parents of `n` nodes. -/
def parents (n : ℕ) : ℕ := (n + maxKeys) / (maxKeys + 1)

theorem parents_lt {n : ℕ} (h : 1 < n) : parents n < n := by
  simp only [parents, maxKeys]; omega

theorem parents_pos {n : ℕ} (h : 0 < n) : 0 < parents n := by
  simp only [parents, maxKeys]; omega

theorem one_lt_of_one_lt_parents {n : ℕ} (h : 1 < parents n) : 1 < n := by
  simp only [parents, maxKeys] at h; omega

theorem countLevels_total (fuel : ℕ) : ∀ current total : ℕ,
    countLevels fuel current total = total + countLevels fuel current 0 := by
  induction fuel with
  | zero => intro current total; rfl
  | succ fuel ih =>
    intro current total
    simp only [countLevels]
    split_ifs with h
    · rw [ih _ (total + _), ih _ (0 + _)]; omega
    · rfl

theorem countLevels_fuel {fuel : ℕ} : ∀ {fuel' current : ℕ}, current ≤ fuel → current ≤ fuel' →
    countLevels fuel current 0 = countLevels fuel' current 0 := by
  induction fuel with
  | zero =>
    intro fuel' current h _
    cases fuel' with
    | zero => rfl
    | succ fuel' => rw [countLevels, countLevels, if_neg (by omega)]
  | succ fuel ih =>
    intro fuel' current h h'
    cases fuel' with
    | zero => rw [countLevels, countLevels, if_neg (by omega)]
    | succ fuel' =>
      simp only [countLevels]
      split_ifs with hc
      · have := parents_lt hc
        simp only [parents] at this
        rw [countLevels_total fuel, countLevels_total fuel', @ih fuel' _ (by omega) (by omega)]
      · rfl

/-- The number of internal nodes over `n` nodes, the root included. -/
def internalNodes (n : ℕ) : ℕ := if n = 1 then 1 else countLevels n n 0

theorem internalNodes_of_parents_eq_one {n : ℕ} (hn : 0 < n) (h : parents n = 1) :
    internalNodes n = 1 := by
  rw [internalNodes]
  split_ifs with h1
  · rfl
  · obtain ⟨m, rfl⟩ : ∃ m, n = m + 1 := ⟨n - 1, by omega⟩
    have h' : (m + 1 + maxKeys) / (maxKeys + 1) = 1 := h
    rw [countLevels, if_pos (by omega)]
    simp only [h', zero_add]
    cases m with
    | zero => omega
    | succ m => rw [countLevels, if_neg (by omega)]

theorem internalNodes_of_parents {n : ℕ} (h : 1 < parents n) :
    internalNodes n = parents n + internalNodes (parents n) := by
  have hn := one_lt_of_one_lt_parents h
  have hlt := parents_lt hn
  rw [internalNodes, if_neg (by omega), internalNodes, if_neg (by omega)]
  obtain ⟨m, rfl⟩ : ∃ m, n = m + 1 := ⟨n - 1, by omega⟩
  rw [countLevels, if_pos hn]
  have hp : (m + 1 + maxKeys) / (maxKeys + 1) = parents (m + 1) := rfl
  simp only [hp, zero_add]
  rw [countLevels_total, @countLevels_fuel m (parents (m + 1)) _ (by omega) le_rfl]

theorem internalNodes_pos {n : ℕ} (h : 0 < n) : 0 < internalNodes n := by
  rcases Nat.lt_or_ge 1 (parents n) with hp | hp
  · rw [internalNodes_of_parents hp]; omega
  · rw [internalNodes_of_parents_eq_one h (le_antisymm hp (parents_pos h))]; omega

theorem getTotalNumberOfNodes_eq (n : ℕ) : getTotalNumberOfNodes n = n + internalNodes n := by
  rw [getTotalNumberOfNodes, internalNodes]
  split_ifs with h
  · rw [h]
  · exact countLevels_total n n n

/-! ### Subtrees -/

/-- A node in page `off` over the leaves `i`, ..., `i + n - 1`. -/
structure Child where
  off : ℕ
  i : ℕ
  n : ℕ

/-- How its parent refers to a child. -/
def Child.entry (leaves : List (List Entry)) (c : Child) : Entry :=
  ⟨(leafOf (leaves.getD (c.i + c.n - 1) [])).lastKey, Fin.ofNat _ c.off⟩

/-- The children run over the leaves from `i` to `j` without a gap. -/
def Consecutive : ℕ → List Child → ℕ → Prop
  | i, [], j => i = j
  | i, c :: cs, j => c.i = i ∧ 0 < c.n ∧ Consecutive (i + c.n) cs j

structure IsParent (leaves : List (List Entry)) (node : BTreeNode) (cs : List Child) : Prop where
  numKeys : node.numKeys = cs.length
  entries : node.entries = cs.map (Child.entry leaves)
  isLeaf : node.isLeaf = false

/-- Page `off` roots a tree of height `h` over the leaves `i`, ..., `i + n - 1`. -/
def Subtree (leaves : List (List Entry)) (total : ℕ) (page : ℕ → Option PageData) :
    ℕ → ℕ → ℕ → ℕ → Prop
  | 0, off, i, n => n = 1 ∧ off = total - i ∧ off < 524288 ∧
      ∃ es, leaves[i]? = some es ∧ page off = some (.node (leafAt es off))
  | h + 1, off, i, n => off < 524288 ∧ ∃ cs, cs ≠ [] ∧ Consecutive i cs (i + n) ∧
      (∃ node, page off = some (.node node) ∧ IsParent leaves node cs) ∧
      ∀ c ∈ cs, off < c.off ∧ Subtree leaves total page h c.off c.i c.n

variable {leaves : List (List Entry)} {total : ℕ} {page page' : ℕ → Option PageData}

/-- Writing below a subtree leaves it alone. -/
theorem Subtree.frame {h off i n : ℕ} (hs : Subtree leaves total page h off i n)
    (hp : ∀ o, off ≤ o → page' o = page o) : Subtree leaves total page' h off i n := by
  induction h generalizing off i n with
  | zero =>
    obtain ⟨hn, hoff, hlt, es, hes, hpage⟩ := hs
    exact ⟨hn, hoff, hlt, es, hes, by rw [hp off le_rfl, hpage]⟩
  | succ h ih =>
    obtain ⟨hlt, cs, hne, hcon, ⟨node, hpage, hnode⟩, hcs⟩ := hs
    refine ⟨hlt, cs, hne, hcon, ⟨node, by rw [hp off le_rfl, hpage], hnode⟩, fun c hc => ?_⟩
    obtain ⟨hoff, hc'⟩ := hcs c hc
    exact ⟨hoff, ih hc' fun o ho => hp o (hoff.le.trans ho)⟩

theorem Consecutive.split {i k : ℕ} {cs ds : List Child} (h : Consecutive i (cs ++ ds) k) :
    ∃ j, Consecutive i cs j ∧ Consecutive j ds k := by
  induction cs generalizing i with
  | nil => exact ⟨i, rfl, h⟩
  | cons c cs ih =>
    obtain ⟨j, h1, h2⟩ := ih h.2.2
    exact ⟨j, ⟨h.1, h.2.1, h1⟩, h2⟩

theorem Consecutive.le {i j : ℕ} {cs : List Child} (h : Consecutive i cs j) : i ≤ j := by
  induction cs generalizing i with
  | nil => exact Nat.le_of_eq h
  | cons c cs ih => have := ih h.2.2; omega

theorem Consecutive.lt {i j : ℕ} {cs : List Child} (h : Consecutive i cs j) (hne : cs ≠ []) :
    i < j := by
  obtain ⟨c, cs, rfl⟩ := List.exists_cons_of_ne_nil hne
  have := h.2.2.le
  have := h.2.1
  omega

/-- The last child of a run ends where the run ends. -/
theorem Consecutive.getLast {i j : ℕ} {cs : List Child} {c : Child}
    (h : Consecutive i (cs ++ [c]) j) : c.i + c.n = j := by
  obtain ⟨k, -, h1, -, h2⟩ := h.split
  rw [← h2, h1]

/-- The children of a parent node are summed up in its own entry. -/
theorem summary_of_isParent {node : BTreeNode} {cs : List Child} {off i j : ℕ} (hne : cs ≠ [])
    (hcon : Consecutive i cs j) (hnode : IsParent leaves node cs) (hoff : node.fileOffset = off) :
    summary node = Child.entry leaves ⟨off, i, j - i⟩ := by
  obtain ⟨ds, c, rfl⟩ := (List.eq_nil_or_concat' cs).resolve_left hne
  have hlast := hcon.getLast
  have hlt := hcon.lt hne
  have hget : node.lastKey = (Child.entry leaves c).key := by
    rw [lastKey, entry, hnode.numKeys, hnode.entries]
    simp
  rw [summary, hget, hoff, Child.entry, Child.entry]
  simp only [hlast, show i + (j - i) - 1 = j - 1 by omega]

/-! ### Building the levels -/

/-- What `buildLevel` leaves behind: the new nodes lie in the pages from `offset`
downwards, one for every run of children, and nothing else has changed. -/
structure LevelBuilt (leaves : List (List Entry)) (total h start stop offset : ℕ)
    (file file' : File) (nodes : List BTreeNode) (cs : List Child) : Prop where
  summaries : nodes.map summary = cs.map (Child.entry leaves)
  placed : List.Forall₂ (fun node (c : Child) => file'.page c.off = some (.node node)) nodes cs
  consecutive : Consecutive start cs stop
  subtrees : ∀ c ∈ cs, Subtree leaves total file'.page h c.off c.i c.n ∧
    offset < c.off + nodes.length ∧ c.off ≤ offset
  frame : ∀ o, o + nodes.length ≤ offset ∨ offset < o → file'.page o = file.page o
  written : ∀ o, offset < o + nodes.length → o ≤ offset →
    ∃ node, file'.page o = some (.node node) ∧ node.isLeaf = false
  size : file'.size = max file.size (if nodes = [] then 0 else 4096 * offset + 4092)

/-- The parent of a run of children, in page `offset`. -/
def parentNode (leaves : List (List Entry)) (cs : List Child) (offset : ℕ) : BTreeNode :=
  ⟨cs.length, cs.map (Child.entry leaves), false, offset, 0, 0⟩

theorem parentNode_isParent (leaves : List (List Entry)) (cs : List Child) (offset : ℕ) :
    IsParent leaves (parentNode leaves cs offset) cs := ⟨rfl, rfl, rfl⟩

variable {h start mid stop offset : ℕ} {file file' : File} {nodes : List BTreeNode}
  {cs ds : List Child}

/-- A level is a first parent and the level over the other children. -/
theorem LevelBuilt.cons (hlt : offset < 524288) (hne : cs ≠ []) (hcon : Consecutive start cs mid)
    (hcs : ∀ c ∈ cs, Subtree leaves total file.page h c.off c.i c.n ∧ offset < c.off)
    (hlen : nodes.length < offset)
    (hb : LevelBuilt leaves total (h + 1) mid stop (offset - 1)
      (file.put offset (.node (parentNode leaves cs offset))) file' nodes ds) :
    LevelBuilt leaves total (h + 1) start stop offset file file'
      (parentNode leaves cs offset :: nodes) (⟨offset, start, mid - start⟩ :: ds) := by
  have hstart := hcon.lt hne
  have hrun : start + (mid - start) = mid := Nat.add_sub_cancel' hstart.le
  have hpage : file'.page offset = some (.node (parentNode leaves cs offset)) := by
    rw [hb.frame offset (.inr (by omega)), File.put_page_self]
  have habove : ∀ o, offset < o → file'.page o = file.page o := fun o ho => by
    rw [hb.frame o (.inr (by omega)), File.put_page_of_ne file _ ho.ne']
  refine ⟨?_, .cons hpage hb.placed, ⟨rfl, Nat.sub_pos_of_lt hstart, ?_⟩, fun c hc => ?_,
    fun o ho => ?_, fun o h1 h2 => ?_, ?_⟩
  · rw [List.map_cons, List.map_cons, hb.summaries,
      summary_of_isParent hne hcon (parentNode_isParent leaves cs offset) rfl]
    rfl
  · rw [hrun]
    exact hb.consecutive
  · rcases List.mem_cons.mp hc with rfl | hc
    · refine ⟨⟨hlt, cs, hne, by rwa [hrun], ⟨_, hpage, parentNode_isParent ..⟩, fun c hc => ?_⟩,
        Nat.lt_add_of_pos_right (Nat.succ_pos _), le_rfl⟩
      obtain ⟨hsub, hoff⟩ := hcs c hc
      exact ⟨hoff, hsub.frame fun o ho => habove o (hoff.trans_le ho)⟩
    · obtain ⟨hsub, h1, h2⟩ := hb.subtrees c hc
      exact ⟨hsub, by rw [List.length_cons]; omega, by omega⟩
  · rw [List.length_cons] at ho
    rcases Nat.lt_or_ge offset o with h1 | h1
    · exact habove o h1
    · rw [hb.frame o (.inl (by omega)), File.put_page_of_ne file _ (by omega)]
  · rw [List.length_cons] at h1
    rcases Nat.eq_or_lt_of_le h2 with rfl | h2
    · exact ⟨_, hpage, rfl⟩
    · exact hb.written o (by omega) (by omega)
  · have hsize := file.put_size offset (.node (parentNode leaves cs offset))
    rw [hb.size, hsize, if_neg (List.cons_ne_nil _ _)]
    simp only [PageData.bytes]
    split_ifs <;> omega

theorem buildLevel_succ (fuel : ℕ) (hlt : offset < 524288) (hne : cs ≠ []) :
    buildLevel File.write id (fuel + 1) (cs.map (Child.entry leaves)) offset file = (do
      let node := parentNode leaves (cs.take (maxKeys + 1)) offset
      let (result, file) ← buildLevel File.write id fuel
        ((cs.drop (maxKeys + 1)).map (Child.entry leaves)) (offset - 1)
        (file.put offset (.node node))
      .ok (node :: result, file)) := by
  set n := min (maxKeys + 1) cs.length with hn
  have htake : (cs.map (Child.entry leaves)).take n =
      (cs.take (maxKeys + 1)).map (Child.entry leaves) := by
    rw [← List.map_take, hn, ← List.take_eq_take_min]
  have hdrop : (cs.map (Child.entry leaves)).drop n =
      (cs.drop (maxKeys + 1)).map (Child.entry leaves) := by
    rw [← List.map_drop, hn, ← List.drop_eq_drop_min]
  have hnode : parentNode leaves (cs.take (maxKeys + 1)) offset =
      ⟨n, (cs.take (maxKeys + 1)).map (Child.entry leaves), false, offset, 0, 0⟩ := by
    rw [parentNode, List.length_take]
  rw [buildLevel, if_neg (by simpa using hne)]
  simp only [List.length_map, ← hn, htake, hdrop, List.map_id, ← hnode,
    File.write_of_lt file _ hlt, ok_bind]

/-- After the first node the other children are left. -/
theorem parents_drop (hne : cs ≠ []) :
    parents (cs.drop (maxKeys + 1)).length + 1 = parents cs.length := by
  have hpos := List.length_pos_iff.mpr hne
  rw [List.length_drop]
  simp only [parents, maxKeys]
  omega

theorem buildLevel_spec {fuel : ℕ} : ∀ {cs : List Child} {start stop offset : ℕ} {file : File},
    cs.length < fuel → Consecutive start cs stop →
    (∀ c ∈ cs, Subtree leaves total file.page h c.off c.i c.n ∧ offset < c.off) →
    parents cs.length ≤ offset → offset < 524288 →
    ∃ nodes file' cs', buildLevel File.write id fuel (cs.map (Child.entry leaves)) offset file =
      .ok (nodes, file') ∧ nodes.length = parents cs.length ∧
      LevelBuilt leaves total (h + 1) start stop offset file file' nodes cs' := by
  induction fuel with
  | zero => intro cs _ _ _ _ hf; omega
  | succ fuel ih =>
    intro cs start stop offset file hfuel hcon hcs hpar hlt
    by_cases hne : cs = []
    · subst hne
      refine ⟨[], file, [], rfl, by simp [parents, maxKeys], rfl, .nil, hcon, by simp,
        fun o _ => rfl, fun o h1 h2 => ?_, by simp⟩
      simp only [List.length_nil] at h1; omega
    -- the first node takes as many children as fit
    have hpos := List.length_pos_iff.mpr hne
    have hparents := parents_drop hne
    have hcut : Consecutive start (cs.take (maxKeys + 1) ++ cs.drop (maxKeys + 1)) stop := by
      rw [List.take_append_drop]; exact hcon
    obtain ⟨mid, hcon1, hcon2⟩ := hcut.split
    have hne1 : cs.take (maxKeys + 1) ≠ [] := by
      rw [Ne, List.take_eq_nil_iff, not_or]
      exact ⟨by simp, hne⟩
    -- the rest of the queue
    have hrest : ∀ c ∈ cs.drop (maxKeys + 1), Subtree leaves total
        (file.put offset (.node (parentNode leaves (cs.take (maxKeys + 1)) offset))).page h
        c.off c.i c.n ∧ offset - 1 < c.off := by
      intro c hc
      obtain ⟨hsub, hoff⟩ := hcs c (List.mem_of_mem_drop hc)
      exact ⟨hsub.frame fun o ho => File.put_page_of_ne file _ (hoff.trans_le ho).ne', by omega⟩
    obtain ⟨nodes, file', cs', hb, hlen, hbuilt⟩ :=
      ih (by rw [List.length_drop]; omega) hcon2 hrest (by omega) (by omega)
    refine ⟨_, file', _, ?_, ?_, hbuilt.cons hlt hne1 hcon1
      (fun c hc => hcs c (List.mem_of_mem_take hc)) (by omega)⟩
    · rw [buildLevel_succ fuel hlt hne]
      simp only [hb, ok_bind]
    · rw [List.length_cons, hlen, hparents]

section Map

variable {α : Type} (refer : α → Entry) (enqueue : BTreeNode → α)

theorem buildLevel_map (fuel : ℕ) : ∀ (queue : List α) (offset : ℕ) (file : File),
    buildLevel File.write refer fuel queue offset file =
      buildLevel File.write id fuel (queue.map refer) offset file := by
  induction fuel with
  | zero => intro queue offset file; rfl
  | succ fuel ih =>
    intro queue offset file
    simp only [buildLevel, List.length_map, ih, List.map_id, List.map_take, List.map_drop]

/-- Nodes in the queue or their summaries: the levels come out the same. -/
theorem buildLevels_map (totalNumberOfNodes numOfLeafNodes fuel : ℕ) :
    ∀ (queue : List α) (offset : ℕ) (file : File),
    buildLevels File.write refer enqueue totalNumberOfNodes numOfLeafNodes fuel queue offset file =
      buildLevels File.write id (refer ∘ enqueue) totalNumberOfNodes numOfLeafNodes fuel
        (queue.map refer) offset file := by
  induction fuel with
  | zero => intro queue offset file; rfl
  | succ fuel ih =>
    intro queue offset file
    simp only [buildLevels, List.length_map, buildLevel_map refer, ih, List.map_map]

end Map

/-- What `buildLevels` leaves behind, down from page `offset`. -/
structure TreeBuilt (leaves : List (List Entry)) (total offset : ℕ) (file file' : File) : Prop where
  tree : ∃ h, Subtree leaves total file'.page (h + 1) 1 0 leaves.length
  root : ∃ node, file'.page 1 = some (.node node) ∧ node.totalNumberOfNodes = total ∧
    node.numOfLeafNodes = leaves.length
  frame : ∀ o, o = 0 ∨ offset < o → file'.page o = file.page o
  written : ∀ o, 0 < o → o ≤ offset → ∃ node, file'.page o = some (.node node) ∧ node.isLeaf = false
  size : file'.size = max file.size (4096 * offset + 4092)

/-- A level of one node becomes the root. -/
theorem LevelBuilt.root {node : BTreeNode}
    (hb : LevelBuilt leaves total (h + 1) 0 leaves.length 1 file file' [node] cs) :
    TreeBuilt leaves total 1 file (file'.put 1 (.node { node with
      totalNumberOfNodes := total, numOfLeafNodes := leaves.length })) := by
  obtain ⟨c, rfl⟩ := List.length_eq_one_iff.mp hb.placed.length_eq.symm
  obtain ⟨hsub, hc1, hc2⟩ := hb.subtrees c List.mem_cons_self
  rw [List.length_singleton] at hc1
  have hoff : c.off = 1 := by omega
  obtain ⟨hci, -, hcn⟩ := hb.consecutive
  simp only [Consecutive, zero_add] at hcn
  rw [hoff, hci, hcn] at hsub
  obtain ⟨-, ds, hds, hdcon, ⟨node', hnode, hpar⟩, hdsub⟩ := hsub
  have hroot : file'.page c.off = some (.node node) := by
    cases hb.placed with
    | cons h _ => exact h
  obtain rfl : node = node' := by
    rw [hoff, hnode, Option.some.injEq, PageData.node.injEq] at hroot
    exact hroot.symm
  -- the metadata of the root is all that changes
  set root : BTreeNode := { node with
    totalNumberOfNodes := total, numOfLeafNodes := leaves.length }
  have hpage := file'.put_page_self 1 (.node root)
  have hother : ∀ o, o ≠ 1 → (file'.put 1 (.node root)).page o = file'.page o := fun o ho =>
    File.put_page_of_ne file' _ ho
  refine ⟨⟨h, by omega, ds, hds, hdcon,
    ⟨root, hpage, ⟨hpar.numKeys, hpar.entries, hpar.isLeaf⟩⟩, fun d hd => ?_⟩,
    ⟨root, hpage, rfl, rfl⟩, fun o ho => ?_, fun o h1 h2 => ?_, ?_⟩
  · obtain ⟨hd1, hd2⟩ := hdsub d hd
    exact ⟨hd1, hd2.frame fun o ho => hother o (by omega)⟩
  · refine (hother o (by omega)).trans (hb.frame o ?_)
    rw [List.length_singleton]
    omega
  · obtain rfl : o = 1 := by omega
    exact ⟨root, hpage, hpar.isLeaf⟩
  · rw [file'.put_size, hb.size, if_neg (List.cons_ne_nil node [])]
    simp only [PageData.bytes]
    omega

/-- A level of more nodes gets the rest of the tree above it. -/
theorem LevelBuilt.tree {start stop n k : ℕ} {file'' : File} (hne : nodes ≠ [])
    (hb : LevelBuilt leaves total h start stop n file file' nodes cs) (hk : n = nodes.length + k)
    (ht : TreeBuilt leaves total k file' file'') : TreeBuilt leaves total n file file'' := by
  refine ⟨ht.tree, ht.root, fun o ho => ?_, fun o h1 h2 => ?_, ?_⟩
  · rw [ht.frame o (by omega), hb.frame o (by omega)]
  · rcases Nat.lt_or_ge k o with h3 | h3
    · rw [ht.frame o (.inr h3)]
      exact hb.written o (by omega) h2
    · exact ht.written o h1 h3
  · rw [ht.size, hb.size, if_neg hne]
    omega

theorem parents_le_internalNodes {n : ℕ} (h : 0 < n) : parents n ≤ internalNodes n := by
  rcases Nat.lt_or_ge 1 (parents n) with hp | hp
  · rw [internalNodes_of_parents hp]
    omega
  · have := internalNodes_pos h
    omega

theorem buildLevels_spec {fuel : ℕ} : ∀ {h : ℕ} {cs : List Child} {file : File}, cs ≠ [] →
    cs.length < fuel → Consecutive 0 cs leaves.length →
    (∀ c ∈ cs, Subtree leaves total file.page h c.off c.i c.n ∧
      internalNodes cs.length < c.off) → internalNodes cs.length < 524288 →
    ∃ file', buildLevels File.write id summary total leaves.length fuel
      (cs.map (Child.entry leaves)) (internalNodes cs.length) file = .ok file' ∧
      TreeBuilt leaves total (internalNodes cs.length) file file' := by
  induction fuel with
  | zero => intro h cs file _ hf; omega
  | succ fuel ih =>
    intro h cs file hne hfuel hcon hcs hlt
    have hpos := List.length_pos_iff.mpr hne
    obtain ⟨nodes, file₁, cs', hb, hlen, hbuilt⟩ := buildLevel_spec (Nat.lt_succ_self _) hcon hcs
      (parents_le_internalNodes hpos) hlt
    have hlen' : nodes.length = cs'.length := hbuilt.placed.length_eq
    rw [buildLevels, List.length_map, hb]
    simp only [ok_bind]
    rcases Nat.lt_or_ge 1 (parents cs.length) with hp | hp
    · -- more than one node: they are the queue of the next level
      obtain ⟨a, b, t, rfl⟩ : ∃ a b t, nodes = a :: b :: t := by
        rcases nodes with _ | ⟨a, _ | ⟨b, t⟩⟩
        · simp only [List.length_nil] at hlen; omega
        · simp only [List.length_cons, List.length_nil] at hlen; omega
        · exact ⟨a, b, t, rfl⟩
      have hint := internalNodes_of_parents hp
      have hparlt := parents_lt (one_lt_of_one_lt_parents hp)
      obtain ⟨file', hl, ht⟩ := @ih (h + 1) cs' file₁
        (by rintro rfl; simp at hlen') (by omega) hbuilt.consecutive
        (fun c hc => by
          obtain ⟨h1, h2, -⟩ := hbuilt.subtrees c hc
          exact ⟨h1, by rw [← hlen', hlen]; omega⟩)
        (by rw [← hlen', hlen]; omega)
      rw [← hlen', hlen] at hl ht
      refine ⟨file', ?_, hbuilt.tree (List.cons_ne_nil _ _) (by rw [hlen, hint]) ht⟩
      rw [hbuilt.summaries, hlen, show internalNodes cs.length - parents cs.length =
        internalNodes (parents cs.length) by omega]
      exact hl
    · -- a single node: the root
      have hp1 : parents cs.length = 1 := le_antisymm hp (parents_pos hpos)
      obtain ⟨root, rfl⟩ := List.length_eq_one_iff.mp (hlen.trans hp1)
      rw [internalNodes_of_parents_eq_one hpos hp1] at hbuilt ⊢
      exact ⟨_, File.write_of_lt file₁ _ (by omega), hbuilt.root⟩

/-! ### The whole file -/

/-- The leaves as they are written, the first in page `offset`. -/
def placed : List (List Entry) → ℕ → List BTreeNode
  | [], _ => []
  | es :: ls, offset => leafAt es offset :: placed ls (offset - 1)

theorem getElem?_placed (ls : List (List Entry)) (offset i : ℕ) :
    (placed ls offset)[i]? = ls[i]?.map fun es => leafAt es (offset - i) := by
  induction ls generalizing offset i with
  | nil => rfl
  | cons es ls ih =>
    cases i with
    | zero => rfl
    | succ i =>
      rw [placed, List.getElem?_cons_succ, List.getElem?_cons_succ, ih, Nat.sub_sub, Nat.add_comm 1]

theorem writeLeafNodes_spec : ∀ (ls : List (List Entry)) (offset : ℕ) (file : File),
    ls.length ≤ offset → offset < 524288 →
    ∃ file', writeLeafNodes File.write (ls.map leafOf) offset file = .ok (placed ls offset, file') ∧
      (∀ i es, ls[i]? = some es → file'.page (offset - i) = some (.node (leafAt es (offset - i)))) ∧
      (∀ o, o + ls.length ≤ offset ∨ offset < o → file'.page o = file.page o) ∧
      file'.size = max file.size (if ls = [] then 0 else 4096 * offset + 4092)
  | [], offset, file, _, _ => ⟨file, rfl, by simp, fun _ _ => rfl, by simp⟩
  | es :: ls, offset, file, hle, hlt => by
    rw [List.length_cons] at hle
    let file₁ : File := file.put offset (.node (leafAt es offset))
    have hw : file.write offset (.node (leafAt es offset)) = .ok file₁ :=
      File.write_of_lt file _ hlt
    have hpage : file₁.page offset = some (.node (leafAt es offset)) := file.put_page_self ..
    have hother : ∀ o, o ≠ offset → file₁.page o = file.page o := fun o ho =>
      File.put_page_of_ne file _ ho
    obtain ⟨file', hr, hleaf, hframe, hsize⟩ :=
      writeLeafNodes_spec ls (offset - 1) file₁ (by omega) (by omega)
    refine ⟨file', ?_, fun i es' hi => ?_, fun o ho => ?_, ?_⟩
    · rw [List.map_cons, writeLeafNodes]
      change (file.write offset (.node (leafAt es offset)) >>= _) = _
      rw [hw, ok_bind, hr]
      rfl
    · cases i with
      | zero =>
        simp only [List.getElem?_cons_zero, Option.some.injEq] at hi
        subst hi
        rw [Nat.sub_zero, hframe offset (by omega), hpage]
      | succ i =>
        have := hleaf i es' (by simpa using hi)
        rwa [Nat.sub_sub, Nat.add_comm 1] at this
    · rw [List.length_cons] at ho
      rw [hframe o (by omega), hother o (by omega)]
    · have h1 : file₁.size = max file.size (4096 * offset + 4092) := file.put_size ..
      rw [hsize, h1, if_neg (List.cons_ne_nil _ _)]
      split_ifs <;> omega

theorem consecutive_range' (total : ℕ) : ∀ n s : ℕ,
    Consecutive s ((List.range' s n).map fun i => (⟨total - i, i, 1⟩ : Child)) (s + n)
  | 0, _ => rfl
  | n + 1, s => by
    rw [List.range'_succ, List.map_cons]
    refine ⟨rfl, Nat.one_pos, ?_⟩
    have := consecutive_range' total n (s + 1)
    rwa [Nat.add_assoc, Nat.add_comm 1 n] at this

/-- The file is the tree over `leaves`. -/
structure Layout (xxh64 : XXH64) (leaves : List (List Entry)) (file : File) : Prop where
  total_lt : getTotalNumberOfNodes leaves.length < 524288
  filter : file.page 0 = some (.filter (filterOf xxh64 (leaves.map leafOf)))
  leaf : ∀ i es, leaves[i]? = some es →
    file.page (getTotalNumberOfNodes leaves.length - i) =
      some (.node (leafAt es (getTotalNumberOfNodes leaves.length - i)))
  tree : ∃ h,
    Subtree leaves (getTotalNumberOfNodes leaves.length) file.page (h + 1) 1 0 leaves.length
  root : ∃ node, file.page 1 = some (.node node) ∧
    node.totalNumberOfNodes = getTotalNumberOfNodes leaves.length ∧
    node.numOfLeafNodes = leaves.length
  inner : ∀ o, 0 < o → o ≤ internalNodes leaves.length →
    ∃ node, file.page o = some (.node node) ∧ node.isLeaf = false
  beyond : ∀ o, getTotalNumberOfNodes leaves.length < o → file.page o = none
  size : file.size = 4096 * getTotalNumberOfNodes leaves.length + 4092

variable {xxh64 : XXH64}

theorem construct_spec (xxh64 : XXH64) (hne : leaves ≠ [])
    (hlt : getTotalNumberOfNodes leaves.length < 524288) :
    ∃ file, constructInternalNodesAndWriteToFile xxh64 (leaves.map leafOf) = .ok file ∧
      Layout xxh64 leaves file := by
  have htotal := getTotalNumberOfNodes_eq leaves.length
  have hpos := List.length_pos_iff.mpr hne
  have hint := internalNodes_pos hpos
  set total := getTotalNumberOfNodes leaves.length with htot
  let f := filterOf xxh64 (leaves.map leafOf)
  let file₀ : File := File.empty.put 0 (.filter f)
  have hw : File.empty.write 0 (.filter f) = .ok file₀ :=
    File.write_of_lt .empty _ (by norm_num)
  obtain ⟨file₁, hr, hleaf, hframe, hsize⟩ :=
    writeLeafNodes_spec leaves total file₀ (by omega) (by omega)
  let cs : List Child := (List.range' 0 leaves.length).map fun i => ⟨total - i, i, 1⟩
  have hlen : cs.length = leaves.length := by simp [cs]
  have hcs : ∀ c ∈ cs, Subtree leaves total file₁.page 0 c.off c.i c.n ∧
      internalNodes cs.length < c.off := by
    intro c hc
    obtain ⟨i, hi, rfl⟩ := List.mem_map.mp hc
    have hi' : i < leaves.length := by
      have := List.mem_range'.mp hi
      omega
    have hes := List.getElem?_eq_getElem hi'
    exact ⟨⟨rfl, rfl, by simp only; omega, leaves[i], hes, hleaf i _ hes⟩, by
      simp only [hlen]; omega⟩
  have hsum : (placed leaves total).map summary = cs.map (Child.entry leaves) := by
    apply List.ext_getElem?
    intro i
    rw [List.getElem?_map, getElem?_placed, List.getElem?_map, List.getElem?_map]
    by_cases hi : i < leaves.length
    · rw [List.getElem?_eq_getElem hi, List.getElem?_range' hi]
      simp only [Option.map_some, summary, Child.entry, lastKey_leafAt, Nat.zero_add, Nat.one_mul,
        List.getD_eq_getElem _ _ hi, Nat.add_sub_cancel]
      rfl
    · rw [List.getElem?_eq_none (by omega), List.getElem?_eq_none (by simpa using hi)]
      rfl
  obtain ⟨file, hb, ht⟩ := @buildLevels_spec leaves total (leaves.length + 1) 0 cs
    file₁ (by rw [← List.length_pos_iff, hlen]; exact hpos) (by omega)
    (by have := consecutive_range' total leaves.length 0; rwa [Nat.zero_add] at this) hcs
    (by rw [hlen]; omega)
  rw [hlen] at hb ht
  have hqueue : buildLevels File.write summary id total leaves.length (leaves.length + 1)
      (placed leaves total) (total - leaves.length) file₁ = .ok file := by
    rw [buildLevels_map, hsum, show total - leaves.length = internalNodes leaves.length by omega]
    exact hb
  have hpage : ∀ o, internalNodes leaves.length < o → file.page o = file₁.page o := fun o ho =>
    ht.frame o (.inr ho)
  refine ⟨file, ?_, hlt, ?_, fun i es hi => ?_, ht.tree, ht.root, ht.written, fun o ho => ?_, ?_⟩
  · rw [constructInternalNodesAndWriteToFile, writeFlush, hw, ok_bind, List.length_map]
    simp only [← htot, hr, ok_bind, hqueue]
  · rw [ht.frame 0 (.inl rfl), hframe 0 (by omega)]
    exact File.empty.put_page_self ..
  · have hi' : i < leaves.length := by
      by_contra hc
      rw [List.getElem?_eq_none (not_lt.mp hc)] at hi
      cases hi
    rw [hpage _ (by omega), hleaf i es hi]
  · rw [hpage o (by omega), hframe o (.inr ho)]
    exact File.put_page_of_ne .empty _ (by omega)
  · have h0 : file₀.size = 4096 := rfl
    rw [ht.size, hsize, h0, if_neg hne]
    omega

/-- A file is only built when its positions fit an int. -/
theorem total_lt_of_construct {file : File} (hne : leaves ≠ [])
    (h : constructInternalNodesAndWriteToFile xxh64 (leaves.map leafOf) = .ok file) :
    getTotalNumberOfNodes leaves.length < 524288 := by
  obtain ⟨es, ls, rfl⟩ := List.exists_cons_of_ne_nil hne
  rw [constructInternalNodesAndWriteToFile, writeFlush] at h
  obtain ⟨file₀, -, h⟩ := bind_eq_ok.mp h
  obtain ⟨⟨queue, file₁⟩, hw, -⟩ := bind_eq_ok.mp h
  rw [List.map_cons, writeLeafNodes] at hw
  obtain ⟨file₂, hw, -⟩ := bind_eq_ok.mp hw
  have := (File.write_eq_ok.mp hw).1
  rwa [List.length_cons, List.length_map] at this

theorem Layout.of_construct {file : File} (hne : leaves ≠ [])
    (h : constructInternalNodesAndWriteToFile xxh64 (leaves.map leafOf) = .ok file) :
    Layout xxh64 leaves file := by
  obtain ⟨file', h', hl⟩ := construct_spec xxh64 hne (total_lt_of_construct hne h)
  rw [h, Except.ok.injEq] at h'
  exact h' ▸ hl

end BTreeNode

end MiniKvs
