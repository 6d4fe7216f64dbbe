import MiniKvs.Sst.Compaction

/-! Which nodes a builder writes to which pages, whatever positions the pages get:
the offsets count down from the first leaf to the root, level by level. -/

namespace MiniKvs

open Lib

namespace BTreeNode

/-! ### Offsets -/

/-- The nodes with their offsets, counting down. -/
def placeDown : List BTreeNode → ℕ → List BTreeNode
  | [], _ => []
  | node :: nodes, offset => { node with fileOffset := offset } :: placeDown nodes (offset - 1)

@[simp] theorem length_placeDown (nodes : List BTreeNode) (offset : ℕ) :
    (placeDown nodes offset).length = nodes.length := by
  induction nodes generalizing offset with
  | nil => rfl
  | cons node nodes ih => rw [placeDown, List.length_cons, ih, List.length_cons]

theorem getElem?_placeDown (nodes : List BTreeNode) (offset i : ℕ) :
    (placeDown nodes offset)[i]? =
      nodes[i]?.map fun node => { node with fileOffset := offset - i } := by
  induction nodes generalizing offset i with
  | nil => rfl
  | cons node nodes ih =>
    cases i with
    | zero => rfl
    | succ i =>
      rw [placeDown, List.getElem?_cons_succ, List.getElem?_cons_succ, ih, Nat.sub_sub,
        Nat.add_comm 1]

/-- The offsets in the order of writing. -/
def downFrom : ℕ → ℕ → List ℕ
  | 0, _ => []
  | n + 1, offset => offset :: downFrom n (offset - 1)

theorem offsets_placeDown (nodes : List BTreeNode) (offset : ℕ) :
    (placeDown nodes offset).map fileOffset = downFrom nodes.length offset := by
  induction nodes generalizing offset with
  | nil => rfl
  | cons node nodes ih => rw [placeDown, List.map_cons, ih, List.length_cons, downFrom]

theorem downFrom_append (m n offset : ℕ) :
    downFrom m offset ++ downFrom n (offset - m) = downFrom (m + n) offset := by
  induction m generalizing offset with
  | zero => rw [Nat.zero_add]; rfl
  | succ m ih =>
    rw [Nat.succ_add, downFrom, downFrom, List.cons_append, ← ih, Nat.sub_sub, Nat.add_comm 1]

theorem mem_downFrom {n offset o : ℕ} (h : n ≤ offset) :
    o ∈ downFrom n offset ↔ offset < o + n ∧ o ≤ offset := by
  induction n generalizing offset with
  | zero =>
    simp only [downFrom, List.not_mem_nil, false_iff]
    omega
  | succ n ih =>
    rw [downFrom, List.mem_cons, ih (by omega)]
    omega

theorem nodup_downFrom {n offset : ℕ} (h : n ≤ offset) : (downFrom n offset).Nodup := by
  induction n generalizing offset with
  | zero => exact List.nodup_nil
  | succ n ih =>
    rw [downFrom, List.nodup_cons, mem_downFrom (by omega)]
    exact ⟨by omega, ih (by omega)⟩

theorem length_downFrom (n offset : ℕ) : (downFrom n offset).length = n := by
  induction n generalizing offset with
  | zero => rfl
  | succ n ih => rw [downFrom, List.length_cons, ih]

theorem getLast?_downFrom (n : ℕ) : (downFrom (n + 1) (n + 1)).getLast? = some 1 := by
  rw [← downFrom_append n 1, Nat.add_sub_cancel_left]
  exact List.getLast?_concat

/-! ### The nodes of a build -/

/-- Write every node to the page of its offset. -/
def writeAll : List BTreeNode → File → Outcome File
  | [], file => .ok file
  | node :: nodes, file => do
    let file ← file.write node.fileOffset (.node node)
    writeAll nodes file

theorem writeAll_append (nodes nodes' : List BTreeNode) (file : File) :
    writeAll (nodes ++ nodes') file = writeAll nodes file >>= writeAll nodes' := by
  induction nodes generalizing file with
  | nil => rfl
  | cons node nodes ih =>
    rw [List.cons_append, writeAll, writeAll]
    cases file.write node.fileOffset (.node node) with
    | error e => rfl
    | ok file' => exact ih file'

def parentOf (children : List BTreeNode) : BTreeNode :=
  ⟨children.length, children.map summary, false, 0, 0, 0⟩

/-- The parents of a queue of nodes. -/
def level (queue : List BTreeNode) (offset : ℕ) : List BTreeNode :=
  placeDown ((chunks (maxKeys + 1) queue).map parentOf) offset

/-- All levels over a queue of nodes, the root at the end. -/
def levels : ℕ → List BTreeNode → ℕ → List BTreeNode
  | 0, _, _ => []
  | fuel + 1, queue, offset =>
    let result := level queue offset
    if result.length = 1 then result
    else result ++ levels fuel result (offset - result.length)

theorem length_level (queue : List BTreeNode) (offset : ℕ) :
    (level queue offset).length = parents queue.length := by
  rw [level, length_placeDown, List.length_map, length_chunks (Nat.succ_pos _)]
  rfl

theorem writeLeafNodes_eq (nodes : List BTreeNode) (offset : ℕ) (file : File) :
    writeLeafNodes File.write nodes offset file =
      (writeAll (placeDown nodes offset) file).map fun file => (placeDown nodes offset, file) := by
  induction nodes generalizing offset file with
  | nil => rfl
  | cons node nodes ih =>
    rw [writeLeafNodes, placeDown, writeAll]
    simp only
    cases file.write offset (.node { node with fileOffset := offset }) with
    | error e => rfl
    | ok file' =>
      rw [ok_bind, ok_bind, ih]
      cases writeAll (placeDown nodes (offset - 1)) file' <;> rfl

theorem level_offsets (queue : List BTreeNode) (offset : ℕ) :
    (level queue offset).map fileOffset = downFrom (parents queue.length) offset := by
  rw [level, offsets_placeDown, List.length_map, length_chunks (Nat.succ_pos _)]
  rfl

theorem level_of_ne_nil {queue : List BTreeNode} (hne : queue ≠ []) (offset : ℕ) :
    level queue offset = { parentOf (queue.take (maxKeys + 1)) with fileOffset := offset } ::
      level (queue.drop (maxKeys + 1)) (offset - 1) := by
  rw [level, chunks_of_ne_nil (Nat.succ_pos _) hne, List.map_cons, placeDown, level]

theorem buildLevel_eq {fuel : ℕ} : ∀ {queue : List BTreeNode} (offset : ℕ) (file : File),
    queue.length < fuel → buildLevel File.write summary fuel queue offset file =
      (writeAll (level queue offset) file).map fun file => (level queue offset, file) := by
  induction fuel with
  | zero => intro queue offset file h; omega
  | succ fuel ih =>
    intro queue offset file h
    by_cases hq : queue = []
    · subst hq; rfl
    · have hpos := List.length_pos_iff.mpr hq
      have htake : queue.take (min (maxKeys + 1) queue.length) = queue.take (maxKeys + 1) :=
        List.take_eq_take_min.symm
      have hdrop : queue.drop (min (maxKeys + 1) queue.length) = queue.drop (maxKeys + 1) :=
        List.drop_eq_drop_min.symm
      have hnode : (⟨min (maxKeys + 1) queue.length, (queue.take (maxKeys + 1)).map summary, false,
          offset, 0, 0⟩ : BTreeNode) =
          { parentOf (queue.take (maxKeys + 1)) with fileOffset := offset } := by
        rw [parentOf, List.length_take]
      rw [buildLevel, if_neg hpos.ne', level_of_ne_nil hq, writeAll]
      simp only [htake, hdrop, hnode]
      cases file.write offset
        (.node { parentOf (queue.take (maxKeys + 1)) with fileOffset := offset }) with
      | error e => rfl
      | ok file' =>
        rw [ok_bind, ok_bind, ih _ _ (by rw [List.length_drop, maxKeys]; omega)]
        cases writeAll (level (queue.drop (maxKeys + 1)) (offset - 1)) file' <;> rfl

theorem level_ne_nil {queue : List BTreeNode} (hne : queue ≠ []) (offset : ℕ) :
    level queue offset ≠ [] := by
  rw [level_of_ne_nil hne]
  exact List.cons_ne_nil _ _

theorem levels_ne_nil {fuel : ℕ} {queue : List BTreeNode} (hne : queue ≠ []) (offset : ℕ) :
    levels (fuel + 1) queue offset ≠ [] := by
  have hlevel := level_ne_nil hne offset
  rw [levels]
  split_ifs
  · exact hlevel
  · exact List.append_ne_nil_of_left_ne_nil hlevel _

theorem buildLevels_eq (total n : ℕ) {fuel : ℕ} : ∀ {queue : List BTreeNode} (offset : ℕ)
    (file : File), queue ≠ [] → queue.length < fuel →
    buildLevels File.write summary id total n fuel queue offset file = (do
      let file ← writeAll (levels fuel queue offset) file
      file.write 1 (.node { (levels fuel queue offset).getLast?.getD .new with
        totalNumberOfNodes := total, numOfLeafNodes := n })) := by
  induction fuel with
  | zero => intro queue offset file _ h; omega
  | succ fuel ih =>
    intro queue offset file hne h
    have hpos := parents_pos (List.length_pos_iff.mpr hne)
    have hlen := length_level queue offset
    rw [buildLevels, buildLevel_eq offset file (Nat.lt_succ_self _), levels]
    simp only
    cases hlevel : level queue offset with
    | nil => rw [hlevel, List.length_nil] at hlen; omega
    | cons a t =>
      cases t with
      | nil =>
        rw [if_pos List.length_singleton]
        cases writeAll [a] file <;> rfl
      | cons b t =>
        rw [hlevel] at hlen
        have hlt := parents_lt (one_lt_of_one_lt_parents (n := queue.length)
          (by rw [← hlen]; exact Nat.succ_lt_succ (Nat.succ_pos _)))
        have hone : ¬ (a :: b :: t).length = 1 := by
          simp only [List.length_cons]; omega
        rw [if_neg hone, writeAll_append]
        have hlast : ((a :: b :: t) ++ levels fuel (a :: b :: t)
            (offset - (a :: b :: t).length)).getLast? =
            (levels fuel (a :: b :: t) (offset - (a :: b :: t).length)).getLast? := by
          obtain ⟨fuel, rfl⟩ : ∃ m, fuel = m + 1 := ⟨fuel - 1, by omega⟩
          rw [List.getLast?_append, List.getLast?_eq_getLast_of_ne_nil
            (levels_ne_nil (List.cons_ne_nil a (b :: t)) _), Option.some_or]
        rw [hlast]
        cases writeAll (a :: b :: t) file with
        | error e => rfl
        | ok file' =>
          have := ih (offset - (a :: b :: t).length) file' (List.cons_ne_nil a (b :: t)) (by omega)
          simp only [Except.map, ok_bind, List.map_id]
          exact this

/-- An internal node of a build: it refers to children in higher pages. -/
structure IsInner (nodes : List BTreeNode) (node : BTreeNode) : Prop where
  isLeaf : node.isLeaf = false
  numKeys : 1 ≤ node.numKeys ∧ node.numKeys ≤ maxKeys + 1
  children : ∃ children : List BTreeNode, node.entries = children.map summary ∧
    node.numKeys = children.length ∧ ∀ c ∈ children, c ∈ nodes ∧ node.fileOffset < c.fileOffset

theorem IsInner.mono {nodes nodes' : List BTreeNode} {node : BTreeNode} (h : IsInner nodes node)
    (hsub : ∀ c ∈ nodes, c ∈ nodes') : IsInner nodes' node := by
  obtain ⟨children, he, hn, hc⟩ := h.children
  exact ⟨h.isLeaf, h.numKeys, children, he, hn, fun c hm => ⟨hsub c (hc c hm).1, (hc c hm).2⟩⟩

theorem mem_placeDown {nodes : List BTreeNode} {offset : ℕ} {node : BTreeNode}
    (h : node ∈ placeDown nodes offset) :
    node.fileOffset ≤ offset ∧
      ∃ node' ∈ nodes, node = { node' with fileOffset := node.fileOffset } := by
  induction nodes generalizing offset with
  | nil => cases h
  | cons node' nodes ih =>
    rcases List.mem_cons.mp h with rfl | h
    · exact ⟨le_rfl, node', List.mem_cons_self, rfl⟩
    · obtain ⟨hle, node'', hm, he⟩ := ih h
      exact ⟨by omega, node'', List.mem_cons_of_mem _ hm, he⟩

theorem level_isInner {queue : List BTreeNode} {offset : ℕ}
    (hq : ∀ c ∈ queue, offset < c.fileOffset) {node : BTreeNode}
    (h : node ∈ level queue offset) : IsInner queue node := by
  obtain ⟨hle, node', hm, he⟩ := mem_placeDown h
  obtain ⟨children, hc, rfl⟩ := List.mem_map.mp hm
  obtain ⟨hne, hlen⟩ := mem_chunks (Nat.succ_pos _) hc
  have hmem : ∀ c ∈ children, c ∈ queue := fun c hcc => by
    rw [← flatten_chunks (Nat.succ_pos maxKeys) queue]
    exact List.mem_flatten.mpr ⟨children, hc, hcc⟩
  have hnum : node.numKeys = children.length := by rw [he]; rfl
  have hpos := List.length_pos_iff.mpr hne
  refine ⟨by rw [he]; rfl, ⟨by omega, by omega⟩, children, by rw [he]; rfl, hnum, fun c hcc => ?_⟩
  exact ⟨hmem c hcc, lt_of_le_of_lt hle (hq c (hmem c hcc))⟩

theorem exists_parent {queue : List BTreeNode} {offset : ℕ} {c : BTreeNode} (hc : c ∈ queue) :
    ∃ node ∈ level queue offset, summary c ∈ node.entries := by
  rw [← flatten_chunks (Nat.succ_pos maxKeys) queue] at hc
  obtain ⟨children, hm, hcm⟩ := List.mem_flatten.mp hc
  obtain ⟨i, hi⟩ := List.mem_iff_getElem?.mp hm
  have hget : (level queue offset)[i]? =
      some { parentOf children with fileOffset := offset - i } := by
    rw [level, getElem?_placeDown, List.getElem?_map, hi]; rfl
  exact ⟨_, List.mem_of_getElem? hget, List.mem_map.mpr ⟨c, hcm, rfl⟩⟩

/-- What a build of levels over a queue places. -/
structure LevelsPlaced (queue nodes : List BTreeNode) (offset : ℕ) : Prop where
  offsets : nodes.map fileOffset = downFrom offset offset
  inner : ∀ node ∈ nodes, IsInner (queue ++ nodes) node
  parent : ∀ c ∈ queue ++ nodes, c.fileOffset ≠ 1 → ∃ node ∈ nodes, summary c ∈ node.entries

/-- A level of one node, the root. -/
theorem LevelsPlaced.single {queue : List BTreeNode} (hq : ∀ c ∈ queue, 1 < c.fileOffset)
    (hp : parents queue.length = 1) : LevelsPlaced queue (level queue 1) 1 := by
  have hoff := level_offsets queue 1
  rw [hp] at hoff
  refine ⟨hoff, fun node hm => ?_, fun c hm hc => ?_⟩
  · exact (level_isInner hq hm).mono fun c hc => List.mem_append_left _ hc
  · rcases List.mem_append.mp hm with hm | hm
    · exact exists_parent hm
    · have hmem := List.mem_map_of_mem (f := fileOffset) hm
      rw [hoff] at hmem
      exact absurd (List.mem_singleton.mp hmem) hc

/-- A level and the levels over it. -/
theorem LevelsPlaced.append {queue nodes : List BTreeNode} {n k : ℕ}
    (hq : ∀ c ∈ queue, n < c.fileOffset) (hn : n = parents queue.length + k)
    (h : LevelsPlaced (level queue n) nodes k) : LevelsPlaced queue (level queue n ++ nodes) n := by
  refine ⟨?_, fun node hm => ?_, fun c hm hc => ?_⟩
  · rw [List.map_append, h.offsets, level_offsets, hn]
    have happ := downFrom_append (parents queue.length) k (parents queue.length + k)
    rwa [Nat.add_sub_cancel_left] at happ
  · rcases List.mem_append.mp hm with hm | hm
    · exact (level_isInner hq hm).mono fun c hc => List.mem_append_left _ hc
    · exact (h.inner node hm).mono fun c hc => List.mem_append_right _ hc
  · rcases List.mem_append.mp hm with hm | hm
    · obtain ⟨node, hnode, he⟩ := @exists_parent queue n c hm
      exact ⟨node, List.mem_append_left _ hnode, he⟩
    · obtain ⟨node, hnode, he⟩ := h.parent c hm hc
      exact ⟨node, List.mem_append_right _ hnode, he⟩

theorem levels_spec {fuel : ℕ} : ∀ {queue : List BTreeNode}, queue ≠ [] → queue.length < fuel →
    (∀ c ∈ queue, internalNodes queue.length < c.fileOffset) →
    LevelsPlaced queue (levels fuel queue (internalNodes queue.length))
      (internalNodes queue.length) := by
  induction fuel with
  | zero => intro queue _ h; omega
  | succ fuel ih =>
    intro queue hne h hq
    have hpos := List.length_pos_iff.mpr hne
    have hlen := length_level queue (internalNodes queue.length)
    rw [levels]
    split_ifs with hone
    · have hp : parents queue.length = 1 := hlen.symm.trans hone
      rw [internalNodes_of_parents_eq_one hpos hp] at hq ⊢
      exact .single hq hp
    · have hp : 1 < parents queue.length := by
        have := parents_pos hpos
        omega
      have hint := internalNodes_of_parents hp
      have hlt := parents_lt (one_lt_of_one_lt_parents hp)
      have hrest : internalNodes queue.length - (level queue (internalNodes queue.length)).length =
          internalNodes (level queue (internalNodes queue.length)).length := by
        rw [hlen]
        omega
      rw [hrest]
      refine .append hq (by rw [hlen]; exact hint)
        (ih (level_ne_nil hne _) (by omega) fun c hc => ?_)
      have hmem := List.mem_map_of_mem (f := fileOffset) hc
      rw [level_offsets, mem_downFrom (by omega)] at hmem
      rw [hlen]
      omega

/-! ### The whole build -/

/-- The nodes written for a list of leaves, in the order of writing. -/
structure PagesLaidOut (leafNodes nodes : List BTreeNode) : Prop where
  count : nodes.length = getTotalNumberOfNodes leafNodes.length
  distinct : (nodes.map fileOffset).Nodup
  fills : ∀ o, o ∈ nodes.map fileOffset ↔ 1 ≤ o ∧ o ≤ getTotalNumberOfNodes leafNodes.length
  leaves : ∀ (i : ℕ) (leaf : BTreeNode), leafNodes[i]? = some leaf → nodes[i]? =
    some { leaf with fileOffset := getTotalNumberOfNodes leafNodes.length - i }
  inner : ∀ node ∈ nodes.drop leafNodes.length, IsInner nodes node
  /-- Page 1 holds the root, which is written last. -/
  root : ∃ root, nodes.getLast? = some root ∧ root.fileOffset = 1
  parent : ∀ node ∈ nodes, node.fileOffset ≠ 1 →
    ∃ node' ∈ nodes.drop leafNodes.length, summary node ∈ node'.entries

/-- The filter, the nodes and then the root once more, with the metadata. -/
def writePages (xxh64 : XXH64) (leafNodes nodes : List BTreeNode) : Outcome File := do
  let file ← File.empty.write 0 (.filter (filterOf xxh64 leafNodes))
  let file ← writeAll nodes file
  file.write 1 (.node { nodes.getLast?.getD .new with
    totalNumberOfNodes := getTotalNumberOfNodes leafNodes.length
    numOfLeafNodes := leafNodes.length })

/-- All nodes of a build: the leaves, then the levels over them. -/
def allNodes (leafNodes : List BTreeNode) : List BTreeNode :=
  let total := getTotalNumberOfNodes leafNodes.length
  placeDown leafNodes total ++
    levels (leafNodes.length + 1) (placeDown leafNodes total) (total - leafNodes.length)

theorem construct_eq_writePages (xxh64 : XXH64) {leafNodes : List BTreeNode}
    (hne : leafNodes ≠ []) : constructInternalNodesAndWriteToFile xxh64 leafNodes =
      writePages xxh64 leafNodes (allNodes leafNodes) := by
  have hplaced : placeDown leafNodes (getTotalNumberOfNodes leafNodes.length) ≠ [] := by
    rw [← List.length_pos_iff, length_placeDown]
    exact List.length_pos_iff.mpr hne
  have hlast : (allNodes leafNodes).getLast? = (levels (leafNodes.length + 1)
      (placeDown leafNodes (getTotalNumberOfNodes leafNodes.length))
      (getTotalNumberOfNodes leafNodes.length - leafNodes.length)).getLast? := by
    rw [allNodes, List.getLast?_append, List.getLast?_eq_getLast_of_ne_nil
      (levels_ne_nil hplaced _), Option.some_or]
  rw [constructInternalNodesAndWriteToFile, writeFlush, writePages, hlast]
  cases File.empty.write 0 (.filter (filterOf xxh64 leafNodes)) with
  | error e => rfl
  | ok file =>
    rw [ok_bind, ok_bind, allNodes, writeAll_append]
    simp only [writeLeafNodes_eq]
    cases writeAll (placeDown leafNodes (getTotalNumberOfNodes leafNodes.length)) file with
    | error e => rfl
    | ok file' =>
      simp only [Except.map, ok_bind]
      rw [buildLevels_eq _ _ _ _ hplaced (by rw [length_placeDown]; exact Nat.lt_succ_self _)]

theorem allNodes_laidOut {leafNodes : List BTreeNode} (hne : leafNodes ≠ []) :
    PagesLaidOut leafNodes (allNodes leafNodes) := by
  have htotal := getTotalNumberOfNodes_eq leafNodes.length
  have hpos := List.length_pos_iff.mpr hne
  set total := getTotalNumberOfNodes leafNodes.length with htot
  have hplaced : placeDown leafNodes total ≠ [] := by
    rw [← List.length_pos_iff, length_placeDown]
    exact hpos
  have hlen := length_placeDown leafNodes total
  have hbuilt := @levels_spec (leafNodes.length + 1) (placeDown leafNodes total) hplaced
    (by omega) fun c hc => by
      have hmem := List.mem_map_of_mem (f := fileOffset) hc
      rw [offsets_placeDown, mem_downFrom (by omega)] at hmem
      rw [hlen]; omega
  rw [hlen, show internalNodes leafNodes.length = total - leafNodes.length by omega] at hbuilt
  have hnodes : allNodes leafNodes = placeDown leafNodes total ++ levels (leafNodes.length + 1)
      (placeDown leafNodes total) (total - leafNodes.length) := rfl
  have hoff : (allNodes leafNodes).map fileOffset = downFrom total total := by
    rw [hnodes, List.map_append, hbuilt.offsets, offsets_placeDown, downFrom_append]
    congr 1
    omega
  have hdrop : (allNodes leafNodes).drop leafNodes.length = levels (leafNodes.length + 1)
      (placeDown leafNodes total) (total - leafNodes.length) := by
    rw [hnodes, List.drop_left' hlen]
  refine ⟨?_, ?_, fun o => ?_, fun i leaf hi => ?_, fun node hm => ?_, ?_, fun node hm hn => ?_⟩
  · rw [← List.length_map (f := fileOffset), hoff, length_downFrom]
  · rw [hoff]; exact nodup_downFrom le_rfl
  · rw [hoff, mem_downFrom le_rfl]; omega
  · have hi' : i < (placeDown leafNodes total).length := by
      rw [hlen]; exact (List.getElem?_eq_some_iff.mp hi).1
    rw [hnodes, List.getElem?_append_left hi', getElem?_placeDown, hi]
    rfl
  · rw [hdrop] at hm
    exact hbuilt.inner node hm
  · obtain ⟨n, hn⟩ : ∃ n, total = n + 1 := ⟨total - 1, by omega⟩
    have hlast : ((allNodes leafNodes).map fileOffset).getLast? = some 1 := by
      rw [hoff, hn, getLast?_downFrom]
    rw [List.getLast?_map] at hlast
    exact Option.map_eq_some_iff.mp hlast
  · rw [hdrop]
    exact hbuilt.parent node hm hn

/-- Whatever the two files hold, the merge cuts its slots into leaves. -/
theorem mergeLeaves_chunks {isLastLevel : Bool} {fuel : ℕ} : ∀ {old new : Cursor}
    {output : List Entry} {temp leaves : List BTreeNode}, output.length < maxKeys →
    mergeLeaves isLastLevel fuel old new output temp = .ok leaves →
    ∃ slots, slots ≠ [] ∧ leaves = temp ++ (chunks maxKeys (output ++ slots)).map leafOf := by
  induction fuel with
  | zero => intro old new output temp leaves _ h; cases h
  | succ fuel ih =>
    intro old new output temp leaves hlen h
    rw [mergeLeaves_succ] at h
    obtain ⟨⟨old', new'⟩, -, h⟩ := bind_eq_ok.mp h
    simp only at h
    set slot := (mergeEntry isLastLevel old.entry new.entry).1
    have hslot : (output ++ [slot]).length ≤ maxKeys := by
      rw [List.length_append, List.length_singleton]; omega
    split_ifs at h with h1 h2
    · cases h
      refine ⟨[slot], List.cons_ne_nil _ _, ?_⟩
      rw [chunks_of_length_le maxKeys_pos (by simp) hslot]; rfl
    · -- a full leaf
      obtain ⟨slots, -, he⟩ := ih (List.length_nil.trans_lt maxKeys_pos) h
      have hfull : (output ++ [slot]).length = maxKeys :=
        le_antisymm hslot (h1.resolve_right h2)
      refine ⟨slot :: slots, List.cons_ne_nil _ _, ?_⟩
      rw [he, List.append_cons output slot slots, chunks_append_full maxKeys_pos hfull,
        List.map_cons, List.append_assoc]
      rfl
    · obtain ⟨slots, -, he⟩ := ih (by omega) h
      refine ⟨slot :: slots, List.cons_ne_nil _ _, ?_⟩
      rw [he, List.append_cons output slot slots]

theorem mergedLeaves_chunks {isLastLevel : Bool} {oldSst newSst : File}
    {leaves : List BTreeNode} (h : mergedLeaves isLastLevel oldSst newSst = .ok leaves) :
    ∃ slots, slots ≠ [] ∧ leaves = (chunks maxKeys slots).map leafOf := by
  rw [mergedLeaves] at h
  obtain ⟨old, -, h⟩ := bind_eq_ok.mp h
  obtain ⟨new, -, h⟩ := bind_eq_ok.mp h
  exact mergeLeaves_chunks (List.length_nil.trans_lt maxKeys_pos) h

theorem chunks_map_ne_nil {es : List Entry} (h : es ≠ []) :
    (chunks maxKeys es).map leafOf ≠ [] := by
  rwa [Ne, List.map_eq_nil_iff, chunks_eq_nil maxKeys_pos]

end BTreeNode

end MiniKvs
