import MiniKvs.Sst.Pages
import MiniKvs.Sst.Reading

/-! Reading the leaves back (`read_leaf_nodes_from_file`). The recursion over the tree finds
the leaves that were written, in their order, whichever builder wrote them. -/

namespace MiniKvs

open Lib

namespace BTreeNode

/-- The leaves below a page. No path visits a page twice, so `num_pages` levels do. -/
def readLeafNodesFromFile (file : File) : ℕ → ℕ → List BTreeNode → Outcome (List BTreeNode)
  | 0, _, _ => .error .noReturn
  | fuel + 1, offset, leafNodes => do
    let node ← file.readNode offset
    if node.isLeaf then .ok (leafNodes ++ [node])
    else
      (List.range node.numKeys).foldlM (fun leafNodes i =>
        readLeafNodesFromFile file fuel (node.entry i).value.val leafNodes) leafNodes

variable {xxh64 : XXH64} {leaves : List (List Entry)} {total : ℕ} {file : File}

/-- The leaves `i`, ..., `i + n - 1` as they are on their pages. -/
def leavesAt (leaves : List (List Entry)) (total i n : ℕ) : List BTreeNode :=
  (List.range' i n).map fun j => leafAt (leaves.getD j []) (total - j)

theorem leavesAt_add (i m n : ℕ) : leavesAt leaves total i (m + n) =
    leavesAt leaves total i m ++ leavesAt leaves total (i + m) n := by
  rw [leavesAt, ← List.range'_append_1, List.map_append]
  rfl

/-- The loop over the children of a node, each of which yields its leaves. -/
theorem foldlM_children {f : List BTreeNode → ℕ → Outcome (List BTreeNode)} :
    ∀ {cs : List Child} {i j : ℕ} (acc : List BTreeNode), Consecutive i cs j →
      (∀ c ∈ cs, ∀ acc, f acc c.off = .ok (acc ++ leavesAt leaves total c.i c.n)) →
      (cs.map Child.off).foldlM f acc = .ok (acc ++ leavesAt leaves total i (j - i))
  | [], i, _, acc, rfl, _ => by
    rw [Nat.sub_self, List.map_nil, List.foldlM_nil, pure_eq_ok]
    exact congrArg Except.ok (List.append_nil acc).symm
  | c :: cs, _, j, acc, ⟨rfl, _, hcon⟩, hf => by
    have hle := hcon.le
    have hsplit : j - c.i = c.n + (j - (c.i + c.n)) := by omega
    rw [List.map_cons, List.foldlM_cons, hf c List.mem_cons_self, ok_bind,
      foldlM_children _ hcon fun d hd => hf d (List.mem_cons_of_mem _ hd), hsplit, leavesAt_add,
      List.append_assoc]

/-- The entries of a parent lead to its children. -/
theorem IsParent.offsets {node : BTreeNode} {cs : List Child} (h : IsParent leaves node cs)
    (hlt : ∀ c ∈ cs, c.off < 524288) :
    (List.range node.numKeys).map (fun i => (node.entry i).value.val) = cs.map Child.off := by
  apply List.ext_getElem
  · rw [List.length_map, List.length_map, List.length_range, h.numKeys]
  · intro i h1 h2
    rw [List.length_map] at h2
    rw [List.getElem_map, List.getElem_map, List.getElem_range, BTreeNode.entry, h.entries,
      List.getD_eq_getElem _ _ (by rwa [List.length_map]), List.getElem_map,
      Child.entry_value (hlt _ (List.getElem_mem h2))]

/-- The recursion collects the leaves of a subtree. -/
theorem Subtree.readLeafNodes {h fuel off i n : ℕ}
    (hs : Subtree leaves total file.page h off i n) (hf : h < fuel) (acc : List BTreeNode) :
    readLeafNodesFromFile file fuel off acc = .ok (acc ++ leavesAt leaves total i n) := by
  induction h generalizing fuel off i n acc with
  | zero =>
    obtain ⟨fuel, rfl⟩ : ∃ f, fuel = f + 1 := ⟨fuel - 1, by omega⟩
    obtain ⟨rfl, rfl, hlt, es, hes, hp⟩ := hs
    have hleaf : leavesAt leaves total i 1 = [leafAt es (total - i)] := by
      rw [leavesAt, List.range'_one, List.map_singleton, List.getD_eq_getElem?_getD, hes]
      rfl
    rw [readLeafNodesFromFile, File.readNode_of_page hlt hp, hleaf]
    rfl
  | succ h ih =>
    obtain ⟨fuel, rfl⟩ : ∃ f, fuel = f + 1 := ⟨fuel - 1, by omega⟩
    obtain ⟨hlt, cs, -, hcon, ⟨node, hp, hnode⟩, hcs⟩ := hs
    have hchildren := foldlM_children (f := fun acc o => readLeafNodesFromFile file fuel o acc) acc
      hcon fun c hc acc => ih (hcs c hc).2 (by omega) acc
    rw [← hnode.offsets fun c hc => (hcs c hc).2.node.2, List.foldlM_map,
      Nat.add_sub_cancel_left] at hchildren
    rw [readLeafNodesFromFile, File.readNode_of_page hlt hp, ok_bind, hnode.isLeaf]
    exact hchildren

theorem leavesAt_eq_placeDown (leaves : List (List Entry)) (total : ℕ) :
    leavesAt leaves total 0 leaves.length = placeDown (leaves.map leafOf) total := by
  apply List.ext_getElem?
  intro i
  rw [getElem?_placeDown, List.getElem?_map, leavesAt, List.getElem?_map, Option.map_map]
  rcases Nat.lt_or_ge i leaves.length with hi | hi
  · rw [List.getElem?_range' hi, List.getElem?_eq_getElem hi, Option.map_some, Option.map_some,
      Nat.one_mul, Nat.zero_add, List.getD_eq_getElem _ _ hi]
    rfl
  · rw [List.getElem?_eq_none (by simpa using hi), List.getElem?_eq_none hi]
    rfl

/-- From the root the recursion reads back what a build has written. -/
theorem readLeafNodes_of_construct {es : List Entry} (hne : es ≠ [])
    (h : constructInternalNodesAndWriteToFile xxh64 ((chunks maxKeys es).map leafOf) = .ok file) :
    readLeafNodesFromFile file file.numPages 1 [] =
      .ok (placeDown ((chunks maxKeys es).map leafOf)
        (getTotalNumberOfNodes ((chunks maxKeys es).map leafOf).length)) := by
  have hl := Layout.of_sstOf hne h
  obtain ⟨height, hfuel, hs⟩ := hl.exists_subtree
  rw [hs.readLeafNodes hfuel, List.nil_append, leavesAt_eq_placeDown, List.length_map]

/-- Reading the leaves of a file from the root gives the leaves that were extracted from
the memtable, and those that a merge has put out, each with its offset. -/
theorem readLeafNodes_roundTrip (xxh64 : XXH64) :
    (∀ (root : Node) (file : File), root ≠ .null →
      constructInternalNodesAndWriteToFile xxh64 (extractLeafNodesFromAvl root []) = .ok file →
      readLeafNodesFromFile file file.numPages 1 [] =
        .ok (placeDown (extractLeafNodesFromAvl root [])
          (getTotalNumberOfNodes (extractLeafNodesFromAvl root []).length))) ∧
    ∀ (isLastLevel : Bool) (oldSst newSst file : File) (leafNodes : List BTreeNode),
      mergedLeaves isLastLevel oldSst newSst = .ok leafNodes →
      mergeSsts xxh64 oldSst newSst isLastLevel = .ok file →
      readLeafNodesFromFile file file.numPages 1 [] =
        .ok (placeDown leafNodes (getTotalNumberOfNodes leafNodes.length)) := by
  constructor
  · intro root file hroot h
    rw [extractLeafNodesFromAvl_eq] at h ⊢
    exact readLeafNodes_of_construct (fun hnil => hroot (AVLTree.entries_eq_nil.mp hnil)) h
  · intro isLastLevel oldSst newSst file leafNodes hmerged h
    rw [mergeSsts_eq_mergedLeaves, hmerged, ok_bind] at h
    obtain ⟨slots, hslots, rfl⟩ := mergedLeaves_chunks hmerged
    exact readLeafNodes_of_construct hslots h

end BTreeNode

end MiniKvs
