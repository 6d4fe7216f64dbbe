import MiniKvs.Sst.Pages

/-! File positions as 32-bit ints. All positions of a file are exact up to 523254
leaves; with one leaf more the first leaf lies at `2 ^ 31`. -/

namespace MiniKvs

open Lib

namespace BTreeNode

/-- `PAGE_SIZE * offset` in 32 bits, read as a signed number. -/
def signedProduct (offset : ℕ) : ℤ :=
  (BitVec.ofNat 32 Utils.pageSize * BitVec.ofNat 32 offset).toInt

theorem signedProduct_eq_iff {offset : ℕ} :
    signedProduct offset = Utils.pageSize * offset ↔ offset < 524288 := by
  unfold signedProduct
  rw [BitVec.toInt_eq_toNat_cond, BitVec.toNat_mul, BitVec.toNat_ofNat, BitVec.toNat_ofNat]
  simp only [Utils.pageSize]
  split_ifs with h
  · omega
  · omega

/-- The model's position fails where the product is not exact. -/
theorem position_eq_ok_iff {offset : ℕ} :
    File.position offset = .ok (Utils.pageSize * offset) ↔
      signedProduct offset = Utils.pageSize * offset := by
  rw [File.position_eq_ok, signedProduct_eq_iff]
  exact and_iff_left rfl

/-! ### The largest number of leaves -/

theorem internalNodes_le_of_parents_le {n m k : ℕ} (hn : 0 < n) (hp : parents n ≤ m)
    (hk : internalNodes (parents n) ≤ k) : internalNodes n ≤ m + k := by
  rcases Nat.lt_or_ge 1 (parents n) with h | h
  · rw [internalNodes_of_parents h]
    omega
  · have hone : parents n = 1 := le_antisymm h (parents_pos hn)
    have hpos := internalNodes_pos (n := parents n) (by omega)
    rw [internalNodes_of_parents_eq_one hn hone]
    omega

theorem total_lt_iff {n : ℕ} (hn : 0 < n) : getTotalNumberOfNodes n < 524288 ↔ n ≤ 523254 := by
  rw [getTotalNumberOfNodes_eq]
  constructor
  · intro h
    by_contra hc
    have h1 : 1029 ≤ parents n := by simp only [parents, maxKeys]; omega
    have h2 : 3 ≤ parents (parents n) := by simp only [parents, maxKeys] at h1 ⊢; omega
    have h3 := internalNodes_of_parents (n := n) (by omega)
    have h4 := internalNodes_of_parents (n := parents n) (by omega)
    have h5 := internalNodes_pos (n := parents (parents n)) (by omega)
    omega
  · intro h
    have h1 : parents n ≤ 1029 := by simp only [parents, maxKeys]; omega
    have hp1 := parents_pos hn
    have h2 : parents (parents n) ≤ 3 := by simp only [parents, maxKeys] at h1 ⊢; omega
    have hp2 := parents_pos hp1
    have h3 : parents (parents (parents n)) = 1 := by
      generalize parents (parents n) = m at h2 hp2
      simp only [parents, maxKeys]; omega
    have hi2 := internalNodes_of_parents_eq_one hp2 h3
    have hi1 := internalNodes_le_of_parents_le hp1 h2 hi2.le
    have hi := internalNodes_le_of_parents_le hn h1 hi1
    omega

/-! ### The positions of an SST -/

def totalOf (es : List Entry) : ℕ := getTotalNumberOfNodes (chunks maxKeys es).length

/-- All positions of the SST with the leaf entries `es` are exact: those of a flush
and of a merge that write it, and those at which its nodes are looked up. -/
structure PositionsExact (xxh64 : XXH64) (es : List Entry) : Prop where
  exact : ∀ offset ≤ totalOf es, signedProduct offset = Utils.pageSize * offset
  distinct : ∀ o ≤ totalOf es, ∀ o' ≤ totalOf es, signedProduct o = signedProduct o' → o = o'
  nonnegative : ∀ offset ≤ totalOf es, 0 ≤ signedProduct offset
  flush : ∀ root, AVLTree.entries root = es →
    ∃ sst, constructInternalNodesAndWriteToFile xxh64 (extractLeafNodesFromAvl root []) = .ok sst
  merge : ∀ isLastLevel oldSst newSst leaves, mergedLeaves isLastLevel oldSst newSst = .ok leaves →
    (leaves.flatMap fun leaf => leaf.entries.take leaf.numKeys) = es →
    ∃ sst, mergeSsts xxh64 oldSst newSst isLastLevel = .ok sst
  find : ∀ sst, sstOf xxh64 es = .ok sst → ∀ offset, 1 ≤ offset → offset ≤ totalOf es →
    ∃ node, sst.page offset = some (.node node) ∧ sst.readNode offset = .ok node

theorem totalOf_lt_iff {es : List Entry} (hne : es ≠ []) :
    totalOf es < 524288 ↔ es.length ≤ 265813032 := by
  have hpos := List.length_pos_iff.mpr hne
  have hlen := length_chunks maxKeys_pos es
  rw [totalOf, total_lt_iff (by rw [hlen]; simp only [maxKeys]; omega), hlen]
  simp only [maxKeys]
  omega

theorem PositionsExact.of_total_lt (xxh64 : XXH64) {es : List Entry} (hne : es ≠ [])
    (hlt : totalOf es < 524288) : PositionsExact xxh64 es := by
  have hexact : ∀ offset ≤ totalOf es, signedProduct offset = Utils.pageSize * offset :=
    fun offset hle => signedProduct_eq_iff.mpr (by omega)
  have hchunks : chunks maxKeys es ≠ [] := mt (chunks_eq_nil maxKeys_pos).mp hne
  obtain ⟨sst, hsst, -⟩ := construct_spec xxh64 hchunks hlt
  refine ⟨hexact, fun o ho o' ho' he => ?_, fun offset hle => ?_, ?_, ?_, ?_⟩
  · rw [hexact o ho, hexact o' ho', Utils.pageSize] at he
    omega
  · rw [hexact offset hle, Utils.pageSize]
    omega
  · rintro root rfl
    exact ⟨sst, by rw [extractLeafNodesFromAvl_eq]; exact hsst⟩
  · intro isLastLevel oldSst newSst leaves h he
    obtain ⟨slots, -, rfl⟩ := mergedLeaves_chunks h
    rw [flatMap_entries_leafOf, flatten_chunks maxKeys_pos] at he
    rw [mergeSsts_eq_mergedLeaves, h, ok_bind, he]
    exact ⟨sst, hsst⟩
  · intro sst hsst offset h1 h2
    have hl := Layout.of_sstOf hne hsst
    obtain ⟨hp, hlt⟩ := hl.isNode h1 h2
    exact ⟨_, hp, File.readNode_of_page hlt hp⟩

/-- The positions are exact up to 523254 full leaves. -/
theorem positionsExact_iff (xxh64 : XXH64) {es : List Entry} (hne : es ≠ []) :
    PositionsExact xxh64 es ↔ es.length ≤ 265813032 := by
  rw [← totalOf_lt_iff hne]
  constructor
  · intro h
    exact signedProduct_eq_iff.mp (h.exact _ le_rfl)
  · exact .of_total_lt xxh64 hne

/-- The largest SST, which ends in page 524287. -/
theorem positionsExact_iff_largest : PositionsExact ⟨fun _ => 0, fun _ _ => 0⟩
    ((List.range 265813032).map fun i => ⟨Fin.ofNat _ i, 0⟩) := by
  refine (positionsExact_iff _ ?_).mpr ?_
  · rw [← List.length_pos_iff, List.length_map, List.length_range]
    norm_num
  · rw [List.length_map, List.length_range]

/-- The memtable holds the keys below 265813033: the flush puts its first leaf in
page 524288, whose position overflows. -/
theorem not_positionsExact : ¬ ∀ (xxh64 : XXH64) (es : List Entry), es ≠ [] →
    SortedBy Entry.key es → PositionsExact xxh64 es := by
  intro h
  have hes := h ⟨fun _ => 0, fun _ _ => 0⟩
    ((List.range 265813033).map fun i => ⟨Fin.ofNat _ i, 0⟩) ?_ ?_
  · have hlt := signedProduct_eq_iff.mp (hes.exact _ le_rfl)
    rw [totalOf_lt_iff, List.length_map, List.length_range] at hlt
    · omega
    · rw [← List.length_pos_iff, List.length_map, List.length_range]
      norm_num
  · rw [← List.length_pos_iff, List.length_map, List.length_range]
    norm_num
  · rw [SortedBy, List.pairwise_map]
    refine List.pairwise_lt_range.imp_of_mem fun hi hj hij => ?_
    rw [List.mem_range] at hi hj
    rw [Fin.lt_def, Fin.val_ofNat, Fin.val_ofNat, Nat.mod_eq_of_lt (by omega),
      Nat.mod_eq_of_lt (by omega)]
    exact hij

end BTreeNode

end MiniKvs
