import MiniKvs.Lib.Bytes
import MiniKvs.Sst.Node

/-! The bytes of a page. A node and a filter are written to a file as they lie in memory,
and a page is used as the object that its bytes are. -/

namespace MiniKvs

open Lib.Bytes

namespace BTreeNode

/-- The words of a node in memory. `is_leaf` is one of them with the padding that follows,
zero because a node is zeroed when it is made. -/
def memory (node : BTreeNode) : List ℕ :=
  node.numKeys ::
    (pairs (fun i => (node.entry i).key.val) (fun i => (node.entry i).value.val) (maxKeys + 1) ++
      [node.isLeaf.toNat, node.fileOffset, node.totalNumberOfNodes, node.numOfLeafNodes])

def toBytes (node : BTreeNode) : List UInt8 := words 4 node.memory

def ofBytes (bytes : List UInt8) : BTreeNode where
  numKeys := word 4 bytes 0
  entries := (List.range (maxKeys + 1)).map fun i =>
    ⟨Fin.ofNat _ (word 4 bytes (2 * i + 1)), Fin.ofNat _ (word 4 bytes (2 * i + 2))⟩
  isLeaf := bytes.getD 4076 0 ≠ 0
  fileOffset := word 4 bytes 1020
  totalNumberOfNodes := word 4 bytes 1021
  numOfLeafNodes := word 4 bytes 1022

/-- The same node in memory: slots that were not written are zero. -/
structure Same (node node' : BTreeNode) : Prop where
  numKeys : node.numKeys = node'.numKeys
  entry : ∀ i, node.entry i = node'.entry i
  isLeaf : node.isLeaf = node'.isLeaf
  fileOffset : node.fileOffset = node'.fileOffset
  totalNumberOfNodes : node.totalNumberOfNodes = node'.totalNumberOfNodes
  numOfLeafNodes : node.numOfLeafNodes = node'.numOfLeafNodes

theorem Same.refl (node : BTreeNode) : Same node node := ⟨rfl, fun _ => rfl, rfl, rfl, rfl, rfl⟩

/-- The slots are there, and the ints are in range. -/
structure Fits (node : BTreeNode) : Prop where
  entries : node.entries.length ≤ maxKeys + 1
  numKeys : node.numKeys < 2147483648
  fileOffset : node.fileOffset < 2147483648
  totalNumberOfNodes : node.totalNumberOfNodes < 2147483648
  numOfLeafNodes : node.numOfLeafNodes < 2147483648

theorem length_memory (node : BTreeNode) : node.memory.length = 1023 := by
  rw [memory, List.length_cons, List.length_append, length_pairs]
  rfl

@[simp] theorem length_toBytes (node : BTreeNode) : node.toBytes.length = 4092 := by
  rw [toBytes, length_words, length_memory]

theorem Fits.memory_lt {node : BTreeNode} (h : node.Fits) : ∀ n ∈ node.memory, n < 256 ^ 4 := by
  intro n hn
  rw [memory, List.mem_cons, List.mem_append, mem_pairs] at hn
  simp only [List.mem_cons, List.not_mem_nil, or_false] at hn
  rcases hn with rfl | ⟨i, -, rfl | rfl⟩ | rfl | rfl | rfl | rfl
  · exact h.numKeys.trans (by norm_num)
  · exact (node.entry i).key.isLt
  · exact (node.entry i).value.isLt
  · exact (Bool.toNat_lt _).trans (by norm_num)
  · exact h.fileOffset.trans (by norm_num)
  · exact h.totalNumberOfNodes.trans (by norm_num)
  · exact h.numOfLeafNodes.trans (by norm_num)

theorem Fits.word_toBytes {node : BTreeNode} (h : node.Fits) {i n : ℕ}
    (hi : node.memory[i]? = some n) : word 4 node.toBytes i = n := by
  have hw := word_words h.memory_lt hi []
  rwa [List.append_nil] at hw

theorem memory_entry (node : BTreeNode) {i : ℕ} (h : i < maxKeys + 1) :
    node.memory[2 * i + 1]? = some (node.entry i).key.val ∧
      node.memory[2 * i + 2]? = some (node.entry i).value.val := by
  have hp := getElem?_pairs (fun i => (node.entry i).key.val) (fun i => (node.entry i).value.val) h
  rw [memory, List.getElem?_cons_succ, List.getElem?_cons_succ,
    List.getElem?_append_left (by rw [length_pairs]; omega),
    List.getElem?_append_left (by rw [length_pairs]; omega)]
  exact hp

theorem memory_metadata (node : BTreeNode) (i : ℕ) :
    node.memory[i + 1019]? = [node.isLeaf.toNat, node.fileOffset, node.totalNumberOfNodes,
      node.numOfLeafNodes][i]? := by
  have hlen : (node.numKeys :: pairs (fun i => (node.entry i).key.val)
      (fun i => (node.entry i).value.val) (maxKeys + 1)).length = 1019 := by
    rw [List.length_cons, length_pairs, maxKeys]
  rw [memory, ← List.cons_append, List.getElem?_append_right (hlen.le.trans (Nat.le_add_left ..)),
    hlen, Nat.add_sub_cancel]

/-- A node read back is the node written. -/
theorem ofBytes_toBytes {node : BTreeNode} (h : node.Fits) : Same (ofBytes node.toBytes) node where
  numKeys := h.word_toBytes rfl
  entry i := by
    have hslots : (ofBytes node.toBytes).entries.length = maxKeys + 1 := by
      rw [ofBytes, List.length_map, List.length_range]
    rcases Nat.lt_or_ge i (maxKeys + 1) with hlt | hge
    · obtain ⟨hk, hv⟩ := node.memory_entry hlt
      rw [entry, List.getD_eq_getElem _ _ (by rwa [hslots])]
      simp only [ofBytes, List.getElem_map, List.getElem_range, h.word_toBytes hk,
        h.word_toBytes hv, Fin.ofNat_val_eq_self]
    · rw [entry, entry, List.getD_eq_default _ _ (by rwa [hslots]),
        List.getD_eq_default _ _ (h.entries.trans hge)]
  isLeaf := by
    have hmod := word_mod 3 node.toBytes 1019
    simp only [Nat.reduceAdd, Nat.reduceMul, h.word_toBytes (node.memory_metadata 0)] at hmod
    simp only [ofBytes, ne_eq, ← UInt8.toNat_inj, ← hmod]
    cases node.isLeaf <;> simp
  fileOffset := h.word_toBytes (node.memory_metadata 1)
  totalNumberOfNodes := h.word_toBytes (node.memory_metadata 2)
  numOfLeafNodes := h.word_toBytes (node.memory_metadata 3)

end BTreeNode

namespace BloomFilter

/-- Of the bitmap only `total_bits` bytes are set when a filter is made; the others are
what the memory held before. -/
def toBytes (before : ℕ → UInt8) (filter : BloomFilter) : List UInt8 :=
  words 4 [filter.totalBits, filter.hashFunctions] ++ (List.range maxBitmapSize).map fun i =>
    if i < filter.totalBits then (filter.bitmap.getD i false).toUInt8 else before i

def ofBytes (bytes : List UInt8) : BloomFilter where
  totalBits := word 4 bytes 0
  hashFunctions := word 4 bytes 1
  bitmap := (List.range (word 4 bytes 0)).map fun i => bytes.getD (i + 8) 0 ≠ 0

structure Fits (filter : BloomFilter) : Prop where
  length : filter.bitmap.length = filter.totalBits
  totalBits : filter.totalBits ≤ maxBitmapSize
  hashFunctions : filter.hashFunctions < 2147483648

@[simp] theorem length_toBytes (before : ℕ → UInt8) (filter : BloomFilter) :
    (filter.toBytes before).length = 4096 := by
  rw [toBytes, List.length_append, length_words, List.length_map, List.length_range]
  rfl

/-- A filter read back is the filter written. -/
theorem ofBytes_toBytes (before : ℕ → UInt8) {filter : BloomFilter} (h : filter.Fits) :
    ofBytes (filter.toBytes before) = filter := by
  have hlt : ∀ n ∈ [filter.totalBits, filter.hashFunctions], n < 256 ^ 4 := by
    have htotal := h.totalBits
    have hhash := h.hashFunctions
    simp only [maxBitmapSize] at htotal
    simp only [List.mem_cons, List.not_mem_nil, or_false]
    rintro n (rfl | rfl) <;> omega
  have h₀ : word 4 (filter.toBytes before) 0 = filter.totalBits := word_words hlt rfl _
  have h₁ : word 4 (filter.toBytes before) 1 = filter.hashFunctions := word_words hlt rfl _
  have hbits : ((List.range filter.totalBits).map fun i =>
      decide ((filter.toBytes before).getD (i + 8) 0 ≠ 0)) = filter.bitmap := by
    refine List.ext_getElem (by rw [List.length_map, List.length_range, h.length])
      fun i hi₁ hi₂ => ?_
    have hi : i < filter.totalBits := h.length ▸ hi₂
    have hwords : (words 4 [filter.totalBits, filter.hashFunctions]).length = 8 := length_words ..
    rw [List.getElem_map, List.getElem_range, toBytes,
      List.getD_append_right _ _ _ _ (hwords.le.trans (Nat.le_add_left ..)), hwords,
      Nat.add_sub_cancel, List.getD_eq_getElem _ _
        (by rw [List.length_map, List.length_range]; exact hi.trans_le h.totalBits),
      List.getElem_map, List.getElem_range, if_pos hi, List.getD_eq_getElem _ _ hi₂]
    cases filter.bitmap[i] <;> rfl
  rw [ofBytes, h₀, h₁, hbits]

end BloomFilter

end MiniKvs
