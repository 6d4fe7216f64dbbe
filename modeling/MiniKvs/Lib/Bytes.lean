import Mathlib.Data.List.GetD
import Mathlib.Tactic

/-! Files of bytes. A write beyond the end fills the gap with zeros, and a read into a
zeroed buffer has zeros where the file ends. Numbers take a fixed number of bytes, the
lowest first. -/

namespace MiniKvs.Lib.Bytes

/-! ### Reading and writing at a position -/

section Files

variable {file bytes : List UInt8} {pos q n : ℕ}

def read (file : List UInt8) (pos n : ℕ) : List UInt8 :=
  (List.range n).map fun i => file.getD (pos + i) 0

def write (file : List UInt8) (pos : ℕ) (bytes : List UInt8) : List UInt8 :=
  read file 0 pos ++ (bytes ++ file.drop (pos + bytes.length))

@[simp] theorem length_read (file : List UInt8) (pos n : ℕ) : (read file pos n).length = n := by
  rw [read, List.length_map, List.length_range]

theorem getD_read (file : List UInt8) (pos : ℕ) {n i : ℕ} (h : i < n) :
    (read file pos n).getD i 0 = file.getD (pos + i) 0 := by
  rw [List.getD_eq_getElem _ _ (by rwa [length_read])]
  simp only [read, List.getElem_map, List.getElem_range]

theorem read_congr (h : ∀ i < n, file.getD (pos + i) 0 = bytes.getD (q + i) 0) :
    read file pos n = read bytes q n :=
  List.map_congr_left fun i hi => h i (List.mem_range.mp hi)

theorem read_eq_replicate (h : ∀ i < n, file.getD (pos + i) 0 = 0) :
    read file pos n = List.replicate n 0 := by
  rw [List.eq_replicate_iff, length_read]
  refine ⟨rfl, fun b hb => ?_⟩
  obtain ⟨i, hi, rfl⟩ := List.mem_map.mp hb
  exact h i (List.mem_range.mp hi)

/-- All of the bytes are read. -/
theorem read_zero_length (bytes : List UInt8) : read bytes 0 bytes.length = bytes := by
  refine List.ext_getElem (length_read ..) fun i h₁ h₂ => ?_
  rw [← List.getD_eq_getElem _ 0 h₁, getD_read _ _ h₂, Nat.zero_add, List.getD_eq_getElem _ _ h₂]

theorem length_write : (write file pos bytes).length = max file.length (pos + bytes.length) := by
  rw [write, List.length_append, List.length_append, length_read, List.length_drop]
  omega

theorem getD_write (i : ℕ) : (write file pos bytes).getD i 0 =
    if pos ≤ i ∧ i < pos + bytes.length then bytes.getD (i - pos) 0 else file.getD i 0 := by
  rw [write]
  rcases Nat.lt_or_ge i pos with hlt | hge
  · rw [if_neg (by omega), List.getD_append _ _ _ _ (by rwa [length_read]), getD_read _ _ hlt,
      Nat.zero_add]
  rw [List.getD_append_right _ _ _ _ (by rwa [length_read]), length_read]
  rcases Nat.lt_or_ge (i - pos) bytes.length with hlt | hge'
  · rw [if_pos (by omega), List.getD_append _ _ _ _ hlt]
  · rw [if_neg (by omega), List.getD_append_right _ _ _ _ hge', List.getD_eq_getElem?_getD,
      List.getD_eq_getElem?_getD, List.getElem?_drop]
    congr 2
    omega

theorem read_write_self : read (write file pos bytes) pos bytes.length = bytes := by
  rw [← read_zero_length bytes, length_read]
  refine read_congr fun i hi => ?_
  rw [read_zero_length, getD_write, if_pos ⟨Nat.le_add_right .., by omega⟩, Nat.zero_add,
    Nat.add_sub_cancel_left]

theorem read_write_of_disjoint (h : q + n ≤ pos ∨ pos + bytes.length ≤ q) :
    read (write file pos bytes) q n = read file q n :=
  read_congr fun i hi => by rw [getD_write, if_neg (by omega)]

end Files

/-! ### Numbers -/

def ofNat : ℕ → ℕ → List UInt8
  | 0, _ => []
  | w + 1, n => UInt8.ofNat n :: ofNat w (n / 256)

def toNat : List UInt8 → ℕ
  | [] => 0
  | b :: bytes => b.toNat + 256 * toNat bytes

@[simp] theorem length_ofNat (w n : ℕ) : (ofNat w n).length = w := by
  induction w generalizing n with
  | zero => rfl
  | succ w ih => rw [ofNat, List.length_cons, ih]

theorem toNat_ofNat {w n : ℕ} (h : n < 256 ^ w) : toNat (ofNat w n) = n := by
  induction w generalizing n with
  | zero => exact (Nat.lt_one_iff.mp h).symm
  | succ w ih =>
    have hdiv : n / 256 < 256 ^ w := by
      rw [Nat.div_lt_iff_lt_mul (by norm_num), ← pow_succ]
      exact h
    rw [ofNat, toNat, ih hdiv, UInt8.toNat_ofNat']
    omega

/-- Numbers of `w` bytes, one after the other. -/
def words (w : ℕ) (ns : List ℕ) : List UInt8 := ns.flatMap (ofNat w)

def word (w : ℕ) (bytes : List UInt8) (i : ℕ) : ℕ := toNat (read bytes (w * i) w)

@[simp] theorem length_words (w : ℕ) (ns : List ℕ) : (words w ns).length = w * ns.length := by
  induction ns with
  | nil => rfl
  | cons n ns ih =>
    rw [words, List.flatMap_cons, List.length_append, length_ofNat, List.length_cons, ← words, ih,
      Nat.mul_succ, Nat.add_comm]

theorem words_zeros {w : ℕ} {ns : List ℕ} (h : ∀ n ∈ ns, n = 0) :
    words w ns = List.replicate (w * ns.length) 0 := by
  have hzero : ∀ w, ofNat w 0 = List.replicate w 0 := fun w => by
    induction w with
    | zero => rfl
    | succ w ih => rw [ofNat, Nat.zero_div, ih]; rfl
  rw [List.eq_replicate_iff, length_words]
  refine ⟨rfl, fun b hb => ?_⟩
  obtain ⟨n, hn, hb⟩ := List.mem_flatMap.mp hb
  rw [h n hn, hzero] at hb
  exact List.eq_of_mem_replicate hb

theorem words_cons (w n : ℕ) (ns : List ℕ) : words w (n :: ns) = ofNat w n ++ words w ns := rfl

theorem word_words {w : ℕ} {ns : List ℕ} (h : ∀ n ∈ ns, n < 256 ^ w) {i n : ℕ}
    (hi : ns[i]? = some n) (rest : List UInt8) : word w (words w ns ++ rest) i = n := by
  induction ns generalizing i with
  | nil => cases hi
  | cons m ns ih =>
    rw [words_cons, List.append_assoc]
    cases i with
    | zero =>
      cases hi
      have hread : read (ofNat w n ++ (words w ns ++ rest)) (w * 0) w = read (ofNat w n) 0 w :=
        read_congr fun j hj => by
          rw [Nat.mul_zero, List.getD_append _ _ _ _ (by rw [length_ofNat]; omega)]
      have hall := read_zero_length (ofNat w n)
      rw [length_ofNat] at hall
      rw [word, hread, hall, toNat_ofNat (h n List.mem_cons_self)]
    | succ i =>
      have hread : read (ofNat w m ++ (words w ns ++ rest)) (w * (i + 1)) w =
          read (words w ns ++ rest) (w * i) w :=
        read_congr fun j hj => by
          rw [List.getD_append_right _ _ _ _ (by rw [length_ofNat, Nat.mul_succ]; omega),
            length_ofNat, Nat.mul_succ]
          congr 1
          omega
      rw [word, hread, ← word]
      exact ih (fun m hm => h m (List.mem_cons_of_mem _ hm)) hi

/-- The first byte of a number is its lowest. -/
theorem word_mod (w : ℕ) (bytes : List UInt8) (i : ℕ) :
    word (w + 1) bytes i % 256 = (bytes.getD ((w + 1) * i) 0).toNat := by
  have hlt := (bytes.getD ((w + 1) * i) 0).toNat_lt
  rw [word, read, List.range_succ_eq_map, List.map_cons, toNat, Nat.add_zero]
  omega

section Pairs

variable {α : Type} (f g : ℕ → α)

/-- Two columns written row by row. -/
def pairs (n : ℕ) : List α := (List.range n).flatMap fun i => [f i, g i]

theorem pairs_succ (n : ℕ) : pairs f g (n + 1) = pairs f g n ++ [f n, g n] := by
  rw [pairs, List.range_succ, List.flatMap_append, List.flatMap_singleton, ← pairs]

@[simp] theorem length_pairs (n : ℕ) : (pairs f g n).length = 2 * n := by
  induction n with
  | zero => rfl
  | succ n ih => rw [pairs_succ, List.length_append, ih]; rfl

theorem mem_pairs {n : ℕ} {a : α} : a ∈ pairs f g n ↔ ∃ i < n, a = f i ∨ a = g i := by
  simp [pairs]

theorem getElem?_pairs {n i : ℕ} (h : i < n) :
    (pairs f g n)[2 * i]? = some (f i) ∧ (pairs f g n)[2 * i + 1]? = some (g i) := by
  induction n with
  | zero => exact absurd h (Nat.not_lt_zero i)
  | succ n ih =>
    have hlen := length_pairs f g n
    rw [pairs_succ]
    rcases Nat.lt_succ_iff_lt_or_eq.mp h with hlt | rfl
    · rw [List.getElem?_append_left (by omega), List.getElem?_append_left (by omega)]
      exact ih hlt
    · rw [List.getElem?_append_right (by omega), List.getElem?_append_right (by omega), hlen,
        Nat.sub_self, Nat.add_sub_cancel_left]
      exact ⟨rfl, rfl⟩

end Pairs

end MiniKvs.Lib.Bytes
