import Mathlib.Data.Fin.Basic
import Mathlib.Data.List.Basic
import Mathlib.Data.Nat.Bitwise
import Mathlib.Data.Nat.Log
import Mathlib.Tactic

/-! Constants and helpers of `utils.hpp`, and the ways a call can fail to
return normally. -/

namespace MiniKvs

/-- `uint32_t`. -/
abbrev Uint32 := Fin 4294967296

instance neZeroUint32 : NeZero 4294967296 := ⟨by norm_num⟩

/-- What stops a call: a null pointer is dereferenced, an int leaves the 32-bit
range, `std::map::at` or `std::stoi` throws, a loop never ends, or a
page is read as something that was not written there. -/
inductive Fault
  | nullDereference
  | intOverflow
  | outOfRange
  | noReturn
  | badRead
  deriving DecidableEq

abbrev Outcome := Except Fault

namespace Utils

def invalidValue : Uint32 := 4294967295

/-- Tombstone for deletion in the LSM tree. -/
def tombStone : Uint32 := 4294967294

def pageSize : ℕ := 4096

/-- `++` on an int that is not negative. -/
def increment (n : ℕ) : Outcome ℕ :=
  if n + 1 < 2147483648 then .ok (n + 1) else .error .intOverflow

theorem increment_eq_ok {n m : ℕ} : increment n = .ok m ↔ n + 1 < 2147483648 ∧ m = n + 1 := by
  unfold increment
  split_ifs with h
  · simp [h, eq_comm]
  · simp [h]

/-- An int converted to `float`: rounded to 24 significant bits, ties to even. -/
def toFloat (n : ℕ) : ℕ :=
  let e := Nat.log 2 n - 23
  let q := n / 2 ^ e
  let r := n % 2 ^ e
  if 2 ^ e < 2 * r ∨ (2 * r = 2 ^ e ∧ q % 2 = 1) then (q + 1) * 2 ^ e else q * 2 ^ e

theorem toFloat_of_lt {n : ℕ} (h : n < 16777216) : toFloat n = n := by
  have hlog : Nat.log 2 n - 23 = 0 := by
    have : Nat.log 2 n < 24 := Nat.log_lt_of_lt_pow' (by norm_num) (h.trans_le (by norm_num))
    omega
  simp [toFloat, hlog, Nat.mod_one]

/-- The same for an int of either sign. -/
def roundFloat (x : ℤ) : ℤ := x.sign * toFloat x.natAbs

theorem roundFloat_of_lt {x : ℤ} (h : x.natAbs < 16777216) : roundFloat x = x := by
  rw [roundFloat, toFloat_of_lt h, Int.sign_mul_natAbs]

/-- Rounding moves a number by half a unit of its last significant bit at most. -/
theorem toFloat_error (n : ℕ) : 2 * n ≤ 2 * toFloat n + 2 ^ (Nat.log 2 n - 23) ∧
    2 * toFloat n ≤ 2 * n + 2 ^ (Nat.log 2 n - 23) := by
  have hdiv : 2 ^ (Nat.log 2 n - 23) * (n / 2 ^ (Nat.log 2 n - 23)) +
    n % 2 ^ (Nat.log 2 n - 23) = n := Nat.div_add_mod ..
  have hmod : n % 2 ^ (Nat.log 2 n - 23) < 2 ^ (Nat.log 2 n - 23) := Nat.mod_lt _ (by positivity)
  rw [mul_comm] at hdiv
  simp only [toFloat]
  split_ifs with h
  · rw [Nat.add_mul, one_mul]
    omega
  · omega

theorem pow_log_le_toFloat {n : ℕ} (h : n ≠ 0) : 2 ^ Nat.log 2 n ≤ toFloat n := by
  have hle : 2 ^ Nat.log 2 n ≤ n / 2 ^ (Nat.log 2 n - 23) * 2 ^ (Nat.log 2 n - 23) := by
    have hsplit : 2 ^ Nat.log 2 n =
        2 ^ (Nat.log 2 n - (Nat.log 2 n - 23)) * 2 ^ (Nat.log 2 n - 23) := by
      rw [← pow_add, Nat.sub_add_cancel (Nat.sub_le ..)]
    rw [hsplit]
    refine Nat.mul_le_mul_right _ ((Nat.le_div_iff_mul_le (by positivity)).mpr ?_)
    rw [← hsplit]
    exact Nat.pow_log_le_self 2 h
  simp only [toFloat]
  split_ifs
  · exact hle.trans (Nat.mul_le_mul_right _ (Nat.le_succ _))
  · exact hle

/-- The last `numBits` characters of the 32-bit binary text, `'1'` as `true`. -/
def getBinaryFromInt (integer : Uint32) (numBits : ℕ) : List Bool :=
  let result := (List.range 32).map fun i => integer.val.testBit (31 - i)
  result.drop (result.length - numBits)

theorem length_getBinaryFromInt (integer : Uint32) {numBits : ℕ} (h : numBits ≤ 32) :
    (getBinaryFromInt integer numBits).length = numBits := by
  simp only [getBinaryFromInt, List.length_drop, List.length_map, List.length_range]
  omega

/-- One bit more is one more character in front. -/
theorem tail_getBinaryFromInt (integer : Uint32) {numBits : ℕ} (h : numBits < 32) :
    (getBinaryFromInt integer (numBits + 1)).tail = getBinaryFromInt integer numBits := by
  simp only [getBinaryFromInt, List.tail_drop, List.length_map, List.length_range]
  congr 1
  omega

theorem getBinaryFromInt_eq (integer : Uint32) {numBits : ℕ} (h : numBits ≤ 32) :
    getBinaryFromInt integer numBits =
      (List.range numBits).map fun i => integer.val.testBit (numBits - 1 - i) := by
  apply List.ext_getElem
  · rw [length_getBinaryFromInt _ h, List.length_map, List.length_range]
  · intro i h1 h2
    simp only [List.length_map, List.length_range] at h2
    simp only [getBinaryFromInt, List.length_map, List.length_range, List.getElem_drop,
      List.getElem_map, List.getElem_range]
    congr 1
    omega

/-- The ids of a directory of depth `numBits` are all bit strings of that length. -/
theorem exists_getBinaryFromInt {numBits : ℕ} (h : numBits ≤ 32) {id : List Bool}
    (hid : id.length = numBits) :
    ∃ i < 2 ^ numBits, getBinaryFromInt (Fin.ofNat _ i) numBits = id := by
  refine ⟨Nat.ofBits fun j : Fin numBits => id.getD (numBits - 1 - j) false,
    Nat.ofBits_lt_two_pow _, ?_⟩
  have hlt : Nat.ofBits (fun j : Fin numBits => id.getD (numBits - 1 - j) false) < 4294967296 :=
    (Nat.ofBits_lt_two_pow _).trans_le (Nat.pow_le_pow_right (by norm_num) h)
  rw [getBinaryFromInt_eq _ h, Fin.val_ofNat, Nat.mod_eq_of_lt hlt]
  apply List.ext_getElem
  · simp [hid]
  · intro i h1 h2
    rw [List.getElem_map, List.getElem_range,
      Nat.testBit_ofBits_lt _ _ (by omega : numBits - 1 - i < numBits)]
    have hi : numBits - 1 - (numBits - 1 - i) = i := by omega
    simp only [hi, List.getD_eq_getElem _ _ h2]

theorem getBinaryFromInt_injOn {numBits i j : ℕ} (h : numBits ≤ 32) (hi : i < 2 ^ numBits)
    (hj : j < 2 ^ numBits) (he : getBinaryFromInt (Fin.ofNat _ i) numBits =
      getBinaryFromInt (Fin.ofNat _ j) numBits) : i = j := by
  have hpow : 2 ^ numBits ≤ 4294967296 := (Nat.pow_le_pow_right (by norm_num) h : _ ≤ 2 ^ 32)
  rw [getBinaryFromInt_eq _ h, getBinaryFromInt_eq _ h, Fin.val_ofNat, Fin.val_ofNat,
    Nat.mod_eq_of_lt (hi.trans_le hpow), Nat.mod_eq_of_lt (hj.trans_le hpow),
    List.map_inj_left] at he
  refine Nat.eq_of_testBit_eq fun k => ?_
  by_cases hk : k < numBits
  · have := he (numBits - 1 - k) (List.mem_range.mpr (by omega))
    rwa [show numBits - 1 - (numBits - 1 - k) = k by omega] at this
  · have hle : 2 ^ numBits ≤ 2 ^ k := Nat.pow_le_pow_right (by norm_num) (by omega)
    rw [Nat.testBit_lt_two_pow (hi.trans_le hle), Nat.testBit_lt_two_pow (hj.trans_le hle)]

end Utils

end MiniKvs
