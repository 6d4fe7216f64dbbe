import Mathlib.Data.Nat.Bitwise
import Mathlib.Data.Nat.Size
import Mathlib.Tactic

/-! Counting in binary with things in place of the ones. A thing that comes to a
slot where another stands is merged with it, the older one first, and the result
is carried on. Runs of numbers that were put in one by one are intervals. -/

namespace MiniKvs.Lib

/-- Add one, least significant bit first. -/
def inc : List Bool → List Bool
  | [] => [true]
  | false :: bits => true :: bits
  | true :: bits => false :: inc bits

theorem inc_bits (n : ℕ) : inc n.bits = (n + 1).bits := by
  induction n using Nat.binaryRec' with
  | zero => rfl
  | bit b n hn ih =>
    rw [Nat.bits_append_bit n b hn]
    cases b with
    | false =>
      rw [inc, show Nat.bit false n + 1 = 2 * n + 1 from rfl, Nat.bit1_bits]
    | true =>
      rw [inc, ih, show Nat.bit true n + 1 = 2 * (n + 1) from rfl, Nat.bit0_bits _ n.succ_ne_zero]

/-! ### What counting costs -/

/-- The sum of `f` over the slots with a one, the first being number `c`. -/
def total (f : ℕ → ℕ) : ℕ → List Bool → ℕ
  | _, [] => 0
  | c, b :: bits => (if b then f c else 0) + total f (c + 1) bits

/-- The cost of adding one, when a carry out of slot `c` costs `g c`. -/
def carried (g : ℕ → ℕ) : ℕ → List Bool → ℕ
  | c, true :: bits => g c + carried g (c + 1) bits
  | _, _ => 0

theorem carried_zero (c : ℕ) (bits : List Bool) : carried (fun _ => 0) c bits = 0 := by
  induction bits generalizing c with
  | nil => rfl
  | cons b bits ih =>
    cases b with
    | false => rfl
    | true => rw [carried, ih]

/-- The potential method: what two ones are worth more or less than the one that they make
is what their carry costs or saves. -/
theorem total_inc {f g s : ℕ → ℕ} (h : ∀ c, 2 * f c + g c = f (c + 1) + s c) (c : ℕ)
    (bits : List Bool) :
    total f c (inc bits) + carried s c bits = total f c bits + f c + carried g c bits := by
  induction bits generalizing c with
  | nil => simp [inc, total, carried]
  | cons b bits ih =>
    cases b with
    | false => simp only [inc, total, carried, if_true, Bool.false_eq_true, if_false]; omega
    | true =>
      have hc := h c
      have hih := ih (c + 1)
      simp only [inc, total, carried, if_true, Bool.false_eq_true, if_false]
      omega

theorem total_eq_sum (f : ℕ → ℕ) (c : ℕ) (bits : List Bool) : total f c bits =
    ∑ i ∈ Finset.range bits.length, if bits.getI i then f (c + i) else 0 := by
  induction bits generalizing c with
  | nil => rfl
  | cons b bits ih =>
    rw [List.length_cons, Finset.sum_range_succ', total, ih, Nat.add_comm]
    simp only [List.getI_cons_succ, Nat.add_right_comm c 1]
    rfl

theorem total_bits (f : ℕ → ℕ) (n : ℕ) : total f 0 n.bits =
    ∑ i ∈ Finset.range n.size, if n.testBit i then f i else 0 := by
  rw [total_eq_sum, Nat.size_eq_bits_len]
  simp only [Nat.testBit_eq_inth, Nat.zero_add]

theorem total_one (c : ℕ) (bits : List Bool) : total (fun _ => 1) c bits = bits.count true := by
  induction bits generalizing c with
  | nil => rfl
  | cons b bits ih =>
    rw [total, ih, List.count_cons, Nat.add_comm]
    cases b <;> rfl

theorem total_two_pow (n : ℕ) : total (fun i => 2 ^ i) 0 n.bits = n := by
  induction n with
  | zero => rfl
  | succ n ih =>
    have h := total_inc (f := fun i => 2 ^ i) (g := fun _ => 0) (s := fun _ => 0)
      (fun c => by rw [pow_succ']) 0 n.bits
    rwa [carried_zero, inc_bits, ih] at h

/-- Sums weighted by the slot are at most the number of the last slot times the number. -/
theorem total_mul_two_pow_le (n : ℕ) :
    total (fun i => i * 2 ^ i) 0 n.bits ≤ n * Nat.log 2 n := by
  have hsum := total_two_pow n
  rw [total_bits] at hsum ⊢
  calc (∑ i ∈ Finset.range n.size, if n.testBit i then i * 2 ^ i else 0)
      ≤ ∑ i ∈ Finset.range n.size, (if n.testBit i then 2 ^ i else 0) * Nat.log 2 n := by
        refine Finset.sum_le_sum fun i hi => ?_
        have hlog : i ≤ Nat.log 2 n := Nat.le_log_of_pow_le one_lt_two
          (Nat.lt_size.mp (Finset.mem_range.mp hi))
        split_ifs
        · rw [Nat.mul_comm]
          exact Nat.mul_le_mul_left _ hlog
        · exact Nat.zero_le _
    _ = n * Nat.log 2 n := by rw [← Finset.sum_mul, hsum]

variable {α ι : Type} {merge : Bool → α → α → α → Prop} {slots slots' : List (Option α)} {a : α}

/-- `merge last older newer merged` says what the merge of two things may be; `last`
says that no slot lies deeper. -/
inductive Carry (merge : Bool → α → α → α → Prop) :
    List (Option α) → α → List (Option α) → Prop
  | extend (a : α) : Carry merge [] a [some a]
  | free (a : α) (slots : List (Option α)) : Carry merge (none :: slots) a (some a :: slots)
  | taken {a b c : α} {slots slots' : List (Option α)} (h : merge slots.isEmpty b a c)
      (rest : Carry merge slots c slots') : Carry merge (some b :: slots) a (none :: slots')

namespace Carry

theorem isSome (h : Carry merge slots a slots') :
    slots'.map Option.isSome = inc (slots.map Option.isSome) := by
  induction h with
  | extend a => rfl
  | free a slots => rfl
  | taken h rest ih => rw [List.map_cons, List.map_cons, ih]; rfl

/-- Where a merge has one result, so has the carry. -/
theorem unique (hm : ∀ last a b c c', merge last a b c → merge last a b c' → c = c')
    (h : Carry merge slots a slots') : ∀ {slots'' : List (Option α)},
      Carry merge slots a slots'' → slots' = slots'' := by
  induction h with
  | extend a =>
    rintro _ ⟨⟩
    rfl
  | free a slots =>
    rintro _ ⟨⟩
    rfl
  | taken h rest ih =>
    rintro _ (_ | _ | ⟨h', rest'⟩)
    cases hm _ _ _ _ _ h h'
    rw [ih rest']

end Carry

/-! ### Runs -/

def oldestFirst : List (Option (List ι)) → List ι
  | [] => []
  | s :: slots => oldestFirst slots ++ s.getD []

/-- From slot to slot the runs are twice as long. -/
def Doubling : ℕ → List (Option (List ι)) → Prop
  | _, [] => True
  | n, s :: slots => (∀ r ∈ s, r.length = n) ∧ Doubling (2 * n) slots

variable {runs runs' : List (Option (List ι))} {r : List ι}

theorem Doubling.length : ∀ {runs : List (Option (List ι))} {n i : ℕ}, Doubling n runs →
    runs[i]? = some (some r) → r.length = n * 2 ^ i
  | [], _, _, _, hi => by simp at hi
  | s :: runs, n, 0, hd, hi => by
    simp only [List.getElem?_cons_zero, Option.some.injEq] at hi
    rw [hd.1 r hi, pow_zero, mul_one]
  | s :: runs, n, i + 1, hd, hi => by
    rw [hd.2.length (by simpa using hi)]
    ring

theorem mem_oldestFirst : ∀ {runs : List (Option (List ι))} {i : ℕ} {x : ι},
    runs[i]? = some (some r) → x ∈ r → x ∈ oldestFirst runs
  | [], _, _, hi, _ => by simp at hi
  | s :: runs, 0, x, hi, hx => by
    simp only [List.getElem?_cons_zero, Option.some.injEq] at hi
    rw [oldestFirst, hi]
    exact List.mem_append_right _ hx
  | s :: runs, i + 1, x, hi, hx =>
    List.mem_append_left _ (mem_oldestFirst (by simpa using hi) hx)

/-- The runs of the deeper slots come before a run, the others behind it. -/
theorem oldestFirst_split : ∀ {runs : List (Option (List ι))} {i : ℕ},
    runs[i]? = some (some r) → ∃ older newer, oldestFirst runs = older ++ (r ++ newer) ∧
      ∀ (j : ℕ) (q : List ι), i < j → runs[j]? = some (some q) → ∀ x ∈ q, x ∈ older
  | [], _, hi => by simp at hi
  | s :: runs, 0, hi => by
    simp only [List.getElem?_cons_zero, Option.some.injEq] at hi
    refine ⟨oldestFirst runs, [], by rw [oldestFirst, hi, List.append_nil]; rfl, ?_⟩
    intro j q hj hq x hx
    obtain ⟨j, rfl⟩ : ∃ j', j = j' + 1 := ⟨j - 1, by omega⟩
    exact mem_oldestFirst (by simpa using hq) hx
  | s :: runs, i + 1, hi => by
    obtain ⟨older, newer, h, hdeep⟩ := oldestFirst_split (by simpa using hi)
    refine ⟨older, newer ++ s.getD [], by rw [oldestFirst, h]; simp only [List.append_assoc], ?_⟩
    intro j q hj hq x hx
    obtain ⟨j, rfl⟩ : ∃ j', j = j' + 1 := ⟨j - 1, by omega⟩
    exact hdeep j q (by omega) (by simpa using hq) x hx

/-- Numbers put in one by one: each slot holds consecutive ones, larger than all deeper ones. -/
theorem consecutive_of_oldestFirst {runs : List (Option (List ℕ))} {r : List ℕ} {k i : ℕ}
    (hk : oldestFirst runs = List.range k) (hi : runs[i]? = some (some r)) :
    ∃ s, r = List.range' s r.length ∧
      ∀ (j : ℕ) (q : List ℕ), i < j → runs[j]? = some (some q) → ∀ x ∈ q, x < s := by
  obtain ⟨older, newer, h, hdeep⟩ := oldestFirst_split hi
  rw [hk, List.range_eq_range', List.range'_eq_append_iff] at h
  obtain ⟨n, -, rfl, h⟩ := h
  obtain ⟨m, -, hr, -⟩ := List.range'_eq_append_iff.mp h.symm
  refine ⟨n, ?_, fun j q hj hq x hx => ?_⟩
  · rw [hr, List.length_range', mul_one, zero_add]
  · have := List.mem_range'_1.mp (hdeep j q hj hq x hx)
    omega

end MiniKvs.Lib
