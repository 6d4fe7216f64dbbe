import Mathlib.Data.List.Basic
import Mathlib.Tactic

/-! A list cut into pieces of `n`, the last one shorter. A producer that fills
one piece at a time yields the same pieces (`chunks_append_full`). -/

namespace MiniKvs.Lib

variable {α β : Type}

def chunksFuel (n : ℕ) : ℕ → List α → List (List α)
  | 0, _ => []
  | _ + 1, [] => []
  | fuel + 1, a :: l => (a :: l).take n :: chunksFuel n fuel ((a :: l).drop n)

def chunks (n : ℕ) (l : List α) : List (List α) := chunksFuel n l.length l

@[simp] theorem chunks_nil (n : ℕ) : chunks n ([] : List α) = [] := rfl

variable {n : ℕ}

theorem chunksFuel_eq (hn : 0 < n) : ∀ {fuel : ℕ} {l : List α}, l.length ≤ fuel →
    chunksFuel n fuel l = chunks n l := by
  intro fuel
  induction fuel using Nat.strong_induction_on with
  | _ fuel ih =>
    intro l hl
    cases fuel with
    | zero => rw [List.length_eq_zero_iff.mp (Nat.le_zero.mp hl)]; rfl
    | succ fuel =>
      cases l with
      | nil => rfl
      | cons a l =>
        have hd : ((a :: l).drop n).length ≤ l.length := by
          rw [List.length_drop, List.length_cons]; omega
        rw [List.length_cons] at hl
        have h1 := ih fuel (Nat.lt_succ_self _) (hd.trans (by omega))
        have h2 := ih l.length (by omega) hd
        simp only [chunks, List.length_cons, chunksFuel] at h1 h2 ⊢
        rw [h1, h2]

theorem chunks_of_ne_nil (hn : 0 < n) {l : List α} (hl : l ≠ []) :
    chunks n l = l.take n :: chunks n (l.drop n) := by
  obtain ⟨a, l, rfl⟩ := List.exists_cons_of_ne_nil hl
  have hd : ((a :: l).drop n).length ≤ l.length := by
    rw [List.length_drop, List.length_cons]; omega
  rw [chunks, List.length_cons, chunksFuel, chunksFuel_eq hn hd]

theorem chunks_append_full (hn : 0 < n) {xs : List α} (hx : xs.length = n) (ys : List α) :
    chunks n (xs ++ ys) = xs :: chunks n ys := by
  have hne : xs ++ ys ≠ [] := by
    intro h
    have := List.length_eq_zero_iff.mpr (List.append_eq_nil_iff.mp h).1
    omega
  rw [chunks_of_ne_nil hn hne, List.take_left' hx, List.drop_left' hx]

theorem chunks_of_length_le (hn : 0 < n) {l : List α} (hl : l ≠ []) (hle : l.length ≤ n) :
    chunks n l = [l] := by
  rw [chunks_of_ne_nil hn hl, List.take_of_length_le hle, List.drop_of_length_le hle, chunks_nil]

/-- Induction on how a list is cut up. -/
theorem chunks_induction (hn : 0 < n) {P : List α → Prop} (nil : P [])
    (cut : ∀ l, l ≠ [] → P (l.drop n) → P l) (l : List α) : P l := by
  induction hl : l.length using Nat.strong_induction_on generalizing l with
  | _ m ih =>
    by_cases h : l = []
    · exact h ▸ nil
    · have hpos := List.length_pos_iff.mpr h
      exact cut l h (ih _ (by rw [List.length_drop]; omega) _ rfl)

theorem flatten_chunks (hn : 0 < n) (l : List α) : (chunks n l).flatten = l := by
  induction l using chunks_induction hn with
  | nil => rfl
  | cut l hl ih => rw [chunks_of_ne_nil hn hl, List.flatten_cons, ih, List.take_append_drop]

theorem mem_chunks (hn : 0 < n) {l c : List α} (hc : c ∈ chunks n l) :
    c ≠ [] ∧ c.length ≤ n := by
  induction l using chunks_induction hn with
  | nil => simp at hc
  | cut l hl ih =>
    rw [chunks_of_ne_nil hn hl, List.mem_cons] at hc
    rcases hc with rfl | hc
    · refine ⟨?_, List.length_take_le _ _⟩
      rw [Ne, List.take_eq_nil_iff, not_or]
      exact ⟨hn.ne', hl⟩
    · exact ih hc

theorem chunks_eq_nil (hn : 0 < n) {l : List α} : chunks n l = [] ↔ l = [] := by
  constructor
  · intro h
    by_contra hl
    rw [chunks_of_ne_nil hn hl] at h
    cases h
  · rintro rfl; rfl

theorem length_chunks (hn : 0 < n) (l : List α) :
    (chunks n l).length = (l.length + (n - 1)) / n := by
  induction l using chunks_induction hn with
  | nil => simpa using (Nat.div_eq_of_lt (by omega : n - 1 < n)).symm
  | cut l hl ih =>
    have hpos := List.length_pos_iff.mpr hl
    rw [chunks_of_ne_nil hn hl, List.length_cons, ih, List.length_drop]
    by_cases h : n ≤ l.length
    · rw [show l.length + (n - 1) = l.length - n + (n - 1) + n by omega, Nat.add_div_right _ hn]
    · have h1 : l.length - n + (n - 1) = n - 1 := by omega
      rw [h1, Nat.div_eq_of_lt (by omega),
        show l.length + (n - 1) = (l.length - 1) + n by omega, Nat.add_div_right _ hn,
        Nat.div_eq_of_lt (by omega)]

theorem drop_chunks (hn : 0 < n) (m : ℕ) : ∀ l : List α,
    (chunks n l).drop m = chunks n (l.drop (m * n)) := by
  induction m with
  | zero => intro l; rw [Nat.zero_mul, List.drop_zero, List.drop_zero]
  | succ m ih =>
    intro l
    by_cases hl : l = []
    · subst hl
      rw [List.drop_nil, chunks_nil, List.drop_nil]
    · rw [chunks_of_ne_nil hn hl, List.drop_succ_cons, ih, List.drop_drop, Nat.succ_mul,
        Nat.add_comm n]

end MiniKvs.Lib
