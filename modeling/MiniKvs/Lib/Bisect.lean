import Mathlib.Data.Int.Init
import Mathlib.Tactic

/-! Binary search. The caller's `probe` says where the index it looks for lies;
on a probe that is monotone around one index the search ends there. -/

namespace MiniKvs.Lib

variable {probe : ℤ → Ordering}

def bisect (probe : ℤ → Ordering) : ℕ → ℤ → ℤ → Option ℤ
  | 0, _, _ => none
  | fuel + 1, low, high =>
    if low ≤ high then
      let mid := low + (high - low) / 2
      match probe mid with
      | .eq => some mid
      | .lt => bisect probe fuel (mid + 1) high
      | .gt => bisect probe fuel low (mid - 1)
    else none

/-- What is found is in range and was looked for, whatever the probe says elsewhere. -/
theorem bisect_sound {fuel : ℕ} {low high i : ℤ} (h : bisect probe fuel low high = some i) :
    low ≤ i ∧ i ≤ high ∧ probe i = .eq := by
  induction fuel generalizing low high with
  | zero => cases h
  | succ fuel ih =>
    simp only [bisect] at h
    split_ifs at h with hle
    have hlo : low ≤ low + (high - low) / 2 := by omega
    have hhi : low + (high - low) / 2 ≤ high := by omega
    cases hp : probe (low + (high - low) / 2) with
    | lt =>
      simp only [hp] at h
      obtain ⟨h1, h2, h3⟩ := ih h
      exact ⟨by omega, h2, h3⟩
    | eq =>
      simp only [hp, Option.some.injEq] at h
      exact h ▸ ⟨hlo, hhi, hp⟩
    | gt =>
      simp only [hp] at h
      obtain ⟨h1, h2, h3⟩ := ih h
      exact ⟨h1, by omega, h3⟩

theorem bisect_complete {fuel : ℕ} {low high i : ℤ} (hfuel : high - low < fuel) (hlo : low ≤ i)
    (hhi : i ≤ high) (heq : probe i = .eq) (hlt : ∀ j, low ≤ j → j < i → probe j = .lt)
    (hgt : ∀ j, i < j → j ≤ high → probe j = .gt) : bisect probe fuel low high = some i := by
  induction fuel generalizing low high with
  | zero => push_cast at hfuel; omega
  | succ fuel ih =>
    have hle : low ≤ high := hlo.trans hhi
    push_cast at hfuel
    simp only [bisect, if_pos hle]
    rcases lt_trichotomy (low + (high - low) / 2) i with hm | hm | hm
    · rw [hlt _ (by omega) hm]
      exact ih (by omega) (by omega) hhi (fun j h1 h2 => hlt j (by omega) h2) hgt
    · rw [hm, heq]
    · rw [hgt _ hm (by omega)]
      exact ih (by omega) hlo (by omega) hlt (fun j h1 h2 => hgt j h1 (by omega))

theorem bisect_eq_none {fuel : ℕ} {low high : ℤ} (h : ∀ i, low ≤ i → i ≤ high → probe i ≠ .eq) :
    bisect probe fuel low high = none := by
  rw [Option.eq_none_iff_forall_ne_some]
  intro i hi
  obtain ⟨h1, h2, h3⟩ := bisect_sound hi
  exact h i h1 h2 h3

end MiniKvs.Lib
