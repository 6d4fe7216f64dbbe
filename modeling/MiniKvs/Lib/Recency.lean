import Mathlib.Data.Finset.Card
import Mathlib.Tactic

/-! Lists in order of last use. The elements used lately stand in front; whoever drops
elements at the end drops none of these as long as there are others. -/

namespace MiniKvs.Lib

variable {α : Type} [DecidableEq α]

/-- Exactly the elements of `used` stand in front. -/
def Front (used : Finset α) (l : List α) : Prop := ∃ xs ys, l = xs ++ ys ∧ xs.toFinset = used

namespace Front

variable {used : Finset α} {l : List α}

theorem empty (l : List α) : Front ∅ l := ⟨[], l, rfl, rfl⟩

theorem mem (h : Front used l) {a : α} (ha : a ∈ used) : a ∈ l := by
  obtain ⟨xs, ys, rfl, rfl⟩ := h
  exact List.mem_append_left _ (List.mem_toFinset.mp ha)

/-- A new element comes to the front. -/
theorem push (h : Front used l) (a : α) : Front (insert a used) (a :: l) := by
  obtain ⟨xs, ys, rfl, rfl⟩ := h
  exact ⟨a :: xs, ys, rfl, List.toFinset_cons⟩

theorem filter (h : Front used l) (a : α) : Front (used.erase a) (l.filter (· ≠ a)) := by
  obtain ⟨xs, ys, rfl, rfl⟩ := h
  refine ⟨xs.filter (· ≠ a), ys.filter (· ≠ a), List.filter_append .., ?_⟩
  ext b
  simp [and_comm]

/-- An element that is used again comes to the front. -/
theorem touch (h : Front used l) (a : α) :
    Front (insert a used) (a :: l.filter (· ≠ a)) := by
  have hsame : insert a (used.erase a) = insert a used := by
    ext b
    by_cases hb : b = a <;> simp [hb]
  exact hsame ▸ (h.filter a).push a

/-- The last element is none of those used lately, if there are others. -/
theorem dropLast (h : Front used l) (hn : l.Nodup) (hlt : used.card < l.length) :
    Front used l.dropLast := by
  obtain ⟨xs, ys, rfl, rfl⟩ := h
  have hne : ys ≠ [] := by
    rintro rfl
    rw [List.append_nil] at hn hlt
    rw [List.toFinset_card_of_nodup hn] at hlt
    exact lt_irrefl _ hlt
  exact ⟨xs, ys.dropLast, List.dropLast_append_of_ne_nil hne, rfl⟩

end Front

end MiniKvs.Lib
