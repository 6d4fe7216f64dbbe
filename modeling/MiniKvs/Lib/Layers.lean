import MiniKvs.Lib.SortedList

/-! Sorted lists in slots, the newest in front. A lookup takes what the first slot
with the key says; a list that is put in is merged with every slot on its way to
the first free one, and nothing but its own entries changes in lookups. -/

namespace MiniKvs.Lib

variable {α κ : Type} [LinearOrder κ] (key : α → κ)

def lookup : List (Option (List α)) → κ → Option α
  | [], _ => none
  | s :: slots, k => (s.bind fun l => findKey key l k).or (lookup slots k)

/-- The slots after a list has come in. -/
def settle : List (Option (List α)) → List α → List (Option (List α))
  | [], l => [some l]
  | none :: slots, l => some l :: slots
  | some old :: slots, l => none :: settle slots (mergeNewer key old l)

def AllSorted (slots : List (Option (List α))) : Prop := ∀ l, some l ∈ slots → SortedBy key l

variable {key} {slots : List (Option (List α))} {l : List α}

theorem AllSorted.head (h : AllSorted key (some l :: slots)) : SortedBy key l := h l (by simp)

theorem AllSorted.tail {s : Option (List α)} (h : AllSorted key (s :: slots)) :
    AllSorted key slots := fun l hl => h l (List.mem_cons_of_mem s hl)

theorem AllSorted.settle : ∀ {slots : List (Option (List α))} {l : List α}, AllSorted key slots →
    SortedBy key l → AllSorted key (settle key slots l)
  | [], l, _, hl => by
    intro m hm
    rw [Lib.settle, List.mem_singleton, Option.some.injEq] at hm
    exact hm ▸ hl
  | none :: slots, l, hs, hl => by
    intro m hm
    rw [Lib.settle, List.mem_cons, Option.some.injEq] at hm
    exact hm.elim (fun he => he ▸ hl) (hs.tail m)
  | some old :: slots, l, hs, hl => by
    intro m hm
    rw [Lib.settle, List.mem_cons] at hm
    exact hm.elim (fun he => (by cases he)) (hs.tail.settle (hs.head.mergeNewer hl) m)

/-- The new entries come first, all others are as before. -/
theorem lookup_settle : ∀ {slots : List (Option (List α))} {l : List α}, AllSorted key slots →
    SortedBy key l → ∀ k, lookup key (settle key slots l) k =
      (findKey key l k).or (lookup key slots k)
  | [], _, _, _, _ => rfl
  | none :: slots, l, _, _, k => by
    rw [settle, lookup, lookup, Option.bind_none, Option.none_or]
    rfl
  | some old :: slots, l, hs, hl, k => by
    rw [settle, lookup, lookup, Option.bind_none, Option.none_or,
      lookup_settle hs.tail (hs.head.mergeNewer hl), findKey_mergeNewer hs.head hl,
      Option.or_assoc]
    rfl

theorem lookup_mem : ∀ {slots : List (Option (List α))} {k : κ} {a : α},
    lookup key slots k = some a → (a ∈ slots.flatMap fun l => l.getD []) ∧ key a = k
  | [], _, _, h => by cases h
  | s :: slots, k, a, h => by
    rw [lookup, Option.or_eq_some_iff] at h
    rcases h with h | ⟨-, h⟩
    · obtain ⟨l, rfl, hl⟩ := Option.bind_eq_some_iff.mp h
      exact ⟨List.mem_append_left _ (findKey_mem hl).1, (findKey_mem hl).2⟩
    · exact ⟨List.mem_append_right _ (lookup_mem h).1, (lookup_mem h).2⟩

theorem exists_lookup {a : α} (h : a ∈ slots.flatMap fun l => l.getD []) :
    ∃ b, lookup key slots (key a) = some b := by
  induction slots with
  | nil => cases h
  | cons s slots ih =>
    rw [lookup, ← Option.ne_none_iff_exists', Ne, Option.or_eq_none_iff]
    rintro ⟨hs, hslots⟩
    rcases List.mem_append.mp h with h | h
    · cases s with
      | none => cases h
      | some l => exact findKey_eq_none.mp hs a h rfl
    · obtain ⟨b, hb⟩ := ih h
      rw [hslots] at hb
      cases hb

end MiniKvs.Lib
