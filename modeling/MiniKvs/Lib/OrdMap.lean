import MiniKvs.Lib.SortedList

/-! Ordered maps: association lists that carry the proof that they are sorted.
`emplace` keeps an entry that is already there, `set` replaces it. -/

namespace MiniKvs.Lib

structure OrdMap (κ ν : Type) [LinearOrder κ] where
  toList : List (κ × ν)
  sorted : SortedBy Prod.fst toList

namespace OrdMap

variable {κ ν : Type} [LinearOrder κ]

def empty : OrdMap κ ν := ⟨[], sortedBy_nil⟩

def find (m : OrdMap κ ν) (k : κ) : Option ν := (findKey Prod.fst m.toList k).map Prod.snd

def set (m : OrdMap κ ν) (k : κ) (v : ν) : OrdMap κ ν :=
  ⟨insertKey Prod.fst (k, v) m.toList, m.sorted.insertKey _⟩

def emplace (m : OrdMap κ ν) (k : κ) (v : ν) : OrdMap κ ν :=
  if (m.find k).isSome then m else m.set k v

def erase (m : OrdMap κ ν) (k : κ) : OrdMap κ ν :=
  ⟨m.toList.filter fun x => x.1 ≠ k, m.sorted.sublist List.filter_sublist⟩

def keys (m : OrdMap κ ν) : List κ := m.toList.map Prod.fst

def size (m : OrdMap κ ν) : ℕ := m.toList.length

@[simp] theorem find_empty (k : κ) : (empty : OrdMap κ ν).find k = none := rfl

theorem find_set (m : OrdMap κ ν) (k : κ) (v : ν) (k' : κ) :
    (m.set k v).find k' = if k = k' then some v else m.find k' := by
  simp only [find, set, findKey_insertKey]
  split_ifs <;> rfl

@[simp] theorem find_set_self (m : OrdMap κ ν) (k : κ) (v : ν) : (m.set k v).find k = some v := by
  rw [find_set, if_pos rfl]

theorem find_set_of_ne (m : OrdMap κ ν) {k k' : κ} (v : ν) (h : k ≠ k') :
    (m.set k v).find k' = m.find k' := by
  rw [find_set, if_neg h]

theorem find_emplace (m : OrdMap κ ν) (k : κ) (v : ν) (k' : κ) :
    (m.emplace k v).find k' = if k = k' then some ((m.find k).getD v) else m.find k' := by
  unfold emplace
  cases h : m.find k with
  | none => simpa using find_set m k v k'
  | some w =>
    simp only [Option.isSome_some, if_true, Option.getD_some]
    split_ifs with hk
    · rw [← hk, h]
    · rfl

theorem find_erase (m : OrdMap κ ν) (k k' : κ) :
    (m.erase k).find k' = if k = k' then none else m.find k' := by
  simp only [find, erase]
  split_ifs with hk
  · have : findKey Prod.fst (m.toList.filter fun x => x.1 ≠ k) k' = none := by
      rw [findKey_eq_none]
      intro a ha
      simpa [hk] using (List.mem_filter.mp ha).2
    rw [this]; rfl
  · congr 1
    simp only [findKey, List.find?_filter]
    congr 1
    funext a
    by_cases ha : a.1 = k'
    · simp [ha, Ne.symm hk]
    · simp [ha]

theorem find_eq_some {m : OrdMap κ ν} {k : κ} {v : ν} : m.find k = some v ↔ (k, v) ∈ m.toList := by
  simp only [find, Option.map_eq_some_iff]
  constructor
  · rintro ⟨⟨k', v'⟩, h, rfl⟩
    obtain ⟨hm, rfl⟩ := findKey_mem h
    exact hm
  · intro h
    exact ⟨(k, v), m.sorted.findKey_eq_some.mpr ⟨h, rfl⟩, rfl⟩

theorem mem_keys {m : OrdMap κ ν} {k : κ} : k ∈ m.keys ↔ (m.find k).isSome := by
  rw [Option.isSome_iff_exists]
  simp only [keys, List.mem_map, find_eq_some]
  constructor
  · rintro ⟨⟨k', v⟩, h, rfl⟩; exact ⟨v, h⟩
  · rintro ⟨v, h⟩; exact ⟨(k, v), h, rfl⟩

theorem keys_sorted (m : OrdMap κ ν) : m.keys.Pairwise (· < ·) := List.pairwise_map.mpr m.sorted

theorem keys_nodup (m : OrdMap κ ν) : m.keys.Nodup := m.sorted.nodup_keys

theorem length_keys (m : OrdMap κ ν) : m.keys.length = m.size := List.length_map _

/-! ### Filling a map -/

theorem find_emplace_of_some {m : OrdMap κ ν} {k k' : κ} {v w : ν} (h : m.find k' = some w) :
    (m.emplace k v).find k' = some w := by
  rw [find_emplace]
  split_ifs with hk
  · rw [hk, h]; rfl
  · exact h

variable {ι : Type} (f : ι → κ) (g : ι → ν)

theorem find_foldl_emplace_of_some {l : List ι} {m : OrdMap κ ν} {k : κ} {w : ν}
    (h : m.find k = some w) : (l.foldl (fun m i => m.emplace (f i) (g i)) m).find k = some w := by
  induction l generalizing m with
  | nil => exact h
  | cons i l ih => exact ih (find_emplace_of_some h)

theorem find_foldl_emplace_of_not_mem {l : List ι} {m : OrdMap κ ν} {k : κ}
    (h : k ∉ l.map f) : (l.foldl (fun m i => m.emplace (f i) (g i)) m).find k = m.find k := by
  induction l generalizing m with
  | nil => rfl
  | cons i l ih =>
    rw [List.map_cons, List.mem_cons, not_or] at h
    rw [List.foldl_cons, ih h.2, find_emplace, if_neg (Ne.symm h.1)]

theorem find_foldl_emplace_of_mem {l : List ι} {m : OrdMap κ ν} {i : ι} (hi : i ∈ l)
    (hinj : ∀ j ∈ l, f j = f i → j = i) (hm : m.find (f i) = none) :
    (l.foldl (fun m i => m.emplace (f i) (g i)) m).find (f i) = some (g i) := by
  induction l generalizing m with
  | nil => simp at hi
  | cons j l ih =>
    rw [List.foldl_cons]
    by_cases hj : f j = f i
    · obtain rfl := hinj j (by simp) hj
      apply find_foldl_emplace_of_some
      rw [find_emplace, if_pos rfl, hm]; rfl
    · have hi' : i ∈ l := by
        rcases List.mem_cons.mp hi with rfl | hi
        · exact absurd rfl hj
        · exact hi
      refine ih hi' (fun j' hj' => hinj j' (List.mem_cons_of_mem _ hj')) ?_
      rw [find_emplace, if_neg hj, hm]

end OrdMap

end MiniKvs.Lib
