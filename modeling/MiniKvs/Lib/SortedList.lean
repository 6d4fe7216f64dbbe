import Mathlib.Data.List.Basic
import Mathlib.Data.List.Nodup
import Mathlib.Data.List.Perm.Basic
import Mathlib.Order.Basic
import Mathlib.Tactic

/-! Lists strictly sorted by a key, as finite maps. A sorted list is determined
by its lookups, so two ways of building one agree as soon as they answer alike.
`mergeNewer` is the two-way merge in which the second list wins. -/

namespace MiniKvs.Lib

variable {α κ : Type} [LinearOrder κ] (key : α → κ)

def SortedBy (l : List α) : Prop := l.Pairwise fun a b => key a < key b

def findKey (l : List α) (k : κ) : Option α := l.find? fun a => key a = k

/-- Put an entry in its place, over the one that has its key. -/
def insertKey (a : α) : List α → List α
  | [] => [a]
  | b :: l => if key a < key b then a :: b :: l
      else if key a = key b then a :: l else b :: insertKey a l

/-- Two-way merge; of two entries with one key the one of the second list stays. -/
def mergeNewer : List α → List α → List α
  | [], new => new
  | a :: old, [] => a :: old
  | a :: old, b :: new =>
    if key b < key a then b :: mergeNewer (a :: old) new
    else if key a < key b then a :: mergeNewer old (b :: new)
    else b :: mergeNewer old new
termination_by old new => old.length + new.length

variable {key}

theorem sortedBy_nil : SortedBy key ([] : List α) := List.Pairwise.nil

theorem sortedBy_cons {a : α} {l : List α} :
    SortedBy key (a :: l) ↔ (∀ b ∈ l, key a < key b) ∧ SortedBy key l := List.pairwise_cons

theorem sortedBy_append {l₁ l₂ : List α} : SortedBy key (l₁ ++ l₂) ↔
    SortedBy key l₁ ∧ SortedBy key l₂ ∧ ∀ a ∈ l₁, ∀ b ∈ l₂, key a < key b := List.pairwise_append

theorem SortedBy.nodup_keys {l : List α} (h : SortedBy key l) : (l.map key).Nodup := by
  rw [List.Nodup, List.pairwise_map]
  exact h.imp fun hab => hab.ne

theorem SortedBy.nodup {l : List α} (h : SortedBy key l) : l.Nodup := h.nodup_keys.of_map _

theorem SortedBy.sublist {l₁ l₂ : List α} (h : SortedBy key l₂) (hs : l₁.Sublist l₂) :
    SortedBy key l₁ := List.Pairwise.sublist hs h

/-! ### Lookup -/

@[simp] theorem findKey_nil (k : κ) : findKey key ([] : List α) k = none := rfl

theorem findKey_cons (a : α) (l : List α) (k : κ) :
    findKey key (a :: l) k = if key a = k then some a else findKey key l k := by
  by_cases h : key a = k <;> simp [findKey, h]

theorem findKey_append (l₁ l₂ : List α) (k : κ) :
    findKey key (l₁ ++ l₂) k = (findKey key l₁ k).or (findKey key l₂ k) := List.find?_append

theorem findKey_eq_none {l : List α} {k : κ} : findKey key l k = none ↔ ∀ a ∈ l, key a ≠ k := by
  simp [findKey, List.find?_eq_none]

theorem findKey_mem {l : List α} {k : κ} {a : α} (h : findKey key l k = some a) :
    a ∈ l ∧ key a = k :=
  ⟨List.mem_of_find?_eq_some h, by simpa using List.find?_some h⟩

theorem SortedBy.findKey_eq_some {l : List α} (hl : SortedBy key l) {k : κ} {a : α} :
    findKey key l k = some a ↔ a ∈ l ∧ key a = k := by
  refine ⟨findKey_mem, ?_⟩
  induction l with
  | nil => simp
  | cons b l ih =>
    rintro ⟨ha, hk⟩
    rw [sortedBy_cons] at hl
    rw [findKey_cons]
    rcases List.mem_cons.mp ha with rfl | ha
    · rw [if_pos hk]
    · rw [if_neg (by rw [← hk]; exact (hl.1 a ha).ne), ih hl.2 ⟨ha, hk⟩]

/-- A sorted list is the map it stands for. -/
theorem SortedBy.ext {l₁ l₂ : List α} (h₁ : SortedBy key l₁) (h₂ : SortedBy key l₂)
    (h : ∀ k, findKey key l₁ k = findKey key l₂ k) : l₁ = l₂ := by
  have hmem : ∀ a, a ∈ l₁ ↔ a ∈ l₂ := by
    intro a
    have ha := h (key a)
    constructor
    · intro hm
      rw [h₁.findKey_eq_some.mpr ⟨hm, rfl⟩] at ha
      exact (findKey_mem ha.symm).1
    · intro hm
      rw [h₂.findKey_eq_some.mpr ⟨hm, rfl⟩] at ha
      exact (findKey_mem ha).1
  have hp : l₁.Perm l₂ := (List.perm_ext_iff_of_nodup h₁.nodup h₂.nodup).mpr hmem
  exact hp.eq_of_pairwise (fun a b _ _ hab hba => absurd hab hba.asymm) h₁ h₂

/-! ### Insertion -/

theorem mem_insertKey {a b : α} {l : List α} (h : b ∈ insertKey key a l) : b = a ∨ b ∈ l := by
  induction l with
  | nil => simpa [insertKey] using h
  | cons c l ih =>
    simp only [insertKey] at h
    split_ifs at h with h1 h2
    · simpa using h
    · simp only [List.mem_cons] at h ⊢; tauto
    · simp only [List.mem_cons] at h ⊢
      rcases h with rfl | h
      · exact .inr (.inl rfl)
      · exact (ih h).imp_right .inr

theorem SortedBy.insertKey {l : List α} (h : SortedBy key l) (a : α) :
    SortedBy key (insertKey key a l) := by
  induction l with
  | nil => exact List.pairwise_singleton _ _
  | cons b l ih =>
    rw [sortedBy_cons] at h
    simp only [Lib.insertKey]
    split_ifs with h1 h2
    · refine sortedBy_cons.mpr ⟨fun c hc => ?_, sortedBy_cons.mpr h⟩
      rcases List.mem_cons.mp hc with rfl | hc
      · exact h1
      · exact h1.trans (h.1 c hc)
    · exact sortedBy_cons.mpr ⟨fun c hc => h2 ▸ h.1 c hc, h.2⟩
    · refine sortedBy_cons.mpr ⟨fun c hc => ?_, ih h.2⟩
      rcases mem_insertKey hc with rfl | hc
      · exact lt_of_le_of_ne (not_lt.mp h1) (Ne.symm h2)
      · exact h.1 c hc

theorem findKey_insertKey (a : α) (l : List α) (k : κ) :
    findKey key (insertKey key a l) k = if key a = k then some a else findKey key l k := by
  induction l with
  | nil => exact findKey_cons a [] k
  | cons b l ih =>
    simp only [insertKey]
    by_cases hk : key a = k
    · rw [if_pos hk] at ih ⊢
      split_ifs with h1 h2
      · rw [findKey_cons, if_pos hk]
      · rw [findKey_cons, if_pos hk]
      · rw [findKey_cons, if_neg (hk ▸ Ne.symm h2), ih]
    · rw [if_neg hk] at ih ⊢
      split_ifs with h1 h2
      · rw [findKey_cons, if_neg hk]
      · rw [findKey_cons, findKey_cons, if_neg hk, if_neg (h2 ▸ hk)]
      · rw [findKey_cons, ih, findKey_cons]

theorem insertKey_append_of_lt {a b : α} (h : key a < key b) (l r : List α) :
    insertKey key a (l ++ b :: r) = insertKey key a l ++ b :: r := by
  induction l with
  | nil => simp [insertKey, h]
  | cons c l ih =>
    simp only [List.cons_append, insertKey, ih]
    split_ifs <;> rfl

theorem insertKey_append_of_gt {a : α} {l : List α} (h : ∀ c ∈ l, key c < key a) (r : List α) :
    insertKey key a (l ++ r) = l ++ insertKey key a r := by
  induction l with
  | nil => rfl
  | cons c l ih =>
    have hc := h c (by simp)
    rw [List.cons_append, insertKey, if_neg hc.not_gt, if_neg hc.ne',
      ih fun d hd => h d (List.mem_cons_of_mem _ hd), List.cons_append]

theorem insertKey_append_self {a b : α} {l : List α} (h : ∀ c ∈ l, key c < key a)
    (hab : key a = key b) (r : List α) : insertKey key a (l ++ b :: r) = l ++ a :: r := by
  rw [insertKey_append_of_gt h, insertKey, if_neg hab.not_lt, if_pos hab]

/-! ### Merging -/

@[simp] theorem mergeNewer_nil_left (new : List α) : mergeNewer key [] new = new := by
  rw [mergeNewer]

@[simp] theorem mergeNewer_nil_right (old : List α) : mergeNewer key old [] = old := by
  cases old <;> rw [mergeNewer]

theorem mem_mergeNewer {old new : List α} {c : α} (h : c ∈ mergeNewer key old new) :
    c ∈ old ∨ c ∈ new := by
  induction old, new using mergeNewer.induct key with
  | case1 new => exact .inr (by simpa using h)
  | case2 a old => exact .inl (by simpa using h)
  | case3 a old b new hlt ih =>
    rw [mergeNewer, if_pos hlt, List.mem_cons] at h
    rcases h with rfl | h
    · simp
    · exact (ih h).imp_right (List.mem_cons_of_mem _)
  | case4 a old b new hlt hgt ih =>
    rw [mergeNewer, if_neg hlt, if_pos hgt, List.mem_cons] at h
    rcases h with rfl | h
    · simp
    · exact (ih h).imp_left (List.mem_cons_of_mem _)
  | case5 a old b new hlt hgt ih =>
    rw [mergeNewer, if_neg hlt, if_neg hgt, List.mem_cons] at h
    rcases h with rfl | h
    · simp
    · exact (ih h).imp (List.mem_cons_of_mem _) (List.mem_cons_of_mem _)

theorem SortedBy.mergeNewer {old new : List α} (ho : SortedBy key old) (hn : SortedBy key new) :
    SortedBy key (mergeNewer key old new) := by
  induction old, new using Lib.mergeNewer.induct key with
  | case1 new => simpa using hn
  | case2 a old => simpa using ho
  | case3 a old b new hlt ih =>
    rw [Lib.mergeNewer, if_pos hlt]
    have hn' := sortedBy_cons.mp hn
    refine sortedBy_cons.mpr ⟨fun c hc => ?_, ih ho hn'.2⟩
    rcases mem_mergeNewer hc with hc | hc
    · rcases List.mem_cons.mp hc with rfl | hc
      · exact hlt
      · exact hlt.trans ((sortedBy_cons.mp ho).1 c hc)
    · exact hn'.1 c hc
  | case4 a old b new hlt hgt ih =>
    rw [Lib.mergeNewer, if_neg hlt, if_pos hgt]
    have ho' := sortedBy_cons.mp ho
    refine sortedBy_cons.mpr ⟨fun c hc => ?_, ih ho'.2 hn⟩
    rcases mem_mergeNewer hc with hc | hc
    · exact ho'.1 c hc
    · rcases List.mem_cons.mp hc with rfl | hc
      · exact hgt
      · exact hgt.trans ((sortedBy_cons.mp hn).1 c hc)
  | case5 a old b new hlt hgt ih =>
    rw [Lib.mergeNewer, if_neg hlt, if_neg hgt]
    have ho' := sortedBy_cons.mp ho
    have hn' := sortedBy_cons.mp hn
    have hab : key a = key b := le_antisymm (not_lt.mp hlt) (not_lt.mp hgt)
    refine sortedBy_cons.mpr ⟨fun c hc => ?_, ih ho'.2 hn'.2⟩
    rcases mem_mergeNewer hc with hc | hc
    · exact hab ▸ ho'.1 c hc
    · exact hn'.1 c hc

/-- The merge answers like the newer list where that has the key, else like the older. -/
theorem findKey_mergeNewer {old new : List α} (ho : SortedBy key old) (hn : SortedBy key new)
    (k : κ) : findKey key (mergeNewer key old new) k =
      (findKey key new k).or (findKey key old k) := by
  induction old, new using mergeNewer.induct key with
  | case1 new => simp
  | case2 a old => simp
  | case3 a old b new hlt ih =>
    rw [mergeNewer, if_pos hlt, findKey_cons, findKey_cons (l := new),
      ih ho (sortedBy_cons.mp hn).2]
    split_ifs with hb <;> simp
  | case4 a old b new hlt hgt ih =>
    have ho' := sortedBy_cons.mp ho
    rw [mergeNewer, if_neg hlt, if_pos hgt, findKey_cons, ih ho'.2 hn, findKey_cons (l := old)]
    split_ifs with ha
    · -- the smallest key of the older list is not in the newer one
      have : findKey key (b :: new) k = none := by
        rw [findKey_eq_none]
        intro c hc
        rcases List.mem_cons.mp hc with rfl | hc
        · exact (ha ▸ hgt).ne'
        · exact ((ha ▸ hgt).trans ((sortedBy_cons.mp hn).1 c hc)).ne'
      simp [this]
    · rfl
  | case5 a old b new hlt hgt ih =>
    have hab : key a = key b := le_antisymm (not_lt.mp hlt) (not_lt.mp hgt)
    rw [mergeNewer, if_neg hlt, if_neg hgt, findKey_cons, findKey_cons (l := new),
      findKey_cons (l := old), ih (sortedBy_cons.mp ho).2 (sortedBy_cons.mp hn).2, hab]
    split_ifs with hb <;> simp

/-! ### Sorting -/

variable (key) in
/-- A sort by the keys. In which order it leaves equal keys is not said. -/
structure SortBy where
  apply : List α → List α
  perm : ∀ l, (apply l).Perm l
  sorted : ∀ l, (apply l).Pairwise fun a b => key a ≤ key b

namespace SortBy

instance : CoeFun (SortBy key) fun _ => List α → List α := ⟨apply⟩

/-- The sort that leaves equal keys as they are. -/
def insertion : SortBy key where
  apply := List.insertionSort fun a b => key a ≤ key b
  perm := List.perm_insertionSort _
  sorted :=
    have : Std.Total fun a b : α => key a ≤ key b := ⟨fun a b => le_total (key a) (key b)⟩
    have : IsTrans α fun a b => key a ≤ key b := ⟨fun _ _ _ => le_trans⟩
    List.pairwise_insertionSort _

variable (sort : SortBy key) {l : List α}

@[simp] theorem mem_apply {a : α} : a ∈ sort l ↔ a ∈ l := (sort.perm l).mem_iff

@[simp] theorem length_apply (l : List α) : (sort l).length = l.length := (sort.perm l).length_eq

/-- Sorting gives a strictly sorted list when no key occurs twice. -/
theorem sortedBy_apply : SortedBy key (sort l) ↔ (l.map key).Nodup := by
  have hperm := sort.perm l
  constructor
  · exact fun h => (hperm.map key).nodup_iff.mp h.nodup_keys
  · intro h
    have hne := List.pairwise_map.mp ((hperm.map key).nodup_iff.mpr h)
    exact (sort.sorted l).imp₂ (fun a b hab hne => lt_of_le_of_ne hab hne) hne

end SortBy

end MiniKvs.Lib
