import MiniKvs.Pool.Shrinking
import Mathlib.Algebra.BigOperators.Group.Finset.Basic

/-! What a shrink keeps. A dangling entry or page is never mended, so a shrink by
several levels loses nothing exactly when each level merges only empty buckets. -/

namespace MiniKvs

open Lib
open ExtendibleHashtable (Sound Allowed held)

variable {δ : Type} {xxh64 : String → UInt64} {t : ExtendibleHashtable δ} {s s' s₀ : LiveTable δ}

/-- The shrunk table holds what `t` held, and no deleted object. -/
structure LosesNothing (xxh64 : String → UInt64) (t : ExtendibleHashtable δ) (s : LiveTable δ) :
    Prop where
  getPage : ∀ pageId, s.table.getPage xxh64 pageId = t.getPage xxh64 pageId
  livePages : ∀ id b, s.table.buckets.find id = some b →
    ∀ p ∈ (s.table.heap b).pages, p.addr ∈ s.livePages
  liveBuckets : ∀ id b, s.table.buckets.find id = some b → b ∈ s.liveBuckets
  bucket : ∀ p ∈ t.stored, ∃! b, b ∈ s.liveBuckets ∧ p ∈ (s.table.heap b).pages
  once : ∀ b ∈ s.liveBuckets, (s.table.heap b).pages.Nodup
  present : ∀ b ∈ s.liveBuckets, ∀ p ∈ (s.table.heap b).pages, p ∈ t.stored
  size : s.table.size = ∑ b ∈ s.liveBuckets, ((s.table.heap b).pages.length : ℤ)

/-- In the directory of the ids behind `j` ones, the zero entry of a pair leads to the
bucket of the one entry, or to an empty bucket that no other entry leads to. -/
def MergesEmpty (t : ExtendibleHashtable δ) (j : ℕ) : Prop :=
  ∀ rest b, rest.length + j + 1 = t.globalDepth →
    t.buckets.find (List.replicate j true ++ false :: rest) = some b →
    t.buckets.find (List.replicate j true ++ true :: rest) ≠ some b →
    (t.heap b).pages = [] ∧ ∀ id, id.length + j = t.globalDepth →
      t.buckets.find (List.replicate j true ++ id) = some b → id = false :: rest

namespace LiveTable

/-- A directory entry leads to a deleted object. -/
def Dangling (s : LiveTable δ) : Prop :=
  ∃ id b, s.table.buckets.find id = some b ∧
    (b ∉ s.liveBuckets ∨ ∃ p ∈ (s.table.heap b).pages, p.addr ∉ s.livePages)

theorem Dangling.not_losesNothing (h : Dangling s) : ¬ LosesNothing xxh64 t s := by
  obtain ⟨id, b, hb, hn | ⟨p, hp, hn⟩⟩ := h
  · exact fun hl => hn (hl.liveBuckets id b hb)
  · exact fun hl => hn (hl.livePages id b hb p hp)

/-! ### One level -/

theorem Halved.keys (h : Halved s₀ s)
    (hkeys : ∀ id, (s₀.table.buckets.find id).isSome ↔ id.length = s₀.table.globalDepth)
    (id : List Bool) : (s.table.buckets.find id).isSome ↔ id.length = s.table.globalDepth := by
  rw [h.find]
  split_ifs with hid
  · rw [hkeys, List.length_cons, hid, h.globalDepth]
    simp
  · simpa using hid

section Level

variable (h : Halved s₀ s)
  (hkeys : ∀ id, (s₀.table.buckets.find id).isSome ↔ id.length = s₀.table.globalDepth)

include h hkeys

theorem Halved.find_one {x : List Bool} {b : ℕ}
    (hb : s₀.table.buckets.find (true :: x) = some b) : s.table.buckets.find x = some b := by
  have hlen : (true :: x).length = s₀.table.globalDepth := (hkeys _).mp (by rw [hb]; rfl)
  rw [h.find, if_pos, hb]
  rw [List.length_cons, ← h.globalDepth] at hlen
  exact Nat.succ.inj hlen

omit h in
theorem exists_one {c : Bool} {x : List Bool} {b : ℕ}
    (hb : s₀.table.buckets.find (c :: x) = some b) :
    ∃ n, s₀.table.buckets.find (true :: x) = some n := by
  have hlen : (c :: x).length = s₀.table.globalDepth := (hkeys _).mp (by rw [hb]; rfl)
  exact Option.isSome_iff_exists.mp ((hkeys _).mpr hlen)

theorem Halved.exists_cons {id : List Bool} {b : ℕ} (hb : s₀.table.buckets.find id = some b) :
    ∃ c x, id = c :: x := by
  have hlen : id.length = s₀.table.globalDepth := (hkeys _).mp (by rw [hb]; rfl)
  exact List.exists_cons_of_length_eq_add_one (hlen.trans h.globalDepth.symm)

/-- A deleted object stays in the directory, or is used by the merge. -/
theorem Halved.dangling (hd : Dangling s₀) : Dangling s := by
  obtain ⟨id, b, hb, hdead⟩ := hd
  obtain ⟨c, x, rfl⟩ := h.exists_cons hkeys hb
  have hkept : s.table.buckets.find x = some b → Dangling s := by
    intro hx
    refine ⟨x, b, hx, ?_⟩
    rcases hdead with hn | ⟨p, hp, hn⟩
    · exact .inl fun hm => hn ((h.liveBuckets b).mp hm).1
    · exact .inr ⟨p, h.pages b p hp, fun hm => hn (h.livePages hm)⟩
  cases c with
  | true => exact hkept (h.find_one hkeys hb)
  | false =>
    obtain ⟨n, hn⟩ := exists_one hkeys hb
    by_cases hne : b = n
    · exact hkept (h.find_one hkeys (hne ▸ hn))
    · obtain ⟨hlive, hpages⟩ := h.gone x b n hb hn hne
      rcases hdead with hdead | ⟨p, hp, hdead⟩
      · exact absurd hlive hdead
      · exact absurd (hpages p hp).1 hdead

/-- A merge leaves nothing dangling only when its bucket is empty and has no other entry. -/
theorem Halved.empty (hd : ¬ Dangling s) {x : List Bool} {b : ℕ}
    (hb : s₀.table.buckets.find (false :: x) = some b)
    (hne : s₀.table.buckets.find (true :: x) ≠ some b) :
    (s₀.table.heap b).pages = [] ∧
      ∀ id, s₀.table.buckets.find id = some b → id = false :: x := by
  obtain ⟨n, hn⟩ := exists_one hkeys hb
  have hbn : b ≠ n := by
    rintro rfl
    exact hne hn
  obtain ⟨-, hpages⟩ := h.gone x b n hb hn hbn
  have hdead : b ∉ s.liveBuckets := fun hm => hne (((h.liveBuckets b).mp hm).2 x hb)
  constructor
  · rw [List.eq_nil_iff_forall_not_mem]
    intro p hp
    obtain ⟨-, h₁, h₂⟩ := hpages p hp
    exact hd ⟨x, n, h.find_one hkeys hn, .inr ⟨p, h₂, h₁⟩⟩
  · intro id hid
    obtain ⟨c, y, rfl⟩ := h.exists_cons hkeys hid
    have hone : s₀.table.buckets.find (true :: y) ≠ some b := fun hy =>
      hd ⟨y, b, h.find_one hkeys hy, .inl hdead⟩
    cases c with
    | true => exact absurd hid hone
    | false => rw [h.apart x y b hb hid hne hone]

end Level

/-! ### Several levels -/

/-- `s` is `t` with the ids behind `j` ones for its directory, and nothing was lost. -/
structure Shrunk (xxh64 : String → UInt64) (t : ExtendibleHashtable δ) (j : ℕ)
    (s : LiveTable δ) : Prop where
  globalDepth : s.table.globalDepth + j = t.globalDepth
  find : ∀ id, s.table.buckets.find id =
    if id.length = s.table.globalDepth then t.buckets.find (List.replicate j true ++ id) else none
  pages : ∀ i, (s.table.heap i).pages = (t.heap i).pages
  size : s.table.size = t.size
  livePages : s.livePages = (t.stored.map Page.addr).toFinset
  liveBuckets : s.liveBuckets ⊆ Finset.range t.allocated
  deleted : ∀ b < t.allocated, b ∉ s.liveBuckets → (t.heap b).pages = []
  reach : ∀ id b, s.table.buckets.find id = some b → b ∈ s.liveBuckets
  placed : ∀ b, ∀ p ∈ (t.heap b).pages,
    s.table.buckets.find (s.table.hashFunction xxh64 p.pageId) = some b

theorem Shrunk.start (h : Sound xxh64 t) (minDepth maxDepth : ℕ) :
    Shrunk xxh64 t 0 { ofTable t with
      table := { t with minDepth := minDepth, maxDepth := maxDepth } } := by
  refine ⟨rfl, fun id => ?_, fun _ => rfl, rfl, rfl, Finset.Subset.refl _, fun b hb hn => ?_,
    fun id b hb => ?_, h.placed⟩
  · split_ifs with hid
    · rfl
    · exact Option.not_isSome_iff_eq_none.mp (mt (h.keys id).mp hid)
  · exact absurd (Finset.mem_range.mpr hb) hn
  · exact Finset.mem_range.mpr (h.alloc id b hb)

section Shrunk

variable {j : ℕ} (h : Shrunk xxh64 t j s) (hsound : Sound xxh64 t)

include h hsound

theorem Shrunk.keys (id : List Bool) :
    (s.table.buckets.find id).isSome ↔ id.length = s.table.globalDepth := by
  rw [h.find]
  split_ifs with hid
  · rw [hsound.keys, List.length_append, List.length_replicate, ← h.globalDepth, hid]
    simp [Nat.add_comm]
  · simpa using hid

omit hsound in
theorem Shrunk.find_of_length (id : List Bool) (hid : id.length + j = t.globalDepth) :
    s.table.buckets.find id = t.buckets.find (List.replicate j true ++ id) := by
  rw [h.find, if_pos]
  have := h.globalDepth
  omega

theorem Shrunk.length {id : List Bool} {b : ℕ} (hb : s.table.buckets.find id = some b) :
    id.length + j = t.globalDepth := by
  rw [(h.keys hsound id).mp (by rw [hb]; rfl)]
  exact h.globalDepth

/-- `MergesEmpty` in the words of the shrunk directory. -/
theorem Shrunk.mergesEmpty_iff : MergesEmpty t j ↔
    ∀ x b, s.table.buckets.find (false :: x) = some b →
      s.table.buckets.find (true :: x) ≠ some b → (s.table.heap b).pages = [] ∧
        ∀ id, s.table.buckets.find id = some b → id = false :: x := by
  have hlen : ∀ (c : Bool) (x : List Bool), x.length + j + 1 = t.globalDepth →
      (c :: x).length + j = t.globalDepth := by
    intro c x hx
    rw [List.length_cons]
    omega
  constructor
  · intro he x b hb hne
    have hx := h.length hsound hb
    rw [h.find_of_length _ hx] at hb
    rw [h.find_of_length (true :: x) hx] at hne
    obtain ⟨h₁, h₂⟩ := he x b (by rw [List.length_cons] at hx; omega) hb hne
    refine ⟨(h.pages b).trans h₁, fun id hid => h₂ id (h.length hsound hid) ?_⟩
    rw [← h.find_of_length _ (h.length hsound hid)]
    exact hid
  · intro he x b hx hb hne
    rw [← h.find_of_length _ (hlen _ x hx)] at hb hne
    obtain ⟨h₁, h₂⟩ := he x b hb hne
    refine ⟨(h.pages b).symm.trans h₁, fun id hid hb' => h₂ id ?_⟩
    rw [h.find_of_length _ hid]
    exact hb'

theorem Shrunk.halved (he : MergesEmpty t j) (hs : Halved s s') : Shrunk xxh64 t (j + 1) s' := by
  have hkeys := h.keys hsound
  rw [h.mergesEmpty_iff hsound] at he
  have hdepth : s'.table.globalDepth + (j + 1) = t.globalDepth := by
    have := hs.globalDepth
    have := h.globalDepth
    omega
  obtain ⟨hpages, hlive⟩ := hs.untouched fun x b hb hne => (he x b hb hne).1
  refine ⟨hdepth, fun id => ?_, fun i => (hpages i).trans (h.pages i), hs.size.trans h.size,
    hlive.trans h.livePages, fun b hb => h.liveBuckets ((hs.liveBuckets b).mp hb).1,
    fun b hb hn => ?_, fun id b hb => ?_, fun b p hp => ?_⟩
  · rw [hs.find]
    split_ifs with hid
    · rw [h.find_of_length (true :: id) (by rw [List.length_cons]; omega),
        List.replicate_succ', List.append_assoc, List.singleton_append]
    · rfl
  · -- a bucket was deleted before, or by a merge just now
    by_cases hb' : b ∈ s.liveBuckets
    · rw [hs.liveBuckets, not_and] at hn
      obtain ⟨x, hx⟩ := not_forall.mp (hn hb')
      obtain ⟨hx, hne⟩ := Classical.not_imp.mp hx
      rw [← h.pages]
      exact (he x b hx hne).1
    · exact h.deleted b hb hb'
  · rw [hs.find] at hb
    split_ifs at hb
    refine (hs.liveBuckets b).mpr ⟨h.reach _ b hb, fun x hx => ?_⟩
    by_contra hne
    cases (he x b hx hne).2 _ hb
  · have hb := h.placed b p hp
    obtain ⟨c, x, hc⟩ := hs.exists_cons hkeys hb
    have hx : s'.table.hashFunction xxh64 p.pageId = x := by
      have htail : (s.table.hashFunction xxh64 p.pageId).tail =
          s'.table.hashFunction xxh64 p.pageId := by
        have := hsound.depth_le
        have := h.globalDepth
        rw [ExtendibleHashtable.hashFunction, ExtendibleHashtable.hashFunction, ← hs.globalDepth,
          Utils.tail_getBinaryFromInt _ (by omega)]
      rw [← htail, hc, List.tail_cons]
    rw [hc] at hb
    rw [hx]
    refine hs.find_one hkeys ?_
    cases c with
    | true => exact hb
    | false =>
      by_contra hne
      have hnil := (he x b hb hne).1
      rw [h.pages] at hnil
      rw [hnil] at hp
      cases hp

theorem Shrunk.getPage (pageId : String) :
    s.table.getPage xxh64 pageId = t.getPage xxh64 pageId := by
  have hlen : (s.table.hashFunction xxh64 pageId).length = s.table.globalDepth := by
    refine ExtendibleHashtable.length_hashFunction ?_ pageId
    have := hsound.depth_le
    have := h.globalDepth
    omega
  obtain ⟨b, hb⟩ := Option.isSome_iff_exists.mp ((h.keys hsound _).mpr hlen)
  have hget : s.table.getPage xxh64 pageId = (t.heap b).getPage pageId := by
    rw [ExtendibleHashtable.getPage, hb]
    simp only [Bucket.getPage, h.pages]
  rw [hget]
  cases hp : t.getPage xxh64 pageId with
  | none =>
    rw [Bucket.getPage, List.find?_eq_none]
    intro p hp'
    simpa using hsound.getPage_eq_none.mp hp p (hsound.mem_stored.mpr ⟨b, hp'⟩)
  | some p =>
    obtain ⟨hm, rfl⟩ := hsound.getPage_eq_some.mp hp
    obtain ⟨i, hi⟩ := hsound.mem_stored.mp hm
    -- the page lies in the bucket of its present hash
    obtain rfl : i = b := Option.some.inj ((h.placed i p hi).symm.trans hb)
    rw [ExtendibleHashtable.getPage, hsound.placed i p hi] at hp
    exact hp

theorem Shrunk.losesNothing : LosesNothing xxh64 t s where
  getPage := h.getPage hsound
  livePages id b hb p hp := by
    rw [h.pages] at hp
    rw [h.livePages, List.mem_toFinset]
    exact List.mem_map_of_mem (hsound.mem_stored.mpr ⟨b, hp⟩)
  liveBuckets := h.reach
  bucket p hp := by
    obtain ⟨b, hb, hm⟩ := ExtendibleHashtable.mem_stored.mp hp
    refine ⟨b, ⟨?_, by rw [h.pages]; exact hm⟩, fun i hi => ?_⟩
    · by_contra hn
      rw [h.deleted b hb hn] at hm
      cases hm
    · have hi' := hi.2
      rw [h.pages] at hi'
      exact Option.some.inj ((hsound.placed i p hi').symm.trans (hsound.placed b p hm))
  once b _ := by
    rw [h.pages]
    exact (hsound.ids b).of_map _
  present b _ p hp := by
    rw [h.pages] at hp
    exact hsound.mem_stored.mpr ⟨b, hp⟩
  size := by
    have hsum : (t.stored.length : ℤ) =
        ∑ b ∈ Finset.range t.allocated, ((t.heap b).pages.length : ℤ) := by
      rw [ExtendibleHashtable.stored, List.length_flatMap]
      simp [Finset.sum, Finset.range, Multiset.range, Function.comp_def]
    rw [h.size, hsound.size, hsum, ← Finset.sum_subset h.liveBuckets fun b hb hn => ?_]
    · exact Finset.sum_congr rfl fun b _ => by rw [h.pages]
    · rw [h.deleted b (Finset.mem_range.mp hb) hn]
      rfl

end Shrunk

/-! ### The loop -/

theorem shrinkDirectory_step {j g : ℕ} (hsound : Sound xxh64 t) (h : Shrunk xxh64 t j s)
    (hg : s.table.globalDepth = g + 1) (hmin : s.table.globalDepth ≠ s.table.minDepth)
    (he : MergesEmpty t j) :
    ∃ s', s.shrinkDirectory = .ok s' ∧ Halved s s' ∧ Shrunk xxh64 t (j + 1) s' := by
  have hkeys := h.keys hsound
  rw [hg] at hkeys
  obtain ⟨s', hs'⟩ := shrinkDirectory_of_empty hkeys hmin h.reach
    ((h.mergesEmpty_iff hsound).mp he)
  have hhalf := shrinkDirectory_halved hkeys hg hmin hs'
  exact ⟨s', hs', hhalf, h.halved hsound he hhalf⟩

theorem shrinkLoop_dangling : ∀ {fuel : ℕ} {s s' : LiveTable δ},
    (∀ id, (s.table.buckets.find id).isSome ↔ id.length = s.table.globalDepth) →
    s.table.minDepth ≤ s.table.maxDepth → shrinkLoop fuel s = .ok s' → Dangling s →
    Dangling s' := by
  intro fuel
  induction fuel with
  | zero =>
    intro s s' _ _ h hd
    rw [shrinkLoop] at h
    split_ifs at h
    cases h
    exact hd
  | succ fuel ih =>
    intro s s' hkeys hmin h hd
    rw [shrinkLoop] at h
    split_ifs at h with hg
    · obtain ⟨s₁, h₁, h₂⟩ := bind_eq_ok.mp h
      obtain ⟨g, hg'⟩ : ∃ g, s.table.globalDepth = g + 1 :=
        Nat.exists_eq_succ_of_ne_zero (by omega)
      have hhalf := shrinkDirectory_halved (hg' ▸ hkeys) hg' (by omega) h₁
      exact ih (hhalf.keys hkeys) (by rw [hhalf.minDepth, hhalf.maxDepth]; exact hmin) h₂
        (hhalf.dangling hkeys hd)
    · cases h
      exact hd

theorem shrinkLoop_of_mergesEmpty (hsound : Sound xxh64 t) : ∀ (fuel : ℕ) {j : ℕ} {s : LiveTable δ},
    Shrunk xxh64 t j s → s.table.minDepth ≤ s.table.maxDepth →
    s.table.globalDepth ≤ s.table.maxDepth + fuel →
    (∀ i, j ≤ i → i + s.table.maxDepth < t.globalDepth → MergesEmpty t i) →
    ∃ s' j', shrinkLoop fuel s = .ok s' ∧ Shrunk xxh64 t j' s' := by
  intro fuel
  induction fuel with
  | zero =>
    intro j s h _ hle _
    exact ⟨s, j, by rw [shrinkLoop, if_neg (by omega)], h⟩
  | succ fuel ih =>
    intro j s h hmin hle he
    by_cases hg : s.table.globalDepth > s.table.maxDepth
    · obtain ⟨g, hg'⟩ : ∃ g, s.table.globalDepth = g + 1 :=
        Nat.exists_eq_succ_of_ne_zero (by omega)
      have hdepth := h.globalDepth
      obtain ⟨s₁, h₁, hhalf, hsh⟩ := shrinkDirectory_step hsound h hg' (by omega)
        (he j le_rfl (by omega))
      have hd := hhalf.globalDepth
      obtain ⟨s', j', h', hsh'⟩ := ih hsh (by rw [hhalf.minDepth, hhalf.maxDepth]; exact hmin)
        (by rw [hhalf.maxDepth]; omega)
        (fun i hi hlt => he i (by omega) (by rw [← hhalf.maxDepth]; exact hlt))
      exact ⟨s', j', by rw [shrinkLoop, if_pos hg, h₁, ok_bind, h'], hsh'⟩
    · exact ⟨s, j, by rw [shrinkLoop, if_neg hg], h⟩

theorem mergesEmpty_of_shrinkLoop (hsound : Sound xxh64 t) : ∀ {fuel j : ℕ} {s s' : LiveTable δ},
    Shrunk xxh64 t j s → s.table.minDepth ≤ s.table.maxDepth → shrinkLoop fuel s = .ok s' →
    ¬ Dangling s' → ∀ i, j ≤ i → i + s.table.maxDepth < t.globalDepth → MergesEmpty t i := by
  intro fuel
  induction fuel with
  | zero =>
    intro j s s' h _ hs _ i hi hlt
    have := h.globalDepth
    rw [shrinkLoop] at hs
    split_ifs at hs
    omega
  | succ fuel ih =>
    intro j s s' h hmin hs hd i hi hlt
    have hdepth := h.globalDepth
    rw [shrinkLoop] at hs
    split_ifs at hs with hg
    · obtain ⟨s₁, h₁, h₂⟩ := bind_eq_ok.mp hs
      obtain ⟨g, hg'⟩ : ∃ g, s.table.globalDepth = g + 1 :=
        Nat.exists_eq_succ_of_ne_zero (by omega)
      have hkeys := h.keys hsound
      have hhalf := shrinkDirectory_halved (hg' ▸ hkeys) hg' (by omega) h₁
      have hmin₁ : s₁.table.minDepth ≤ s₁.table.maxDepth := by
        rw [hhalf.minDepth, hhalf.maxDepth]
        exact hmin
      -- nothing dangles after the first round, as it would to the end
      have hd₁ : ¬ Dangling s₁ := fun hd₁ =>
        hd (shrinkLoop_dangling (hhalf.keys hkeys) hmin₁ h₂ hd₁)
      have he : MergesEmpty t j := (h.mergesEmpty_iff hsound).mpr fun x b hb hne =>
        hhalf.empty hkeys hd₁ hb hne
      rcases Nat.eq_or_lt_of_le hi with rfl | hi
      · exact he
      · exact ih (h.halved hsound he hhalf) hmin₁ h₂ hd i hi (by rw [hhalf.maxDepth]; exact hlt)
    · omega

end LiveTable

/-! ### Calls -/

namespace Shrink

open LiveTable

theorem losesNothing_iff (hsound : Sound xxh64 t) (hmin : t.minDepth ≤ t.globalDepth)
    (call : Shrink) : (∃ s, call.run (.ofTable t) = .ok s ∧ LosesNothing xxh64 t s) ↔
      ∀ j < call.levels t, MergesEmpty t j := by
  cases call with
  | shrinkDirectory =>
    have h₀ : Shrunk xxh64 t 0 (.ofTable t) := .start hsound t.minDepth t.maxDepth
    change (∃ s, (ofTable t).shrinkDirectory = .ok s ∧ _) ↔
      ∀ j < if t.globalDepth = t.minDepth then 0 else 1, MergesEmpty t j
    by_cases hg : t.globalDepth = t.minDepth
    · have hs : (ofTable t).shrinkDirectory = .ok (ofTable t) := if_pos hg
      rw [if_pos hg, hs]
      exact ⟨fun _ j hj => absurd hj (Nat.not_lt_zero j), fun _ => ⟨_, rfl, h₀.losesNothing hsound⟩⟩
    · rw [if_neg hg]
      obtain ⟨g, hg'⟩ : ∃ g, t.globalDepth = g + 1 := Nat.exists_eq_succ_of_ne_zero (by omega)
      constructor
      · rintro ⟨s, hs, hl⟩ j hj
        obtain rfl : j = 0 := by omega
        have hkeys := h₀.keys hsound
        have hhalf : Halved (ofTable t) s := shrinkDirectory_halved (hg' ▸ hkeys) hg' hg hs
        exact (h₀.mergesEmpty_iff hsound).mpr fun x b hb hne =>
          hhalf.empty hkeys (fun hd => hd.not_losesNothing hl) hb hne
      · intro he
        obtain ⟨s, hs, -, hsh⟩ := shrinkDirectory_step hsound h₀ hg' hg (he 0 Nat.one_pos)
        exact ⟨s, hs, hsh.losesNothing hsound⟩
  | setMaxSize maxSize =>
    have h₀ := Shrunk.start hsound
      (if t.minDepth > Nat.log 2 maxSize then Nat.log 2 maxSize else t.minDepth) (Nat.log 2 maxSize)
    have hle : (if t.minDepth > Nat.log 2 maxSize then Nat.log 2 maxSize else t.minDepth) ≤
        Nat.log 2 maxSize := by
      split_ifs <;> omega
    constructor
    · rintro ⟨s, hs, hl⟩ j hj
      exact mergesEmpty_of_shrinkLoop hsound h₀ hle hs (fun hd => hd.not_losesNothing hl) j
        (Nat.zero_le j) (Nat.add_lt_of_lt_sub hj)
    · intro he
      obtain ⟨s, j, hs, hsh⟩ := shrinkLoop_of_mergesEmpty hsound t.globalDepth h₀ hle
        (Nat.le_add_left _ _) fun i _ hi => he i (Nat.lt_sub_of_add_lt hi)
      exact ⟨s, hs, hsh.losesNothing hsound⟩

end Shrink

/-- After any run a shrink loses nothing exactly when every bucket that it merges is empty
and has no other directory entry. -/
theorem shrink_losesNothing_iff (xxh64 : String → UInt64) {minSize maxSize : ℕ} {bucketMaxSize : ℤ}
    (hle : minSize ≤ maxSize) (hmax : maxSize < 2147483648)
    {ops : List (ExtendibleHashtable.Op δ)} (ha : AlongTotal held Allowed [] ops)
    {rs : List Unit} {t : ExtendibleHashtable δ}
    (hr : run (ExtendibleHashtable.step xxh64) ops (.new minSize maxSize bucketMaxSize) =
      .ok (rs, t)) (call : Shrink) :
    (∃ s, call.run (.ofTable t) = .ok s ∧ LosesNothing xxh64 t s) ↔
      ∀ j < call.levels t, MergesEmpty t j := by
  obtain ⟨rs', t', hr', hh, hm⟩ := ExtendibleHashtable.run_holds xxh64 _ hle hmax ha
  rw [hr, Except.ok.injEq, Prod.mk.injEq] at hr'
  obtain ⟨-, rfl⟩ := hr'
  exact call.losesNothing_iff hh.sound hm

/-- The bucket of the entry 0 is empty when it is merged. -/
theorem shrink_losesNothing_iff_empty : ∃ rs t s,
    run (ExtendibleHashtable.step fun id => id.length.toUInt64)
      [.expandDirectory, .insertPage ⟨0, "bc", ()⟩, .insertPage ⟨1, "a", ()⟩,
        .removePage ⟨0, "bc", ()⟩] (.new 1 2 1) = .ok (rs, t) ∧
      Shrink.shrinkDirectory.run (.ofTable t) = .ok s ∧
      LosesNothing (fun id => id.length.toUInt64) t s := by
  obtain ⟨rs, t, hr, hl, hz, ho, hp⟩ : ∃ rs t,
      run (ExtendibleHashtable.step fun id => id.length.toUInt64)
        [.expandDirectory, .insertPage ⟨0, "bc", ()⟩, .insertPage ⟨1, "a", ()⟩,
          .removePage ⟨0, "bc", ()⟩] (.new 1 2 1) = .ok (rs, t) ∧ t.globalDepth = 1 ∧
        t.buckets.find [false] = some 0 ∧ t.buckets.find [true] = some 1 ∧
        (t.heap 0).pages = [] :=
    ⟨_, _, eq_ok_okOr ([], .new 1 2 1) (by decide), by decide, by decide, by decide, by decide⟩
  obtain ⟨s, hs, hl⟩ := (shrink_losesNothing_iff (fun id => id.length.toUInt64) (by norm_num)
    (by norm_num) (by simp [AlongTotal, Allowed, held]) hr .shrinkDirectory).mpr
    (fun j hj rest b hlen hb hne => by
      have hj : j < 1 := hj.trans_le (by rw [Shrink.levels]; split_ifs <;> omega)
      obtain rfl : j = 0 := Nat.lt_one_iff.mp hj
      obtain rfl : rest = [] := List.length_eq_zero_iff.mp (by omega)
      obtain rfl : 0 = b := Option.some.inj (hz.symm.trans hb)
      refine ⟨hp, fun id hid hf => ?_⟩
      obtain ⟨c, rfl⟩ := List.length_eq_one_iff.mp (hid.trans hl)
      cases c with
      | true => cases ho.symm.trans hf
      | false => rfl)
  exact ⟨rs, t, s, hr, hs, hl⟩

/-- The bucket of the entry 0 holds a page when it is merged. -/
theorem not_shrink_losesNothing : ¬ ∀ (xxh64 : String → UInt64) (minSize maxSize : ℕ)
    (bucketMaxSize : ℤ) (ops : List (ExtendibleHashtable.Op Unit)) (rs : List Unit)
    (t : ExtendibleHashtable Unit) (call : Shrink), minSize ≤ maxSize → maxSize < 2147483648 →
    AlongTotal held Allowed [] ops →
    run (ExtendibleHashtable.step xxh64) ops (.new minSize maxSize bucketMaxSize) = .ok (rs, t) →
    ∃ s, call.run (.ofTable t) = .ok s ∧ LosesNothing xxh64 t s := by
  intro h
  have hr := eq_ok_okOr ([], .new 1 2 1)
    (x := run (ExtendibleHashtable.step fun id => id.length.toUInt64)
      [.expandDirectory, .insertPage ⟨0, "bc", ()⟩, .insertPage ⟨1, "a", ()⟩] (.new 1 2 1))
    (by decide)
  obtain ⟨s, hs, hl⟩ := h (fun id => id.length.toUInt64) 1 2 1 _ _ _ .shrinkDirectory (by norm_num)
    (by norm_num) (by simp [AlongTotal, Allowed, held]) hr
  rw [eq_ok_okOr (.ofTable (.new 1 2 1)) (x := Shrink.shrinkDirectory.run _) (by decide)] at hs
  cases hs
  have hlive := hl.livePages [] 1 (by decide) ⟨0, "bc", ()⟩ (by decide)
  exact absurd hlive (by decide)

end MiniKvs
