import MiniKvs.Pool.HashtableRuns
import Mathlib.Data.Finset.Basic

/-! Shrinking the directory (`shrink_directory`, `merge_bucket`, `set_max_size`).
A merge moves the pages of one bucket to its pair and deletes the bucket, whose
destructor deletes the pages it lists. The objects in use are a set that deletion
leaves. A shrink keeps the entry of every id that starts with a one; it loses
nothing when the buckets it deletes are empty and have no other entry. -/

namespace MiniKvs

open Lib

variable {δ : Type}

/-- What stops a shrink: a fault of the table, a deleted object that is used or
deleted again, or the pair or the suffix of an empty id. -/
inductive ShrinkFault
  | table (fault : Fault)
  | deletedObject
  | emptyId
  deriving DecidableEq

def Bucket.decrementLocalDepth (b : Bucket δ) : Bucket δ :=
  { b with localDepth := b.localDepth - 1 }

/-- A table with its live objects, the pages by their addresses. -/
structure LiveTable (δ : Type) where
  table : ExtendibleHashtable δ
  liveBuckets : Finset ℕ
  livePages : Finset ℕ

namespace LiveTable

/-- Nothing has been deleted that the table holds. -/
def ofTable (t : ExtendibleHashtable δ) : LiveTable δ where
  table := t
  liveBuckets := Finset.range t.allocated
  livePages := (t.stored.map Page.addr).toFinset

def bucketAt (s : LiveTable δ) (bucketId : List Bool) : Except ShrinkFault ℕ :=
  (s.table.bucketAt bucketId).mapError .table

/-- `delete page` -/
def deletePage (s : LiveTable δ) (page : Page δ) : Except ShrinkFault (LiveTable δ) :=
  if page.addr ∈ s.livePages then
    .ok { s with
      table := { s.table with deleted := page :: s.table.deleted }
      livePages := s.livePages.erase page.addr }
  else .error .deletedObject

/-- `delete bucket`, with the pages it lists. -/
def deleteBucket (s : LiveTable δ) (b : ℕ) : Except ShrinkFault (LiveTable δ) := do
  let s ← (s.table.heap b).pages.foldlM deletePage s
  .ok { s with liveBuckets := s.liveBuckets.erase b }

/-- `get_pair_bucket_id` writes to the first character. -/
def getPairBucketId (bucketId : List Bool) : Except ShrinkFault (List Bool) :=
  if bucketId = [] then .error .emptyId else .ok (ExtendibleHashtable.getPairBucketId bucketId)

def mergeBucket (s : LiveTable δ) (bucketId : List Bool) : Except ShrinkFault (LiveTable δ) := do
  let curr ← s.bucketAt bucketId
  let pairId ← getPairBucketId bucketId
  let pair ← s.bucketAt pairId
  -- no need to merge if both directories point at the same bucket
  if curr = pair then .ok s
  else if curr ∈ s.liveBuckets ∧ pair ∈ s.liveBuckets then
    let pages := (s.table.heap curr).pages
    let t := pages.foldl (fun t page => t.modifyBucket pair (·.insertPage page)) s.table
    let s := { s with table := t.modifyBucket pair Bucket.decrementLocalDepth }
    let s ← s.deleteBucket curr
    .ok { s with table := { s.table with buckets := s.table.buckets.set bucketId pair } }
  else .error .deletedObject

/-- The final renaming takes the buckets as they were before the merges, and the suffixes of
ids that have been merged, so none is empty. -/
def shrinkDirectory (s : LiveTable δ) : Except ShrinkFault (LiveTable δ) :=
  if s.table.globalDepth = s.table.minDepth then .ok s
  else do
    let tempBucket := s.table.buckets.toList
    let s ← tempBucket.foldlM (fun s x => s.mergeBucket x.1) s
    .ok { s with table := { s.table with
      globalDepth := s.table.globalDepth - 1
      buckets := tempBucket.foldl (fun m x => (m.set x.1.tail x.2).erase x.1) s.table.buckets } }

/-- The loop of `setMaxSize`; every round makes the directory less deep. -/
def shrinkLoop : ℕ → LiveTable δ → Except ShrinkFault (LiveTable δ)
  | 0, s => if s.table.globalDepth > s.table.maxDepth then .error (.table .noReturn) else .ok s
  | fuel + 1, s => do
    if s.table.globalDepth > s.table.maxDepth then
      let s ← s.shrinkDirectory
      shrinkLoop fuel s
    else .ok s

/-- As for the constructor, a size is at least one. -/
def setMaxSize (s : LiveTable δ) (maxSize : ℕ) : Except ShrinkFault (LiveTable δ) :=
  let maxDepth := Nat.log 2 maxSize
  -- minDepth is never greater than maxDepth
  let minDepth := if s.table.minDepth > maxDepth then maxDepth else s.table.minDepth
  shrinkLoop s.table.globalDepth
    { s with table := { s.table with maxDepth := maxDepth, minDepth := minDepth } }

end LiveTable

inductive Shrink
  | shrinkDirectory
  | setMaxSize (maxSize : ℕ)

namespace Shrink

def run : Shrink → LiveTable δ → Except ShrinkFault (LiveTable δ)
  | .shrinkDirectory, s => s.shrinkDirectory
  | .setMaxSize maxSize, s => s.setMaxSize maxSize

/-- How much less deep the directory is afterwards. -/
def levels : Shrink → ExtendibleHashtable δ → ℕ
  | .shrinkDirectory, t => if t.globalDepth = t.minDepth then 0 else 1
  | .setMaxSize maxSize, t => t.globalDepth - Nat.log 2 maxSize

end Shrink

namespace LiveTable

variable {s s' s₀ : LiveTable δ}

theorem bucketAt_eq_ok {id : List Bool} {b : ℕ} :
    s.bucketAt id = .ok b ↔ s.table.buckets.find id = some b := by
  unfold bucketAt ExtendibleHashtable.bucketAt
  cases s.table.buckets.find id with
  | none => simp [Except.mapError]
  | some b' => simp [Except.mapError]

theorem getPairBucketId_of_ne {id : List Bool} (h : id ≠ []) :
    getPairBucketId id = .ok (ExtendibleHashtable.getPairBucketId id) := if_neg h

/-! ### Merging -/

theorem deletePage_eq_ok {p : Page δ} : s.deletePage p = .ok s' ↔ p.addr ∈ s.livePages ∧
    { s with
      table := { s.table with deleted := p :: s.table.deleted }
      livePages := s.livePages.erase p.addr } = s' := by
  unfold deletePage
  split_ifs with h
  · rw [Except.ok.injEq, and_iff_right h]
  · simp [h]

/-- Other pages and the directory stay as they are. -/
theorem foldlM_deletePage : ∀ (pages : List (Page δ)) (s s' : LiveTable δ),
    pages.foldlM deletePage s = .ok s' →
    (∃ deleted, s'.table = { s.table with deleted := deleted }) ∧
      s'.liveBuckets = s.liveBuckets ∧ s'.livePages ⊆ s.livePages ∧
      ∀ p ∈ pages, p.addr ∈ s.livePages ∧ p.addr ∉ s'.livePages := by
  intro pages
  induction pages with
  | nil =>
    intro s s' h
    cases h
    exact ⟨⟨_, rfl⟩, rfl, Finset.Subset.refl _, by simp⟩
  | cons p pages ih =>
    intro s s' h
    rw [List.foldlM_cons] at h
    obtain ⟨s₁, h₁, h₂⟩ := bind_eq_ok.mp h
    obtain ⟨hlive, rfl⟩ := deletePage_eq_ok.mp h₁
    obtain ⟨⟨deleted, ht⟩, hb, hsub, hp⟩ := ih _ _ h₂
    refine ⟨⟨deleted, ht⟩, hb, hsub.trans (Finset.erase_subset _ _), fun q hq => ?_⟩
    rcases List.mem_cons.mp hq with rfl | hq
    · exact ⟨hlive, fun hm => (Finset.mem_erase.mp (hsub hm)).1 rfl⟩
    · exact ⟨(Finset.mem_erase.mp (hp q hq).1).2, (hp q hq).2⟩

/-- The pages of a merged bucket lie in front of those of its pair. -/
theorem foldl_insertPage (b : ℕ) : ∀ (pages : List (Page δ)) (t : ExtendibleHashtable δ),
    pages.foldl (fun t page => t.modifyBucket b (·.insertPage page)) t =
      t.modifyBucket b fun x =>
        { x with pages := pages.reverse ++ x.pages, size := x.size + pages.length } := by
  intro pages
  induction pages with
  | nil =>
    intro t
    simp [ExtendibleHashtable.modifyBucket]
  | cons p pages ih =>
    intro t
    rw [List.foldl_cons, ih]
    simp only [ExtendibleHashtable.modifyBucket, Function.update_self, Function.update_idem,
      Bucket.insertPage, List.reverse_cons, List.append_assoc, List.singleton_append,
      List.length_cons]
    congr 3
    push_cast
    ring

/-- The table when the pages of bucket `b` have been put into bucket `n`. -/
def movePages (t : ExtendibleHashtable δ) (b n : ℕ) : ExtendibleHashtable δ :=
  t.modifyBucket n fun x => ⟨(t.heap b).pages.reverse ++ x.pages, x.localDepth - 1,
    x.size + (t.heap b).pages.length⟩

theorem movePages_eq (t : ExtendibleHashtable δ) (b n : ℕ) :
    ((t.heap b).pages.foldl (fun t page => t.modifyBucket n (·.insertPage page)) t).modifyBucket n
      Bucket.decrementLocalDepth = movePages t b n := by
  rw [foldl_insertPage]
  simp only [ExtendibleHashtable.modifyBucket, Function.update_self, Function.update_idem,
    movePages, Bucket.decrementLocalDepth]

theorem movePages_heap_self (t : ExtendibleHashtable δ) (b n : ℕ) :
    ((movePages t b n).heap n).pages = (t.heap b).pages.reverse ++ (t.heap n).pages := by
  simp only [movePages, ExtendibleHashtable.modifyBucket, Function.update_self]

theorem movePages_heap_of_ne (t : ExtendibleHashtable δ) (b : ℕ) {n i : ℕ} (h : i ≠ n) :
    (movePages t b n).heap i = t.heap i := Function.update_of_ne h ..

/-- A merge that took place: bucket `b` at `id` went into bucket `n`. -/
structure Merged (s s' : LiveTable δ) (id : List Bool) (b n : ℕ) : Prop where
  ne : b ≠ n
  globalDepth : s'.table.globalDepth = s.table.globalDepth
  minDepth : s'.table.minDepth = s.table.minDepth
  maxDepth : s'.table.maxDepth = s.table.maxDepth
  size : s'.table.size = s.table.size
  find : ∀ id', s'.table.buckets.find id' =
    if id = id' then some n else s.table.buckets.find id'
  moved : (s'.table.heap n).pages = (s.table.heap b).pages.reverse ++ (s.table.heap n).pages
  pages : ∀ i, i ≠ n → (s'.table.heap i).pages = (s.table.heap i).pages
  live : b ∈ s.liveBuckets
  liveBuckets : s'.liveBuckets = s.liveBuckets.erase b
  livePages : s'.livePages ⊆ s.livePages
  deleted : ∀ p ∈ (s.table.heap b).pages, p.addr ∈ s.livePages ∧ p.addr ∉ s'.livePages
  empty : (s.table.heap b).pages = [] → s'.livePages = s.livePages

theorem mergeBucket_cases {id : List Bool} {b n : ℕ} (hid : id ≠ [])
    (hb : s.table.buckets.find id = some b)
    (hn : s.table.buckets.find (ExtendibleHashtable.getPairBucketId id) = some n)
    (h : s.mergeBucket id = .ok s') : b = n ∧ s' = s ∨ Merged s s' id b n := by
  rw [mergeBucket, bucketAt_eq_ok.mpr hb, ok_bind, getPairBucketId_of_ne hid, ok_bind,
    bucketAt_eq_ok.mpr hn, ok_bind] at h
  split_ifs at h with he hl
  · cases h
    exact .inl ⟨he, rfl⟩
  · obtain ⟨s₁, h₁, h₂⟩ := bind_eq_ok.mp h
    rw [movePages_eq] at h₁
    obtain ⟨s₂, h₃, h₄⟩ := bind_eq_ok.mp h₁
    cases h₂
    cases h₄
    rw [show (({ s with table := movePages s.table b n } : LiveTable δ).table.heap b).pages =
      (s.table.heap b).pages from congrArg _ (movePages_heap_of_ne s.table b he)] at h₃
    obtain ⟨⟨deleted, ht⟩, hlb, hsub, hdel⟩ := foldlM_deletePage _ _ _ h₃
    refine .inr ⟨he, ?_, ?_, ?_, ?_, fun id' => ?_, ?_, fun i hi => ?_, hl.1, ?_, hsub, hdel,
      fun hnil => ?_⟩
    · simp only [ht]; rfl
    · simp only [ht]; rfl
    · simp only [ht]; rfl
    · simp only [ht]; rfl
    · simp only [ht]
      rw [OrdMap.find_set]
      split_ifs <;> rfl
    · simp only [ht]
      exact movePages_heap_self ..
    · simp only [ht]
      rw [movePages_heap_of_ne s.table b hi]
    · rw [← hlb]
    · rw [hnil] at h₃
      cases h₃
      rfl

/-- An empty bucket is merged. -/
theorem mergeBucket_of_empty {id : List Bool} {b n : ℕ} (hid : id ≠ [])
    (hb : s.table.buckets.find id = some b)
    (hn : s.table.buckets.find (ExtendibleHashtable.getPairBucketId id) = some n)
    (h : b ≠ n → b ∈ s.liveBuckets ∧ n ∈ s.liveBuckets ∧ (s.table.heap b).pages = []) :
    ∃ s', s.mergeBucket id = .ok s' := by
  rw [mergeBucket, bucketAt_eq_ok.mpr hb, ok_bind, getPairBucketId_of_ne hid, ok_bind,
    bucketAt_eq_ok.mpr hn, ok_bind]
  split_ifs with he hl
  · exact ⟨s, rfl⟩
  · have hnil := (h he).2.2
    simp only [movePages_eq]
    have hpages : ((movePages s.table b n).heap b).pages = [] := by
      rw [movePages_heap_of_ne s.table b he, hnil]
    simp only [deleteBucket, hpages, List.foldlM_nil, pure_eq_ok, ok_bind]
    exact ⟨_, rfl⟩
  · exact absurd ⟨(h he).1, (h he).2.1⟩ hl

/-! ### The walk over the directory -/

/-- The merges of the ids `done`, which are in order, have led from `s₀` to `s`. -/
structure Walked (s₀ s : LiveTable δ) (done : List (List Bool)) : Prop where
  globalDepth : s.table.globalDepth = s₀.table.globalDepth
  minDepth : s.table.minDepth = s₀.table.minDepth
  maxDepth : s.table.maxDepth = s₀.table.maxDepth
  size : s.table.size = s₀.table.size
  keys : ∀ id, (s.table.buckets.find id).isSome ↔ (s₀.table.buckets.find id).isSome
  high : ∀ x, s.table.buckets.find (true :: x) = s₀.table.buckets.find (true :: x)
  low : ∀ x, s.table.buckets.find (false :: x) =
    if false :: x ∈ done then s₀.table.buckets.find (true :: x)
    else s₀.table.buckets.find (false :: x)
  pages : ∀ i, ∀ p ∈ (s₀.table.heap i).pages, p ∈ (s.table.heap i).pages
  livePages : s.livePages ⊆ s₀.livePages
  liveBuckets : ∀ b, b ∈ s.liveBuckets ↔ b ∈ s₀.liveBuckets ∧ ∀ x, false :: x ∈ done →
    s₀.table.buckets.find (false :: x) = some b → s₀.table.buckets.find (true :: x) = some b
  gone : ∀ x b n, false :: x ∈ done → s₀.table.buckets.find (false :: x) = some b →
    s₀.table.buckets.find (true :: x) = some n → b ≠ n → b ∈ s₀.liveBuckets ∧
      ∀ p ∈ (s₀.table.heap b).pages,
        p.addr ∈ s₀.livePages ∧ p.addr ∉ s.livePages ∧ p ∈ (s.table.heap n).pages
  apart : ∀ x y b, false :: x ∈ done → false :: y ∈ done →
    s₀.table.buckets.find (false :: x) = some b → s₀.table.buckets.find (false :: y) = some b →
    s₀.table.buckets.find (true :: x) ≠ some b → s₀.table.buckets.find (true :: y) ≠ some b → x = y
  untouched : (∀ x b, false :: x ∈ done → s₀.table.buckets.find (false :: x) = some b →
      s₀.table.buckets.find (true :: x) ≠ some b → (s₀.table.heap b).pages = []) →
    (∀ i, (s.table.heap i).pages = (s₀.table.heap i).pages) ∧ s.livePages = s₀.livePages

theorem Walked.start (s : LiveTable δ) : Walked s s [] where
  globalDepth := rfl
  minDepth := rfl
  maxDepth := rfl
  size := rfl
  keys _ := Iff.rfl
  high _ := rfl
  low x := by rw [if_neg List.not_mem_nil]
  pages _ _ hp := hp
  livePages := Finset.Subset.refl _
  liveBuckets b := by simp
  gone _ _ _ hx := absurd hx List.not_mem_nil
  apart _ _ _ hx := absurd hx List.not_mem_nil
  untouched _ := ⟨fun _ => rfl, rfl⟩

variable {done : List (List Bool)}

/-- A pair that shares its bucket is left alone. -/
theorem Walked.skip (h : Walked s₀ s done) {id : List Bool}
    (hid : ∀ x, id = false :: x → s₀.table.buckets.find (false :: x) =
      s₀.table.buckets.find (true :: x)) : Walked s₀ s (id :: done) := by
  have hmem : ∀ x, false :: x ∈ id :: done →
      s₀.table.buckets.find (false :: x) ≠ s₀.table.buckets.find (true :: x) →
      false :: x ∈ done := by
    intro x hx hne
    rcases List.mem_cons.mp hx with hx | hx
    · exact absurd (hid x hx.symm) hne
    · exact hx
  refine ⟨h.globalDepth, h.minDepth, h.maxDepth, h.size, h.keys, h.high, fun x => ?_, h.pages,
    h.livePages, fun b => ?_, fun x b n hx hb hn hne => ?_,
    fun x y b hx hy hbx hby hnx hny => ?_, fun hempty => ?_⟩
  · rw [h.low]
    by_cases hx : false :: x = id
    · have hin : false :: x ∈ id :: done := hx ▸ List.mem_cons_self
      rw [if_pos hin]
      split_ifs
      · rfl
      · exact hid x hx.symm
    · simp only [List.mem_cons, hx, false_or]
  · rw [h.liveBuckets]
    refine and_congr_right fun _ => ⟨fun hl x hx hb => ?_, fun hl x hx => hl x ?_⟩
    · by_contra hn
      exact hn (hl x (hmem x hx fun he => hn (he ▸ hb)) hb)
    · exact List.mem_cons_of_mem id hx
  · exact h.gone x b n (hmem x hx fun he => hne (Option.some.inj (by rw [← hb, he, hn]))) hb hn hne
  · exact h.apart x y b (hmem x hx fun he => hnx (he ▸ hbx)) (hmem y hy fun he => hny (he ▸ hby))
      hbx hby hnx hny
  · exact h.untouched fun x b hx => hempty x b (List.mem_cons_of_mem id hx)

theorem Merged.pages_mono {id : List Bool} {b n : ℕ} (hm : Merged s s' id b n) (i : ℕ) :
    ∀ p ∈ (s.table.heap i).pages, p ∈ (s'.table.heap i).pages := by
  intro p hp
  by_cases hi : i = n
  · subst hi
    rw [hm.moved]
    exact List.mem_append_right _ hp
  · rw [hm.pages i hi]
    exact hp

section Merge

variable {rest : List Bool} {b n : ℕ} (h : Walked s₀ s done)
  (hb : s₀.table.buckets.find (false :: rest) = some b)
  (hn : s₀.table.buckets.find (true :: rest) = some n)
  (hm : Merged s s' (false :: rest) b n)

include hn hm in
theorem Merged.find_ne : s₀.table.buckets.find (true :: rest) ≠ some b := by
  rw [hn, ne_eq, Option.some.injEq]
  exact hm.ne.symm

include h hb hm

include hn in
theorem Walked.merge_liveBuckets (i : ℕ) : i ∈ s'.liveBuckets ↔ i ∈ s₀.liveBuckets ∧
    ∀ x, false :: x ∈ (false :: rest) :: done → s₀.table.buckets.find (false :: x) = some i →
      s₀.table.buckets.find (true :: x) = some i := by
  rw [hm.liveBuckets, Finset.mem_erase, h.liveBuckets]
  constructor
  · rintro ⟨hi, hl, hall⟩
    refine ⟨hl, fun x hx hix => ?_⟩
    rcases List.mem_cons.mp hx with hx | hx
    · cases hx
      exact absurd (Option.some.inj (hix.symm.trans hb)) hi
    · exact hall x hx hix
  · rintro ⟨hl, hall⟩
    refine ⟨?_, hl, fun x hx => hall x (List.mem_cons_of_mem _ hx)⟩
    rintro rfl
    exact hm.find_ne hn (hall rest List.mem_cons_self hb)

include hn in
theorem Walked.merge_gone {x : List Bool} {i m : ℕ} (hx : false :: x ∈ (false :: rest) :: done)
    (hi : s₀.table.buckets.find (false :: x) = some i)
    (hmx : s₀.table.buckets.find (true :: x) = some m) (hne : i ≠ m) :
    i ∈ s₀.liveBuckets ∧ ∀ p ∈ (s₀.table.heap i).pages,
      p.addr ∈ s₀.livePages ∧ p.addr ∉ s'.livePages ∧ p ∈ (s'.table.heap m).pages := by
  rcases List.mem_cons.mp hx with hx | hx
  · cases hx
    obtain rfl := Option.some.inj (hi.symm.trans hb)
    obtain rfl := Option.some.inj (hmx.symm.trans hn)
    refine ⟨((h.liveBuckets i).mp hm.live).1, fun p hp => ?_⟩
    have hp' := h.pages i p hp
    obtain ⟨h₁, h₂⟩ := hm.deleted p hp'
    refine ⟨h.livePages h₁, h₂, ?_⟩
    rw [hm.moved]
    exact List.mem_append_left _ (List.mem_reverse.mpr hp')
  · obtain ⟨h₁, h₂⟩ := h.gone x i m hx hi hmx hne
    refine ⟨h₁, fun p hp => ?_⟩
    obtain ⟨h₃, h₄, h₅⟩ := h₂ p hp
    exact ⟨h₃, fun hc => h₄ (hm.livePages hc), hm.pages_mono m p h₅⟩

/-- A bucket that was merged before is not live any more. -/
theorem Walked.merge_apart {x y : List Bool} {i : ℕ}
    (hx : false :: x ∈ (false :: rest) :: done) (hy : false :: y ∈ (false :: rest) :: done)
    (hix : s₀.table.buckets.find (false :: x) = some i)
    (hiy : s₀.table.buckets.find (false :: y) = some i)
    (hnx : s₀.table.buckets.find (true :: x) ≠ some i)
    (hny : s₀.table.buckets.find (true :: y) ≠ some i) : x = y := by
  have hlive := (h.liveBuckets b).mp hm.live
  rcases List.mem_cons.mp hx with hx | hx <;> rcases List.mem_cons.mp hy with hy | hy
  · cases hx
    cases hy
    rfl
  · cases hx
    obtain rfl := Option.some.inj (hix.symm.trans hb)
    exact absurd (hlive.2 y hy hiy) hny
  · cases hy
    obtain rfl := Option.some.inj (hiy.symm.trans hb)
    exact absurd (hlive.2 x hx hix) hnx
  · exact h.apart x y i hx hy hix hiy hnx hny

include hn in
theorem Walked.merge_untouched
    (hempty : ∀ x i, false :: x ∈ (false :: rest) :: done →
      s₀.table.buckets.find (false :: x) = some i →
      s₀.table.buckets.find (true :: x) ≠ some i → (s₀.table.heap i).pages = []) :
    (∀ i, (s'.table.heap i).pages = (s₀.table.heap i).pages) ∧ s'.livePages = s₀.livePages := by
  obtain ⟨h₁, h₂⟩ := h.untouched fun x i hx => hempty x i (List.mem_cons_of_mem _ hx)
  have hnil : (s.table.heap b).pages = [] := by
    rw [h₁]
    exact hempty rest b List.mem_cons_self hb (hm.find_ne hn)
  refine ⟨fun i => ?_, (hm.empty hnil).trans h₂⟩
  by_cases hi : i = n
  · subst hi
    rw [hm.moved, hnil, List.reverse_nil, List.nil_append, h₁]
  · rw [hm.pages i hi, h₁]

include hn in
/-- A merge at the next id, which starts with a zero. -/
theorem Walked.merge : Walked s₀ s' ((false :: rest) :: done) where
  globalDepth := hm.globalDepth.trans h.globalDepth
  minDepth := hm.minDepth.trans h.minDepth
  maxDepth := hm.maxDepth.trans h.maxDepth
  size := hm.size.trans h.size
  keys id := by
    rw [hm.find]
    split_ifs with he
    · rw [← he, hb]
      rfl
    · exact h.keys id
  high x := by rw [hm.find, if_neg (by simp), h.high]
  low x := by
    rw [hm.find, h.low]
    by_cases hx : rest = x
    · subst hx
      rw [if_pos rfl, if_pos List.mem_cons_self, hn]
    · have hne : false :: rest ≠ false :: x := by simpa using hx
      rw [if_neg hne]
      simp only [List.mem_cons, hne.symm, false_or]
  pages i p hp := hm.pages_mono i p (h.pages i p hp)
  livePages := hm.livePages.trans h.livePages
  liveBuckets := h.merge_liveBuckets hb hn hm
  gone _ _ _ := h.merge_gone hb hn hm
  apart _ _ _ := h.merge_apart hb hm
  untouched := h.merge_untouched hb hn hm

end Merge

/-- What the walk finds at its next id: the bucket of a pair that was merged already, or
the buckets that the pair had at first. -/
theorem Walked.next (h : Walked s₀ s done) {g : ℕ}
    (hkeys : ∀ id, (s₀.table.buckets.find id).isSome ↔ id.length = g + 1) {id : List Bool}
    (hnot : id ∉ done) (hlen : id.length = g + 1)
    (hone : ∀ x, id = true :: x → false :: x ∈ done) :
    ∃ b n, s.table.buckets.find id = some b ∧
      s.table.buckets.find (ExtendibleHashtable.getPairBucketId id) = some n ∧
      ((b = n ∧ ∀ x, id ≠ false :: x) ∨ ∃ rest, id = false :: rest ∧
        s₀.table.buckets.find (false :: rest) = some b ∧
          s₀.table.buckets.find (true :: rest) = some n) := by
  obtain ⟨c, rest, rfl⟩ := List.exists_cons_of_length_eq_add_one hlen
  have hsome : ∀ c, ∃ b, s₀.table.buckets.find (c :: rest) = some b := fun c =>
    Option.isSome_iff_exists.mp ((hkeys _).mpr (by simpa using hlen))
  obtain ⟨b, hb⟩ := hsome false
  obtain ⟨n, hn⟩ := hsome true
  have hhigh : s.table.buckets.find (true :: rest) = some n := (h.high rest).trans hn
  cases c with
  | true =>
    have hlow : s.table.buckets.find (false :: rest) = some n := by
      rw [h.low, if_pos (hone rest rfl), hn]
    exact ⟨n, n, hhigh, hlow, .inl ⟨rfl, fun x hx => by cases hx⟩⟩
  | false =>
    have hlow : s.table.buckets.find (false :: rest) = some b := by
      rw [h.low, if_neg hnot, hb]
    exact ⟨b, n, hlow, hhigh, .inr ⟨rest, rfl, hb, hn⟩⟩

theorem Walked.step (h : Walked s₀ s done) {g : ℕ}
    (hkeys : ∀ id, (s₀.table.buckets.find id).isSome ↔ id.length = g + 1) {id : List Bool}
    (hnot : id ∉ done) (hlen : id.length = g + 1) (hone : ∀ x, id = true :: x → false :: x ∈ done)
    (hs : s.mergeBucket id = .ok s') : Walked s₀ s' (id :: done) := by
  have hne : id ≠ [] := List.ne_nil_of_length_eq_add_one hlen
  obtain ⟨b, n, hb, hn, ⟨rfl, hid⟩ | ⟨rest, rfl, hb', hn'⟩⟩ := h.next hkeys hnot hlen hone
  · rcases mergeBucket_cases hne hb hn hs with ⟨-, rfl⟩ | hm
    · exact h.skip fun x hx => absurd hx (hid x)
    · exact absurd rfl hm.ne
  · rcases mergeBucket_cases hne hb hn hs with ⟨rfl, rfl⟩ | hm
    · refine h.skip fun x hx => ?_
      cases hx
      rw [hb', hn']
    · exact h.merge hb' hn' hm

/-- The merge at the next id does not fail when the bucket at a zero entry that is merged
is empty and has no other entry. -/
theorem Walked.progress (h : Walked s₀ s done) {g : ℕ}
    (hkeys : ∀ id, (s₀.table.buckets.find id).isSome ↔ id.length = g + 1)
    (hlive : ∀ id b, s₀.table.buckets.find id = some b → b ∈ s₀.liveBuckets)
    (hempty : ∀ x b, s₀.table.buckets.find (false :: x) = some b →
      s₀.table.buckets.find (true :: x) ≠ some b → (s₀.table.heap b).pages = [] ∧
        ∀ id, s₀.table.buckets.find id = some b → id = false :: x) {id : List Bool}
    (hnot : id ∉ done) (hlen : id.length = g + 1)
    (hone : ∀ x, id = true :: x → false :: x ∈ done) :
    ∃ s', s.mergeBucket id = .ok s' := by
  have hid : id ≠ [] := List.ne_nil_of_length_eq_add_one hlen
  obtain ⟨b, n, hb, hn, ⟨rfl, -⟩ | ⟨rest, rfl, hb', hn'⟩⟩ := h.next hkeys hnot hlen hone
  · exact mergeBucket_of_empty hid hb hn fun hne => absurd rfl hne
  · refine mergeBucket_of_empty hid hb hn fun hne => ?_
    have hnb : s₀.table.buckets.find (true :: rest) ≠ some b := by
      rw [hn', ne_eq, Option.some.injEq]
      exact hne.symm
    obtain ⟨hnil, honly⟩ := hempty rest b hb' hnb
    refine ⟨(h.liveBuckets b).mpr ⟨hlive _ b hb', fun x hx hxb => ?_⟩,
      (h.liveBuckets n).mpr ⟨hlive _ n hn', fun x hx hxn => ?_⟩, ?_⟩
    · exact absurd (honly _ hxb ▸ hx) hnot
    · -- a bucket that was merged has no entry that starts with a one
      by_contra hxn'
      exact absurd ((hempty x n hxn hxn').2 _ hn') (by simp)
    · rw [(h.untouched fun x i hx hi hni => (hempty x i hi hni).1).1, hnil]

theorem false_cons_lt_true_cons (x y : List Bool) : false :: x < true :: y :=
  List.Lex.rel (by decide)

section Walk

variable {g : ℕ} {keys todo : List (List Bool)}

/-- Where the walk stands, the zero entries of the pairs were merged. -/
theorem next_of_sorted {id : List Bool} (hs : keys.Pairwise (· < ·))
    (hk : ∀ id, id ∈ keys ↔ id.length = g + 1) (he : keys = done.reverse ++ id :: todo) :
    id ∉ done ∧ id.length = g + 1 ∧ ∀ x, id = true :: x → false :: x ∈ done := by
  rw [he, List.pairwise_append, List.pairwise_cons] at hs
  obtain ⟨-, ⟨hafter, -⟩, hbefore⟩ := hs
  have hlen := (hk id).mp (by rw [he]; simp)
  refine ⟨fun hm => ?_, hlen, fun x hx => ?_⟩
  · exact lt_irrefl _ (hbefore id (List.mem_reverse.mpr hm) id List.mem_cons_self)
  · have hmem : false :: x ∈ keys := (hk _).mpr (by rw [hx] at hlen; simpa using hlen)
    rw [he, List.mem_append, List.mem_reverse, List.mem_cons] at hmem
    rcases hmem with hm | hm | hm
    · exact hm
    · rw [hx] at hm
      cases hm
    · have hlt := hafter _ hm
      rw [hx] at hlt
      exact absurd hlt (false_cons_lt_true_cons x x).not_gt

theorem Walked.run (hs : keys.Pairwise (· < ·)) (hk : ∀ id, id ∈ keys ↔ id.length = g + 1)
    (hkeys : ∀ id, (s₀.table.buckets.find id).isSome ↔ id.length = g + 1) :
    ∀ {todo done : List (List Bool)} {s : LiveTable δ}, keys = done.reverse ++ todo →
      Walked s₀ s done → todo.foldlM mergeBucket s = .ok s' → Walked s₀ s' keys.reverse := by
  intro todo
  induction todo with
  | nil =>
    intro done s he hw h
    cases h
    rw [he, List.append_nil, List.reverse_reverse]
    exact hw
  | cons id todo ih =>
    intro done s he hw h
    rw [List.foldlM_cons] at h
    obtain ⟨s₁, h₁, h₂⟩ := bind_eq_ok.mp h
    obtain ⟨hnot, hlen, hone⟩ := next_of_sorted hs hk he
    exact ih (by rw [he]; simp) (hw.step hkeys hnot hlen hone h₁) h₂

theorem Walked.run_progress (hs : keys.Pairwise (· < ·))
    (hk : ∀ id, id ∈ keys ↔ id.length = g + 1)
    (hkeys : ∀ id, (s₀.table.buckets.find id).isSome ↔ id.length = g + 1)
    (hlive : ∀ id b, s₀.table.buckets.find id = some b → b ∈ s₀.liveBuckets)
    (hempty : ∀ x b, s₀.table.buckets.find (false :: x) = some b →
      s₀.table.buckets.find (true :: x) ≠ some b → (s₀.table.heap b).pages = [] ∧
        ∀ id, s₀.table.buckets.find id = some b → id = false :: x) :
    ∀ {todo done : List (List Bool)} {s : LiveTable δ}, keys = done.reverse ++ todo →
      Walked s₀ s done → ∃ s', todo.foldlM mergeBucket s = .ok s' := by
  intro todo
  induction todo with
  | nil => intro done s _ _; exact ⟨s, rfl⟩
  | cons id todo ih =>
    intro done s he hw
    obtain ⟨hnot, hlen, hone⟩ := next_of_sorted hs hk he
    obtain ⟨s₁, h₁⟩ := hw.progress hkeys hlive hempty hnot hlen hone
    obtain ⟨s', h'⟩ := ih (by rw [he]; simp) (hw.step hkeys hnot hlen hone h₁)
    exact ⟨s', by rw [List.foldlM_cons, h₁, ok_bind, h']⟩

end Walk

/-! ### The final renaming -/

section Rename

variable {g : ℕ} {l : List (List Bool × ℕ)} {m : OrdMap (List Bool) ℕ} {id : List Bool}

def rename (m : OrdMap (List Bool) ℕ) (x : List Bool × ℕ) : OrdMap (List Bool) ℕ :=
  (m.set x.1.tail x.2).erase x.1

theorem find_rename_of_ne (h : ∀ x ∈ l, x.1.tail ≠ id ∧ x.1 ≠ id) :
    (l.foldl rename m).find id = m.find id := by
  induction l generalizing m with
  | nil => rfl
  | cons x l ih =>
    obtain ⟨h₁, h₂⟩ := h x List.mem_cons_self
    rw [List.foldl_cons, ih fun y hy => h y (List.mem_cons_of_mem x hy), rename, OrdMap.find_erase,
      if_neg h₂, OrdMap.find_set_of_ne _ _ h₁]

theorem find_rename_old (hl : ∀ x ∈ l, x.1.length = g + 1) (hid : id.length = g + 1)
    (h : m.find id = none ∨ id ∈ l.map Prod.fst) : (l.foldl rename m).find id = none := by
  induction l generalizing m with
  | nil => simpa using h
  | cons x l ih =>
    have hx := hl x List.mem_cons_self
    rw [List.foldl_cons]
    refine ih (fun y hy => hl y (List.mem_cons_of_mem x hy)) ?_
    have hne : x.1.tail ≠ id := by
      rintro rfl
      rw [List.length_tail] at hid
      omega
    rw [rename, OrdMap.find_erase, OrdMap.find_set_of_ne _ _ hne]
    by_cases he : x.1 = id
    · exact .inl (if_pos he)
    · rw [if_neg he]
      rw [List.map_cons, List.mem_cons] at h
      rcases h with h | h | h
      · exact .inl h
      · exact absurd h.symm he
      · exact .inr h

/-- The entry with a one in front is the last to be written. -/
theorem find_rename_new (hs : SortedBy Prod.fst l) (hl : ∀ x ∈ l, x.1.length = g + 1)
    (hid : id.length = g) {b : ℕ} (h : (true :: id, b) ∈ l) :
    (l.foldl rename m).find id = some b := by
  induction l generalizing m with
  | nil => cases h
  | cons x l ih =>
    rw [sortedBy_cons] at hs
    rw [List.foldl_cons]
    rcases List.mem_cons.mp h with rfl | h
    · have hlt : ∀ y ∈ l, true :: id < y.1 := hs.1
      rw [find_rename_of_ne fun y hy => ?_]
      · rw [rename, OrdMap.find_erase, if_neg (List.cons_ne_self true id), List.tail_cons,
          OrdMap.find_set_self]
      · have hlen := hl y (List.mem_cons_of_mem _ hy)
        refine ⟨fun he => ?_, fun he => ?_⟩
        · obtain ⟨c, rest, hc⟩ := List.exists_cons_of_length_eq_add_one hlen
          have hlt := hlt y hy
          rw [hc, List.tail_cons] at he
          rw [hc, he] at hlt
          cases c with
          | true => exact lt_irrefl _ hlt
          | false => exact absurd hlt (false_cons_lt_true_cons id id).not_gt
        · rw [he] at hlen
          omega
    · exact ih hs.2 (fun y hy => hl y (List.mem_cons_of_mem x hy)) h

end Rename

/-! ### One shrink -/

/-- What a shrink that took place did: an id `id` leads where `true :: id` led. -/
structure Halved (s₀ s : LiveTable δ) : Prop where
  globalDepth : s.table.globalDepth + 1 = s₀.table.globalDepth
  minDepth : s.table.minDepth = s₀.table.minDepth
  maxDepth : s.table.maxDepth = s₀.table.maxDepth
  size : s.table.size = s₀.table.size
  find : ∀ id, s.table.buckets.find id =
    if id.length = s.table.globalDepth then s₀.table.buckets.find (true :: id) else none
  pages : ∀ i, ∀ p ∈ (s₀.table.heap i).pages, p ∈ (s.table.heap i).pages
  livePages : s.livePages ⊆ s₀.livePages
  liveBuckets : ∀ b, b ∈ s.liveBuckets ↔ b ∈ s₀.liveBuckets ∧ ∀ x,
    s₀.table.buckets.find (false :: x) = some b → s₀.table.buckets.find (true :: x) = some b
  gone : ∀ x b n, s₀.table.buckets.find (false :: x) = some b →
    s₀.table.buckets.find (true :: x) = some n → b ≠ n → b ∈ s₀.liveBuckets ∧
      ∀ p ∈ (s₀.table.heap b).pages,
        p.addr ∈ s₀.livePages ∧ p.addr ∉ s.livePages ∧ p ∈ (s.table.heap n).pages
  apart : ∀ x y b, s₀.table.buckets.find (false :: x) = some b →
    s₀.table.buckets.find (false :: y) = some b →
    s₀.table.buckets.find (true :: x) ≠ some b → s₀.table.buckets.find (true :: y) ≠ some b → x = y
  untouched : (∀ x b, s₀.table.buckets.find (false :: x) = some b →
      s₀.table.buckets.find (true :: x) ≠ some b → (s₀.table.heap b).pages = []) →
    (∀ i, (s.table.heap i).pages = (s₀.table.heap i).pages) ∧ s.livePages = s₀.livePages

section Halve

variable {g : ℕ} (hkeys : ∀ id, (s₀.table.buckets.find id).isSome ↔ id.length = g + 1)

include hkeys

theorem mem_keys_of_keys (id : List Bool) : id ∈ s₀.table.buckets.keys ↔ id.length = g + 1 :=
  OrdMap.mem_keys.trans (hkeys id)

theorem shrinkDirectory_halved (hg : s₀.table.globalDepth = g + 1)
    (hmin : s₀.table.globalDepth ≠ s₀.table.minDepth) (h : s₀.shrinkDirectory = .ok s') :
    Halved s₀ s' := by
  rw [shrinkDirectory, if_neg hmin] at h
  obtain ⟨s, hs, he⟩ := bind_eq_ok.mp h
  cases he
  have hfold : s₀.table.buckets.keys.foldlM mergeBucket s₀ = .ok s := by
    rw [← hs, OrdMap.keys, List.foldlM_map]
  have hw := (Walked.start s₀).run s₀.table.buckets.keys_sorted (mem_keys_of_keys hkeys) hkeys
    rfl hfold
  have hdone : ∀ x b, s₀.table.buckets.find (false :: x) = some b →
      false :: x ∈ s₀.table.buckets.keys.reverse := by
    intro x b hb
    rw [List.mem_reverse, OrdMap.mem_keys, hb]
    rfl
  have hlen : ∀ x ∈ s₀.table.buckets.toList, x.1.length = g + 1 := fun x hx =>
    (mem_keys_of_keys hkeys x.1).mp (List.mem_map_of_mem hx)
  have hdepth : s.table.globalDepth - 1 = g := by
    rw [hw.globalDepth, hg, Nat.add_sub_cancel]
  refine ⟨?_, hw.minDepth, hw.maxDepth, hw.size, fun id => ?_, hw.pages, hw.livePages,
    fun b => (hw.liveBuckets b).trans ⟨fun hl => ?_, fun hl => ?_⟩,
    fun x b n hb => hw.gone x b n (hdone x b hb) hb,
    fun x y b hx hy => hw.apart x y b (hdone x b hx) (hdone y b hy) hx hy,
    fun hempty => hw.untouched fun x b _ => hempty x b⟩
  · simp only [hdepth, hg]
  · change (s₀.table.buckets.toList.foldl rename s.table.buckets).find id =
      if id.length = s.table.globalDepth - 1 then _ else _
    rw [hdepth]
    split_ifs with hid
    · obtain ⟨b, hb⟩ := Option.isSome_iff_exists.mp
        ((hkeys (true :: id)).mpr (by rw [List.length_cons, hid]))
      rw [hb]
      exact find_rename_new s₀.table.buckets.sorted hlen hid (OrdMap.find_eq_some.mp hb)
    · by_cases hid' : id.length = g + 1
      · exact find_rename_old hlen hid' (.inr ((mem_keys_of_keys hkeys id).mpr hid'))
      · rw [find_rename_of_ne fun x hx => ⟨?_, ?_⟩]
        · rw [← Option.not_isSome_iff_eq_none, hw.keys, hkeys]
          exact hid'
        · rintro rfl
          rw [List.length_tail, hlen x hx] at hid
          exact hid rfl
        · rintro rfl
          exact hid' (hlen x hx)
  · exact ⟨hl.1, fun x hx => hl.2 x (hdone x b hx) hx⟩
  · exact ⟨hl.1, fun x _ hx => hl.2 x hx⟩

theorem shrinkDirectory_of_empty (hmin : s₀.table.globalDepth ≠ s₀.table.minDepth)
    (hlive : ∀ id b, s₀.table.buckets.find id = some b → b ∈ s₀.liveBuckets)
    (hempty : ∀ x b, s₀.table.buckets.find (false :: x) = some b →
      s₀.table.buckets.find (true :: x) ≠ some b → (s₀.table.heap b).pages = [] ∧
        ∀ id, s₀.table.buckets.find id = some b → id = false :: x) :
    ∃ s', s₀.shrinkDirectory = .ok s' := by
  obtain ⟨s, hs⟩ : ∃ s, s₀.table.buckets.keys.foldlM mergeBucket s₀ = .ok s :=
    (Walked.start s₀).run_progress s₀.table.buckets.keys_sorted (mem_keys_of_keys hkeys) hkeys
      hlive hempty rfl
  rw [OrdMap.keys, List.foldlM_map] at hs
  simp only [shrinkDirectory, if_neg hmin, hs, ok_bind]
  exact ⟨_, rfl⟩

end Halve

end LiveTable

end MiniKvs
