import MiniKvs.Pool.Hashtable

/-! The extendible hash table as a map from page ids to pages. Directory entries
may share a bucket in any way; what counts is that every page lies in the bucket
its id is sent to. A split moves pages only within the bucket it clears, and the
local depth it raises bounds how deep splits nest. -/

namespace MiniKvs.ExtendibleHashtable

open Lib

variable {δ : Type} (xxh64 : String → UInt64)

/-- The pages of all buckets. -/
def stored (t : ExtendibleHashtable δ) : List (Page δ) :=
  (List.range t.allocated).flatMap fun b => (t.heap b).pages

structure Sound (t : ExtendibleHashtable δ) : Prop where
  depth : t.globalDepth ≤ t.maxDepth
  maxDepth : t.maxDepth < 32
  keys : ∀ id, (t.buckets.find id).isSome ↔ id.length = t.globalDepth
  alloc : ∀ id b, t.buckets.find id = some b → b < t.allocated
  placed : ∀ b, ∀ p ∈ (t.heap b).pages,
    t.buckets.find (t.hashFunction xxh64 p.pageId) = some b
  ids : ∀ b, ((t.heap b).pages.map Page.pageId).Nodup
  bucketSize : ∀ b, (t.heap b).size = (t.heap b).pages.length
  localDepth : ∀ b, 0 ≤ (t.heap b).localDepth
  size : t.size = t.stored.length

/-- The directory is complete, and every page lies in the bucket of its id. -/
structure Routed (t : ExtendibleHashtable δ) : Prop where
  depth : t.globalDepth ≤ t.maxDepth
  maxDepth : t.maxDepth < 32
  keys : ∀ id, (t.buckets.find id).isSome ↔ id.length = t.globalDepth
  alloc : ∀ id b, t.buckets.find id = some b → b < t.allocated
  placed : ∀ b, ∀ p ∈ (t.heap b).pages,
    t.buckets.find (t.hashFunction xxh64 p.pageId) = some b
  localDepth : ∀ b, 0 ≤ (t.heap b).localDepth

/-- The local depth of the bucket at a directory entry. -/
def depthAt (t : ExtendibleHashtable δ) (id : List Bool) : ℤ :=
  match t.buckets.find id with
  | none => 0
  | some b => (t.heap b).localDepth

/-- `t'` is `t` with the pages `added`; splits only raised local depths. -/
structure Grows (t t' : ExtendibleHashtable δ) (added : List (Page δ)) : Prop where
  sound : Sound xxh64 t'
  stored : t'.stored.Perm (added ++ t.stored)
  globalDepth : t'.globalDepth = t.globalDepth
  minDepth : t'.minDepth = t.minDepth
  maxDepth : t'.maxDepth = t.maxDepth
  deleted : t'.deleted = t.deleted
  deeper : ∀ id, t.depthAt id ≤ t'.depthAt id

variable {xxh64} {t t' t'' : ExtendibleHashtable δ}

theorem length_hashFunction (h : t.globalDepth ≤ 32) (pageId : String) :
    (t.hashFunction xxh64 pageId).length = t.globalDepth :=
  Utils.length_getBinaryFromInt _ h

theorem mem_stored {p : Page δ} :
    p ∈ t.stored ↔ ∃ b < t.allocated, p ∈ (t.heap b).pages := by
  simp [stored]

namespace Routed

theorem depth_le (h : Routed xxh64 t) : t.globalDepth ≤ 32 := by
  have := h.depth; have := h.maxDepth; omega

theorem bucketAt_hash (h : Routed xxh64 t) (pageId : String) :
    ∃ b, t.buckets.find (t.hashFunction xxh64 pageId) = some b ∧ b < t.allocated := by
  have hs := (h.keys (t.hashFunction xxh64 pageId)).mpr (length_hashFunction h.depth_le pageId)
  obtain ⟨b, hb⟩ := Option.isSome_iff_exists.mp hs
  exact ⟨b, hb, h.alloc _ b hb⟩

/-- A bucket that is not as deep as the directory is split into the pair of one id. -/
theorem exists_cons (h : Routed xxh64 t) {id : List Bool} {b : ℕ}
    (hb : t.buckets.find id = some b) (hdepth : (t.heap b).localDepth < t.globalDepth) :
    ∃ c rest, id = c :: rest := by
  apply List.exists_cons_of_ne_nil
  rintro rfl
  have hl : ([] : List Bool).length = t.globalDepth := (h.keys _).mp (by simp [hb])
  have := h.localDepth b
  rw [List.length_nil] at hl
  omega

end Routed

namespace Sound

theorem routed (h : Sound xxh64 t) : Routed xxh64 t :=
  ⟨h.depth, h.maxDepth, h.keys, h.alloc, h.placed, h.localDepth⟩

theorem depth_le (h : Sound xxh64 t) : t.globalDepth ≤ 32 := h.routed.depth_le

theorem bucketAt_hash (h : Sound xxh64 t) (pageId : String) :
    ∃ b, t.buckets.find (t.hashFunction xxh64 pageId) = some b ∧ b < t.allocated :=
  h.routed.bucketAt_hash pageId

theorem mem_stored (h : Sound xxh64 t) {p : Page δ} :
    p ∈ t.stored ↔ ∃ b, p ∈ (t.heap b).pages := by
  rw [ExtendibleHashtable.mem_stored]
  constructor
  · rintro ⟨b, -, hp⟩; exact ⟨b, hp⟩
  · rintro ⟨b, hp⟩; exact ⟨b, h.alloc _ b (h.placed b p hp), hp⟩

/-- A page lies in the bucket of its id. -/
theorem mem_stored_iff (h : Sound xxh64 t) {p : Page δ} {b : ℕ}
    (hb : t.buckets.find (t.hashFunction xxh64 p.pageId) = some b) :
    p ∈ t.stored ↔ p ∈ (t.heap b).pages := by
  rw [h.mem_stored]
  constructor
  · rintro ⟨b', hp⟩
    have := h.placed b' p hp
    rw [hb, Option.some.injEq] at this
    exact this ▸ hp
  · intro hp; exact ⟨b, hp⟩

theorem stored_ids_nodup (h : Sound xxh64 t) : (t.stored.map Page.pageId).Nodup := by
  rw [stored, List.map_flatMap, List.nodup_flatMap]
  refine ⟨fun b _ => h.ids b, ?_⟩
  refine (List.nodup_range (n := t.allocated)).imp fun {b b'} hne => ?_
  intro x hx hx'
  obtain ⟨p, hp, rfl⟩ := List.mem_map.mp hx
  obtain ⟨p', hp', he⟩ := List.mem_map.mp hx'
  have h1 := h.placed b p hp
  have h2 := h.placed b' p' hp'
  rw [he, h1, Option.some.injEq] at h2
  exact hne h2

theorem getPage_eq_some (h : Sound xxh64 t) {pageId : String} {p : Page δ} :
    t.getPage xxh64 pageId = some p ↔ p ∈ t.stored ∧ p.pageId = pageId := by
  obtain ⟨b, hb, -⟩ := h.bucketAt_hash pageId
  simp only [getPage, hb, Bucket.getPage]
  constructor
  · intro hf
    have hm := List.mem_of_find?_eq_some hf
    exact ⟨h.mem_stored.mpr ⟨b, hm⟩, by simpa using List.find?_some hf⟩
  · rintro ⟨hm, rfl⟩
    have hp := (h.mem_stored_iff hb).mp hm
    obtain ⟨q, hq⟩ : ∃ q, (t.heap b).pages.find? (fun page => page.pageId = p.pageId) = some q := by
      rw [← Option.isSome_iff_exists, List.find?_isSome]
      exact ⟨p, hp, by simp⟩
    have hqm := List.mem_of_find?_eq_some hq
    have hqi : q.pageId = p.pageId := by simpa using List.find?_some hq
    rw [hq, List.inj_on_of_nodup_map (h.ids b) hqm hp hqi]

theorem getPage_eq_none (h : Sound xxh64 t) {pageId : String} :
    t.getPage xxh64 pageId = none ↔ ∀ p ∈ t.stored, p.pageId ≠ pageId := by
  rw [Option.eq_none_iff_forall_ne_some]
  constructor
  · intro hn p hp he; exact hn p (h.getPage_eq_some.mpr ⟨hp, he⟩)
  · intro hn p hp
    obtain ⟨hm, he⟩ := h.getPage_eq_some.mp hp
    exact hn p hm he

end Sound

/-! ### One bucket changes -/

/-- The pages of all buckets but `b`. -/
def others (t : ExtendibleHashtable δ) (b : ℕ) : List (Page δ) :=
  ((List.range t.allocated).erase b).flatMap fun i => (t.heap i).pages

theorem stored_perm {b : ℕ} (hb : b < t.allocated) :
    t.stored.Perm ((t.heap b).pages ++ t.others b) := by
  have hp := List.perm_cons_erase (List.mem_range.mpr hb)
  exact (hp.flatMap_right fun i => (t.heap i).pages).trans (List.Perm.of_eq (by simp [others]))

theorem others_congr {b : ℕ} (ha : t'.allocated = t.allocated)
    (hp : ∀ i, i ≠ b → (t'.heap i).pages = (t.heap i).pages) : t'.others b = t.others b := by
  rw [others, others, ha]
  refine List.flatMap_congr fun i hi => hp i ?_
  rintro rfl
  exact (List.nodup_range.not_mem_erase) hi

/-- Bucket `b` becomes `x`. -/
def setBucket (t : ExtendibleHashtable δ) (b : ℕ) (x : Bucket δ) (size : ℤ)
    (deleted : List (Page δ)) : ExtendibleHashtable δ :=
  { t with heap := Function.update t.heap b x, size := size, deleted := deleted }

section SetBucket

variable {b : ℕ} {x : Bucket δ} {size : ℤ} {deleted : List (Page δ)}

theorem setBucket_heap_self : (t.setBucket b x size deleted).heap b = x := Function.update_self ..

theorem setBucket_heap_of_ne {i : ℕ} (hi : i ≠ b) :
    (t.setBucket b x size deleted).heap i = t.heap i := Function.update_of_ne hi ..

theorem setBucket_stored (hb : b < t.allocated) :
    (t.setBucket b x size deleted).stored.Perm (x.pages ++ t.others b) := by
  have hp := stored_perm (t := t.setBucket b x size deleted) hb
  have ho : (t.setBucket b x size deleted).others b = t.others b := others_congr rfl fun i hi => by
    rw [setBucket_heap_of_ne hi]
  rwa [setBucket_heap_self, ho] at hp

theorem Routed.setBucket (h : Routed xxh64 t)
    (hplaced : ∀ p ∈ x.pages, t.buckets.find (t.hashFunction xxh64 p.pageId) = some b)
    (hdepth : 0 ≤ x.localDepth) : Routed xxh64 (t.setBucket b x size deleted) := by
  refine ⟨h.depth, h.maxDepth, h.keys, h.alloc, fun i p hp => ?_, fun i => ?_⟩ <;>
    by_cases hi : i = b
  · subst hi
    rw [setBucket_heap_self] at hp
    exact hplaced p hp
  · rw [setBucket_heap_of_ne hi] at hp
    exact h.placed i p hp
  · rw [hi, setBucket_heap_self]
    exact hdepth
  · rw [setBucket_heap_of_ne hi]
    exact h.localDepth i

theorem Sound.setBucket (h : Sound xxh64 t)
    (hplaced : ∀ p ∈ x.pages, t.buckets.find (t.hashFunction xxh64 p.pageId) = some b)
    (hids : (x.pages.map Page.pageId).Nodup) (hx : x.size = x.pages.length)
    (hdepth : 0 ≤ x.localDepth) (hsize : size = (t.setBucket b x size deleted).stored.length) :
    Sound xxh64 (t.setBucket b x size deleted) := by
  have hr : Routed xxh64 (t.setBucket b x size deleted) := h.routed.setBucket hplaced hdepth
  refine ⟨hr.depth, hr.maxDepth, hr.keys, hr.alloc, hr.placed, fun i => ?_, fun i => ?_,
    hr.localDepth, hsize⟩ <;> by_cases hi : i = b
  · rw [hi, setBucket_heap_self]
    exact hids
  · rw [setBucket_heap_of_ne hi]
    exact h.ids i
  · rw [hi, setBucket_heap_self]
    exact hx
  · rw [setBucket_heap_of_ne hi]
    exact h.bucketSize i

end SetBucket

/-- Put a page into the bucket of its id. -/
def push (t : ExtendibleHashtable δ) (b : ℕ) (p : Page δ) : ExtendibleHashtable δ :=
  { t.modifyBucket b (·.insertPage p) with size := t.size + 1 }

@[simp] theorem push_heap_self (b : ℕ) (p : Page δ) :
    (t.push b p).heap b = (t.heap b).insertPage p := Function.update_self ..

theorem push_heap_of_ne {b i : ℕ} (p : Page δ) (hi : i ≠ b) : (t.push b p).heap i = t.heap i :=
  Function.update_of_ne hi ..

theorem push_eq (b : ℕ) (p : Page δ) :
    t.push b p = t.setBucket b ((t.heap b).insertPage p) (t.size + 1) t.deleted := rfl

theorem push_depthAt (b : ℕ) (p : Page δ) (id : List Bool) :
    (t.push b p).depthAt id = t.depthAt id := by
  simp only [depthAt]
  change (match t.buckets.find id with
    | none => 0
    | some b' => ((t.push b p).heap b').localDepth) = _
  cases t.buckets.find id with
  | none => rfl
  | some b' =>
    by_cases hi : b' = b
    · subst hi
      simp only [push_heap_self]
      rfl
    · simp only [push_heap_of_ne p hi]

theorem Routed.push (h : Routed xxh64 t) {p : Page δ} {b : ℕ}
    (hb : t.buckets.find (t.hashFunction xxh64 p.pageId) = some b) :
    Routed xxh64 (t.push b p) := by
  rw [push_eq]
  refine h.setBucket (fun q hq => ?_) (h.localDepth b)
  rcases List.mem_cons.mp hq with rfl | hq
  · exact hb
  · exact h.placed b q hq

theorem Sound.push (h : Sound xxh64 t) {p : Page δ} {b : ℕ}
    (hb : t.buckets.find (t.hashFunction xxh64 p.pageId) = some b)
    (hf : ∀ q ∈ t.stored, q.pageId ≠ p.pageId) : Grows xxh64 t (t.push b p) [p] := by
  have hlt := h.alloc _ b hb
  have hst : (t.push b p).stored.Perm (p :: t.stored) := by
    rw [push_eq]
    exact (setBucket_stored hlt).trans ((stored_perm hlt).symm.cons p)
  refine ⟨?_, hst, rfl, rfl, rfl, rfl, fun id => (push_depthAt b p id).ge⟩
  rw [push_eq] at hst ⊢
  refine h.setBucket (fun q hq => ?_) (List.nodup_cons.mpr ⟨fun hm => ?_, h.ids b⟩) ?_
    (h.localDepth b) ?_
  · rcases List.mem_cons.mp hq with rfl | hq
    · exact hb
    · exact h.placed b q hq
  · obtain ⟨q, hq, he⟩ := List.mem_map.mp hm
    exact hf q (h.mem_stored.mpr ⟨b, hq⟩) he
  · simp [Bucket.insertPage, h.bucketSize]
  · rw [hst.length_eq, h.size, List.length_cons]
    push_cast
    rfl

/-! ### Splitting -/

/-- Both entries of the pair of `newId` lead to one bucket. -/
def PairShared (t : ExtendibleHashtable δ) (newId : List Bool) : Prop :=
  t.buckets.find newId = t.buckets.find (getPairBucketId newId)

instance (t : ExtendibleHashtable δ) (newId : List Bool) : Decidable (PairShared t newId) :=
  inferInstanceAs (Decidable (_ = _))

/-- A split before its pages are put back: the bucket is cleared, and a shared
pair gets a new bucket at `newId`. -/
def cleared (t : ExtendibleHashtable δ) (b : ℕ) (newId : List Bool) : ExtendibleHashtable δ :=
  { t with
    size := t.size - (t.heap b).size
    buckets := if PairShared t newId then t.buckets.set newId t.allocated else t.buckets
    heap := Function.update
      (if PairShared t newId then
        Function.update t.heap t.allocated (.new ((t.heap b).localDepth + 1)) else t.heap)
      b ⟨[], (t.heap b).localDepth + 1, 0⟩
    allocated := if PairShared t newId then t.allocated + 1 else t.allocated }

theorem splitBucket_eq (h : Routed xxh64 t)
    (insert : ExtendibleHashtable δ → Page δ → Outcome (ExtendibleHashtable δ))
    {c : Bool} {rest : List Bool} {b : ℕ} (hb : t.buckets.find (c :: rest) = some b) :
    splitBucket insert t (c :: rest) =
      (t.heap b).pages.foldlM insert (t.cleared b (true :: rest)) := by
  have hlen : (c :: rest).length = t.globalDepth := (h.keys _).mp (by simp [hb])
  have hne : b ≠ t.allocated := (h.alloc _ b hb).ne
  obtain ⟨n, hn⟩ := Option.isSome_iff_exists.mp ((h.keys (true :: rest)).mpr (by simpa using hlen))
  obtain ⟨m, hm⟩ := Option.isSome_iff_exists.mp ((h.keys (false :: rest)).mpr (by simpa using hlen))
  have hat : ∀ (t₁ : ExtendibleHashtable δ) {id i}, t₁.buckets.find id = some i →
      t₁.bucketAt id = .ok i := by
    intro t₁ id i hi; simp [bucketAt, hi]
  have hid : ¬ (c :: rest).length < (t.modifyBucket b Bucket.incrementLocalDepth).globalDepth := by
    rw [hlen]; exact lt_irrefl _
  have hn' : (t.modifyBucket b Bucket.incrementLocalDepth).buckets.find (true :: rest) =
      some n := hn
  have hm' : (t.modifyBucket b Bucket.incrementLocalDepth).buckets.find
      (getPairBucketId (true :: rest)) = some m := hm
  have hshared : PairShared t (true :: rest) ↔ n = m := by
    have hm'' : t.buckets.find (getPairBucketId (true :: rest)) = some m := hm
    rw [PairShared, hn, hm'', Option.some.injEq]
  simp only [splitBucket, hat t hb, ok_bind, if_neg hid, List.tail_cons, hat _ hn', hat _ hm']
  by_cases he : n = m
  · have hs := hshared.mpr he
    simp only [if_pos he, cleared, if_pos hs, modifyBucket, Bucket.incrementLocalDepth,
      Function.update_self, Function.update_of_ne hne, Bucket.clear]
    congr 2
    funext i
    by_cases hi : i = b
    · simp [hi]
    · rw [Function.update_of_ne hi, Function.update_of_ne hi]
      by_cases ha : i = t.allocated
      · rw [ha, Function.update_self, Function.update_self]
      · rw [Function.update_of_ne ha, Function.update_of_ne ha, Function.update_of_ne hi]
  · have hs := mt hshared.mp he
    simp only [if_neg he, cleared, if_neg hs, modifyBucket, Bucket.incrementLocalDepth,
      Function.update_self, Bucket.clear, Function.update_idem]

section Cleared

variable {b : ℕ} {newId : List Bool}

theorem cleared_heap_self :
    (t.cleared b newId).heap b = ⟨[], (t.heap b).localDepth + 1, 0⟩ := Function.update_self ..

theorem cleared_heap_new (hb : b < t.allocated) (hs : PairShared t newId) :
    (t.cleared b newId).heap t.allocated = .new ((t.heap b).localDepth + 1) := by
  simp only [cleared, if_pos hs]
  rw [Function.update_of_ne hb.ne', Function.update_self]

theorem cleared_heap_of_ne {i : ℕ} (hi : i ≠ b) (ha : i ≠ t.allocated) :
    (t.cleared b newId).heap i = t.heap i := by
  simp only [cleared]
  rw [Function.update_of_ne hi]
  split_ifs
  · exact Function.update_of_ne ha ..
  · rfl

theorem cleared_heap_unshared {i : ℕ} (hi : i ≠ b) (hs : ¬ PairShared t newId) :
    (t.cleared b newId).heap i = t.heap i := by
  simp only [cleared, if_neg hs]
  exact Function.update_of_ne hi ..

/-- Any other bucket is as it was, or is the new one. -/
theorem cleared_heap_cases (newId : List Bool) (hb : b < t.allocated) {i : ℕ} (hi : i ≠ b) :
    (t.cleared b newId).heap i = t.heap i ∨ (i = t.allocated ∧ PairShared t newId ∧
      (t.cleared b newId).heap i = .new ((t.heap b).localDepth + 1)) := by
  by_cases ha : i = t.allocated
  · by_cases hs : PairShared t newId
    · exact .inr ⟨ha, hs, ha ▸ cleared_heap_new hb hs⟩
    · exact .inl (cleared_heap_unshared hi hs)
  · exact .inl (cleared_heap_of_ne hi ha)

theorem cleared_find (id : List Bool) :
    (t.cleared b newId).buckets.find id =
      if PairShared t newId ∧ newId = id then some t.allocated else t.buckets.find id := by
  simp only [cleared]
  by_cases hs : PairShared t newId
  · rw [if_pos hs, OrdMap.find_set]
    by_cases hid : newId = id
    · rw [if_pos hid, if_pos ⟨hs, hid⟩]
    · rw [if_neg hid, if_neg fun h => hid h.2]
  · rw [if_neg hs, if_neg fun h => hs h.1]

theorem cleared_stored (newId : List Bool) (h : Sound xxh64 t) (hb : b < t.allocated) :
    t.stored.Perm ((t.heap b).pages ++ (t.cleared b newId).stored) := by
  refine (stored_perm hb).trans (List.Perm.append_left _ ?_)
  have hempty : (t.heap t.allocated).pages = [] := by
    rw [List.eq_nil_iff_forall_not_mem]
    intro p hp
    exact lt_irrefl _ (h.alloc _ _ (h.placed _ p hp))
  have hpages : ∀ i, i ≠ b → ((t.cleared b newId).heap i).pages = (t.heap i).pages := by
    intro i hi
    rcases cleared_heap_cases newId hb hi with he | ⟨rfl, -, he⟩
    · rw [he]
    · rw [he, hempty]; rfl
  -- the new bucket is empty
  have hall : (t.cleared b newId).stored =
      (List.range t.allocated).flatMap fun i => ((t.cleared b newId).heap i).pages := by
    by_cases hs : PairShared t newId
    · have ha : (t.cleared b newId).allocated = t.allocated + 1 := if_pos hs
      rw [stored, ha, List.range_succ, List.flatMap_append, List.flatMap_singleton,
        hpages _ hb.ne', hempty, List.append_nil]
    · have ha : (t.cleared b newId).allocated = t.allocated := if_neg hs
      rw [stored, ha]
  have hp := List.perm_cons_erase (List.mem_range.mpr hb)
  rw [hall]
  refine List.Perm.trans ?_ (hp.flatMap_right _).symm
  rw [List.flatMap_cons, cleared_heap_self, List.nil_append, others]
  refine List.Perm.of_eq (List.flatMap_congr fun i hi => (hpages i ?_).symm)
  rintro rfl
  exact List.nodup_range.not_mem_erase hi

/-- A shared pair led to the overflowing bucket. -/
theorem find_new_of_shared {c : Bool} {rest : List Bool}
    (hb : t.buckets.find (c :: rest) = some b) (hs : PairShared t (true :: rest)) :
    t.buckets.find (true :: rest) = some b := by
  cases c with
  | true => exact hb
  | false => exact hs.trans hb

theorem Routed.cleared (h : Routed xxh64 t) {c : Bool} {rest : List Bool}
    (hb : t.buckets.find (c :: rest) = some b) : Routed xxh64 (t.cleared b (true :: rest)) := by
  have hlt := h.alloc _ b hb
  have hlen : (c :: rest).length = t.globalDepth := (h.keys _).mp (by simp [hb])
  have hld := h.localDepth b
  refine ⟨h.depth, h.maxDepth, fun id => ?_, fun id i hi => ?_, fun i p hp => ?_, fun i => ?_⟩
  · rw [cleared_find]
    split_ifs with he
    · obtain ⟨-, rfl⟩ := he
      simpa [ExtendibleHashtable.cleared] using hlen
    · exact h.keys id
  · rw [cleared_find] at hi
    change i < if PairShared t (true :: rest) then t.allocated + 1 else t.allocated
    by_cases he : PairShared t (true :: rest) ∧ true :: rest = id
    · rw [if_pos he, Option.some.injEq] at hi
      rw [if_pos he.1]; omega
    · rw [if_neg he] at hi
      have := h.alloc id i hi
      split_ifs <;> omega
  · by_cases hi : i = b
    · subst hi; rw [cleared_heap_self] at hp; cases hp
    · rcases cleared_heap_cases (true :: rest) hlt hi with he | ⟨-, -, he⟩
      · rw [he] at hp
        have hpl := h.placed i p hp
        change (t.cleared b (true :: rest)).buckets.find (t.hashFunction xxh64 p.pageId) = some i
        rw [cleared_find, if_neg, hpl]
        -- the redirected entry led to the cleared bucket
        rintro ⟨hs, heq⟩
        rw [← heq, find_new_of_shared hb hs, Option.some.injEq] at hpl
        exact hi hpl.symm
      · rw [he] at hp; cases hp
  · by_cases hi : i = b
    · subst hi; rw [cleared_heap_self]; simp only; omega
    · rcases cleared_heap_cases (true :: rest) hlt hi with he | ⟨-, -, he⟩
      · rw [he]; exact h.localDepth i
      · rw [he]; simp only [Bucket.new]; omega

theorem cleared_sound (h : Sound xxh64 t) {c : Bool} {rest : List Bool}
    (hb : t.buckets.find (c :: rest) = some b) : Sound xxh64 (t.cleared b (true :: rest)) := by
  have hlt := h.alloc _ b hb
  have hr := h.routed.cleared hb
  refine ⟨hr.depth, hr.maxDepth, hr.keys, hr.alloc, hr.placed, fun i => ?_, fun i => ?_,
    hr.localDepth, ?_⟩
  · by_cases hi : i = b
    · subst hi; rw [cleared_heap_self]; exact List.nodup_nil
    · rcases cleared_heap_cases (true :: rest) hlt hi with he | ⟨-, -, he⟩
      · rw [he]; exact h.ids i
      · rw [he]; exact List.nodup_nil
  · by_cases hi : i = b
    · subst hi; rw [cleared_heap_self]; rfl
    · rcases cleared_heap_cases (true :: rest) hlt hi with he | ⟨-, -, he⟩
      · rw [he]; exact h.bucketSize i
      · rw [he]; rfl
  · have hsize : (t.cleared b (true :: rest)).size = t.size - (t.heap b).size := rfl
    rw [hsize, h.size, h.bucketSize, (cleared_stored (true :: rest) h hlt).length_eq]
    simp

/-- Where the overflowing bucket was, the local depth has grown; elsewhere it is
what it was. -/
theorem cleared_depthAt (h : Routed xxh64 t) {c : Bool} {rest : List Bool}
    (hb : t.buckets.find (c :: rest) = some b) (id : List Bool) :
    (t.cleared b (true :: rest)).depthAt id =
      if t.buckets.find id = some b then (t.heap b).localDepth + 1 else t.depthAt id := by
  have hlt := h.alloc _ b hb
  simp only [depthAt, cleared_find]
  by_cases he : PairShared t (true :: rest) ∧ true :: rest = id
  · obtain ⟨hs, rfl⟩ := he
    rw [if_pos ⟨hs, rfl⟩, if_pos (find_new_of_shared hb hs)]
    simp only [cleared_heap_new hlt hs, Bucket.new]
  · rw [if_neg he]
    cases hf : t.buckets.find id with
    | none => simp
    | some i =>
      by_cases hi : i = b
      · subst hi; simp only [cleared_heap_self, if_true]
      · have ha : i ≠ t.allocated := (h.alloc _ i hf).ne
        simp only [cleared_heap_of_ne hi ha, Option.some.injEq, hi, if_false]

end Cleared

/-! ### Insertion -/

/-- A page that is put into bucket `b` makes it split. -/
def Overfills (t : ExtendibleHashtable δ) (b : ℕ) : Prop :=
  t.bucketMaxSize ≤ (t.heap b).size ∧ (t.heap b).localDepth < t.globalDepth

instance (t : ExtendibleHashtable δ) (b : ℕ) : Decidable (Overfills t b) :=
  inferInstanceAs (Decidable (_ ∧ _))

theorem insertPageFuel_succ (fuel : ℕ) {p : Page δ} {b : ℕ}
    (hb : t.buckets.find (t.hashFunction xxh64 p.pageId) = some b) :
    insertPageFuel xxh64 (fuel + 1) t p =
      if Overfills t b then
        splitBucket (insertPageFuel xxh64 fuel) (t.push b p) (t.hashFunction xxh64 p.pageId)
      else .ok (t.push b p) := by
  have hstep : insertPageFuel xxh64 (fuel + 1) t p =
      if ((t.push b p).heap b).size > t.bucketMaxSize ∧
        ((t.push b p).heap b).localDepth < t.globalDepth then
      splitBucket (insertPageFuel xxh64 fuel) (t.push b p) (t.hashFunction xxh64 p.pageId)
      else .ok (t.push b p) := by
    simp only [insertPageFuel, bucketAt, hb, ok_bind]
    rfl
  rw [hstep, push_heap_self]
  exact if_congr (and_congr_left' Int.lt_add_one_iff) rfl rfl

/-- An insertion deepens buckets and leaves the depths of the table as they are. -/
structure Deepens (t t' : ExtendibleHashtable δ) : Prop where
  globalDepth : t'.globalDepth = t.globalDepth
  minDepth : t'.minDepth = t.minDepth
  maxDepth : t'.maxDepth = t.maxDepth
  deleted : t'.deleted = t.deleted
  deeper : ∀ id, t.depthAt id ≤ t'.depthAt id

theorem Deepens.refl (t : ExtendibleHashtable δ) : Deepens t t :=
  ⟨rfl, rfl, rfl, rfl, fun _ => le_rfl⟩

theorem Deepens.trans (h : Deepens t t') (h' : Deepens t' t'') : Deepens t t'' where
  globalDepth := h'.globalDepth.trans h.globalDepth
  minDepth := h'.minDepth.trans h.minDepth
  maxDepth := h'.maxDepth.trans h.maxDepth
  deleted := h'.deleted.trans h.deleted
  deeper id := (h.deeper id).trans (h'.deeper id)

theorem push_deepens (b : ℕ) (p : Page δ) : Deepens t (t.push b p) :=
  ⟨rfl, rfl, rfl, rfl, fun id => (push_depthAt b p id).ge⟩

theorem Routed.cleared_deepens (h : Routed xxh64 t) {c : Bool} {rest : List Bool} {b : ℕ}
    (hb : t.buckets.find (c :: rest) = some b) : Deepens t (t.cleared b (true :: rest)) := by
  refine ⟨rfl, rfl, rfl, rfl, fun id => ?_⟩
  rw [cleared_depthAt h hb]
  split_ifs with hf
  · simp only [depthAt, hf]
    omega
  · exact le_rfl

/-- The splits that nest in the insertion of `p` fit into `fuel`. -/
def Enough (xxh64 : String → UInt64) (fuel : ℕ) (t : ExtendibleHashtable δ) (p : Page δ) : Prop :=
  (t.globalDepth : ℤ) - t.depthAt (t.hashFunction xxh64 p.pageId) < fuel ∧ 0 < fuel

theorem Enough.deepens {fuel : ℕ} {p : Page δ} (h : Enough xxh64 fuel t p) (hd : Deepens t t') :
    Enough xxh64 fuel t' p := by
  have hh : t'.hashFunction xxh64 p.pageId = t.hashFunction xxh64 p.pageId := by
    rw [hashFunction, hashFunction, hd.globalDepth]
  have := hd.deeper (t.hashFunction xxh64 p.pageId)
  have := h.1
  refine ⟨?_, h.2⟩
  rw [hd.globalDepth, hh]
  omega

/-- Every page of the cleared bucket goes to a deeper one. -/
theorem Routed.enough_cleared (h : Routed xxh64 t) {fuel : ℕ} {c : Bool} {rest : List Bool} {b : ℕ}
    (hb : t.buckets.find (c :: rest) = some b) (hdepth : (t.heap b).localDepth < t.globalDepth)
    (hfuel : (t.globalDepth : ℤ) - (t.heap b).localDepth ≤ fuel) :
    ∀ q ∈ (t.heap b).pages, Enough xxh64 fuel (t.cleared b (true :: rest)) q := by
  intro q hq
  have hq' : (t.cleared b (true :: rest)).depthAt
      ((t.cleared b (true :: rest)).hashFunction xxh64 q.pageId) = (t.heap b).localDepth + 1 := by
    rw [cleared_depthAt h hb]
    exact if_pos (h.placed b q hq)
  rw [Enough, hq']
  change (t.globalDepth : ℤ) - ((t.heap b).localDepth + 1) < fuel ∧ 0 < fuel
  omega

/-- After its split the pages of an overfull bucket need less fuel. -/
theorem Routed.enough_push (h : Routed xxh64 t) {fuel : ℕ} {p : Page δ} {c : Bool}
    {rest : List Bool} {b : ℕ} (hid : t.hashFunction xxh64 p.pageId = c :: rest)
    (hb : t.buckets.find (c :: rest) = some b) (hc : Overfills t b)
    (hfuel : Enough xxh64 (fuel + 1) t p) :
    ∀ q ∈ ((t.push b p).heap b).pages,
      Enough xxh64 fuel ((t.push b p).cleared b (true :: rest)) q := by
  have hld : ((t.push b p).heap b).localDepth = (t.heap b).localDepth := by
    rw [push_heap_self]; rfl
  have hgd : (t.push b p).globalDepth = t.globalDepth := rfl
  have hlt := hfuel.1
  rw [hid] at hlt
  simp only [depthAt, hb] at hlt
  push_cast at hlt
  refine (h.push (hid.symm ▸ hb)).enough_cleared hb ?_ ?_
  · rw [hld, hgd]; exact hc.2
  · rw [hld, hgd]; omega

/-- What carries the recursion of `insert_page` and `split_bucket`: `Ready t ps` says that
the pages `ps` are still to be put into `t`. -/
structure Insertable (xxh64 : String → UInt64)
    (Ready : ExtendibleHashtable δ → List (Page δ) → Prop) : Prop where
  routed : ∀ {t ps}, Ready t ps → Routed xxh64 t
  push : ∀ {t p ps b}, Ready t (p :: ps) →
    t.buckets.find (t.hashFunction xxh64 p.pageId) = some b → ¬ Overfills t b →
    Ready (t.push b p) ps
  split : ∀ {t p ps b c rest}, Ready t (p :: ps) → t.hashFunction xxh64 p.pageId = c :: rest →
    t.buckets.find (c :: rest) = some b → Overfills t b →
    Ready ((t.push b p).cleared b (true :: rest)) (((t.push b p).heap b).pages ++ ps)

namespace Insertable

variable {Ready : ExtendibleHashtable δ → List (Page δ) → Prop} {fuel : ℕ}

/-- Pages put back one by one, when each of them can be inserted. -/
theorem foldlM
    (hins : ∀ (t : ExtendibleHashtable δ) (p : Page δ) (ps : List (Page δ)), Ready t (p :: ps) →
      Enough xxh64 fuel t p →
      ∃ t', insertPageFuel xxh64 fuel t p = .ok t' ∧ Ready t' ps ∧ Deepens t t')
    {ps : List (Page δ)} : ∀ {pages : List (Page δ)} {t : ExtendibleHashtable δ},
      Ready t (pages ++ ps) → (∀ q ∈ pages, Enough xxh64 fuel t q) →
      ∃ t', pages.foldlM (insertPageFuel xxh64 fuel) t = .ok t' ∧ Ready t' ps ∧ Deepens t t' := by
  intro pages
  induction pages with
  | nil => intro t h _; exact ⟨t, rfl, h, .refl t⟩
  | cons p pages ih =>
    intro t h hf
    obtain ⟨t₁, h₁, hr₁, hd₁⟩ := hins t p (pages ++ ps) h (hf p List.mem_cons_self)
    obtain ⟨t', h', hr', hd'⟩ := ih hr₁ fun q hq =>
      (hf q (List.mem_cons_of_mem p hq)).deepens hd₁
    exact ⟨t', by rw [List.foldlM_cons, h₁, ok_bind, h'], hr', hd₁.trans hd'⟩

theorem splitBucket
    (hins : ∀ (t : ExtendibleHashtable δ) (p : Page δ) (ps : List (Page δ)), Ready t (p :: ps) →
      Enough xxh64 fuel t p →
      ∃ t', insertPageFuel xxh64 fuel t p = .ok t' ∧ Ready t' ps ∧ Deepens t t')
    (hr : Insertable xxh64 Ready) {p : Page δ} {ps : List (Page δ)} (h : Ready t (p :: ps))
    {c : Bool} {rest : List Bool} {b : ℕ} (hid : t.hashFunction xxh64 p.pageId = c :: rest)
    (hb : t.buckets.find (c :: rest) = some b) (hc : Overfills t b)
    (hfuel : Enough xxh64 (fuel + 1) t p) :
    ∃ t', ExtendibleHashtable.splitBucket (insertPageFuel xxh64 fuel) (t.push b p) (c :: rest) =
        .ok t' ∧ Ready t' ps ∧ Deepens ((t.push b p).cleared b (true :: rest)) t' := by
  have hrouted := hr.routed h
  rw [splitBucket_eq (hrouted.push (hid.symm ▸ hb)) _ hb]
  exact foldlM hins (hr.split h hid hb hc) (hrouted.enough_push hid hb hc hfuel)

theorem insertPageFuel (hr : Insertable xxh64 Ready) (fuel : ℕ) :
    ∀ (t : ExtendibleHashtable δ) (p : Page δ) (ps : List (Page δ)), Ready t (p :: ps) →
      Enough xxh64 fuel t p → ∃ t', ExtendibleHashtable.insertPageFuel xxh64 fuel t p = .ok t' ∧
        Ready t' ps ∧ Deepens t t' := by
  induction fuel with
  | zero => intro t p ps _ h; exact absurd h.2 (lt_irrefl 0)
  | succ fuel ih =>
    intro t p ps h hfuel
    have hrouted := hr.routed h
    obtain ⟨b, hb, -⟩ := hrouted.bucketAt_hash p.pageId
    rw [insertPageFuel_succ fuel hb]
    split_ifs with hc
    · obtain ⟨c, rest, hid⟩ := hrouted.exists_cons hb hc.2
      have hbp : t.buckets.find (c :: rest) = some b := hid ▸ hb
      obtain ⟨t', ht', hr', hd'⟩ := splitBucket ih hr h hid hbp hc hfuel
      have hcleared := (hrouted.push hb).cleared_deepens hbp
      rw [hid]
      exact ⟨t', ht', hr', ((push_deepens b p).trans hcleared).trans hd'⟩
    · exact ⟨_, rfl, hr.push h hb hc, push_deepens b p⟩

end Insertable

theorem Routed.enough (h : Routed xxh64 t) (p : Page δ) :
    Enough xxh64 (t.globalDepth + 1) t p := by
  obtain ⟨b, hb, -⟩ := h.bucketAt_hash p.pageId
  have := h.localDepth b
  refine ⟨?_, Nat.succ_pos _⟩
  simp only [depthAt, hb]
  push_cast
  omega

/-- The pages `ps` complete the stored ones to `all`. -/
def Completes (xxh64 : String → UInt64) (all : List (Page δ)) (t : ExtendibleHashtable δ)
    (ps : List (Page δ)) : Prop :=
  Sound xxh64 t ∧ (ps ++ t.stored).Perm all

theorem insertable_completes {all : List (Page δ)} (hall : (all.map Page.pageId).Nodup) :
    Insertable xxh64 (Completes xxh64 all) := by
  have hpush : ∀ {t : ExtendibleHashtable δ} {p : Page δ} {ps : List (Page δ)} {b : ℕ},
      Completes xxh64 all t (p :: ps) → t.buckets.find (t.hashFunction xxh64 p.pageId) = some b →
      Completes xxh64 all (t.push b p) ps := by
    rintro t p ps b ⟨hs, hp⟩ hb
    have hn := ((hp.map Page.pageId).nodup_iff.mpr hall)
    rw [List.cons_append, List.map_cons, List.nodup_cons] at hn
    have hg := hs.push hb fun q hq he =>
      hn.1 (List.mem_map.mpr ⟨q, List.mem_append_right _ hq, he⟩)
    exact ⟨hg.sound, ((hg.stored.append_left ps).trans List.perm_middle).trans hp⟩
  refine ⟨fun h => h.1.routed, fun h hb _ => hpush h hb, fun {t p ps b c rest} h hid hb _ => ?_⟩
  obtain ⟨hs, hp⟩ := hpush h (hid.symm ▸ hb)
  have hst := cleared_stored (true :: rest) hs (hs.alloc _ b hb)
  refine ⟨cleared_sound hs hb, List.Perm.trans ?_ ((hst.symm.append_left ps).trans hp)⟩
  rw [List.append_assoc]
  exact List.perm_append_comm_assoc ..

theorem Sound.ids_cons (h : Sound xxh64 t) {p : Page δ} (hf : ∀ q ∈ t.stored, q.pageId ≠ p.pageId) :
    ((p :: t.stored).map Page.pageId).Nodup := by
  refine List.nodup_cons.mpr ⟨fun hm => ?_, h.stored_ids_nodup⟩
  obtain ⟨q, hq, he⟩ := List.mem_map.mp hm
  exact hf q hq he

theorem Sound.insertPage (h : Sound xxh64 t) {p : Page δ}
    (hf : ∀ q ∈ t.stored, q.pageId ≠ p.pageId) :
    ∃ t', t.insertPage xxh64 p = .ok t' ∧ Grows xxh64 t t' [p] := by
  obtain ⟨t', ht', ⟨hs, hst⟩, hd⟩ := (insertable_completes (h.ids_cons hf)).insertPageFuel _ t p []
    ⟨h, List.Perm.refl _⟩ (h.routed.enough p)
  exact ⟨t', ht', hs, hst, hd.globalDepth, hd.minDepth, hd.maxDepth, hd.deleted, hd.deeper⟩

end MiniKvs.ExtendibleHashtable
