import MiniKvs.Pool.HashtableRuns

/-! What the local depth of a bucket says about the directory. While every split
raises the local depth to the global depth, the ids that lead to a bucket are
those that share a suffix as long as its local depth. A split of a bucket that is
shallower redirects one id only and leaves it the others. -/

namespace MiniKvs.ExtendibleHashtable

open Lib

variable {δ : Type} {xxh64 : String → UInt64} {t t' t'' : ExtendibleHashtable δ}

/-- The directory ids that lead to bucket `b`. -/
def entries (t : ExtendibleHashtable δ) (b : ℕ) : List (List Bool) :=
  t.buckets.keys.filter fun id => t.buckets.find id = some b

/-- The ids that lead to bucket `b` are those that end in `suffix`, which is as long
as the local depth. -/
structure EndsIn (t : ExtendibleHashtable δ) (b : ℕ) (suffix : List Bool) : Prop where
  length : (suffix.length : ℤ) = (t.heap b).localDepth
  le : suffix.length ≤ t.globalDepth
  find : ∀ id, t.buckets.find id = some b ↔ id.length = t.globalDepth ∧ suffix <:+ id

structure DescribesDirectory (t : ExtendibleHashtable δ) : Prop where
  suffix : ∀ b < t.allocated, ∃ suffix, EndsIn t b suffix
  entries : ∀ b < t.allocated,
    (t.entries b).length = 2 ^ (t.globalDepth - (t.heap b).localDepth.toNat)
  full : ∀ b < t.allocated, (t.heap b).localDepth = t.globalDepth →
    ∃! id, t.buckets.find id = some b

/-- The step splits no bucket whose local depth is more than one below the global depth. -/
def SplitsLastBit (xxh64 : String → UInt64) (t : ExtendibleHashtable δ) : Op δ → Prop
  | .insertPage page => ∀ b ∈ t.buckets.find (t.hashFunction xxh64 page.pageId),
      t.bucketMaxSize ≤ (t.heap b).size → t.globalDepth ≤ (t.heap b).localDepth + 1
  | _ => True

instance : DecidableRel (SplitsLastBit xxh64 : ExtendibleHashtable δ → Op δ → Prop)
  | t, .insertPage page => inferInstanceAs (Decidable (∀ b ∈
      t.buckets.find (t.hashFunction xxh64 page.pageId),
      t.bucketMaxSize ≤ (t.heap b).size → t.globalDepth ≤ (t.heap b).localDepth + 1))
  | _, .removePage _ => .isTrue trivial
  | _, .expandDirectory => .isTrue trivial

theorem mem_entries {b : ℕ} {id : List Bool} :
    id ∈ t.entries b ↔ t.buckets.find id = some b := by
  rw [entries, List.mem_filter, OrdMap.mem_keys, decide_eq_true_eq]
  exact and_iff_right_of_imp fun h => by rw [h]; rfl

theorem entries_nodup (b : ℕ) : (t.entries b).Nodup := t.buckets.keys_nodup.filter _

theorem EndsIn.entries_length {b : ℕ} {suffix : List Bool} (h : Sound xxh64 t)
    (he : EndsIn t b suffix) :
    (t.entries b).length = 2 ^ (t.globalDepth - (t.heap b).localDepth.toNat) := by
  have hle : t.globalDepth - suffix.length ≤ 32 := (Nat.sub_le _ _).trans h.depth_le
  have hp : (t.entries b).Perm ((List.range (2 ^ (t.globalDepth - suffix.length))).map fun i =>
      Utils.getBinaryFromInt (Fin.ofNat _ i) (t.globalDepth - suffix.length) ++ suffix) := by
    rw [List.perm_ext_iff_of_nodup (entries_nodup b)]
    · intro id
      rw [mem_entries, he.find, List.mem_map]
      constructor
      · rintro ⟨hl, pre, rfl⟩
        rw [List.length_append] at hl
        have hpre : pre.length = t.globalDepth - suffix.length := by omega
        obtain ⟨i, hi, hid⟩ := Utils.exists_getBinaryFromInt hle hpre
        exact ⟨i, List.mem_range.mpr hi, by rw [hid]⟩
      · rintro ⟨i, -, rfl⟩
        refine ⟨?_, List.suffix_append _ suffix⟩
        rw [List.length_append, Utils.length_getBinaryFromInt _ hle]
        exact Nat.sub_add_cancel he.le
    · refine List.Nodup.map_on (fun i hi j hj hij => ?_) List.nodup_range
      exact Utils.getBinaryFromInt_injOn hle (List.mem_range.mp hi) (List.mem_range.mp hj)
        (List.append_cancel_right hij)
  rw [hp.length_eq, List.length_map, List.length_range, ← he.length, Int.toNat_natCast]

theorem EndsIn.full {b : ℕ} {suffix : List Bool} (he : EndsIn t b suffix)
    (hd : (t.heap b).localDepth = t.globalDepth) : ∃! id, t.buckets.find id = some b := by
  have hl : suffix.length = t.globalDepth := by have := he.length; omega
  refine ⟨suffix, (he.find suffix).mpr ⟨hl, List.suffix_rfl⟩, fun id hid => ?_⟩
  obtain ⟨hlen, hs⟩ := (he.find id).mp hid
  exact (hs.eq_of_length (hl.trans hlen.symm)).symm

theorem describesDirectory_of_suffix (h : Sound xxh64 t)
    (hs : ∀ b < t.allocated, ∃ suffix, EndsIn t b suffix) : DescribesDirectory t where
  suffix := hs
  entries b hb := by
    obtain ⟨suffix, he⟩ := hs b hb
    exact he.entries_length h
  full b hb hd := by
    obtain ⟨suffix, he⟩ := hs b hb
    exact he.full hd

theorem EndsIn.new {minSize maxSize : ℕ} {bucketMaxSize : ℤ} (h : Nat.log 2 minSize ≤ 32)
    {b : ℕ} (hb : b < 2 ^ Nat.log 2 minSize) :
    EndsIn (new minSize maxSize bucketMaxSize : ExtendibleHashtable δ) b
      (Utils.getBinaryFromInt (Fin.ofNat _ b) (Nat.log 2 minSize)) := by
  have hl := Utils.length_getBinaryFromInt (Fin.ofNat _ b) h
  refine ⟨?_, hl.le, fun id => ⟨fun hf => ?_, ?_⟩⟩
  · rw [hl]
    simp [ExtendibleHashtable.new, Bucket.new, hb]
  · have hlen := (new_find h id).mp (by rw [hf]; rfl)
    obtain ⟨i, hi, rfl⟩ := Utils.exists_getBinaryFromInt h hlen
    rw [new_find_getBinaryFromInt h hi, Option.some.injEq] at hf
    exact ⟨hlen, by rw [hf]⟩
  · rintro ⟨hlen, hs⟩
    rw [← hs.eq_of_length (hl.trans hlen.symm)]
    exact new_find_getBinaryFromInt h hb

/-! ### Steps that leave the directory alone -/

/-- Pages aside, the tables are the same. -/
structure SameShape (t t' : ExtendibleHashtable δ) : Prop where
  globalDepth : t'.globalDepth = t.globalDepth
  allocated : t'.allocated = t.allocated
  buckets : t'.buckets = t.buckets
  localDepth : ∀ b, (t'.heap b).localDepth = (t.heap b).localDepth

theorem SameShape.refl (t : ExtendibleHashtable δ) : SameShape t t := ⟨rfl, rfl, rfl, fun _ => rfl⟩

theorem SameShape.trans (h : SameShape t t') (h' : SameShape t' t'') : SameShape t t'' where
  globalDepth := h'.globalDepth.trans h.globalDepth
  allocated := h'.allocated.trans h.allocated
  buckets := h'.buckets.trans h.buckets
  localDepth b := (h'.localDepth b).trans (h.localDepth b)

theorem SameShape.depthAt (h : SameShape t t') (id : List Bool) : t'.depthAt id = t.depthAt id := by
  simp only [ExtendibleHashtable.depthAt, h.buckets, h.localDepth]

theorem SameShape.hashFunction (h : SameShape t t') (pageId : String) :
    t'.hashFunction xxh64 pageId = t.hashFunction xxh64 pageId := by
  rw [ExtendibleHashtable.hashFunction, ExtendibleHashtable.hashFunction, h.globalDepth]

theorem EndsIn.sameShape {b : ℕ} {suffix : List Bool} (he : EndsIn t b suffix)
    (h : SameShape t t') : EndsIn t' b suffix := by
  refine ⟨(h.localDepth b).symm ▸ he.length, h.globalDepth.symm ▸ he.le, fun id => ?_⟩
  rw [h.buckets, h.globalDepth]
  exact he.find id

theorem modifyBucket_sameShape {b : ℕ} {f : Bucket δ → Bucket δ}
    (hf : ∀ x, (f x).localDepth = x.localDepth) : SameShape t (t.modifyBucket b f) := by
  refine ⟨rfl, rfl, rfl, fun i => ?_⟩
  by_cases hi : i = b
  · subst hi
    simp only [modifyBucket, Function.update_self, hf]
  · simp only [modifyBucket, Function.update_of_ne hi]

theorem push_sameShape (b : ℕ) (p : Page δ) : SameShape t (t.push b p) :=
  ⟨rfl, rfl, rfl, (modifyBucket_sameShape (f := (·.insertPage p)) fun _ => rfl).localDepth⟩

theorem removePage_sameShape {p : Page δ} (h : t.removePage xxh64 p = .ok t') :
    SameShape t t' := by
  obtain ⟨b, -, hb⟩ := bind_eq_ok.mp h
  cases hb
  exact ⟨rfl, rfl, rfl, (modifyBucket_sameShape (f := (·.removePage p)) fun _ => rfl).localDepth⟩

/-! ### Expansion -/

theorem EndsIn.expandDirectory {b : ℕ} {suffix : List Bool} (h : Routed xxh64 t)
    (he : EndsIn t b suffix) : EndsIn t.expandDirectory.2 b suffix := by
  by_cases hg : t.globalDepth = t.maxDepth
  · simpa only [ExtendibleHashtable.expandDirectory, if_pos hg] using he
  have hdepth := expandDirectory_globalDepth hg
  refine ⟨by rw [expandDirectory_heap]; exact he.length, by have := he.le; omega, fun id => ?_⟩
  rw [expand_find h.keys hg, hdepth]
  split_ifs with hl
  · obtain ⟨c, rest, rfl⟩ := List.exists_cons_of_length_eq_add_one hl
    rw [List.length_cons, Nat.add_right_cancel_iff] at hl
    have hne : suffix ≠ c :: rest := by
      rintro rfl
      have := he.le
      rw [List.length_cons] at this
      omega
    rw [List.tail_cons, he.find, List.suffix_cons_iff, or_iff_right hne, List.length_cons,
      Nat.add_right_cancel_iff]
  · simp [hl]

/-! ### Splits that raise the local depth to the global depth -/

theorem eq_of_suffix_cons {c : Bool} {suffix rest : List Bool} (h : suffix <:+ c :: rest)
    (hl : suffix.length = rest.length) : suffix = rest := by
  rcases List.suffix_cons_iff.mp h with rfl | hs
  · rw [List.length_cons] at hl
    omega
  · exact hs.eq_of_length hl

section Halve

variable {b : ℕ} {suffix : List Bool} (h : Sound xxh64 t) (he : EndsIn t b suffix)
  (hd : suffix.length + 1 = t.globalDepth)

include he hd

theorem EndsIn.find_cons (c : Bool) : t.buckets.find (c :: suffix) = some b :=
  (he.find _).mpr ⟨hd, List.suffix_cons c suffix⟩

theorem EndsIn.pairShared : PairShared t (true :: suffix) :=
  (he.find_cons hd true).trans (he.find_cons hd false).symm

theorem EndsIn.cleared_find (id : List Bool) :
    (t.cleared b (true :: suffix)).buckets.find id =
      if true :: suffix = id then some t.allocated else t.buckets.find id := by
  rw [ExtendibleHashtable.cleared_find]
  simp only [he.pairShared hd, true_and]

include h

/-- Of the two ids that led to it the bucket keeps the one that starts with a zero. -/
theorem EndsIn.cleared : EndsIn (t.cleared b (true :: suffix)) b (false :: suffix) := by
  have hlt := h.alloc _ b (he.find_cons hd false)
  refine ⟨?_, hd.le, fun id => ?_⟩
  · rw [cleared_heap_self, List.length_cons, ← he.length]
    push_cast
    rfl
  · rw [he.cleared_find hd]
    constructor
    · intro hid
      split_ifs at hid with hc
      · exact absurd (Option.some.inj hid) hlt.ne'
      · obtain ⟨hl, hsid⟩ := (he.find id).mp hid
        obtain ⟨c', x, rfl⟩ : ∃ c' x, id = c' :: x :=
          List.exists_cons_of_length_eq_add_one (hl.trans hd.symm)
        obtain rfl : suffix = x := eq_of_suffix_cons hsid (by rw [List.length_cons] at hl; omega)
        cases c' with
        | true => exact absurd rfl hc
        | false => exact ⟨hl, List.suffix_rfl⟩
    · rintro ⟨hl, hsid⟩
      rw [← hsid.eq_of_length (hd.trans hl.symm), if_neg (by simp)]
      exact he.find_cons hd false

/-- The new bucket gets the other id. -/
theorem EndsIn.cleared_new :
    EndsIn (t.cleared b (true :: suffix)) t.allocated (true :: suffix) := by
  have hlt := h.alloc _ b (he.find_cons hd false)
  refine ⟨?_, hd.le, fun id => ?_⟩
  · rw [cleared_heap_new hlt (he.pairShared hd), List.length_cons, ← he.length]
    push_cast
    rfl
  · rw [he.cleared_find hd]
    constructor
    · intro hid
      split_ifs at hid with hc
      · exact hc ▸ ⟨hd, List.suffix_rfl⟩
      · exact absurd rfl (h.alloc id _ hid).ne
    · rintro ⟨hl, hsid⟩
      rw [if_pos (hsid.eq_of_length (hd.trans hl.symm))]

omit h in
theorem EndsIn.cleared_of_ne {b' : ℕ} {suffix' : List Bool} (hb' : b' < t.allocated)
    (hne : b' ≠ b) (he' : EndsIn t b' suffix') :
    EndsIn (t.cleared b (true :: suffix)) b' suffix' := by
  have hheap : (t.cleared b (true :: suffix)).heap b' = t.heap b' := cleared_heap_of_ne hne hb'.ne
  refine ⟨hheap ▸ he'.length, he'.le, fun id => ?_⟩
  have hdepth : (t.cleared b (true :: suffix)).globalDepth = t.globalDepth := rfl
  rw [he.cleared_find hd, hdepth, ← he'.find id]
  split_ifs with hc
  · rw [← hc, he.find_cons hd true]
    simp only [Option.some.injEq, hb'.ne', Ne.symm hne]
  · rfl

end Halve

/-- The pair of such a split shares the bucket. -/
theorem cleared_endsIn (h : Sound xxh64 t) (hs : ∀ b < t.allocated, ∃ suffix, EndsIn t b suffix)
    {c : Bool} {rest : List Bool} {b : ℕ} (hb : t.buckets.find (c :: rest) = some b)
    (hd : (t.heap b).localDepth + 1 = t.globalDepth) :
    ∀ b' < (t.cleared b (true :: rest)).allocated,
      ∃ suffix, EndsIn (t.cleared b (true :: rest)) b' suffix := by
  obtain ⟨suffix, he⟩ := hs b (h.alloc _ b hb)
  obtain ⟨hlen, hsuf⟩ := (he.find _).mp hb
  rw [List.length_cons] at hlen
  have hls := he.length
  obtain rfl : suffix = rest := eq_of_suffix_cons hsuf (by omega)
  intro b' hb'
  have hb' : b' < t.allocated + 1 := by
    simpa only [ExtendibleHashtable.cleared, if_pos (he.pairShared hlen)] using hb'
  rcases Nat.lt_succ_iff_lt_or_eq.mp hb' with hlt | rfl
  · by_cases hbb : b' = b
    · subst hbb
      exact ⟨_, he.cleared h hlen⟩
    · obtain ⟨suffix', he'⟩ := hs b' hlt
      exact ⟨suffix', he.cleared_of_ne hlen hlt hbb he'⟩
  · exact ⟨_, he.cleared_new h hlen⟩

/-- No page of a bucket that is as deep as the directory makes it split. -/
theorem foldlM_insert_full (fuel : ℕ) : ∀ (pages : List (Page δ)) (t : ExtendibleHashtable δ),
    Routed xxh64 t →
    (∀ p ∈ pages, t.depthAt (t.hashFunction xxh64 p.pageId) = t.globalDepth) →
    ∃ t', pages.foldlM (insertPageFuel xxh64 (fuel + 1)) t = .ok t' ∧ SameShape t t' := by
  intro pages
  induction pages with
  | nil => intro t _ _; exact ⟨t, rfl, .refl t⟩
  | cons p pages ih =>
    intro t h hd
    obtain ⟨b, hb, -⟩ := h.bucketAt_hash p.pageId
    have hdb : (t.heap b).localDepth = t.globalDepth := by
      have := hd p List.mem_cons_self
      simpa only [depthAt, hb] using this
    have hshape : SameShape t (t.push b p) := push_sameShape b p
    have hstep : insertPageFuel xxh64 (fuel + 1) t p = .ok (t.push b p) := by
      rw [insertPageFuel_succ fuel hb, if_neg]
      rintro ⟨-, hlt⟩
      exact hlt.ne hdb
    obtain ⟨t', ht', hs'⟩ := ih (t.push b p) (h.push hb) fun q hq => by
      rw [hshape.depthAt, hshape.hashFunction, hshape.globalDepth]
      exact hd q (List.mem_cons_of_mem p hq)
    exact ⟨t', by rw [List.foldlM_cons, hstep, ok_bind, ht'], hshape.trans hs'⟩

theorem insertPage_endsIn (h : Sound xxh64 t) (hs : ∀ b < t.allocated, ∃ suffix, EndsIn t b suffix)
    {p : Page δ} (hp : ∀ q ∈ t.stored, q.pageId ≠ p.pageId)
    (hg : SplitsLastBit xxh64 t (.insertPage p)) (ht : t.insertPage xxh64 p = .ok t') :
    ∀ b < t'.allocated, ∃ suffix, EndsIn t' b suffix := by
  obtain ⟨b, hb, hlt⟩ := h.bucketAt_hash p.pageId
  have hpush := h.push hb hp
  have hshape : SameShape t (t.push b p) := push_sameShape b p
  have hs₁ : ∀ b' < (t.push b p).allocated, ∃ suffix, EndsIn (t.push b p) b' suffix := by
    intro b' hb'
    obtain ⟨suffix, he⟩ := hs b' hb'
    exact ⟨suffix, he.sameShape hshape⟩
  rw [insertPage, insertPageFuel_succ _ hb] at ht
  split_ifs at ht with hc
  · obtain ⟨hfull, hdepth⟩ := hc
    have hle := hg b hb hfull
    have hpos := h.localDepth b
    obtain ⟨c, rest, hid⟩ := h.routed.exists_cons hb hdepth
    have hbp : (t.push b p).buckets.find (c :: rest) = some b := hid ▸ hb
    have hld : ((t.push b p).heap b).localDepth = (t.heap b).localDepth := hshape.localDepth b
    have hgd : (t.push b p).globalDepth = t.globalDepth := rfl
    have hclear := cleared_endsIn hpush.sound hs₁ hbp (by rw [hld, hgd]; omega)
    have hrouted := hpush.sound.routed
    -- the pages are put back into buckets as deep as the directory
    obtain ⟨fuel, hfuel⟩ : ∃ fuel, t.globalDepth = fuel + 1 :=
      Nat.exists_eq_succ_of_ne_zero (by omega)
    obtain ⟨t₁, ht₁, hshape₁⟩ := foldlM_insert_full fuel ((t.push b p).heap b).pages
      ((t.push b p).cleared b (true :: rest)) (hrouted.cleared hbp)
      (fun q hq => by
        change ((t.push b p).cleared b (true :: rest)).depthAt
          ((t.push b p).hashFunction xxh64 q.pageId) = t.globalDepth
        rw [cleared_depthAt hrouted hbp, if_pos (hrouted.placed b q hq), hld]
        omega)
    rw [hid, splitBucket_eq hrouted _ hbp, hfuel, ht₁, Except.ok.injEq] at ht
    subst ht
    intro b' hb'
    obtain ⟨suffix, he⟩ := hclear b' (hshape₁.allocated ▸ hb')
    exact ⟨suffix, he.sameShape hshape₁⟩
  · rw [Except.ok.injEq] at ht
    exact ht ▸ hs₁

/-! ### Splits of shallower buckets -/

/-- A split redirects only an id that starts with a one. -/
theorem splitBucket_find_false
    {insert : ExtendibleHashtable δ → Page δ → Outcome (ExtendibleHashtable δ)}
    (hins : ∀ t p t', insert t p = .ok t' → ∀ x,
      t'.buckets.find (false :: x) = t.buckets.find (false :: x))
    {id : List Bool} (ht : splitBucket insert t id = .ok t') (x : List Bool) :
    t'.buckets.find (false :: x) = t.buckets.find (false :: x) := by
  obtain ⟨b, -, ht⟩ := bind_eq_ok.mp ht
  obtain ⟨atNew, -, ht⟩ := bind_eq_ok.mp ht
  obtain ⟨atPair, -, ht⟩ := bind_eq_ok.mp ht
  refine foldlM_invariant
    (I := fun u => u.buckets.find (false :: x) = t.buckets.find (false :: x))
    (fun u p u' hu h => (hins u p u' h x).trans hu) ?_ ht
  change (if atNew = atPair then _ else _ : ExtendibleHashtable δ).buckets.find (false :: x) = _
  split_ifs
  · exact OrdMap.find_set_of_ne _ _ (by simp)
  · exact OrdMap.find_set_of_ne _ _ (by simp)
  · rfl

theorem insertPageFuel_find_false (fuel : ℕ) : ∀ (t : ExtendibleHashtable δ) (p : Page δ)
    (t' : ExtendibleHashtable δ), insertPageFuel xxh64 fuel t p = .ok t' → ∀ x,
    t'.buckets.find (false :: x) = t.buckets.find (false :: x) := by
  induction fuel with
  | zero => intro t p t' h; cases h
  | succ fuel ih =>
    intro t p t' h x
    obtain ⟨b, hb, h⟩ := bind_eq_ok.mp h
    by_cases hc : ((t.push b p).heap b).size > t.bucketMaxSize ∧
        ((t.push b p).heap b).localDepth < t.globalDepth
    · have h : splitBucket (insertPageFuel xxh64 fuel) (t.push b p)
          (t.hashFunction xxh64 p.pageId) = .ok t' := (if_pos hc).symm.trans h
      exact splitBucket_find_false ih h x
    · have h : Except.ok (t.push b p) = Except.ok t' := (if_neg hc).symm.trans h
      cases h
      rfl

theorem insertPage_deeper (h : Sound xxh64 t) {p : Page δ}
    (hp : ∀ q ∈ t.stored, q.pageId ≠ p.pageId) {b : ℕ}
    (hb : t.buckets.find (t.hashFunction xxh64 p.pageId) = some b)
    (hfull : t.bucketMaxSize ≤ (t.heap b).size) (hdepth : (t.heap b).localDepth < t.globalDepth) :
    ∃ t', t.insertPage xxh64 p = .ok t' ∧ Sound xxh64 t' ∧
      ∀ id, t.buckets.find id = some b → (t.heap b).localDepth + 1 ≤ t'.depthAt id := by
  have hpush := h.push hb hp
  have hpos := h.localDepth b
  have hld : ((t.push b p).heap b).localDepth = (t.heap b).localDepth :=
    (push_sameShape b p).localDepth b
  have hgd : (t.push b p).globalDepth = t.globalDepth := rfl
  obtain ⟨c, rest, hid⟩ := h.routed.exists_cons hb hdepth
  have hb' : t.buckets.find (c :: rest) = some b := hid ▸ hb
  have hbp : (t.push b p).buckets.find (c :: rest) = some b := hb'
  have hins : Insertable xxh64 (Completes xxh64 (p :: t.stored)) :=
    insertable_completes (h.ids_cons hp)
  have hcomp : Completes xxh64 (p :: t.stored) t [p] := ⟨h, List.Perm.refl _⟩
  obtain ⟨t', ht', ⟨hsound, -⟩, hd⟩ := Insertable.splitBucket (hins.insertPageFuel t.globalDepth)
    hins hcomp hid hb' ⟨hfull, hdepth⟩ (h.routed.enough p)
  refine ⟨t', ?_, hsound, fun id hf => ?_⟩
  · rw [insertPage, insertPageFuel_succ _ hb, if_pos ⟨hfull, hdepth⟩, hid]
    exact ht'
  · refine le_trans ?_ (hd.deeper id)
    have hf : (t.push b p).buckets.find id = some b := hf
    rw [cleared_depthAt hpush.sound.routed hbp, if_pos hf, hld]

/-- Two ids that differ in the next bit of the suffix still lead to the bucket, which
is deeper now. -/
theorem insertPage_not_describes (h : Sound xxh64 t)
    (hs : ∀ b < t.allocated, ∃ suffix, EndsIn t b suffix) {p : Page δ}
    (hp : ∀ q ∈ t.stored, q.pageId ≠ p.pageId)
    (hg : ¬ SplitsLastBit xxh64 t (.insertPage p)) :
    ∃ t', t.insertPage xxh64 p = .ok t' ∧ ¬ DescribesDirectory t' := by
  simp only [SplitsLastBit, not_forall, not_le] at hg
  obtain ⟨b, hb, hfull, hdepth⟩ := hg
  have hb : t.buckets.find (t.hashFunction xxh64 p.pageId) = some b := hb
  obtain ⟨t', ht', hsound, hdeep⟩ := insertPage_deeper h hp hb hfull (by omega)
  refine ⟨t', ht', fun hdesc => ?_⟩
  obtain ⟨suffix, he⟩ := hs b (h.alloc _ b hb)
  have hls := he.length
  -- both ids start with a zero, so no split has redirected them
  have hfind : ∀ c : Bool, t'.buckets.find
      (false :: (List.replicate (t.globalDepth - 2 - suffix.length) false ++ c :: suffix)) =
        some b ∧ t.buckets.find
      (false :: (List.replicate (t.globalDepth - 2 - suffix.length) false ++ c :: suffix)) =
        some b := by
    intro c
    have hf : t.buckets.find (false :: (List.replicate (t.globalDepth - 2 - suffix.length) false ++
        c :: suffix)) = some b := by
      refine (he.find _).mpr ⟨?_, ?_⟩
      · simp only [List.length_cons, List.length_append, List.length_replicate]
        omega
      · exact (((List.suffix_cons c suffix).trans (List.suffix_append _ _)).trans
          (List.suffix_cons false _))
    exact ⟨(insertPageFuel_find_false _ t p t' ht' _).trans hf, hf⟩
  obtain ⟨suffix', he'⟩ := hdesc.suffix b (hsound.alloc _ b (hfind true).1)
  have hlong : suffix.length + 1 ≤ suffix'.length := by
    have hle := hdeep _ (hfind true).2
    simp only [depthAt, (hfind true).1] at hle
    have := he'.length
    omega
  have hends : ∀ c : Bool, c :: suffix <:+ suffix' := by
    intro c
    refine List.suffix_of_suffix_length_le ?_ ((he'.find _).mp (hfind c).1).2 ?_
    · exact (List.suffix_append _ _).trans (List.suffix_cons false _)
    · rw [List.length_cons]
      exact hlong
  have heq : true :: suffix = false :: suffix :=
    (List.suffix_of_suffix_length_le (hends true) (hends false)
      (by rw [List.length_cons, List.length_cons])).eq_of_length rfl
  cases heq

/-! ### Runs -/

theorem Holds.fresh {ps : List (Page δ)} (h : Holds xxh64 t ps) {p : Page δ}
    (ha : Allowed ps (.insertPage p)) : ∀ q ∈ t.stored, q.pageId ≠ p.pageId :=
  fun q hq => (ha q (h.stored.mem_iff.mp hq)).1

theorem Holds.keeps_describes {ps : List (Page δ)} {op : Op δ} {r : Unit} (h : Holds xxh64 t ps)
    (ha : Allowed ps op) (hd : DescribesDirectory t) (hg : SplitsLastBit xxh64 t op)
    (ht : ExtendibleHashtable.step xxh64 op t = .ok (r, t')) :
    Holds xxh64 t' (held op ps) ∧ DescribesDirectory t' := by
  obtain ⟨r', t'', ht'', hh⟩ := h.step ha
  rw [ht, Except.ok.injEq, Prod.mk.injEq] at ht''
  obtain ⟨-, rfl⟩ := ht''
  refine ⟨hh, describesDirectory_of_suffix hh.sound ?_⟩
  cases op with
  | insertPage p =>
    obtain ⟨t₁, ht₁, he⟩ := map_eq_ok.mp ht
    cases he
    exact insertPage_endsIn h.sound hd.suffix (h.fresh ha) hg ht₁
  | removePage p =>
    obtain ⟨t₁, ht₁, he⟩ := map_eq_ok.mp ht
    cases he
    have hshape := removePage_sameShape ht₁
    intro b hb
    obtain ⟨suffix, he⟩ := hd.suffix b (hshape.allocated ▸ hb)
    exact ⟨suffix, he.sameShape hshape⟩
  | expandDirectory =>
    cases ht
    intro b hb
    obtain ⟨suffix, he⟩ := hd.suffix b (expandDirectory_allocated ▸ hb)
    exact ⟨suffix, he.expandDirectory h.sound.routed⟩

theorem Holds.breaks_describes {ps : List (Page δ)} {op : Op δ} (h : Holds xxh64 t ps)
    (ha : Allowed ps op) (hd : DescribesDirectory t) (hg : ¬ SplitsLastBit xxh64 t op) :
    ∃ r t', ExtendibleHashtable.step xxh64 op t = .ok (r, t') ∧ ¬ DescribesDirectory t' := by
  cases op with
  | insertPage p =>
    obtain ⟨t', ht', hn⟩ := insertPage_not_describes h.sound hd.suffix (h.fresh ha) hg
    exact ⟨(), t', by rw [ExtendibleHashtable.step, ht']; rfl, hn⟩
  | removePage p => exact absurd trivial hg
  | expandDirectory => exact absurd trivial hg

/-- Local depths describe the directory throughout a run exactly when every split of the
run raises a local depth to the global depth. -/
theorem describesDirectory_iff (xxh64 : String → UInt64) {minSize maxSize : ℕ}
    {bucketMaxSize : ℤ} (hle : minSize ≤ maxSize) (hmax : maxSize < 2147483648)
    (ops : List (Op δ)) (ha : AlongTotal held Allowed [] ops) :
    Throughout (step xxh64) DescribesDirectory (new minSize maxSize bucketMaxSize) ops ↔
      Along (step xxh64) (SplitsLastBit xxh64) (new minSize maxSize bucketMaxSize) ops := by
  have hsound : Sound xxh64 (new minSize maxSize bucketMaxSize : ExtendibleHashtable δ) :=
    new_sound hle hmax
  have hnew : Holds xxh64 (new minSize maxSize bucketMaxSize : ExtendibleHashtable δ) [] :=
    ⟨hsound, by simp, List.nodup_nil⟩
  refine throughout_iff_along_of_alongTotal (step xxh64)
    (fun op t ps r t' h ha hd hg ht => h.keeps_describes ha hd hg ht)
    (fun op t ps h ha hd hg => h.breaks_describes ha hd hg) hnew ?_ ha
  refine describesDirectory_of_suffix hsound fun b hb => ?_
  exact ⟨_, .new hsound.depth_le hb⟩

/-- The directory grows only when the buckets that split are as deep as it. -/
theorem describesDirectory_iff_split :
    Throughout (step fun id => id.length.toUInt64) DescribesDirectory (new 1 4 1)
      [.expandDirectory, .insertPage ⟨0, "a", ()⟩, .insertPage ⟨1, "bc", ()⟩, .expandDirectory,
        .insertPage ⟨2, "def", ()⟩, .removePage ⟨0, "a", ()⟩] :=
  (describesDirectory_iff _ (by norm_num) (by norm_num) _ (by simp [AlongTotal, Allowed, held])).mpr
    (by decide)

/-- The directory grows twice before a bucket splits. -/
theorem not_describesDirectory : ¬ ∀ (xxh64 : String → UInt64) (minSize maxSize : ℕ)
    (bucketMaxSize : ℤ) (ops : List (Op Unit)), minSize ≤ maxSize → maxSize < 2147483648 →
    AlongTotal held Allowed [] ops →
    Throughout (step xxh64) DescribesDirectory (new minSize maxSize bucketMaxSize) ops := by
  intro h
  have hrun := eq_ok_okOr ([], new 1 4 1) (x := run (step fun _ => 0)
    [.expandDirectory, .expandDirectory, .insertPage ⟨0, "a", ()⟩, .insertPage ⟨1, "b", ()⟩]
    (new 1 4 1)) (by decide)
  have hdesc := Throughout.finish _ (h (fun _ => 0) 1 4 1 _ (by norm_num) (by norm_num)
    (by simp [AlongTotal, Allowed, held])) hrun
  -- bucket 0 has local depth 2, and keeps two of its ids
  obtain ⟨id, -, huniq⟩ := hdesc.full 0 (by decide) (by decide)
  have h₀ := huniq [false, false] (by decide)
  have h₁ := huniq [false, true] (by decide)
  cases h₀.trans h₁.symm

end MiniKvs.ExtendibleHashtable
