import MiniKvs.Pool.HashtableRuns

/-! The recursion of `insert_page` and `split_bucket`. Pages may have any ids here,
the same ids included. Each split puts its pages back into deeper buckets, so as many
splits nest as the bucket of the page is less deep than the directory; and a bucket
that gets a page is split until its pages fit or it is as deep as the directory. -/

namespace MiniKvs.ExtendibleHashtable

open Lib

variable {δ : Type} {xxh64 : String → UInt64} {t t' t'' : ExtendibleHashtable δ}

/-! ### What is claimed of a call -/

/-- The bucket holds at most `bucket_max_size` pages, or cannot be split. -/
def Fits (t : ExtendibleHashtable δ) (b : ℕ) : Prop :=
  ((t.heap b).pages.length : ℤ) ≤ t.bucketMaxSize ∨ (t.heap b).localDepth = t.globalDepth

instance (t : ExtendibleHashtable δ) (b : ℕ) : Decidable (Fits t b) :=
  inferInstanceAs (Decidable (_ ∨ _))

/-- The buckets that get a page while `pages` are put in one by one. -/
def receiversOf (insert : ExtendibleHashtable δ → Page δ → Outcome (ExtendibleHashtable δ))
    (receivers : ExtendibleHashtable δ → Page δ → List ℕ) :
    List (Page δ) → ExtendibleHashtable δ → List ℕ
  | [], _ => []
  | page :: pages, t => receivers t page ++
    match insert t page with
    | .ok t => receiversOf insert receivers pages t
    | .error _ => []

/-- The buckets that get a page in a call of `insertPageFuel`, its splits included. -/
def receiversFuel (xxh64 : String → UInt64) : ℕ → ExtendibleHashtable δ → Page δ → List ℕ
  | 0, _, _ => []
  | fuel + 1, t, page =>
    let bucketId := t.hashFunction xxh64 page.pageId
    match t.buckets.find bucketId with
    | none => []
    | some b => b ::
      if Overfills t b then
        receiversOf (insertPageFuel xxh64 fuel) (receiversFuel xxh64 fuel)
          ((t.push b page).heap b).pages ((t.push b page).cleared b (true :: bucketId.tail))
      else []

def receivers (xxh64 : String → UInt64) (t : ExtendibleHashtable δ) (page : Page δ) : List ℕ :=
  receiversFuel xxh64 (t.globalDepth + 1) t page

/-- What a call that puts `page` into `t` does. With fuel `n + 1` at most `n` splits nest. -/
structure Inserts (xxh64 : String → UInt64) (t : ExtendibleHashtable δ) (page : Page δ)
    (t' : ExtendibleHashtable δ) : Prop where
  returns : t.insertPage xxh64 page = .ok t'
  nested : ∃ b, t.buckets.find (t.hashFunction xxh64 page.pageId) = some b ∧
    insertPageFuel xxh64 ((t.globalDepth - (t.heap b).localDepth).toNat + 1) t page = .ok t'
  fits : ∀ b ∈ t.receivers xxh64 page, Fits t' b

/-- Only pages in the table are removed. -/
def RemovesStored (t : ExtendibleHashtable δ) : Op δ → Prop
  | .removePage page => page ∈ t.stored
  | _ => True

instance [DecidableEq δ] : DecidableRel (RemovesStored : ExtendibleHashtable δ → Op δ → Prop)
  | t, .removePage page => inferInstanceAs (Decidable (page ∈ t.stored))
  | _, .insertPage _ => .isTrue trivial
  | _, .expandDirectory => .isTrue trivial

/-! ### Fuel -/

theorem splitBucket_mono
    {insert insert' : ExtendibleHashtable δ → Page δ → Outcome (ExtendibleHashtable δ)}
    (hins : ∀ t p t', insert t p = .ok t' → insert' t p = .ok t') {id : List Bool}
    (h : splitBucket insert t id = .ok t') : splitBucket insert' t id = .ok t' := by
  obtain ⟨b, hb, h⟩ := bind_eq_ok.mp h
  obtain ⟨atNew, hn, h⟩ := bind_eq_ok.mp h
  obtain ⟨atPair, hp, h⟩ := bind_eq_ok.mp h
  exact bind_eq_ok.mpr ⟨b, hb, bind_eq_ok.mpr ⟨atNew, hn, bind_eq_ok.mpr ⟨atPair, hp,
    foldlM_map (fun t => t) hins h⟩⟩⟩

/-- More fuel does not change what an insertion returns. -/
theorem insertPageFuel_mono {fuel fuel' : ℕ} (hle : fuel ≤ fuel') :
    ∀ {t : ExtendibleHashtable δ} {p : Page δ} {t' : ExtendibleHashtable δ},
      insertPageFuel xxh64 fuel t p = .ok t' → insertPageFuel xxh64 fuel' t p = .ok t' := by
  induction fuel generalizing fuel' with
  | zero => intro t p t' h; cases h
  | succ fuel ih =>
    intro t p t' h
    obtain ⟨fuel', rfl⟩ : ∃ n, fuel' = n + 1 := Nat.exists_eq_succ_of_ne_zero (by omega)
    obtain ⟨b, hb, -⟩ := bind_eq_ok.mp h
    have hb : t.buckets.find (t.hashFunction xxh64 p.pageId) = some b := by
      unfold bucketAt at hb
      cases hf : t.buckets.find (t.hashFunction xxh64 p.pageId) with
      | none => simp [hf] at hb
      | some b' =>
        rw [hf, Except.ok.injEq] at hb
        rw [hb]
    rw [insertPageFuel_succ _ hb] at h ⊢
    split_ifs at h ⊢ with hc
    · exact splitBucket_mono (fun _ _ _ => ih (Nat.le_of_succ_le_succ hle)) h
    · exact h

theorem insertPageFuel_unique {fuel fuel' : ℕ} {p : Page δ}
    (h : insertPageFuel xxh64 fuel t p = .ok t') (h' : insertPageFuel xxh64 fuel' t p = .ok t'') :
    t' = t'' := by
  rcases le_total fuel fuel' with hle | hle
  · exact Except.ok.inj ((insertPageFuel_mono hle h).symm.trans h')
  · exact Except.ok.inj (h.symm.trans (insertPageFuel_mono hle h'))

/-! ### One call -/

/-- A routed table in which no bucket is deeper than the directory or counts too few pages. -/
structure Splittable (xxh64 : String → UInt64) (t : ExtendibleHashtable δ) : Prop where
  routed : Routed xxh64 t
  pages : ∀ b, ((t.heap b).pages.length : ℤ) ≤ (t.heap b).size
  localDepth : ∀ b, (t.heap b).localDepth ≤ t.globalDepth

/-- A bucket that is not as it was fits. -/
structure Refits (t t' : ExtendibleHashtable δ) : Prop where
  globalDepth : t'.globalDepth = t.globalDepth
  bucketMaxSize : t'.bucketMaxSize = t.bucketMaxSize
  bucket : ∀ b, t'.heap b = t.heap b ∨ Fits t' b

theorem Refits.refl (t : ExtendibleHashtable δ) : Refits t t := ⟨rfl, rfl, fun _ => .inl rfl⟩

theorem Refits.fits (h : Refits t t') {b : ℕ} (hb : Fits t b) : Fits t' b := by
  rcases h.bucket b with he | hf
  · rw [Fits, he, h.bucketMaxSize, h.globalDepth]
    exact hb
  · exact hf

theorem Refits.trans (h : Refits t t') (h' : Refits t' t'') : Refits t t'' := by
  refine ⟨h'.globalDepth.trans h.globalDepth, h'.bucketMaxSize.trans h.bucketMaxSize, fun b => ?_⟩
  rcases h.bucket b with he | hf
  · rw [← he]
    exact h'.bucket b
  · exact .inr (h'.fits hf)

theorem Splittable.push (h : Splittable xxh64 t) {p : Page δ} {b : ℕ}
    (hb : t.buckets.find (t.hashFunction xxh64 p.pageId) = some b) :
    Splittable xxh64 (t.push b p) := by
  refine ⟨h.routed.push hb, fun i => ?_, fun i => ?_⟩ <;> by_cases hi : i = b
  · rw [hi, push_heap_self]
    have := h.pages b
    simp only [Bucket.insertPage, List.length_cons]
    push_cast
    omega
  · rw [push_heap_of_ne p hi]
    exact h.pages i
  · rw [hi, push_heap_self]
    exact h.localDepth b
  · rw [push_heap_of_ne p hi]
    exact h.localDepth i

/-- A page that makes no bucket split leaves a bucket that fits. -/
theorem Splittable.push_refits (h : Splittable xxh64 t) {b : ℕ} (hc : ¬ Overfills t b)
    (p : Page δ) : Refits t (t.push b p) ∧ Fits (t.push b p) b := by
  have hfits : Fits (t.push b p) b := by
    have hp := h.pages b
    have hd := h.localDepth b
    rw [Fits, push_heap_self]
    simp only [Bucket.insertPage, List.length_cons]
    show _ ≤ t.bucketMaxSize ∨ _ = (t.globalDepth : ℤ)
    rw [Overfills, not_and_or] at hc
    push_cast
    omega
  refine ⟨⟨rfl, rfl, fun i => ?_⟩, hfits⟩
  by_cases hi : i = b
  · exact .inr (hi ▸ hfits)
  · exact .inl (push_heap_of_ne p hi)

theorem fits_of_empty (hpos : 1 ≤ t.bucketMaxSize) {b : ℕ} (he : (t.heap b).pages = []) :
    Fits t b := by
  left
  rw [he, List.length_nil]
  push_cast
  omega

section Cleared

variable (h : Splittable xxh64 t) {p : Page δ} {c : Bool} {rest : List Bool} {b : ℕ}
  (hid : t.hashFunction xxh64 p.pageId = c :: rest) (hb : t.buckets.find (c :: rest) = some b)

include h hid hb

theorem Splittable.cleared (hc : Overfills t b) :
    Splittable xxh64 ((t.push b p).cleared b (true :: rest)) := by
  have hpush := h.push (hid.symm ▸ hb)
  have hbp : (t.push b p).buckets.find (c :: rest) = some b := hb
  have hlt := hpush.routed.alloc _ b hbp
  have hdepth : ((t.push b p).heap b).localDepth + 1 ≤ t.globalDepth := by
    rw [push_heap_self]
    exact hc.2
  refine ⟨hpush.routed.cleared hbp, fun i => ?_, fun i => ?_⟩ <;> by_cases hi : i = b
  · rw [hi, cleared_heap_self]
    rfl
  · rcases cleared_heap_cases (true :: rest) hlt hi with he | ⟨-, -, he⟩
    · rw [he]; exact hpush.pages i
    · rw [he]; rfl
  · rw [hi, cleared_heap_self]
    exact hdepth
  · rcases cleared_heap_cases (true :: rest) hlt hi with he | ⟨-, -, he⟩
    · rw [he]; exact hpush.localDepth i
    · rw [he]; exact hdepth

/-- The bucket that is split and the new one are empty. -/
theorem Splittable.cleared_refits (hpos : 1 ≤ t.bucketMaxSize) :
    Refits t ((t.push b p).cleared b (true :: rest)) ∧
      Fits ((t.push b p).cleared b (true :: rest)) b := by
  have hbp : (t.push b p).buckets.find (c :: rest) = some b := hb
  have hlt := (h.push (hid.symm ▸ hb)).routed.alloc _ b hbp
  have hpos : 1 ≤ ((t.push b p).cleared b (true :: rest)).bucketMaxSize := hpos
  have hfits : Fits ((t.push b p).cleared b (true :: rest)) b :=
    fits_of_empty hpos (by rw [cleared_heap_self])
  refine ⟨⟨rfl, rfl, fun i => ?_⟩, hfits⟩
  by_cases hi : i = b
  · exact .inr (hi ▸ hfits)
  · rcases cleared_heap_cases (true :: rest) hlt hi with he | ⟨-, -, he⟩
    · exact .inl (he.trans (push_heap_of_ne p hi))
    · exact .inr (fits_of_empty hpos (by rw [he]; rfl))

end Cleared

/-- The buckets of `t₀` that are not as they were fit. -/
theorem insertable_refits (t₀ : ExtendibleHashtable δ) (hpos : 1 ≤ t₀.bucketMaxSize) :
    Insertable xxh64 fun t (_ : List (Page δ)) => Splittable xxh64 t ∧ Refits t₀ t where
  routed h := h.1.routed
  push h hb hc := ⟨h.1.push hb, h.2.trans (h.1.push_refits hc _).1⟩
  split h hid hb hc :=
    ⟨h.1.cleared hid hb hc, h.2.trans (h.1.cleared_refits hid hb (h.2.bucketMaxSize ▸ hpos)).1⟩

theorem Splittable.insertPageFuel (h : Splittable xxh64 t) (hpos : 1 ≤ t.bucketMaxSize) {fuel : ℕ}
    {p : Page δ} (hfuel : Enough xxh64 fuel t p) :
    ∃ t', insertPageFuel xxh64 fuel t p = .ok t' ∧ Splittable xxh64 t' ∧ Refits t t' ∧
      Deepens t t' := by
  obtain ⟨t', ht', ⟨hs, hr⟩, hd⟩ := (insertable_refits t hpos).insertPageFuel fuel t p []
    ⟨h, .refl t⟩ hfuel
  exact ⟨t', ht', hs, hr, hd⟩

/-- A bucket that has got a page fits, as it keeps fitting through the rest of the loop. -/
theorem receiversOf_fits {fuel : ℕ}
    (hins : ∀ (t : ExtendibleHashtable δ) (p : Page δ), Splittable xxh64 t →
      1 ≤ t.bucketMaxSize → Enough xxh64 fuel t p → ∃ t', insertPageFuel xxh64 fuel t p = .ok t' ∧
        Splittable xxh64 t' ∧ Refits t t' ∧ Deepens t t' ∧
        ∀ b ∈ receiversFuel xxh64 fuel t p, Fits t' b) :
    ∀ {pages : List (Page δ)} {t : ExtendibleHashtable δ}, Splittable xxh64 t →
      1 ≤ t.bucketMaxSize → (∀ q ∈ pages, Enough xxh64 fuel t q) →
      ∃ t', pages.foldlM (insertPageFuel xxh64 fuel) t = .ok t' ∧ Refits t t' ∧
        ∀ b ∈ receiversOf (insertPageFuel xxh64 fuel) (receiversFuel xxh64 fuel) pages t,
          Fits t' b := by
  intro pages
  induction pages with
  | nil =>
    intro t _ _ _
    exact ⟨t, rfl, .refl t, fun b hb => absurd hb List.not_mem_nil⟩
  | cons p pages ih =>
    intro t h hpos hf
    obtain ⟨t₁, h₁, hs₁, hr₁, hd₁, hb₁⟩ := hins t p h hpos (hf p List.mem_cons_self)
    obtain ⟨t', h', hr', hb'⟩ := ih hs₁ (hr₁.bucketMaxSize ▸ hpos) fun q hq =>
      (hf q (List.mem_cons_of_mem p hq)).deepens hd₁
    refine ⟨t', by rw [List.foldlM_cons, h₁, ok_bind, h'], hr₁.trans hr', fun b hb => ?_⟩
    rw [receiversOf, h₁] at hb
    rcases List.mem_append.mp hb with hb | hb
    · exact hr'.fits (hb₁ b hb)
    · exact hb' b hb

theorem receiversFuel_fits (fuel : ℕ) : ∀ (t : ExtendibleHashtable δ) (p : Page δ),
    Splittable xxh64 t → 1 ≤ t.bucketMaxSize → Enough xxh64 fuel t p →
    ∃ t', insertPageFuel xxh64 fuel t p = .ok t' ∧ Splittable xxh64 t' ∧ Refits t t' ∧
      Deepens t t' ∧ ∀ b ∈ receiversFuel xxh64 fuel t p, Fits t' b := by
  induction fuel with
  | zero => intro t p _ _ hf; exact absurd hf.2 (lt_irrefl 0)
  | succ fuel ih =>
    intro t p h hpos hf
    obtain ⟨t', ht', hs, hr, hd⟩ := h.insertPageFuel hpos hf
    refine ⟨t', ht', hs, hr, hd, fun i hi => ?_⟩
    obtain ⟨b, hb, -⟩ := h.routed.bucketAt_hash p.pageId
    rw [insertPageFuel_succ fuel hb] at ht'
    simp only [receiversFuel, hb] at hi
    split_ifs at ht' hi with hc
    · obtain ⟨c, rest, hid⟩ := h.routed.exists_cons hb hc.2
      have hb' : t.buckets.find (c :: rest) = some b := hid ▸ hb
      obtain ⟨hcr, hcf⟩ := h.cleared_refits hid hb' hpos
      obtain ⟨u, hu, hru, hbu⟩ := receiversOf_fits ih (h.cleared hid hb' hc) hpos
        (h.routed.enough_push hid hb' hc hf)
      rw [hid, splitBucket_eq (h.routed.push hb) _ hb', hu, Except.ok.injEq] at ht'
      rw [hid, List.tail_cons] at hi
      subst ht'
      rcases List.mem_cons.mp hi with rfl | hi
      · exact hru.fits hcf
      · exact hbu i hi
    · cases ht'
      obtain rfl := List.mem_singleton.mp hi
      exact (h.push_refits hc p).2

/-! ### Runs -/

theorem new_splittable {minSize maxSize : ℕ} {bucketMaxSize : ℤ} (hle : minSize ≤ maxSize)
    (hmax : maxSize < 2147483648) :
    Splittable xxh64 (new minSize maxSize bucketMaxSize : ExtendibleHashtable δ) := by
  refine ⟨new_routed hle hmax, fun b => le_rfl, fun b => ?_⟩
  simp only [new, Bucket.new]
  split_ifs <;> omega

theorem Splittable.expandDirectory (h : Splittable xxh64 t) :
    Splittable xxh64 t.expandDirectory.2 := by
  refine ⟨h.routed.expandDirectory, fun b => ?_, fun b => ?_⟩
  · rw [expandDirectory_heap]
    exact h.pages b
  · have hd := h.localDepth b
    rw [expandDirectory_heap]
    by_cases hg : t.globalDepth = t.maxDepth
    · simpa only [ExtendibleHashtable.expandDirectory, if_pos hg] using hd
    · rw [expandDirectory_globalDepth hg]
      push_cast
      omega

theorem Splittable.removePage (h : Splittable xxh64 t) {p : Page δ} (hp : p ∈ t.stored) :
    ∃ t', t.removePage xxh64 p = .ok t' ∧ Splittable xxh64 t' ∧
      t'.bucketMaxSize = t.bucketMaxSize := by
  obtain ⟨b, -, hm⟩ := mem_stored.mp hp
  have hb := h.routed.placed b p hm
  have hrouted : Routed xxh64
      (t.setBucket b ((t.heap b).removePage p) (t.size - 1) (p :: t.deleted)) :=
    h.routed.setBucket (fun q hq => h.routed.placed b q (List.mem_of_mem_filter hq))
      (h.routed.localDepth b)
  refine ⟨_, removePage_eq hb, ⟨hrouted, fun i => ?_, fun i => ?_⟩, rfl⟩ <;> by_cases hi : i = b
  · -- the page itself is among those that the filter drops
    have hlt : ((t.heap b).removePage p).pages.length < (t.heap b).pages.length :=
      List.length_filter_lt_length_iff_exists.mpr ⟨p, hm, by simp⟩
    have hsize := h.pages b
    rw [hi, setBucket_heap_self]
    show _ ≤ (t.heap b).size - 1
    omega
  · rw [setBucket_heap_of_ne hi]
    exact h.pages i
  · rw [hi, setBucket_heap_self]
    exact h.localDepth b
  · rw [setBucket_heap_of_ne hi]
    exact h.localDepth i

theorem Splittable.inserts (h : Splittable xxh64 t) (hpos : 1 ≤ t.bucketMaxSize) (p : Page δ) :
    ∃ t', Inserts xxh64 t p t' ∧ Splittable xxh64 t' ∧ t'.bucketMaxSize = t.bucketMaxSize := by
  obtain ⟨b, hb, -⟩ := h.routed.bucketAt_hash p.pageId
  have hle := h.localDepth b
  have hdepth := h.routed.localDepth b
  have henough : Enough xxh64 ((t.globalDepth - (t.heap b).localDepth).toNat + 1) t p :=
    ⟨by simp only [depthAt, hb]; omega, Nat.succ_pos _⟩
  obtain ⟨t', ht', hs, hr, -⟩ := h.insertPageFuel hpos henough
  have hreturns : t.insertPage xxh64 p = .ok t' := insertPageFuel_mono (by omega) ht'
  obtain ⟨u, hu, -, -, -, hfits⟩ := receiversFuel_fits _ t p h hpos (h.routed.enough p)
  obtain rfl : u = t' := Except.ok.inj (hu.symm.trans hreturns)
  exact ⟨u, ⟨hreturns, ⟨b, hb, ht'⟩, hfits⟩, hs, hr.bucketMaxSize⟩

theorem Splittable.step {op : Op δ} (h : Splittable xxh64 t) (hpos : 1 ≤ t.bucketMaxSize)
    (hop : RemovesStored t op) : ∃ r t', step xxh64 op t = .ok (r, t') ∧ Splittable xxh64 t' ∧
      t'.bucketMaxSize = t.bucketMaxSize := by
  cases op with
  | insertPage p =>
    obtain ⟨t', hi, hs, hm⟩ := h.inserts hpos p
    exact ⟨(), t', by rw [ExtendibleHashtable.step, hi.returns]; rfl, hs, hm⟩
  | removePage p =>
    obtain ⟨t', ht', hs, hm⟩ := h.removePage hop
    exact ⟨(), t', by rw [ExtendibleHashtable.step, ht']; rfl, hs, hm⟩
  | expandDirectory =>
    refine ⟨(), _, rfl, h.expandDirectory, ?_⟩
    simp only [ExtendibleHashtable.expandDirectory]
    split_ifs <;> rfl

/-- After any run an insertion returns, whatever the hash, and leaves each bucket that
got a page small enough or as deep as the directory. -/
theorem insertPage_terminates (xxh64 : String → UInt64) {minSize maxSize : ℕ} {bucketMaxSize : ℤ}
    (hpos : 1 ≤ bucketMaxSize) (hle : minSize ≤ maxSize) (hmax : maxSize < 2147483648)
    {ops : List (Op δ)}
    (ha : Along (step xxh64) RemovesStored (new minSize maxSize bucketMaxSize) ops) :
    ∃ rs t, run (step xxh64) ops (new minSize maxSize bucketMaxSize) = .ok (rs, t) ∧
      ∀ page, ∃ t', Inserts xxh64 t page t' := by
  obtain ⟨rs, t, hr, ⟨hs, hm⟩, -⟩ := run_simulates (step xxh64)
    (R := fun t (_ : Unit) => Splittable xxh64 t ∧ 1 ≤ t.bucketMaxSize) (P := RemovesStored)
    (G := fun _ _ => True) (Q := fun _ _ _ => True)
    (fun t _ op h _ hop => by
      obtain ⟨r, t', ht', hs', hm'⟩ := h.1.step h.2 hop
      exact ⟨r, t', ht', ⟨hs', hm'.symm ▸ h.2⟩, trivial⟩)
    ⟨new_splittable hle hmax, hpos⟩ (alongTotal_true (fun _ u => u) () ops) ha
  refine ⟨rs, t, hr, fun page => ?_⟩
  obtain ⟨t', hi, -⟩ := hs.inserts hm page
  exact ⟨t', hi⟩

/-- All pages collide, and two objects have one id. -/
theorem insertPage_terminates_collide : ∃ rs t,
    run (step fun _ => 0) [.insertPage ⟨0, "a", ()⟩, .insertPage ⟨1, "b", ()⟩, .expandDirectory,
      .expandDirectory, .removePage ⟨0, "a", ()⟩, .insertPage ⟨2, "b", ()⟩] (new 1 4 1) =
      .ok (rs, t) ∧ ∀ page, ∃ t', Inserts (fun _ => 0) t page t' :=
  insertPage_terminates (fun _ => 0) (by norm_num) (by norm_num) (by norm_num) (by decide)

end MiniKvs.ExtendibleHashtable
