import MiniKvs.Pool.LivePool

/-! The count of the pages. Whatever the directory looks like, the pages in the live
buckets are as many as the table says; a split moves them, a merge moves them, and an
insertion or a removal changes them by one. Splits end because each uses up depth. -/

namespace MiniKvs

open Lib

variable {δ : Type} {xxh64 : String → UInt64}

/-! ### Sums over buckets -/

section Sums

variable {M : Type} [AddCommMonoid M] (f : Bucket δ → M) {live : Finset ℕ} {heap : ℕ → Bucket δ}
  {b : ℕ}

theorem sum_update_bucket (hb : b ∈ live) (x : Bucket δ) :
    ∑ i ∈ live, f (Function.update heap b x i) + f (heap b) = ∑ i ∈ live, f (heap i) + f x := by
  have hrest : ∑ i ∈ live.erase b, f (Function.update heap b x i) =
      ∑ i ∈ live.erase b, f (heap i) :=
    Finset.sum_congr rfl fun i hi => by rw [Function.update_of_ne (Finset.ne_of_mem_erase hi)]
  rw [← Finset.add_sum_erase _ _ hb, ← Finset.add_sum_erase _ (fun i => f (heap i)) hb, hrest,
    Function.update_self]
  abel

theorem sum_insert_bucket (hb : b ∉ live) (x : Bucket δ) :
    ∑ i ∈ insert b live, f (Function.update heap b x i) = f x + ∑ i ∈ live, f (heap i) := by
  rw [Finset.sum_insert hb, Function.update_self]
  refine congrArg _ (Finset.sum_congr rfl fun i hi => ?_)
  rw [Function.update_of_ne]
  rintro rfl
  exact hb hi

end Sums

/-- The call does not run out of fuel. -/
def Ends {α : Type} (x : Except ShrinkFault α) : Prop := Avoids (.table .noReturn) x

def Bucket.addrs (b : Bucket δ) : Multiset ℕ := (b.pages.map Page.addr : List ℕ)

@[simp] theorem Bucket.card_addrs (b : Bucket δ) : b.addrs.card = b.pages.length := by
  simp [Bucket.addrs]

namespace LiveTable

variable {s s' s₀ : LiveTable δ} {b : ℕ}

/-- The addresses of the pages in the live buckets. -/
def held (s : LiveTable δ) : Multiset ℕ := ∑ b ∈ s.liveBuckets, (s.table.heap b).addrs

/-- The table counts the pages it holds. -/
structure Tallied (s : LiveTable δ) : Prop where
  allocated : ∀ b ∈ s.liveBuckets, b < s.table.allocated
  bucketSize : ∀ b ∈ s.liveBuckets, (s.table.heap b).size = (s.table.heap b).pages.length
  size : s.table.size = s.held.card

/-- The directory has the same ids and depths. -/
structure SameDirectory (s s' : LiveTable δ) : Prop where
  globalDepth : s'.table.globalDepth = s.table.globalDepth
  minDepth : s'.table.minDepth = s.table.minDepth
  maxDepth : s'.table.maxDepth = s.table.maxDepth
  keys : ∀ id, (s'.table.buckets.find id).isSome = (s.table.buckets.find id).isSome

theorem SameDirectory.refl (s : LiveTable δ) : SameDirectory s s := ⟨rfl, rfl, rfl, fun _ => rfl⟩

theorem SameDirectory.trans {s'' : LiveTable δ} (h : SameDirectory s s')
    (h' : SameDirectory s' s'') : SameDirectory s s'' :=
  ⟨h'.globalDepth.trans h.globalDepth, h'.minDepth.trans h.minDepth, h'.maxDepth.trans h.maxDepth,
    fun id => (h'.keys id).trans (h.keys id)⟩

/-! ### Writing to a bucket -/

/-- The table when bucket `b` is `x` and the count is `size`. -/
def write (s : LiveTable δ) (b : ℕ) (x : Bucket δ) (size : ℤ) : LiveTable δ :=
  { s with table := { s.table with heap := Function.update s.table.heap b x, size := size } }

section Write

variable (x : Bucket δ) (size : ℤ)

@[simp] theorem write_heap_self : (s.write b x size).table.heap b = x := Function.update_self ..

theorem write_heap_of_ne {i : ℕ} (hi : i ≠ b) :
    (s.write b x size).table.heap i = s.table.heap i := Function.update_of_ne hi ..

theorem held_write (hb : b ∈ s.liveBuckets) :
    (s.write b x size).held + (s.table.heap b).addrs = s.held + x.addrs :=
  sum_update_bucket Bucket.addrs hb x

theorem splitsLeft_write (hb : b ∈ s.liveBuckets) :
    (s.write b x size).splitsLeft +
        (2 ^ ((s.table.globalDepth : ℤ) - (s.table.heap b).localDepth).toNat - 1) =
      s.splitsLeft + (2 ^ ((s.table.globalDepth : ℤ) - x.localDepth).toNat - 1) :=
  sum_update_bucket (fun y => 2 ^ ((s.table.globalDepth : ℤ) - y.localDepth).toNat - 1) hb x

theorem Tallied.write (h : Tallied s) (hb : b ∈ s.liveBuckets) (hx : x.size = x.pages.length)
    (hsize : size + (s.table.heap b).pages.length = s.table.size + x.pages.length) :
    Tallied (s.write b x size) := by
  refine ⟨h.allocated, fun i hi => ?_, ?_⟩
  · by_cases hib : i = b
    · subst hib
      rw [write_heap_self]
      exact hx
    · rw [write_heap_of_ne x size hib]
      exact h.bucketSize i hi
  · have hcard := congrArg Multiset.card (held_write x size hb)
    rw [Multiset.card_add, Multiset.card_add, Bucket.card_addrs, Bucket.card_addrs] at hcard
    have hs := h.size
    show size = _
    omega

end Write

/-! ### Splitting -/

section NewBucket

variable (newId : List Bool) (depth : ℤ)

theorem Tallied.allocated_not_mem (h : Tallied s) : s.table.allocated ∉ s.liveBuckets :=
  fun hm => lt_irrefl _ (h.allocated _ hm)

theorem Tallied.held_newBucket (h : Tallied s) : (s.newBucket newId depth).held = s.held :=
  (sum_insert_bucket Bucket.addrs h.allocated_not_mem _).trans (zero_add _)

theorem Tallied.splitsLeft_newBucket (h : Tallied s) : (s.newBucket newId depth).splitsLeft =
    (2 ^ ((s.table.globalDepth : ℤ) - depth).toNat - 1) + s.splitsLeft :=
  sum_insert_bucket (fun y => 2 ^ ((s.table.globalDepth : ℤ) - y.localDepth).toNat - 1)
    h.allocated_not_mem _

theorem Tallied.newBucket (h : Tallied s) : Tallied (s.newBucket newId depth) := by
  refine ⟨fun i hi => ?_, fun i hi => ?_, ?_⟩
  · show i < s.table.allocated + 1
    rcases Finset.mem_insert.mp hi with rfl | hi
    · exact Nat.lt_succ_self _
    · exact (h.allocated i hi).trans (Nat.lt_succ_self _)
  · show (Function.update s.table.heap s.table.allocated (.new depth) i).size = _
    rcases Finset.mem_insert.mp hi with rfl | hi
    · simp [LiveTable.newBucket, Bucket.new]
    · have hne : i ≠ s.table.allocated := (h.allocated i hi).ne
      simp only [LiveTable.newBucket, Function.update_of_ne hne]
      exact h.bucketSize i hi
  · rw [h.held_newBucket]
    exact h.size

end NewBucket

theorem two_pow_toNat_sub_one {x : ℤ} (h : 0 < x) :
    2 ^ x.toNat - 1 = 2 * (2 ^ (x - 1).toNat - 1) + 1 := by
  have hx : x.toNat = (x - 1).toNat + 1 := by omega
  have hpos : 0 < 2 ^ (x - 1).toNat := by positivity
  rw [hx, pow_succ]
  omega

def deepen (s : LiveTable δ) (b : ℕ) : LiveTable δ :=
  s.write b (s.table.heap b).incrementLocalDepth s.table.size

def clear (s : LiveTable δ) (b : ℕ) : LiveTable δ :=
  s.write b (s.table.heap b).clear (s.table.size - (s.table.heap b).size)

section Empty

variable (hb : b ∈ s.liveBuckets)

include hb

theorem held_deepen : (s.deepen b).held = s.held := add_right_cancel (held_write _ _ hb)

theorem Tallied.deepen (h : Tallied s) : Tallied (s.deepen b) :=
  h.write _ _ hb (h.bucketSize b hb) rfl

theorem splitsLeft_deepen (hlt : (s.table.heap b).localDepth < s.table.globalDepth) :
    (s.deepen b).splitsLeft +
      (2 ^ ((s.table.globalDepth : ℤ) - ((s.table.heap b).localDepth + 1)).toNat - 1) <
    s.splitsLeft := by
  have hw := splitsLeft_write (s.table.heap b).incrementLocalDepth s.table.size hb
  have hpow := two_pow_toNat_sub_one (sub_pos.mpr hlt)
  rw [show (s.table.globalDepth : ℤ) - (s.table.heap b).localDepth - 1 =
    s.table.globalDepth - ((s.table.heap b).localDepth + 1) by ring] at hpow
  simp only [LiveTable.deepen, Bucket.incrementLocalDepth] at hw ⊢
  omega

theorem Tallied.clear (h : Tallied s) : Tallied (s.clear b) := by
  refine h.write _ _ hb rfl ?_
  rw [h.bucketSize b hb]
  simp [Bucket.clear]

theorem held_clear : (s.clear b).held + (s.table.heap b).addrs = s.held :=
  (held_write _ _ hb).trans (add_zero _)

theorem splitsLeft_clear : (s.clear b).splitsLeft = s.splitsLeft :=
  add_right_cancel (splitsLeft_write _ _ hb)

end Empty

/-- An overflowing bucket `b` has been emptied and may be split less often. -/
structure Emptied (s s' : LiveTable δ) (b : ℕ) : Prop where
  tallied : Tallied s'
  held : s'.held + (s.table.heap b).addrs = s.held
  directory : SameDirectory s s'
  splitsLeft : s'.splitsLeft < s.splitsLeft

theorem Tallied.emptied (h : Tallied s) (hb : b ∈ s.liveBuckets)
    (hlt : (s.table.heap b).localDepth < s.table.globalDepth) :
    Emptied s ((s.deepen b).clear b) b := by
  have hheap : (s.deepen b).table.heap b = (s.table.heap b).incrementLocalDepth :=
    write_heap_self ..
  have hheld := held_clear (s := s.deepen b) hb
  rw [hheap, held_deepen hb] at hheld
  refine ⟨(h.deepen hb).clear hb, hheld, ⟨rfl, rfl, rfl, fun _ => rfl⟩, ?_⟩
  rw [splitsLeft_clear (s := s.deepen b) hb]
  have := splitsLeft_deepen hb hlt
  omega

theorem Tallied.emptied_new (h : Tallied s) (hb : b ∈ s.liveBuckets)
    (hlt : (s.table.heap b).localDepth < s.table.globalDepth) {newId : List Bool} {n : ℕ}
    (hn : s.table.buckets.find newId = some n) :
    Emptied s (((s.deepen b).newBucket newId ((s.table.heap b).localDepth + 1)).clear b) b := by
  have hd := h.deepen hb
  have hmem : b ∈ ((s.deepen b).newBucket newId
    ((s.table.heap b).localDepth + 1)).liveBuckets := Finset.mem_insert_of_mem hb
  have hheap : ((s.deepen b).newBucket newId ((s.table.heap b).localDepth + 1)).table.heap b =
      (s.table.heap b).incrementLocalDepth :=
    (Function.update_of_ne (h.allocated b hb).ne ..).trans (write_heap_self ..)
  have hheld := held_clear hmem
  rw [hheap, hd.held_newBucket, held_deepen hb] at hheld
  refine ⟨(hd.newBucket _ _).clear hmem, hheld, ⟨rfl, rfl, rfl, fun id => ?_⟩, ?_⟩
  · show ((s.table.buckets.set newId s.table.allocated).find id).isSome = _
    rw [OrdMap.find_set]
    split_ifs with hid
    · rw [← hid, hn]
      rfl
    · rfl
  · rw [splitsLeft_clear hmem, hd.splitsLeft_newBucket]
    have := splitsLeft_deepen hb hlt
    have hg : (s.deepen b).table.globalDepth = s.table.globalDepth := rfl
    rw [hg]
    omega

theorem bucketAt_cases (s : LiveTable δ) (id : List Bool) :
    s.bucketAt id = .error (.table .outOfRange) ∨
      ∃ b, s.table.buckets.find id = some b ∧ s.bucketAt id = .ok b := by
  unfold bucketAt ExtendibleHashtable.bucketAt
  cases s.table.buckets.find id with
  | none => exact .inl rfl
  | some b => exact .inr ⟨b, rfl, rfl⟩

theorem splitBucket_eq {id newId : List Bool} (hb : s.usedBucket id = .ok b)
    (hnew : (if id.length < s.table.globalDepth then true :: id else true :: id.tail) = newId)
    (insert : LiveTable δ → Page δ → Except ShrinkFault (LiveTable δ)) :
    s.splitBucket insert id = (s.deepen b).bucketAt newId >>= fun n =>
      (s.deepen b).bucketAt (ExtendibleHashtable.getPairBucketId newId) >>= fun m =>
        let s₁ := if n = m then (s.deepen b).newBucket newId ((s.deepen b).table.heap b).localDepth
          else s.deepen b
        (s₁.table.heap b).pages.foldlM insert (s₁.clear b) := by
  subst hnew
  rw [splitBucket, hb]
  rfl

/-- A split puts the pages of the bucket in again, or finds no entry for its id or its pair. -/
theorem Tallied.splitBucket (h : Tallied s) {id : List Bool} (hf : s.table.buckets.find id = some b)
    (hb : b ∈ s.liveBuckets) (hlt : (s.table.heap b).localDepth < s.table.globalDepth)
    (insert : LiveTable δ → Page δ → Except ShrinkFault (LiveTable δ)) :
    s.splitBucket insert id = .error (.table .outOfRange) ∨ ∃ s₁, Emptied s s₁ b ∧
      s.splitBucket insert id = (s.table.heap b).pages.foldlM insert s₁ := by
  obtain ⟨newId, hnew⟩ : ∃ newId, (if id.length < s.table.globalDepth then true :: id
    else true :: id.tail) = newId := ⟨_, rfl⟩
  rw [splitBucket_eq (usedBucket_eq_ok.mpr ⟨hf, hb⟩) hnew]
  rcases bucketAt_cases (s.deepen b) newId with hn | ⟨n, hn, hn'⟩
  · exact .inl (by rw [hn, error_bind])
  rcases bucketAt_cases (s.deepen b) (ExtendibleHashtable.getPairBucketId newId) with
    hp | ⟨m, -, hp⟩
  · exact .inl (by rw [hn', ok_bind, hp, error_bind])
  have hheap : (s.deepen b).table.heap b = (s.table.heap b).incrementLocalDepth :=
    write_heap_self ..
  rw [hn', ok_bind, hp, ok_bind]
  by_cases he : n = m
  · have hheap' : ((s.deepen b).newBucket newId ((s.table.heap b).localDepth + 1)).table.heap b =
        (s.table.heap b).incrementLocalDepth :=
      (Function.update_of_ne (h.allocated b hb).ne ..).trans hheap
    refine .inr ⟨_, h.emptied_new hb hlt hn, ?_⟩
    simp only [if_pos he, hheap, Bucket.incrementLocalDepth] at hheap' ⊢
    rw [hheap']
  · refine .inr ⟨_, h.emptied hb hlt, ?_⟩
    simp only [if_neg he, hheap]
    rfl

/-! ### Insertion -/

def push (s : LiveTable δ) (b : ℕ) (p : Page δ) : LiveTable δ :=
  s.write b ((s.table.heap b).insertPage p) (s.table.size + 1)

theorem Tallied.push (h : Tallied s) (hb : b ∈ s.liveBuckets) (p : Page δ) :
    Tallied (s.push b p) := by
  refine h.write _ _ hb ?_ ?_
  · simp [Bucket.insertPage, h.bucketSize b hb]
  · simp only [Bucket.insertPage, List.length_cons]
    push_cast
    ring

theorem held_push (hb : b ∈ s.liveBuckets) (p : Page δ) :
    (s.push b p).held = p.addr ::ₘ s.held := by
  have hw := held_write ((s.table.heap b).insertPage p) (s.table.size + 1) hb
  have haddrs : ((s.table.heap b).insertPage p).addrs = p.addr ::ₘ (s.table.heap b).addrs := rfl
  rw [haddrs, Multiset.add_cons, ← Multiset.cons_add] at hw
  exact add_right_cancel hw

theorem splitsLeft_push (hb : b ∈ s.liveBuckets) (p : Page δ) :
    (s.push b p).splitsLeft = s.splitsLeft := add_right_cancel (splitsLeft_write _ _ hb)

theorem Tallied.newPage (h : Tallied s) (addr : ℕ) : Tallied (s.newPage addr) :=
  ⟨h.allocated, h.bucketSize, h.size⟩

/-- What putting in pages with the addresses `added` does. -/
structure Adds (s s' : LiveTable δ) (added : Multiset ℕ) : Prop where
  tallied : Tallied s'
  held : s'.held = added + s.held
  directory : SameDirectory s s'
  splitsLeft : s'.splitsLeft ≤ s.splitsLeft

theorem Tallied.push_adds (h : Tallied s) (hb : b ∈ s.liveBuckets) (p : Page δ) :
    Adds s (s.push b p) {p.addr} :=
  ⟨h.push hb p, held_push hb p, ⟨rfl, rfl, rfl, fun _ => rfl⟩, (splitsLeft_push hb p).le⟩

theorem Adds.trans {s'' : LiveTable δ} {added added' : Multiset ℕ} (h : Adds s s' added)
    (h' : Adds s' s'' added') : Adds s s'' (added + added') where
  tallied := h'.tallied
  held := by rw [h'.held, h.held, ← add_assoc, add_comm added']
  directory := h.directory.trans h'.directory
  splitsLeft := h'.splitsLeft.trans h.splitsLeft

/-- The pages of an emptied bucket are put in again. -/
theorem Emptied.adds (h : Emptied s s' b) {s'' : LiveTable δ}
    (h' : Adds s' s'' (s.table.heap b).addrs) : Adds s s'' 0 where
  tallied := h'.tallied
  held := by rw [h'.held, zero_add, add_comm, h.held]
  directory := h.directory.trans h'.directory
  splitsLeft := h'.splitsLeft.trans h.splitsLeft.le

theorem usedBucket_cases (s : LiveTable δ) (id : List Bool) :
    (∃ e, e ≠ .table .noReturn ∧ s.usedBucket id = .error e) ∨
      ∃ b, s.table.buckets.find id = some b ∧ b ∈ s.liveBuckets ∧ s.usedBucket id = .ok b := by
  rcases bucketAt_cases s id with hb | ⟨b, hf, hb⟩
  · exact .inl ⟨.table .outOfRange, by decide, by rw [usedBucket, hb, error_bind]⟩
  · by_cases hl : b ∈ s.liveBuckets
    · exact .inr ⟨b, hf, hl, usedBucket_eq_ok.mpr ⟨hf, hl⟩⟩
    · exact .inl ⟨.deletedObject, by decide, by rw [usedBucket, hb, ok_bind, if_neg hl]⟩

theorem insertPageFuel_succ (fuel : ℕ) {p : Page δ} (hl : p.addr ∈ s.livePages)
    (hb : s.usedBucket (s.table.hashFunction xxh64 p.pageId) = .ok b) :
    insertPageFuel xxh64 (fuel + 1) s p =
      if ((s.push b p).table.heap b).size > s.table.bucketMaxSize ∧
          ((s.push b p).table.heap b).localDepth < s.table.globalDepth then
        LiveTable.splitBucket (insertPageFuel xxh64 fuel) (s.push b p)
          (s.table.hashFunction xxh64 p.pageId)
      else .ok (s.push b p) := by
  simp only [insertPageFuel, if_pos hl, hb, ok_bind]
  rfl

/-- A call puts the page in a bucket, and the bucket may be split. -/
theorem Tallied.insertPageFuel_cases (h : Tallied s) (xxh64 : String → UInt64) (fuel : ℕ)
    (p : Page δ) :
    (∃ e, e ≠ .table .noReturn ∧ insertPageFuel xxh64 (fuel + 1) s p = .error e) ∨
    ∃ b ∈ s.liveBuckets, insertPageFuel xxh64 (fuel + 1) s p = .ok (s.push b p) ∨
      ∃ s₁, Emptied (s.push b p) s₁ b ∧ insertPageFuel xxh64 (fuel + 1) s p =
        ((s.push b p).table.heap b).pages.foldlM (insertPageFuel xxh64 fuel) s₁ := by
  by_cases hl : p.addr ∈ s.livePages
  · rcases usedBucket_cases s (s.table.hashFunction xxh64 p.pageId) with ⟨e, he, hb⟩ |
      ⟨b, hf, hlive, hb⟩
    · exact .inl ⟨e, he, by simp only [insertPageFuel, if_pos hl, hb, error_bind]⟩
    · rw [insertPageFuel_succ fuel hl hb]
      by_cases hc : ((s.push b p).table.heap b).size > s.table.bucketMaxSize ∧
        ((s.push b p).table.heap b).localDepth < s.table.globalDepth
      · rw [if_pos hc]
        rcases (h.push hlive p).splitBucket hf hlive hc.2 (insertPageFuel xxh64 fuel) with
          he | ⟨s₁, he, hs⟩
        · exact .inl ⟨.table .outOfRange, by decide, he⟩
        · exact .inr ⟨b, hlive, .inr ⟨s₁, he, hs⟩⟩
      · exact .inr ⟨b, hlive, .inl (if_neg hc)⟩
  · exact .inl ⟨.deletedObject, by decide, by simp only [insertPageFuel, if_neg hl]⟩

theorem Tallied.foldlM_adds
    {insert : LiveTable δ → Page δ → Except ShrinkFault (LiveTable δ)}
    (hins : ∀ s p s', Tallied s → insert s p = .ok s' → Adds s s' {p.addr}) :
    ∀ {pages : List (Page δ)} {s s' : LiveTable δ}, Tallied s →
      pages.foldlM insert s = .ok s' → Adds s s' (pages.map Page.addr : List ℕ) := by
  intro pages
  induction pages with
  | nil =>
    intro s s' h hs
    cases hs
    exact ⟨h, (zero_add _).symm, .refl s, le_rfl⟩
  | cons p pages ih =>
    intro s s' h hs
    rw [List.foldlM_cons] at hs
    obtain ⟨s₁, h₁, h₂⟩ := bind_eq_ok.mp hs
    have ha := hins s p s₁ h h₁
    exact ha.trans (ih ha.tallied h₂)

theorem insertPageFuel_adds (fuel : ℕ) : ∀ (s : LiveTable δ) (p : Page δ) (s' : LiveTable δ),
    Tallied s → insertPageFuel xxh64 fuel s p = .ok s' → Adds s s' {p.addr} := by
  induction fuel with
  | zero => intro s p s' _ hs; cases hs
  | succ fuel ih =>
    intro s p s' h hs
    rcases h.insertPageFuel_cases xxh64 fuel p with ⟨e, -, he⟩ | ⟨b, hb, he | ⟨s₁, he, hf⟩⟩
    · rw [he] at hs
      cases hs
    · rw [he] at hs
      cases hs
      exact h.push_adds hb p
    · rw [hf] at hs
      exact (h.push_adds hb p).trans (he.adds (he.tallied.foldlM_adds ih hs))

/-- Splits use up depth, so the recursion ends. -/
theorem insertPageFuel_ends (fuel : ℕ) : ∀ (s : LiveTable δ) (p : Page δ), Tallied s →
    s.splitsLeft < fuel → Ends (insertPageFuel xxh64 fuel s p) := by
  induction fuel with
  | zero => intro s p _ hlt; exact absurd hlt (Nat.not_lt_zero _)
  | succ fuel ih =>
    intro s p h hlt
    rcases h.insertPageFuel_cases xxh64 fuel p with ⟨e, hne, he⟩ | ⟨b, hb, he | ⟨s₁, he, hf⟩⟩
    · rw [he]
      exact avoids_error hne
    · rw [he]
      exact avoids_ok _
    · rw [hf]
      refine avoids_foldlM (I := fun s => Tallied s ∧ s.splitsLeft < fuel)
        (fun s p hs => ih s p hs.1 hs.2) (fun s p s' hs h => ?_) ⟨he.tallied, ?_⟩
      · have ha := insertPageFuel_adds fuel s p s' hs.1 h
        exact ⟨ha.tallied, ha.splitsLeft.trans_lt hs.2⟩
      · have hsplits := he.splitsLeft
        rw [splitsLeft_push hb p] at hsplits
        omega

theorem Tallied.insertPage (h : Tallied s) {p : Page δ} (hs : s.insertPage xxh64 p = .ok s') :
    Adds s s' {p.addr} := insertPageFuel_adds _ s p s' h hs

theorem Tallied.insertPage_ends (h : Tallied s) (p : Page δ) : Ends (s.insertPage xxh64 p) :=
  insertPageFuel_ends _ s p h (Nat.lt_succ_self _)

/-! ### Removal -/

theorem getPage_eq_some {pageId : String} {p : Page δ}
    (h : s.getPage xxh64 pageId = .ok (some p)) :
    ∃ b ∈ s.liveBuckets, s.table.buckets.find (s.table.hashFunction xxh64 p.pageId) = some b ∧
      p ∈ (s.table.heap b).pages := by
  rw [getPage] at h
  cases hf : s.table.buckets.find (s.table.hashFunction xxh64 pageId) with
  | none =>
    rw [hf] at h
    cases h
  | some b =>
    simp only [hf] at h
    split_ifs at h with hl
    have hp := findPage_eq_ok h
    obtain rfl : p.pageId = pageId := by simpa using List.find?_some hp
    exact ⟨b, hl, hf, List.mem_of_find?_eq_some hp⟩

theorem held_eq (hb : b ∈ s.liveBuckets) :
    s.held = (s.table.heap b).addrs + ∑ i ∈ s.liveBuckets.erase b, (s.table.heap i).addrs :=
  (Finset.add_sum_erase _ (fun i => (s.table.heap i).addrs) hb).symm

theorem nodup_addrs (hn : s.held.Nodup) (hb : b ∈ s.liveBuckets) :
    ((s.table.heap b).pages.map Page.addr).Nodup := by
  rw [held_eq hb] at hn
  exact Multiset.coe_nodup.mp (Multiset.nodup_add.mp hn).1

/-- A page that was found is the only one that leaves. -/
theorem Tallied.removePage (h : Tallied s) (hn : s.held.Nodup) {pageId : String} {p : Page δ}
    (hg : s.getPage xxh64 pageId = .ok (some p)) (hr : s.removePage xxh64 p = .ok s') :
    Tallied s' ∧ s.held = p.addr ::ₘ s'.held ∧ SameDirectory s s' := by
  obtain ⟨b, hl, hf, hp⟩ := getPage_eq_some hg
  rw [LiveTable.removePage, usedBucket_eq_ok.mpr ⟨hf, hl⟩, ok_bind] at hr
  obtain ⟨s₁, hd, hr⟩ := bind_eq_ok.mp hr
  obtain ⟨-, rfl⟩ := deletePage_eq_ok.mp hd
  cases hr
  obtain ⟨xs, ys, hxy⟩ := List.append_of_mem hp
  have haddr := nodup_addrs hn hl
  rw [hxy] at haddr
  have hpages : ((s.table.heap b).removePage p).pages = xs ++ ys := by
    rw [Bucket.removePage, hxy, ExtendibleHashtable.filter_addr_ne haddr]
  have haddrs : (s.table.heap b).addrs = p.addr ::ₘ ((s.table.heap b).removePage p).addrs := by
    rw [Bucket.addrs, Bucket.addrs, hpages, hxy, Multiset.cons_coe, Multiset.coe_eq_coe]
    exact (List.perm_middle (a := p)).map Page.addr
  have hsize := h.bucketSize b hl
  have hw : Tallied (s.write b ((s.table.heap b).removePage p) (s.table.size - 1)) := by
    refine h.write _ _ hl ?_ ?_
    · rw [hpages]
      rw [hxy] at hsize
      simp only [Bucket.removePage, hsize, List.length_append, List.length_cons]
      push_cast
      ring
    · rw [hpages, hxy]
      simp only [List.length_append, List.length_cons]
      push_cast
      ring
  have hheld := held_write ((s.table.heap b).removePage p) (s.table.size - 1) hl
  rw [haddrs, Multiset.add_cons, ← Multiset.cons_add] at hheld
  exact ⟨⟨hw.allocated, hw.bucketSize, hw.size⟩, (add_right_cancel hheld).symm,
    ⟨rfl, rfl, rfl, fun _ => rfl⟩⟩

/-! ### Shrinking -/

/-- The bucket `n` when the pages of bucket `b` have been put into it. -/
def absorbed (s : LiveTable δ) (b n : ℕ) : Bucket δ :=
  ⟨(s.table.heap b).pages.reverse ++ (s.table.heap n).pages, (s.table.heap n).localDepth - 1,
    (s.table.heap n).size + (s.table.heap b).pages.length⟩

theorem Tallied.absorb (h : Tallied s) {n : ℕ} (hb : b ∈ s.liveBuckets) (hn : n ∈ s.liveBuckets)
    (hne : b ≠ n) (hlive : s'.liveBuckets = s.liveBuckets.erase b)
    (hheap : s'.table.heap = Function.update s.table.heap n (s.absorbed b n))
    (hsize : s'.table.size = s.table.size) (halloc : s'.table.allocated = s.table.allocated) :
    Tallied s' ∧ s'.held = s.held := by
  have hmoved : (s.absorbed b n).addrs = (s.table.heap b).addrs + (s.table.heap n).addrs := by
    simp only [absorbed, Bucket.addrs, List.map_append, List.map_reverse, Multiset.coe_add,
      Multiset.coe_eq_coe]
    exact (List.reverse_perm _).append_right _
  have hheld : s'.held = s.held := by
    have hw := held_write (s.absorbed b n) s.table.size hn
    rw [hmoved, ← add_assoc] at hw
    have hw := add_right_cancel hw
    rw [held_eq (s := s.write n (s.absorbed b n) s.table.size) hb,
      write_heap_of_ne _ _ hne, add_comm s.held] at hw
    rw [held, hlive, hheap]
    exact add_left_cancel hw
  refine ⟨⟨fun i hi => ?_, fun i hi => ?_, ?_⟩, hheld⟩
  · rw [hlive] at hi
    rw [halloc]
    exact h.allocated i (Finset.mem_of_mem_erase hi)
  · rw [hlive] at hi
    have hi := Finset.mem_of_mem_erase hi
    rw [hheap]
    by_cases hin : i = n
    · subst hin
      rw [Function.update_self]
      simp only [absorbed, h.bucketSize i hi, List.length_append, List.length_reverse]
      push_cast
      ring
    · rw [Function.update_of_ne hin]
      exact h.bucketSize i hi
  · rw [hsize, hheld]
    exact h.size

/-- A merge moves the pages of the bucket that is deleted. -/
theorem Tallied.mergeBucket (h : Tallied s) {id : List Bool} (hr : s.mergeBucket id = .ok s') :
    Tallied s' ∧ s'.held = s.held := by
  obtain ⟨b, -, hr⟩ := bind_eq_ok.mp hr
  obtain ⟨pairId, -, hr⟩ := bind_eq_ok.mp hr
  obtain ⟨n, -, hr⟩ := bind_eq_ok.mp hr
  split_ifs at hr with he hl
  · cases hr
    exact ⟨h, rfl⟩
  obtain ⟨s₁, h₁, hr⟩ := bind_eq_ok.mp hr
  obtain ⟨s₂, h₂, h₁⟩ := bind_eq_ok.mp h₁
  cases h₁
  cases hr
  rw [movePages_eq] at h₂
  obtain ⟨⟨deleted, ht⟩, hlive, -⟩ := foldlM_deletePage _ _ _ h₂
  exact h.absorb hl.1 hl.2 he (by rw [← hlive]) (by simp only [ht]; rfl) (by simp only [ht]; rfl)
    (by simp only [ht]; rfl)

theorem Tallied.shrinkDirectory (h : Tallied s) (hr : s.shrinkDirectory = .ok s') :
    Tallied s' ∧ s'.held = s.held := by
  rw [LiveTable.shrinkDirectory] at hr
  split_ifs at hr
  · cases hr
    exact ⟨h, rfl⟩
  obtain ⟨s₁, h₁, hr⟩ := bind_eq_ok.mp hr
  cases hr
  obtain ⟨ht, hh⟩ := foldlM_invariant (I := fun s₁ => Tallied s₁ ∧ s₁.held = s.held)
    (fun s₁ x s₂ hI hm => by
      obtain ⟨ht, hh⟩ := hI.1.mergeBucket hm
      exact ⟨ht, hh.trans hI.2⟩) ⟨h, rfl⟩ h₁
  exact ⟨⟨ht.allocated, ht.bucketSize, ht.size⟩, hh⟩

/-! ### The directory -/

/-- The directory has all ids of its depth, which is no less than the minimum. -/
structure Complete (s : LiveTable δ) : Prop where
  minDepth : s.table.minDepth ≤ s.table.globalDepth
  keys : ∀ id, (s.table.buckets.find id).isSome ↔ id.length = s.table.globalDepth

theorem Complete.same (h : Complete s) (hs : SameDirectory s s') : Complete s' := by
  refine ⟨?_, fun id => ?_⟩
  · rw [hs.minDepth, hs.globalDepth]
    exact h.minDepth
  · rw [hs.keys, hs.globalDepth]
    exact h.keys id

theorem Complete.newPage (h : Complete s) (addr : ℕ) : Complete (s.newPage addr) :=
  ⟨h.minDepth, h.keys⟩

theorem Complete.expandDirectory (h : Complete s) (hg : s.table.globalDepth ≠ s.table.maxDepth) :
    Complete s.expandDirectory := by
  have hdepth : s.expandDirectory.table.globalDepth = s.table.globalDepth + 1 :=
    ExtendibleHashtable.expandDirectory_globalDepth hg
  have hmin : s.expandDirectory.table.minDepth = s.table.minDepth :=
    ExtendibleHashtable.expandDirectory_minDepth
  refine ⟨?_, fun id => ?_⟩
  · have := h.minDepth
    omega
  · rw [hdepth]
    exact ExtendibleHashtable.expand_keys h.keys hg id

theorem Tallied.expandDirectory (h : Tallied s) :
    Tallied s.expandDirectory ∧ s.expandDirectory.held = s.held := by
  have hheap : s.expandDirectory.table.heap = s.table.heap :=
    ExtendibleHashtable.expandDirectory_heap
  have hheld : s.expandDirectory.held = s.held := by
    rw [held, hheap]
    rfl
  refine ⟨⟨fun b hb => ?_, fun b hb => ?_, ?_⟩, hheld⟩
  · rw [show s.expandDirectory.table.allocated = s.table.allocated from
      ExtendibleHashtable.expandDirectory_allocated]
    exact h.allocated b hb
  · rw [hheap]
    exact h.bucketSize b hb
  · rw [show s.expandDirectory.table.size = s.table.size from
      ExtendibleHashtable.expandDirectory_size, hheld]
    exact h.size

theorem Complete.shrinkDirectory_cases (h : Complete s) (hr : s.shrinkDirectory = .ok s') :
    s.table.globalDepth = s.table.minDepth ∧ s' = s ∨
      s.table.globalDepth ≠ s.table.minDepth ∧ Halved s s' := by
  by_cases hmin : s.table.globalDepth = s.table.minDepth
  · rw [LiveTable.shrinkDirectory, if_pos hmin] at hr
    exact .inl ⟨hmin, (Except.ok.inj hr).symm⟩
  · have hle := h.minDepth
    obtain ⟨g, hg⟩ : ∃ g, s.table.globalDepth = g + 1 := Nat.exists_eq_succ_of_ne_zero (by omega)
    have hkeys := h.keys
    rw [hg] at hkeys
    exact .inr ⟨hmin, shrinkDirectory_halved hkeys hg hmin hr⟩

theorem Complete.shrinkDirectory (h : Complete s) (hr : s.shrinkDirectory = .ok s') :
    Complete s' ∧ s'.table.minDepth = s.table.minDepth ∧ s'.table.maxDepth = s.table.maxDepth ∧
      s'.table.globalDepth =
        if s.table.globalDepth = s.table.minDepth then s.table.globalDepth
        else s.table.globalDepth - 1 := by
  rcases h.shrinkDirectory_cases hr with ⟨hmin, rfl⟩ | ⟨hmin, hh⟩
  · exact ⟨h, rfl, rfl, (if_pos hmin).symm⟩
  · have hg := hh.globalDepth
    have hm := hh.minDepth
    have hle := h.minDepth
    rw [if_neg hmin]
    exact ⟨⟨by omega, hh.keys h.keys⟩, hm, hh.maxDepth, by omega⟩

theorem shrinkLoop_tallied (fuel : ℕ) : ∀ {s s' : LiveTable δ}, Tallied s → Complete s →
    s.table.minDepth ≤ s.table.maxDepth → shrinkLoop fuel s = .ok s' →
      Tallied s' ∧ s'.held = s.held ∧ Complete s' ∧ s'.table.maxDepth = s.table.maxDepth ∧
        s'.table.globalDepth = min s.table.globalDepth s.table.maxDepth := by
  induction fuel with
  | zero =>
    intro s s' ht hc _ hr
    rw [shrinkLoop] at hr
    split_ifs at hr
    cases hr
    exact ⟨ht, rfl, hc, rfl, by omega⟩
  | succ fuel ih =>
    intro s s' ht hc hle hr
    rw [shrinkLoop] at hr
    split_ifs at hr with hg
    · obtain ⟨s₁, h₁, hr⟩ := bind_eq_ok.mp hr
      obtain ⟨ht₁, hh₁⟩ := ht.shrinkDirectory h₁
      obtain ⟨hc₁, hmin₁, hmax₁, hg₁⟩ := hc.shrinkDirectory h₁
      rw [if_neg (by omega)] at hg₁
      obtain ⟨ht', hh', hc', hmax', hg'⟩ := ih ht₁ hc₁ (by omega) hr
      exact ⟨ht', hh'.trans hh₁, hc', hmax'.trans hmax₁, by omega⟩
    · cases hr
      exact ⟨ht, rfl, hc, rfl, by omega⟩

/-- The state in which `setMaxSize` starts to shrink. -/
theorem Complete.limited (h : Complete s) (maxDepth : ℕ) :
    (if s.table.minDepth > maxDepth then maxDepth else s.table.minDepth) ≤ maxDepth ∧
      Complete { s with table := { s.table with
        maxDepth := maxDepth
        minDepth := if s.table.minDepth > maxDepth then maxDepth else s.table.minDepth } } := by
  have hmin := h.minDepth
  refine ⟨?_, ?_, h.keys⟩
  · split_ifs <;> omega
  · simp only
    split_ifs <;> omega

theorem Tallied.setMaxSize (ht : Tallied s) (hc : Complete s) {maxSize : ℕ}
    (hr : s.setMaxSize maxSize = .ok s') : Tallied s' ∧ s'.held = s.held ∧ Complete s' ∧
      s'.table.maxDepth = Nat.log 2 maxSize ∧
      s'.table.globalDepth = min s.table.globalDepth (Nat.log 2 maxSize) := by
  obtain ⟨hmin, hl⟩ := hc.limited (Nat.log 2 maxSize)
  refine shrinkLoop_tallied _ ?_ hl hmin hr
  exact ⟨ht.allocated, ht.bucketSize, ht.size⟩

theorem new_tallied (minSize maxSize : ℕ) (bucketMaxSize : ℤ) :
    Tallied (ofTable (.new minSize maxSize bucketMaxSize : ExtendibleHashtable δ)) ∧
      (ofTable (.new minSize maxSize bucketMaxSize : ExtendibleHashtable δ)).held = 0 := by
  have hheld : (ofTable (.new minSize maxSize bucketMaxSize : ExtendibleHashtable δ)).held = 0 :=
    Finset.sum_eq_zero fun _ _ => rfl
  refine ⟨⟨fun b hb => Finset.mem_range.mp hb, fun b _ => rfl, ?_⟩, hheld⟩
  rw [hheld]
  rfl

theorem new_complete {minSize maxSize : ℕ} {bucketMaxSize : ℤ} (hmin : Nat.log 2 minSize ≤ 32) :
    Complete (ofTable (.new minSize maxSize bucketMaxSize : ExtendibleHashtable δ)) :=
  ⟨le_rfl, ExtendibleHashtable.new_find hmin⟩

/-! ### The other calls end -/

theorem bucketAt_ends (s : LiveTable δ) (id : List Bool) : Ends (s.bucketAt id) := by
  rcases bucketAt_cases s id with h | ⟨b, -, h⟩
  · rw [h]
    exact avoids_error (by decide)
  · rw [h]
    exact avoids_ok b

theorem deletePage_ends (s : LiveTable δ) (p : Page δ) : Ends (s.deletePage p) := by
  rw [deletePage]
  split_ifs
  · exact avoids_ok _
  · exact avoids_error (by decide)

theorem mergeBucket_ends (s : LiveTable δ) (id : List Bool) : Ends (s.mergeBucket id) := by
  refine (bucketAt_ends s id).bind fun b _ => Avoids.bind ?_ fun pairId _ =>
    (bucketAt_ends s pairId).bind fun n _ => ?_
  · rw [getPairBucketId]
    split_ifs
    · exact avoids_error (by decide)
    · exact avoids_ok _
  · split_ifs
    · exact avoids_ok s
    · refine Avoids.bind (Avoids.bind ?_ fun _ _ => avoids_ok _) fun _ _ => avoids_ok _
      exact avoids_foldlM (I := fun _ => True) (fun s p _ => deletePage_ends s p)
        (fun _ _ _ _ _ => trivial) trivial
    · exact avoids_error (by decide)

theorem shrinkDirectory_ends (s : LiveTable δ) : Ends s.shrinkDirectory := by
  rw [LiveTable.shrinkDirectory]
  split_ifs
  · exact avoids_ok s
  · refine Avoids.bind ?_ fun _ _ => avoids_ok _
    refine avoids_foldlM (I := fun _ => True) ?_ (fun _ _ _ _ _ => trivial) trivial
    exact fun s x _ => mergeBucket_ends s x.1

theorem shrinkLoop_ends (fuel : ℕ) : ∀ {s : LiveTable δ}, Complete s →
    s.table.minDepth ≤ s.table.maxDepth → s.table.globalDepth ≤ s.table.maxDepth + fuel →
    Ends (shrinkLoop fuel s) := by
  induction fuel with
  | zero =>
    intro s _ _ hle
    rw [shrinkLoop, if_neg (by omega)]
    exact avoids_ok s
  | succ fuel ih =>
    intro s hc hmin hle
    rw [shrinkLoop]
    split_ifs with hg
    · refine (shrinkDirectory_ends s).bind fun s₁ h₁ => ?_
      obtain ⟨hc₁, hmin₁, hmax₁, hg₁⟩ := hc.shrinkDirectory h₁
      rw [if_neg (by omega)] at hg₁
      exact ih hc₁ (by omega) (by omega)
    · exact avoids_ok s

theorem Complete.setMaxSize_ends (h : Complete s) (maxSize : ℕ) : Ends (s.setMaxSize maxSize) := by
  obtain ⟨hmin, hl⟩ := h.limited (Nat.log 2 maxSize)
  exact shrinkLoop_ends _ hl hmin (Nat.le_add_left _ _)

theorem findPage_ends (s : LiveTable δ) (pageId : String) (pages : List (Page δ)) :
    Ends (s.findPage pageId pages) := by
  induction pages with
  | nil => exact avoids_ok none
  | cons page pages ih =>
    rw [findPage]
    split_ifs
    · exact avoids_ok _
    · exact ih
    · exact avoids_error (by decide)

theorem getPage_ends (s : LiveTable δ) (pageId : String) : Ends (s.getPage xxh64 pageId) := by
  rw [getPage]
  split
  · exact avoids_ok none
  · split_ifs
    · exact findPage_ends s pageId _
    · exact avoids_error (by decide)

theorem removePage_ends (s : LiveTable δ) (p : Page δ) : Ends (s.removePage xxh64 p) := by
  refine Avoids.bind ?_ fun b _ => (deletePage_ends _ p).bind fun _ _ => avoids_ok _
  rcases usedBucket_cases s (s.table.hashFunction xxh64 p.pageId) with ⟨e, he, h⟩ | ⟨b, -, -, h⟩
  · rw [h]
    exact avoids_error he
  · rw [h]
    exact avoids_ok b

end LiveTable

end MiniKvs
