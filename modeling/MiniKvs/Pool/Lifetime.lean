import MiniKvs.Pool.Tally
import Mathlib.Data.List.Sort

/-! The life of a table, from its constructor to its destructor. The calls use live
objects only, every live bucket has an entry in the directory, and every live page lies in
one bucket. So the destructor deletes everything, and nothing twice, unless a shrink has
left an entry or a page of a bucket that it deleted. -/

namespace MiniKvs

open Lib
open ExtendibleHashtable (Op Sound Holds Allowed Enough insertable_completes)

variable {δ : Type}

namespace ExtendibleHashtable

/-- The buckets of the directory, as some directory ids may lead to one bucket. -/
def gatherBuckets (t : ExtendibleHashtable δ) : List ℕ := (t.buckets.toList.map Prod.snd).dedup

/-- Count the buckets that were not seen before. -/
def getNumBuckets (t : ExtendibleHashtable δ) : ℕ :=
  (t.buckets.toList.foldl (fun x entry =>
    if entry.2 ∈ x.2 then x else (x.1 + 1, insert entry.2 x.2)) (0, (∅ : Finset ℕ))).1

end ExtendibleHashtable

namespace LiveTable

/-- `delete bucket`, where deleting it again is a fault. -/
def eraseBucket (s : LiveTable δ) (b : ℕ) : Except ShrinkFault (LiveTable δ) :=
  if b ∈ s.liveBuckets then s.deleteBucket b else .error .deletedObject

/-- The destructor. The set of the buckets is in the order of their addresses. -/
def destroy (address : ℕ → ℕ) (s : LiveTable δ) : Except ShrinkFault (LiveTable δ) := do
  let erasedBuckets := s.table.gatherBuckets.insertionSort fun a b => address a ≤ address b
  let s ← erasedBuckets.foldlM eraseBucket s
  .ok { s with table := { s.table with buckets := .empty } }

/-- The calls on a table with their uses of objects checked; a page that is put in is new. -/
def step (xxh64 : String → UInt64) : Op δ → LiveTable δ → Except ShrinkFault (Unit × LiveTable δ)
  | .insertPage page, s => ((s.newPage page.addr).insertPage xxh64 page).map fun s => ((), s)
  | .removePage page, s => (s.removePage xxh64 page).map fun s => ((), s)
  | .expandDirectory, s => .ok ((), s.expandDirectory)

end LiveTable

/-! ### The buckets of the directory -/

namespace ExtendibleHashtable

theorem mem_gatherBuckets {t : ExtendibleHashtable δ} {b : ℕ} :
    b ∈ t.gatherBuckets ↔ ∃ id, t.buckets.find id = some b := by
  rw [gatherBuckets, List.mem_dedup, List.mem_map]
  constructor
  · rintro ⟨x, hx, rfl⟩
    exact ⟨x.1, OrdMap.find_eq_some.mpr hx⟩
  · rintro ⟨id, hid⟩
    exact ⟨(id, b), OrdMap.find_eq_some.mp hid, rfl⟩

theorem foldl_count (l : List (List Bool × ℕ)) : ∀ seen : Finset ℕ,
    l.foldl (fun x entry => if entry.2 ∈ x.2 then x else (x.1 + 1, insert entry.2 x.2))
      (seen.card, seen) = ((seen ∪ (l.map Prod.snd).toFinset).card,
        seen ∪ (l.map Prod.snd).toFinset) := by
  induction l with
  | nil => intro seen; simp
  | cons x l ih =>
    intro seen
    rw [List.foldl_cons, List.map_cons, List.toFinset_cons, Finset.union_insert,
      ← Finset.insert_union]
    simp only
    split_ifs with hx
    · rw [ih, Finset.insert_eq_of_mem hx]
    · rw [← ih, Finset.card_insert_of_notMem hx]

theorem getNumBuckets_eq (t : ExtendibleHashtable δ) :
    t.getNumBuckets = t.gatherBuckets.toFinset.card := by
  have hfold := foldl_count t.buckets.toList ∅
  rw [Finset.card_empty, Finset.empty_union] at hfold
  rw [getNumBuckets, hfold]
  dsimp only
  refine congrArg Finset.card (Finset.ext fun b => ?_)
  rw [gatherBuckets, List.mem_toFinset, List.mem_toFinset, List.mem_dedup]

end ExtendibleHashtable

namespace LiveTable

variable {xxh64 : String → UInt64} {s s' : LiveTable δ} {t : ExtendibleHashtable δ} {b : ℕ}

/-- Nothing that the table uses has been deleted, and it uses every bucket. -/
structure Intact (s : LiveTable δ) : Prop where
  allocated : s.liveBuckets = Finset.range s.table.allocated
  entries : ∀ b, b ∈ s.liveBuckets ↔ ∃ id, s.table.buckets.find id = some b
  pages : ∀ b, ∀ p ∈ (s.table.heap b).pages, p.addr ∈ s.livePages

theorem Intact.used (h : Intact s) {id : List Bool} (hb : s.table.buckets.find id = some b) :
    s.usedBucket id = .ok b := usedBucket_eq_ok.mpr ⟨hb, (h.entries b).mpr ⟨id, hb⟩⟩

/-! ### Insertion -/

theorem Intact.write (h : Intact s) (b : ℕ) {x : Bucket δ} (size : ℤ)
    (hx : ∀ p ∈ x.pages, p.addr ∈ s.livePages) : Intact (s.write b x size) := by
  refine ⟨h.allocated, h.entries, fun i p hp => ?_⟩
  by_cases hi : i = b
  · subst hi
    rw [write_heap_self] at hp
    exact hx p hp
  · rw [write_heap_of_ne x size hi] at hp
    exact h.pages i p hp

theorem Intact.push (h : Intact s) (b : ℕ) {p : Page δ} (hp : p.addr ∈ s.livePages) :
    Intact (s.push b p) := by
  refine h.write b _ fun q hq => ?_
  rcases List.mem_cons.mp hq with rfl | hq
  · exact hp
  · exact h.pages b q hq

/-- The bucket that loses an entry to the new one keeps the other entry of the pair. -/
theorem Intact.newBucket (h : Intact s) {newId pairId : List Bool} {n : ℕ} (depth : ℤ)
    (hne : newId ≠ pairId) (hn : s.table.buckets.find newId = some n)
    (hp : s.table.buckets.find pairId = some n) : Intact (s.newBucket newId depth) := by
  have hfind : ∀ id, (s.newBucket newId depth).table.buckets.find id =
      if newId = id then some s.table.allocated else s.table.buckets.find id := by
    intro id
    rw [LiveTable.newBucket, OrdMap.find_set]
    split_ifs <;> rfl
  have hlive : ∀ i, i ∈ (s.newBucket newId depth).liveBuckets ↔
      i = s.table.allocated ∨ i ∈ s.liveBuckets := fun i => Finset.mem_insert
  refine ⟨?_, fun i => ?_, fun i p hp => ?_⟩
  · change insert s.table.allocated s.liveBuckets = Finset.range (s.table.allocated + 1)
    rw [h.allocated, Finset.range_add_one]
  · rw [hlive, h.entries]
    constructor
    · rintro (rfl | ⟨id, hid⟩)
      · exact ⟨newId, by rw [hfind, if_pos rfl]⟩
      · by_cases he : newId = id
        · subst he
          exact ⟨pairId, by rw [hfind, if_neg hne, hp, ← hn, hid]⟩
        · exact ⟨id, by rw [hfind, if_neg he, hid]⟩
    · rintro ⟨id, hid⟩
      rw [hfind] at hid
      split_ifs at hid with he
      · exact .inl (Option.some.inj hid).symm
      · exact .inr ⟨id, hid⟩
  · by_cases hi : i = s.table.allocated
    · subst hi
      simp [LiveTable.newBucket, Bucket.new] at hp
    · simp only [LiveTable.newBucket, Function.update_of_ne hi] at hp
      exact h.pages i p hp

/-- What the table does, the checked table does as well. -/
structure Follows (s s' : LiveTable δ) (t : ExtendibleHashtable δ) : Prop where
  table : s'.table = t
  livePages : s'.livePages = s.livePages
  intact : Intact s'

theorem Follows.trans {s'' : LiveTable δ} {t' : ExtendibleHashtable δ} (h : Follows s s' t)
    (h' : Follows s' s'' t') : Follows s s'' t' :=
  ⟨h'.table, h'.livePages.trans h.livePages, h'.intact⟩

theorem getPairBucketId_ne {newId : List Bool} (h : newId ≠ []) :
    newId ≠ ExtendibleHashtable.getPairBucketId newId := by
  obtain ⟨c, rest, rfl⟩ := List.exists_cons_of_ne_nil h
  simp [ExtendibleHashtable.getPairBucketId]

theorem bucketAt_of_table {id : List Bool} (h : s.table.bucketAt id = .ok b) :
    s.table.buckets.find id = some b := by
  unfold ExtendibleHashtable.bucketAt at h
  cases hf : s.table.buckets.find id with
  | none =>
    rw [hf] at h
    cases h
  | some b' =>
    rw [hf] at h
    exact congrArg some (Except.ok.inj h)

theorem Intact.foldlM {insert : LiveTable δ → Page δ → Except ShrinkFault (LiveTable δ)}
    {insert' : ExtendibleHashtable δ → Page δ → Outcome (ExtendibleHashtable δ)}
    (hins : ∀ {s p t}, Intact s → p.addr ∈ s.livePages → insert' s.table p = .ok t →
      ∃ s', insert s p = .ok s' ∧ Follows s s' t) :
    ∀ {pages : List (Page δ)} {s : LiveTable δ} {t : ExtendibleHashtable δ}, Intact s →
      (∀ p ∈ pages, p.addr ∈ s.livePages) → pages.foldlM insert' s.table = .ok t →
      ∃ s', pages.foldlM insert s = .ok s' ∧ Follows s s' t := by
  intro pages
  induction pages with
  | nil =>
    intro s t h _ ht
    exact ⟨s, rfl, Except.ok.inj ht, rfl, h⟩
  | cons p pages ih =>
    intro s t h hp ht
    rw [List.foldlM_cons] at ht
    obtain ⟨t₁, h₁, ht⟩ := bind_eq_ok.mp ht
    obtain ⟨s₁, hs₁, hf₁⟩ := hins h (hp p List.mem_cons_self) h₁
    obtain ⟨s', hs', hf'⟩ := ih hf₁.intact
      (fun q hq => by rw [hf₁.livePages]; exact hp q (List.mem_cons_of_mem p hq))
      (by rw [hf₁.table]; exact ht)
    exact ⟨s', by rw [List.foldlM_cons, hs₁, ok_bind, hs'], hf₁.trans hf'⟩

theorem Intact.splitBucket {insert : LiveTable δ → Page δ → Except ShrinkFault (LiveTable δ)}
    {insert' : ExtendibleHashtable δ → Page δ → Outcome (ExtendibleHashtable δ)}
    (hins : ∀ {s p t}, Intact s → p.addr ∈ s.livePages → insert' s.table p = .ok t →
      ∃ s', insert s p = .ok s' ∧ Follows s s' t) (h : Intact s) {id : List Bool}
    (ht : s.table.splitBucket insert' id = .ok t) :
    ∃ s', s.splitBucket insert id = .ok s' ∧ Follows s s' t := by
  obtain ⟨newId, hnew⟩ : ∃ newId, (if id.length < s.table.globalDepth then true :: id
    else true :: id.tail) = newId := ⟨_, rfl⟩
  have hne : newId ≠ [] := by
    rw [← hnew]
    split_ifs <;> exact List.cons_ne_nil _ _
  obtain ⟨b, hb, ht⟩ := bind_eq_ok.mp ht
  have hb := bucketAt_of_table hb
  obtain ⟨n, hn, ht⟩ := bind_eq_ok.mp ht
  obtain ⟨m, hm, ht⟩ := bind_eq_ok.mp ht
  rw [show (if id.length < (s.table.modifyBucket b Bucket.incrementLocalDepth).globalDepth
    then true :: id else true :: id.tail) = newId from hnew] at hn hm ht
  have hn := bucketAt_of_table (s := s.deepen b) hn
  have hm := bucketAt_of_table (s := s.deepen b) hm
  have hd : Intact (s.deepen b) := h.write b _ (h.pages b)
  rw [splitBucket_eq (h.used hb) hnew, bucketAt_eq_ok.mpr hn, ok_bind, bucketAt_eq_ok.mpr hm,
    ok_bind]
  -- the new bucket, if the pair was shared
  obtain ⟨s₁, hs₁⟩ : ∃ s₁, (if n = m then (s.deepen b).newBucket newId
    ((s.deepen b).table.heap b).localDepth else s.deepen b) = s₁ := ⟨_, rfl⟩
  have hi₁ : Intact s₁ := by
    rw [← hs₁]
    split_ifs with he
    · exact hd.newBucket _ (getPairBucketId_ne hne) hn (he ▸ hm)
    · exact hd
  have hl₁ : s₁.livePages = s.livePages := by
    rw [← hs₁]
    split_ifs <;> rfl
  have hc : Intact (s₁.clear b) := hi₁.write b _ fun p hp => absurd hp List.not_mem_nil
  simp only [hs₁]
  obtain ⟨s', hs', hf⟩ := Intact.foldlM hins hc (hi₁.pages b) (t := t) (by
    rw [← ht, ← hs₁]
    split_ifs <;> rfl)
  exact ⟨s', hs', hf.table, hf.livePages.trans hl₁, hf.intact⟩

theorem Intact.insertPageFuel (fuel : ℕ) : ∀ {s : LiveTable δ} {p : Page δ}
    {t : ExtendibleHashtable δ}, Intact s → p.addr ∈ s.livePages →
    s.table.insertPageFuel xxh64 fuel p = .ok t →
    ∃ s', s.insertPageFuel xxh64 fuel p = .ok s' ∧ Follows s s' t := by
  induction fuel with
  | zero => intro s p t _ _ ht; cases ht
  | succ fuel ih =>
    intro s p t h hp ht
    obtain ⟨b, hb, ht⟩ := bind_eq_ok.mp ht
    have hpush := h.push b hp
    rw [insertPageFuel_succ fuel hp (h.used (bucketAt_of_table hb))]
    have ht : (if ((s.push b p).table.heap b).size > s.table.bucketMaxSize ∧
        ((s.push b p).table.heap b).localDepth < s.table.globalDepth then
      ExtendibleHashtable.splitBucket (ExtendibleHashtable.insertPageFuel xxh64 fuel)
        (s.push b p).table (s.table.hashFunction xxh64 p.pageId)
      else .ok (s.push b p).table) = .ok t := ht
    split_ifs at ht ⊢
    · obtain ⟨s', hs', hf⟩ := hpush.splitBucket (fun hi hp => ih hi hp) ht
      exact ⟨s', hs', hf.table, hf.livePages, hf.intact⟩
    · exact ⟨s.push b p, rfl, Except.ok.inj ht, rfl, hpush⟩

/-- Each split that is left can be made, so the fuel is enough. -/
theorem Intact.enough (h : Intact s) (hsound : Sound xxh64 s.table) (p : Page δ) :
    Enough xxh64 (s.splitsLeft + 1) s.table p := by
  obtain ⟨b, hb, -⟩ := hsound.bucketAt_hash p.pageId
  have hl : b ∈ s.liveBuckets := (h.entries b).mpr ⟨_, hb⟩
  have hone := Finset.single_le_sum
    (f := fun b => 2 ^ ((s.table.globalDepth : ℤ) - (s.table.heap b).localDepth).toNat - 1)
    (fun i _ => Nat.zero_le _) hl
  have hpow := Nat.lt_two_pow_self (n :=
    ((s.table.globalDepth : ℤ) - (s.table.heap b).localDepth).toNat)
  have hsum : 2 ^ ((s.table.globalDepth : ℤ) - (s.table.heap b).localDepth).toNat - 1 ≤
    s.splitsLeft := hone
  refine ⟨?_, Nat.succ_pos _⟩
  simp only [ExtendibleHashtable.depthAt, hb]
  push_cast
  omega

theorem ofTable_insertPage {p : Page δ} (h : Intact (ofTable t)) (hsound : Sound xxh64 t)
    (hp : ∀ q ∈ t.stored, q.pageId ≠ p.pageId) {t' : ExtendibleHashtable δ}
    (ht : t.insertPage xxh64 p = .ok t') :
    ((ofTable t).newPage p.addr).insertPage xxh64 p = .ok (ofTable t') ∧ Intact (ofTable t') := by
  have hi : Intact ((ofTable t).newPage p.addr) :=
    ⟨h.allocated, h.entries, fun b q hq => Finset.mem_insert_of_mem (h.pages b q hq)⟩
  obtain ⟨t₁, ht₁, ⟨-, hst⟩, -⟩ := (insertable_completes (hsound.ids_cons hp)).insertPageFuel
    (((ofTable t).newPage p.addr).splitsLeft + 1) t p [] ⟨hsound, List.Perm.refl _⟩
    (hi.enough hsound p)
  obtain rfl := ExtendibleHashtable.insertPageFuel_unique ht₁ ht
  obtain ⟨s', hs', hf⟩ := hi.insertPageFuel _ (Finset.mem_insert_self _ _) ht₁
  -- the pages in the table are those that were there and the new one
  have hlive : s'.livePages = (t₁.stored.map Page.addr).toFinset := by
    rw [hf.livePages]
    change insert p.addr (t.stored.map Page.addr).toFinset = _
    rw [← List.toFinset_cons, ← List.map_cons]
    exact (List.toFinset_eq_of_perm _ _ (hst.map Page.addr)).symm
  have he : s' = ofTable t₁ := by
    obtain ⟨table, live, pages⟩ := s'
    obtain ⟨rfl, -, hi'⟩ := hf
    obtain rfl : live = Finset.range table.allocated := hi'.allocated
    obtain rfl : pages = (table.stored.map Page.addr).toFinset := hlive
    rfl
  exact ⟨by rw [insertPage, hs', he], he ▸ hf.intact⟩

/-! ### Removal -/

/-- A sound table that uses all its buckets. -/
theorem ofTable_intact (h : Sound xxh64 t)
    (he : ∀ b, b < t.allocated ↔ ∃ id, t.buckets.find id = some b) : Intact (ofTable t) :=
  ⟨rfl, fun b => Finset.mem_range.trans (he b), fun b _ hp =>
    List.mem_toFinset.mpr (List.mem_map_of_mem (h.mem_stored.mpr ⟨b, hp⟩))⟩

theorem Intact.lt_iff (h : Intact (ofTable t)) (b : ℕ) :
    b < t.allocated ↔ ∃ id, t.buckets.find id = some b := by
  rw [← Finset.mem_range]
  exact h.entries b

theorem ofTable_removePage {p : Page δ} (h : Intact (ofTable t)) (hsound : Sound xxh64 t)
    (ha : (t.stored.map Page.addr).Nodup) (hp : p ∈ t.stored) {t' : ExtendibleHashtable δ}
    (ht : t.removePage xxh64 p = .ok t') :
    (ofTable t).removePage xxh64 p = .ok (ofTable t') ∧ Intact (ofTable t') := by
  obtain ⟨b, hb, -⟩ := hsound.bucketAt_hash p.pageId
  obtain ⟨t₁, ht₁, hsound₁, hst, -⟩ := hsound.removePage ha hp
  obtain rfl := Except.ok.inj (ht₁.symm.trans ht)
  rw [ExtendibleHashtable.removePage_eq hb] at ht
  -- the page is deleted, and no other page lies at its address
  have hn := (hst.map Page.addr).nodup_iff.mp ha
  rw [List.map_cons, List.nodup_cons] at hn
  have hlive : (t.stored.map Page.addr).toFinset.erase p.addr =
      (t₁.stored.map Page.addr).toFinset := by
    rw [List.toFinset_eq_of_perm _ _ (hst.map Page.addr), List.map_cons, List.toFinset_cons,
      Finset.erase_insert (by rw [List.mem_toFinset]; exact hn.1)]
  have hmem : p.addr ∈ (t.stored.map Page.addr).toFinset :=
    List.mem_toFinset.mpr (List.mem_map_of_mem hp)
  have he := h.lt_iff
  cases ht
  refine ⟨bind_eq_ok.mpr ⟨b, h.used hb,
    bind_eq_ok.mpr ⟨_, deletePage_eq_ok.mpr ⟨hmem, rfl⟩, ?_⟩⟩, ofTable_intact hsound₁ he⟩
  exact congrArg (fun pages => Except.ok (LiveTable.mk
    (t.setBucket b ((t.heap b).removePage p) (t.size - 1) (p :: t.deleted))
    (Finset.range t.allocated) pages)) hlive

/-! ### Runs -/

theorem ofTable_expandDirectory (h : Intact (ofTable t)) (hsound : Sound xxh64 t) :
    (ofTable t).expandDirectory = ofTable t.expandDirectory.2 ∧
      Intact (ofTable t.expandDirectory.2) := by
  have he := h.lt_iff
  refine ⟨?_, ofTable_intact hsound.expandDirectory fun b => ?_⟩
  · rw [LiveTable.expandDirectory, ofTable, ofTable, ExtendibleHashtable.expandDirectory_allocated,
      ExtendibleHashtable.expandDirectory_stored]
  · rw [ExtendibleHashtable.expandDirectory_allocated, he]
    by_cases hg : t.globalDepth = t.maxDepth
    · rw [ExtendibleHashtable.expandDirectory, if_pos hg]
    · simp only [ExtendibleHashtable.expand_find hsound.keys hg]
      constructor
      · rintro ⟨id, hid⟩
        have hlen : id.length = t.globalDepth := (hsound.keys id).mp (by rw [hid]; rfl)
        exact ⟨false :: id, by rw [if_pos (by rw [List.length_cons, hlen]), List.tail_cons, hid]⟩
      · rintro ⟨id, hid⟩
        split_ifs at hid
        exact ⟨id.tail, hid⟩

/-- The table is as its objects say, and holds the pages `ps`. -/
structure Mirrors (xxh64 : String → UInt64) (s : LiveTable δ) (ps : List (Page δ)) : Prop where
  mirror : ofTable s.table = s
  intact : Intact s
  holds : Holds xxh64 s.table ps
  minDepth : s.table.minDepth ≤ s.table.globalDepth

theorem new_mirrors {minSize maxSize : ℕ} {bucketMaxSize : ℤ} (hle : minSize ≤ maxSize)
    (hmax : maxSize < 2147483648) : Mirrors xxh64
      (.ofTable (.new minSize maxSize bucketMaxSize : ExtendibleHashtable δ)) [] := by
  have hsound : Sound xxh64 (.new minSize maxSize bucketMaxSize : ExtendibleHashtable δ) :=
    ExtendibleHashtable.new_sound hle hmax
  have hdepth : Nat.log 2 minSize ≤ 32 := hsound.depth_le
  refine ⟨rfl, ofTable_intact hsound fun b => ⟨fun hb => ?_, ?_⟩,
    ⟨hsound, by rw [ofTable, ExtendibleHashtable.new_stored], List.nodup_nil⟩, le_rfl⟩
  · exact ⟨_, ExtendibleHashtable.new_find_getBinaryFromInt hdepth hb⟩
  · rintro ⟨id, hid⟩
    exact hsound.alloc id b hid

theorem Mirrors.step {ps : List (Page δ)} {op : Op δ} (h : Mirrors xxh64 s ps)
    (ha : Allowed ps op) : ∃ r s', step xxh64 op s = .ok (r, s') ∧
      Mirrors xxh64 s' (ExtendibleHashtable.held op ps) := by
  obtain ⟨r, t', ht', hh'⟩ := h.holds.step ha
  have hm' := h.holds.step_minDepth ha ht' h.minDepth
  have hsound := h.holds.sound
  have hi := h.intact
  rw [← h.mirror] at hi ⊢
  refine ⟨(), ofTable t', ?_⟩
  cases op with
  | insertPage p =>
    obtain ⟨t₁, ht₁, he⟩ := map_eq_ok.mp ht'
    cases he
    obtain ⟨hs', hi'⟩ := ofTable_insertPage hi hsound
      (fun q hq => (ha q (h.holds.stored.mem_iff.mp hq)).1) ht₁
    exact ⟨map_eq_ok.mpr ⟨_, hs', rfl⟩, rfl, hi', hh', hm'⟩
  | removePage p =>
    obtain ⟨t₁, ht₁, he⟩ := map_eq_ok.mp ht'
    cases he
    obtain ⟨hs', hi'⟩ := ofTable_removePage hi hsound
      ((h.holds.stored.map Page.addr).nodup_iff.mpr h.holds.addrs)
      (h.holds.stored.mem_iff.mpr ha) ht₁
    exact ⟨map_eq_ok.mpr ⟨_, hs', rfl⟩, rfl, hi', hh', hm'⟩
  | expandDirectory =>
    cases ht'
    obtain ⟨hs', hi'⟩ := ofTable_expandDirectory hi hsound
    exact ⟨congrArg (fun s => Except.ok ((), s)) hs', rfl, hi', hh', hm'⟩

theorem run_mirrors (xxh64 : String → UInt64) {minSize maxSize : ℕ} {bucketMaxSize : ℤ}
    (hle : minSize ≤ maxSize) (hmax : maxSize < 2147483648) {ops : List (Op δ)}
    (ha : AlongTotal ExtendibleHashtable.held Allowed [] ops) :
    ∃ rs s, run (step xxh64) ops (.ofTable (.new minSize maxSize bucketMaxSize)) = .ok (rs, s) ∧
      Mirrors xxh64 s (finalState ExtendibleHashtable.held [] ops) := by
  obtain ⟨rs, s, hr, hs, -⟩ := run_simulates (step xxh64) (P := fun _ _ => True)
    (R := Mirrors xxh64) (Q := fun _ _ _ => True) (fun s ps op hm hg _ => by
      obtain ⟨r, s', hs', hm'⟩ := hm.step hg
      exact ⟨r, s', hs', hm', trivial⟩) (new_mirrors hle hmax) ha (along_true _ _ _)
  exact ⟨rs, s, hr, hs⟩

/-! ### Destruction -/

/-- Each live page lies in one live bucket. -/
def Accounted (s : LiveTable δ) : Prop := s.livePages.val = s.held

theorem foldlM_deletePage_of_val : ∀ {pages : List (Page δ)} {s : LiveTable δ} {rest : Multiset ℕ},
    s.livePages.val = (pages.map Page.addr : List ℕ) + rest →
    ∃ s', pages.foldlM deletePage s = .ok s' ∧ s'.livePages.val = rest ∧
      s'.liveBuckets = s.liveBuckets ∧ s'.table.heap = s.table.heap := by
  intro pages
  induction pages with
  | nil => intro s rest h; exact ⟨s, rfl, h.trans (zero_add rest), rfl, rfl⟩
  | cons p pages ih =>
    intro s rest h
    rw [List.map_cons, ← Multiset.cons_coe, Multiset.cons_add] at h
    have hmem : p.addr ∈ s.livePages := by
      rw [← Finset.mem_val, h]
      exact Multiset.mem_cons_self _ _
    obtain ⟨s', hs', hl, hb, ht⟩ := ih (s := { s with
      table := { s.table with deleted := p :: s.table.deleted }
      livePages := s.livePages.erase p.addr }) (by
        rw [Finset.erase_val, h, Multiset.erase_cons_head])
    exact ⟨s', by rw [List.foldlM_cons, deletePage_eq_ok.mpr ⟨hmem, rfl⟩, ok_bind, hs'], hl, hb, ht⟩

theorem Accounted.eraseBucket (h : Accounted s) (hb : b ∈ s.liveBuckets) :
    ∃ s', s.eraseBucket b = .ok s' ∧ Accounted s' ∧ s'.liveBuckets = s.liveBuckets.erase b := by
  obtain ⟨s', hs', hl, hlive, hheap⟩ := foldlM_deletePage_of_val (h.trans (held_eq hb))
  refine ⟨_, by rw [LiveTable.eraseBucket, if_pos hb, deleteBucket, hs', ok_bind], ?_, ?_⟩
  · change s'.livePages.val = ∑ i ∈ s'.liveBuckets.erase b, (s'.table.heap i).addrs
    rw [hl, hlive, hheap]
  · rw [← hlive]

theorem Accounted.foldlM_eraseBucket : ∀ {bs : List ℕ} {s : LiveTable δ}, Accounted s → bs.Nodup →
    (∀ b ∈ bs, b ∈ s.liveBuckets) → ∃ s', bs.foldlM LiveTable.eraseBucket s = .ok s' ∧
      Accounted s' ∧ s'.liveBuckets = s.liveBuckets \ bs.toFinset := by
  intro bs
  induction bs with
  | nil => intro s h _ _; exact ⟨s, rfl, h, by simp⟩
  | cons b bs ih =>
    intro s h hn hb
    obtain ⟨hnb, hn⟩ := List.nodup_cons.mp hn
    obtain ⟨s₁, h₁, ha₁, hl₁⟩ := h.eraseBucket (hb b List.mem_cons_self)
    obtain ⟨s', hs', ha', hl'⟩ := ih ha₁ hn fun c hc => by
      rw [hl₁, Finset.mem_erase]
      exact ⟨fun he => hnb (he ▸ hc), hb c (List.mem_cons_of_mem b hc)⟩
    refine ⟨s', by rw [List.foldlM_cons, h₁, ok_bind, hs'], ha', ?_⟩
    rw [hl', hl₁]
    ext c
    simp only [Finset.mem_sdiff, Finset.mem_erase, List.toFinset_cons, Finset.mem_insert]
    tauto

/-- Nothing of the table is left. -/
structure Freed (s : LiveTable δ) : Prop where
  liveBuckets : s.liveBuckets = ∅
  livePages : s.livePages = ∅

theorem Accounted.destroy (h : Accounted s)
    (he : ∀ b, b ∈ s.liveBuckets ↔ ∃ id, s.table.buckets.find id = some b) (address : ℕ → ℕ) :
    ∃ s', s.destroy address = .ok s' ∧ Freed s' := by
  have hperm := List.perm_insertionSort (fun a b => address a ≤ address b) s.table.gatherBuckets
  have hmem : ∀ b, b ∈ s.table.gatherBuckets.insertionSort (fun a b => address a ≤ address b) ↔
      b ∈ s.liveBuckets := fun b => by
    rw [hperm.mem_iff, ExtendibleHashtable.mem_gatherBuckets, he]
  obtain ⟨s', hs', ha', hl'⟩ := h.foldlM_eraseBucket (hperm.nodup_iff.mpr (List.nodup_dedup _))
    fun b hb => (hmem b).mp hb
  have hempty : s'.liveBuckets = ∅ := by
    rw [hl', Finset.sdiff_eq_empty_iff_subset]
    exact fun b hb => List.mem_toFinset.mpr ((hmem b).mpr hb)
  refine ⟨_, bind_eq_ok.mpr ⟨s', hs', rfl⟩, hempty, ?_⟩
  rw [Accounted, held, hempty, Finset.sum_empty] at ha'
  exact Finset.val_eq_zero.mp ha'

/-- A destructor that returns has found every bucket and every page live. -/
theorem foldlM_eraseBucket_live : ∀ {bs : List ℕ} {s s' : LiveTable δ},
    bs.foldlM eraseBucket s = .ok s' → ∀ b ∈ bs, b ∈ s.liveBuckets ∧
      ∀ p ∈ (s.table.heap b).pages, p.addr ∈ s.livePages := by
  intro bs
  induction bs with
  | nil => intro s s' _ b hb; cases hb
  | cons c bs ih =>
    intro s s' h b hb
    rw [List.foldlM_cons] at h
    obtain ⟨s₁, h₁, h⟩ := bind_eq_ok.mp h
    rw [eraseBucket] at h₁
    split_ifs at h₁ with hc
    obtain ⟨s₂, h₂, h₁⟩ := bind_eq_ok.mp h₁
    cases h₁
    obtain ⟨⟨deleted, ht⟩, hlive, hsub, hp⟩ := foldlM_deletePage _ _ _ h₂
    rcases List.mem_cons.mp hb with rfl | hb
    · exact ⟨hc, fun p hm => (hp p hm).1⟩
    · obtain ⟨hb₂, hp₂⟩ := ih h b hb
      simp only [ht, hlive] at hb₂ hp₂
      exact ⟨Finset.mem_of_mem_erase hb₂, fun p hm => hsub (hp₂ p hm)⟩

theorem not_dangling_of_destroy {address : ℕ → ℕ} (h : s.destroy address = .ok s') :
    ¬ Dangling s := by
  rintro ⟨id, b, hb, hd⟩
  obtain ⟨s₁, h₁, -⟩ := bind_eq_ok.mp h
  obtain ⟨hl, hp⟩ := foldlM_eraseBucket_live h₁ b (by
    rw [List.mem_insertionSort, ExtendibleHashtable.mem_gatherBuckets]
    exact ⟨id, hb⟩)
  rcases hd with hn | ⟨p, hm, hn⟩
  · exact hn hl
  · exact hn (hp p hm)

theorem held_ofTable (t : ExtendibleHashtable δ) :
    (ofTable t).held = (t.stored.map Page.addr : List ℕ) := by
  have hsum : ∀ n, ∑ b ∈ Finset.range n, (t.heap b).addrs =
      (((List.range n).flatMap fun b => (t.heap b).pages).map Page.addr : List ℕ) := by
    intro n
    induction n with
    | zero => rfl
    | succ n ih =>
      rw [Finset.sum_range_succ, ih, List.range_succ, List.flatMap_append, List.map_append,
        List.flatMap_singleton, Bucket.addrs, Multiset.coe_add]
  exact hsum t.allocated

theorem Mirrors.accounted {ps : List (Page δ)} (h : Mirrors xxh64 s ps) : Accounted s := by
  have hn := (h.holds.stored.map Page.addr).nodup_iff.mpr h.holds.addrs
  rw [← h.mirror, Accounted, held_ofTable]
  exact (List.toFinset_val _).trans (congrArg _ hn.dedup)

/-- Every run uses live objects only, and the destructor then deletes everything, each
bucket and each page once. -/
theorem run_destroy (xxh64 : String → UInt64) {minSize maxSize : ℕ} {bucketMaxSize : ℤ}
    (hle : minSize ≤ maxSize) (hmax : maxSize < 2147483648) (ops : List (Op δ))
    (ha : AlongTotal ExtendibleHashtable.held Allowed [] ops) :
    ∃ rs s, run (step xxh64) ops (.ofTable (.new minSize maxSize bucketMaxSize)) = .ok (rs, s) ∧
      s.table.getNumBuckets = s.liveBuckets.card ∧
      s.livePages = ((finalState ExtendibleHashtable.held [] ops).map Page.addr).toFinset ∧
      ∀ address, ∃ s', s.destroy address = .ok s' ∧ Freed s' := by
  obtain ⟨rs, s, hr, hm⟩ := run_mirrors xxh64 hle hmax ha
  refine ⟨rs, s, hr, ?_, ?_, hm.accounted.destroy hm.intact.entries⟩
  · rw [ExtendibleHashtable.getNumBuckets_eq]
    refine congrArg Finset.card (Finset.ext fun b => ?_)
    rw [List.mem_toFinset, ExtendibleHashtable.mem_gatherBuckets, hm.intact.entries]
  · rw [← List.toFinset_eq_of_perm _ _ (hm.holds.stored.map Page.addr)]
    exact congrArg livePages hm.mirror.symm

theorem run_destroy_split : ∃ rs s,
    run (step fun id => id.length.toUInt64)
      [.insertPage ⟨0, "a", ()⟩, .expandDirectory, .insertPage ⟨1, "bc", ()⟩,
        .removePage ⟨0, "a", ()⟩] (.ofTable (.new 1 4 1)) = .ok (rs, s) ∧
      s.table.getNumBuckets = s.liveBuckets.card ∧ s.livePages = {1} ∧
      ∀ address, ∃ s', s.destroy address = .ok s' ∧ Freed s' :=
  run_destroy _ (by norm_num) (by norm_num) _ (by
    simp [AlongTotal, Allowed, ExtendibleHashtable.held])

/-! ### Destruction after a shrink -/

/-- Every live bucket has an entry. -/
def Listed (s : LiveTable δ) : Prop := ∀ b ∈ s.liveBuckets, ∃ id, s.table.buckets.find id = some b

theorem Halved.listed {s₀ : LiveTable δ} (h : Halved s₀ s)
    (hkeys : ∀ id, (s₀.table.buckets.find id).isSome ↔ id.length = s₀.table.globalDepth)
    (hl : Listed s₀) : Listed s := by
  intro b hb
  obtain ⟨hb, hkept⟩ := (h.liveBuckets b).mp hb
  obtain ⟨id, hid⟩ := hl b hb
  obtain ⟨c, x, rfl⟩ := h.exists_cons hkeys hid
  refine ⟨x, h.find_one hkeys ?_⟩
  cases c with
  | true => exact hid
  | false => exact hkept x hid

theorem shrinkLoop_listed (fuel : ℕ) : ∀ {s s' : LiveTable δ}, Complete s →
    s.table.minDepth ≤ s.table.maxDepth → shrinkLoop fuel s = .ok s' → Listed s → Listed s' := by
  induction fuel with
  | zero =>
    intro s s' _ _ h hl
    rw [shrinkLoop] at h
    split_ifs at h
    cases h
    exact hl
  | succ fuel ih =>
    intro s s' hc hmin h hl
    rw [shrinkLoop] at h
    split_ifs at h with hg
    · obtain ⟨s₁, h₁, h⟩ := bind_eq_ok.mp h
      obtain ⟨hc₁, hmin₁, hmax₁, -⟩ := hc.shrinkDirectory h₁
      refine ih hc₁ (by omega) h ?_
      rcases hc.shrinkDirectory_cases h₁ with ⟨-, rfl⟩ | ⟨-, hh⟩
      · exact hl
      · exact hh.listed hc.keys hl
    · cases h
      exact hl

theorem Complete.shrink_listed (hc : Complete s) (call : Shrink) (h : call.run s = .ok s')
    (hl : Listed s) : Listed s' := by
  cases call with
  | shrinkDirectory =>
    rcases hc.shrinkDirectory_cases h with ⟨-, rfl⟩ | ⟨-, hh⟩
    · exact hl
    · exact hh.listed hc.keys hl
  | setMaxSize maxSize =>
    obtain ⟨hmin, hc'⟩ := hc.limited (Nat.log 2 maxSize)
    exact shrinkLoop_listed _ hc' hmin h hl

theorem Shrunk.accounted {j : ℕ} (h : Shrunk xxh64 t j s) (hn : (t.stored.map Page.addr).Nodup) :
    Accounted s := by
  have hsub : ∑ b ∈ s.liveBuckets, (s.table.heap b).addrs = (ofTable t).held := by
    refine (Finset.sum_congr rfl fun b _ => by rw [Bucket.addrs, h.pages]; rfl).trans
      (Finset.sum_subset h.liveBuckets fun b hb hd => ?_)
    change (t.heap b).addrs = 0
    rw [Bucket.addrs, h.deleted b (Finset.mem_range.mp hb) hd]
    rfl
  rw [Accounted, held, hsub, held_ofTable, h.livePages]
  exact (List.toFinset_val _).trans (congrArg _ hn.dedup)

end LiveTable

namespace Shrink

open LiveTable

variable {xxh64 : String → UInt64} {s : LiveTable δ} {t : ExtendibleHashtable δ}
  (hsound : Sound xxh64 t) (hmin : t.minDepth ≤ t.globalDepth) (call : Shrink)

include hsound hmin

theorem mergesEmpty_of_run (h : call.run (.ofTable t) = .ok s) (hd : ¬ Dangling s) :
    ∀ j < call.levels t, MergesEmpty t j := by
  intro j hj
  have hc : Complete (ofTable t) := ⟨hmin, hsound.keys⟩
  cases call with
  | shrinkDirectory =>
    have h₀ : Shrunk xxh64 t 0 (.ofTable t) := .start hsound t.minDepth t.maxDepth
    have hj : j < if t.globalDepth = t.minDepth then 0 else 1 := hj
    split_ifs at hj with hg
    · exact absurd hj (Nat.not_lt_zero j)
    · obtain rfl : j = 0 := Nat.lt_one_iff.mp hj
      rcases hc.shrinkDirectory_cases h with ⟨he, -⟩ | ⟨-, hh⟩
      · exact absurd he hg
      · exact (h₀.mergesEmpty_iff hsound).mpr fun x b hb hne => hh.empty hsound.keys hd hb hne
  | setMaxSize maxSize =>
    exact mergesEmpty_of_shrinkLoop hsound (.start hsound _ _) (hc.limited (Nat.log 2 maxSize)).1
      h hd j (Nat.zero_le j) (Nat.add_lt_of_lt_sub hj)

theorem shrunk_of_mergesEmpty (he : ∀ j < call.levels t, MergesEmpty t j) :
    ∃ s j, call.run (.ofTable t) = .ok s ∧ Shrunk xxh64 t j s := by
  have hc : Complete (ofTable t) := ⟨hmin, hsound.keys⟩
  cases call with
  | shrinkDirectory =>
    have h₀ : Shrunk xxh64 t 0 (.ofTable t) := .start hsound t.minDepth t.maxDepth
    by_cases hg : t.globalDepth = t.minDepth
    · exact ⟨ofTable t, 0, if_pos hg, h₀⟩
    · obtain ⟨g, hg'⟩ : ∃ g, t.globalDepth = g + 1 := Nat.exists_eq_succ_of_ne_zero (by omega)
      have hlevels : levels .shrinkDirectory t = 1 := if_neg hg
      obtain ⟨s, hs, -, hsh⟩ := shrinkDirectory_step hsound h₀ hg' hg
        (he 0 (by rw [hlevels]; exact Nat.one_pos))
      exact ⟨s, 1, hs, hsh⟩
  | setMaxSize maxSize =>
    obtain ⟨s, j, hs, hsh⟩ := shrinkLoop_of_mergesEmpty hsound t.globalDepth
      (.start hsound _ _) (hc.limited (Nat.log 2 maxSize)).1 (Nat.le_add_left _ _)
      fun i _ hi => he i (Nat.lt_sub_of_add_lt hi)
    exact ⟨s, j, hs, hsh⟩

end Shrink

namespace LiveTable

/-- After any run and a shrink, the destructor returns exactly when every bucket that the
shrink merged was empty and had no other entry; otherwise it deletes something again. Where
it returns, nothing is left. -/
theorem shrink_destroy_iff (xxh64 : String → UInt64) {minSize maxSize : ℕ} {bucketMaxSize : ℤ}
    (hle : minSize ≤ maxSize) (hmax : maxSize < 2147483648) {ops : List (Op δ)}
    (ha : AlongTotal ExtendibleHashtable.held Allowed [] ops) {rs : List Unit} {s s' : LiveTable δ}
    (hr : run (step xxh64) ops (.ofTable (.new minSize maxSize bucketMaxSize)) = .ok (rs, s))
    (call : Shrink) (hc : call.run s = .ok s') (address : ℕ → ℕ) :
    ((∃ s'', s'.destroy address = .ok s'') ↔ ∀ j < call.levels s.table, MergesEmpty s.table j) ∧
      ∀ s'', s'.destroy address = .ok s'' → Freed s'' := by
  obtain ⟨rs₁, s₁, hr₁, hm⟩ := run_mirrors xxh64 hle hmax ha
  obtain ⟨-, rfl⟩ := Prod.mk.inj (Except.ok.inj (hr₁.symm.trans hr))
  have hsound := hm.holds.sound
  have hcomplete : Complete s₁ := ⟨hm.minDepth, hsound.keys⟩
  have hlisted := hcomplete.shrink_listed call hc fun b hb => (hm.intact.entries b).mp hb
  have hrun : call.run (.ofTable s₁.table) = .ok s' := by rw [hm.mirror, hc]
  have hfree : (∀ j < call.levels s₁.table, MergesEmpty s₁.table j) →
      ∃ s'', s'.destroy address = .ok s'' ∧ Freed s'' := by
    intro he
    obtain ⟨s₂, j, hs₂, hsh⟩ := call.shrunk_of_mergesEmpty hsound hm.minDepth he
    obtain rfl := Except.ok.inj (hs₂.symm.trans hrun)
    refine (hsh.accounted ?_).destroy (fun b => ⟨hlisted b, ?_⟩) address
    · exact (hm.holds.stored.map Page.addr).nodup_iff.mpr hm.holds.addrs
    · rintro ⟨id, hid⟩
      exact hsh.reach id b hid
  have hempty : ∀ s'', s'.destroy address = .ok s'' →
      ∀ j < call.levels s₁.table, MergesEmpty s₁.table j := fun s'' hs'' =>
    call.mergesEmpty_of_run hsound hm.minDepth hrun (not_dangling_of_destroy hs'')
  refine ⟨⟨?_, fun he => ?_⟩, fun s'' hs'' => ?_⟩
  · rintro ⟨s'', hs''⟩
    exact hempty s'' hs''
  · obtain ⟨s'', hs'', -⟩ := hfree he
    exact ⟨s'', hs''⟩
  · obtain ⟨s₂, hs₂, hf⟩ := hfree (hempty s'' hs'')
    obtain rfl := Except.ok.inj (hs₂.symm.trans hs'')
    exact hf

/-- The bucket of the entry 0 is merged with a page in it, which is then deleted twice. -/
theorem shrink_destroy_iff_twice : ∃ rs s s',
    run (step fun id => id.length.toUInt64)
      [.expandDirectory, .insertPage ⟨0, "bc", ()⟩, .insertPage ⟨1, "a", ()⟩]
      (.ofTable (.new 1 2 1)) = .ok (rs, s) ∧ Shrink.shrinkDirectory.run s = .ok s' ∧
      ∀ address, ¬ ∃ s'', s'.destroy address = .ok s'' := by
  obtain ⟨rs, s, s', hr, hs, hl, hz, ho, hp⟩ : ∃ rs s s',
      run (step fun id => id.length.toUInt64)
        [.expandDirectory, .insertPage ⟨0, "bc", ()⟩, .insertPage ⟨1, "a", ()⟩]
        (.ofTable (.new 1 2 1)) = .ok (rs, s) ∧ Shrink.shrinkDirectory.run s = .ok s' ∧
        0 < Shrink.shrinkDirectory.levels s.table ∧
        s.table.buckets.find [false] = some 0 ∧ s.table.buckets.find [true] ≠ some 0 ∧
        (s.table.heap 0).pages ≠ [] ∧ s.table.globalDepth = 1 :=
    ⟨_, _, _, eq_ok_okOr ([], .ofTable (.new 1 2 1)) (by decide +kernel),
      eq_ok_okOr (.ofTable (.new 1 2 1)) (by decide +kernel), by decide +kernel,
      by decide +kernel, by decide +kernel, by decide +kernel, by decide +kernel⟩
  refine ⟨rs, s, s', hr, hs, fun address he => hp.1 ?_⟩
  exact ((shrink_destroy_iff _ (by norm_num) (by norm_num) (by
    simp [AlongTotal, Allowed, ExtendibleHashtable.held]) hr _ hs address).1.mp he 0 hl [] 0
    hp.2.symm hz ho).1

end LiveTable

end MiniKvs
