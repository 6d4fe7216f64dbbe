import MiniKvs.Pool.HashtableMap

/-! Runs of the hash table: inserting absent pages, removing present ones and
expanding the directory. -/

namespace MiniKvs.ExtendibleHashtable

open Lib

variable {δ : Type} {xxh64 : String → UInt64}

/-! ### A new table -/

theorem new_find_getBinaryFromInt {minSize maxSize : ℕ} {bucketMaxSize : ℤ}
    (h : Nat.log 2 minSize ≤ 32) {i : ℕ} (hi : i < 2 ^ Nat.log 2 minSize) :
    (new minSize maxSize bucketMaxSize : ExtendibleHashtable δ).buckets.find
      (Utils.getBinaryFromInt (Fin.ofNat _ i) (Nat.log 2 minSize)) = some i := by
  simp only [new]
  exact OrdMap.find_foldl_emplace_of_mem (m := .empty)
    (fun i => Utils.getBinaryFromInt (Fin.ofNat _ i) (Nat.log 2 minSize)) (fun i : ℕ => i)
    (List.mem_range.mpr hi)
    (fun j hj he => Utils.getBinaryFromInt_injOn h (List.mem_range.mp hj) hi he) rfl

theorem new_find {minSize maxSize : ℕ} {bucketMaxSize : ℤ} (h : Nat.log 2 minSize ≤ 32)
    (id : List Bool) :
    ((new minSize maxSize bucketMaxSize : ExtendibleHashtable δ).buckets.find id).isSome ↔
      id.length = Nat.log 2 minSize := by
  constructor
  · intro hs
    by_contra hne
    simp only [new] at hs
    rw [OrdMap.find_foldl_emplace_of_not_mem] at hs
    · simp at hs
    · intro hm
      obtain ⟨i, -, rfl⟩ := List.mem_map.mp hm
      exact hne (Utils.length_getBinaryFromInt _ h)
  · intro hl
    obtain ⟨i, hi, rfl⟩ := Utils.exists_getBinaryFromInt h hl
    exact Option.isSome_iff_exists.mpr ⟨i, new_find_getBinaryFromInt h hi⟩

theorem new_routed {minSize maxSize : ℕ} {bucketMaxSize : ℤ} (hle : minSize ≤ maxSize)
    (hmax : maxSize < 2147483648) :
    Routed xxh64 (new minSize maxSize bucketMaxSize : ExtendibleHashtable δ) := by
  have hlog : Nat.log 2 maxSize < 32 := by
    refine Nat.log_lt_of_lt_pow' (by norm_num) (hmax.trans (by norm_num))
  have hlog' : Nat.log 2 minSize ≤ Nat.log 2 maxSize := Nat.log_mono_right hle
  have hlog32 : Nat.log 2 minSize ≤ 32 := by omega
  refine ⟨hlog', hlog, new_find hlog32, fun id b hb => ?_, fun b p hp => ?_, fun b => ?_⟩
  · -- every directory entry was filled with one of the first buckets
    obtain ⟨i, hi, rfl⟩ := Utils.exists_getBinaryFromInt hlog32
      ((new_find hlog32 id).mp (by rw [hb]; rfl))
    rw [new_find_getBinaryFromInt hlog32 hi, Option.some.injEq] at hb
    exact hb ▸ hi
  · cases hp
  · simp only [new, Bucket.new]
    split_ifs <;> omega

theorem new_sound {minSize maxSize : ℕ} {bucketMaxSize : ℤ} (hle : minSize ≤ maxSize)
    (hmax : maxSize < 2147483648) :
    Sound xxh64 (new minSize maxSize bucketMaxSize : ExtendibleHashtable δ) := by
  have h : Routed xxh64 (new minSize maxSize bucketMaxSize : ExtendibleHashtable δ) :=
    new_routed hle hmax
  refine ⟨h.depth, h.maxDepth, h.keys, h.alloc, h.placed, fun b => List.nodup_nil, fun b => rfl,
    h.localDepth, ?_⟩
  simp [new, stored, Bucket.new]

@[simp] theorem new_stored (minSize maxSize : ℕ) (bucketMaxSize : ℤ) :
    (new minSize maxSize bucketMaxSize : ExtendibleHashtable δ).stored = [] := by
  simp [new, stored, Bucket.new]

/-! ### Expansion -/

/-- Every old entry is replaced by its two extensions. -/
theorem find_expand {ν : Type} {g : ℕ} : ∀ (l : List (List Bool × ν)) (m : OrdMap (List Bool) ν),
    (∀ x ∈ l, x.1.length = g) → ∀ id,
    (l.foldl (fun m x => ((m.emplace (false :: x.1) x.2).emplace (true :: x.1) x.2).erase x.1)
      m).find id =
      if id.length = g then if id ∈ l.map Prod.fst then none else m.find id
      else if id.length = g + 1 then (m.find id).or ((findKey Prod.fst l id.tail).map Prod.snd)
      else m.find id
  | [], m, _, id => by simp
  | x :: l, m, hl, id => by
    have hx : x.1.length = g := hl x (by simp)
    rw [List.foldl_cons, find_expand l _ fun y hy => hl y (List.mem_cons_of_mem _ hy)]
    simp only [OrdMap.find_erase, OrdMap.find_emplace, List.map_cons, List.mem_cons, findKey_cons]
    by_cases h1 : id.length = g
    · have hf : ∀ c, c :: x.1 ≠ id := by rintro c rfl; simp [hx] at h1
      simp only [if_pos h1, if_neg (hf _)]
      by_cases h2 : x.1 = id
      · simp [h2]
      · have h3 : (id = x.1 ∨ id ∈ l.map Prod.fst) ↔ id ∈ l.map Prod.fst :=
          or_iff_right (Ne.symm h2)
        simp only [if_neg h2, h3]
    · have hne : x.1 ≠ id := by rintro rfl; exact h1 hx
      simp only [if_neg h1, if_neg hne]
      by_cases h2 : id.length = g + 1
      · simp only [if_pos h2]
        obtain ⟨c, rest, rfl⟩ := List.exists_cons_of_length_eq_add_one h2
        simp only [List.cons.injEq, List.tail_cons]
        by_cases h3 : x.1 = rest
        · subst h3
          cases c <;> cases m.find (_ :: x.1) <;> simp
        · simp [h3]
      · have hf : ∀ c, c :: x.1 ≠ id := by rintro c rfl; simp [hx] at h2
        simp only [if_neg h2, if_neg (hf _)]

variable {t : ExtendibleHashtable δ}

theorem expand_find
    (hkeys : ∀ id, (t.buckets.find id).isSome ↔ id.length = t.globalDepth)
    (hg : t.globalDepth ≠ t.maxDepth) (id : List Bool) :
    t.expandDirectory.2.buckets.find id =
      if id.length = t.globalDepth + 1 then t.buckets.find id.tail else none := by
  have hlen : ∀ x ∈ t.buckets.toList, x.1.length = t.globalDepth := fun x hx =>
    (hkeys x.1).mp (Option.isSome_iff_exists.mpr ⟨x.2, OrdMap.find_eq_some.mpr hx⟩)
  have hnone : ∀ id : List Bool, id.length ≠ t.globalDepth → t.buckets.find id = none := by
    intro id hid
    rw [← Option.not_isSome_iff_eq_none, hkeys]
    exact hid
  simp only [expandDirectory, if_neg hg]
  rw [find_expand _ _ hlen]
  by_cases h1 : id.length = t.globalDepth
  · have h2 : id.length ≠ t.globalDepth + 1 := by omega
    have h3 : id ∈ t.buckets.toList.map Prod.fst := OrdMap.mem_keys.mpr ((hkeys id).mpr h1)
    rw [if_pos h1, if_pos h3, if_neg h2]
  · rw [if_neg h1]
    split_ifs with h2
    · rw [hnone id h1]; rfl
    · exact hnone id h1

theorem expand_keys
    (hkeys : ∀ id, (t.buckets.find id).isSome ↔ id.length = t.globalDepth)
    (hg : t.globalDepth ≠ t.maxDepth) (id : List Bool) :
    (t.expandDirectory.2.buckets.find id).isSome ↔ id.length = t.globalDepth + 1 := by
  rw [expand_find hkeys hg]
  split_ifs with hl
  · rw [hkeys, List.length_tail]
    omega
  · simpa using hl

theorem expandDirectory_globalDepth (hg : t.globalDepth ≠ t.maxDepth) :
    t.expandDirectory.2.globalDepth = t.globalDepth + 1 := by
  simp only [expandDirectory, if_neg hg]

theorem expandDirectory_heap : t.expandDirectory.2.heap = t.heap := by
  simp only [expandDirectory]
  split_ifs <;> rfl

theorem expandDirectory_allocated : t.expandDirectory.2.allocated = t.allocated := by
  simp only [expandDirectory]
  split_ifs <;> rfl

theorem expandDirectory_minDepth : t.expandDirectory.2.minDepth = t.minDepth := by
  simp only [expandDirectory]
  split_ifs <;> rfl

theorem expandDirectory_maxDepth : t.expandDirectory.2.maxDepth = t.maxDepth := by
  simp only [expandDirectory]
  split_ifs <;> rfl

theorem expandDirectory_size : t.expandDirectory.2.size = t.size := by
  simp only [expandDirectory]
  split_ifs <;> rfl

theorem Routed.expandDirectory (h : Routed xxh64 t) : Routed xxh64 t.expandDirectory.2 := by
  by_cases hg : t.globalDepth = t.maxDepth
  · simpa only [ExtendibleHashtable.expandDirectory, if_pos hg] using h
  have hdepth := expandDirectory_globalDepth hg
  have hmax := expandDirectory_maxDepth (t := t)
  have hd := h.depth
  have hm := h.maxDepth
  refine ⟨by omega, by omega, fun id => ?_, fun id b hb => ?_, fun b p hp => ?_, fun b => ?_⟩
  · rw [hdepth]
    exact expand_keys h.keys hg id
  · rw [expand_find h.keys hg] at hb
    split_ifs at hb with hl
    rw [expandDirectory_allocated]
    exact h.alloc _ _ hb
  · rw [expandDirectory_heap] at hp
    have htail : (t.expandDirectory.2.hashFunction xxh64 p.pageId).tail =
        t.hashFunction xxh64 p.pageId := by
      rw [hashFunction, hashFunction, hdepth, Utils.tail_getBinaryFromInt _ (by omega)]
    rw [expand_find h.keys hg, htail, if_pos (hdepth ▸ length_hashFunction (by omega) _)]
    exact h.placed b p hp
  · rw [expandDirectory_heap]; exact h.localDepth b

theorem expandDirectory_stored : t.expandDirectory.2.stored = t.stored := by
  rw [stored, stored, expandDirectory_heap, expandDirectory_allocated]

theorem Sound.expandDirectory (h : Sound xxh64 t) : Sound xxh64 t.expandDirectory.2 := by
  have hr := h.routed.expandDirectory
  refine ⟨hr.depth, hr.maxDepth, hr.keys, hr.alloc, hr.placed, fun b => ?_, fun b => ?_,
    hr.localDepth, ?_⟩
  · rw [expandDirectory_heap]; exact h.ids b
  · rw [expandDirectory_heap]; exact h.bucketSize b
  · rw [expandDirectory_size, expandDirectory_stored, h.size]

/-! ### Removal -/

/-- The filter drops the one page with the address. -/
theorem filter_addr_ne {xs ys : List (Page δ)} {p : Page δ}
    (h : ((xs ++ p :: ys).map Page.addr).Nodup) :
    (xs ++ p :: ys).filter (fun q => q.addr ≠ p.addr) = xs ++ ys := by
  rw [List.map_append, List.map_cons, List.nodup_append, List.nodup_cons] at h
  have hx : xs.filter (fun q => q.addr ≠ p.addr) = xs := by
    rw [List.filter_eq_self]
    intro q hq
    simpa using h.2.2 q.addr (List.mem_map_of_mem hq) p.addr (by simp)
  have hy : ys.filter (fun q => q.addr ≠ p.addr) = ys := by
    rw [List.filter_eq_self]
    intro q hq
    have : q.addr ≠ p.addr := fun he => h.2.1.1 (List.mem_map.mpr ⟨q, hq, he⟩)
    simpa using this
  rw [List.filter_append, hx, List.filter_cons_of_neg (by simp), hy]

theorem removePage_eq {p : Page δ} {b : ℕ}
    (hb : t.buckets.find (t.hashFunction xxh64 p.pageId) = some b) :
    t.removePage xxh64 p =
      .ok (t.setBucket b ((t.heap b).removePage p) (t.size - 1) (p :: t.deleted)) := by
  rw [removePage, bucketAt, hb]
  rfl

theorem Sound.removePage (h : Sound xxh64 t) (ha : (t.stored.map Page.addr).Nodup) {p : Page δ}
    (hp : p ∈ t.stored) :
    ∃ t', t.removePage xxh64 p = .ok t' ∧ Sound xxh64 t' ∧ t.stored.Perm (p :: t'.stored) ∧
      t'.globalDepth = t.globalDepth ∧ t'.maxDepth = t.maxDepth := by
  obtain ⟨b, hb, hlt⟩ := h.bucketAt_hash p.pageId
  -- the pages of one bucket have distinct addresses, so the filter drops just `p`
  obtain ⟨xs, ys, hxy⟩ := List.append_of_mem ((h.mem_stored_iff hb).mp hp)
  have haddr : ((t.heap b).pages.map Page.addr).Nodup := by
    refine List.Nodup.sublist (List.Sublist.map _ ?_)
      (((stored_perm hlt).map Page.addr).nodup_iff.mp ha)
    exact List.sublist_append_left _ _
  have hids := h.ids b
  have hsize := h.bucketSize b
  have hperm := stored_perm hlt
  rw [hxy] at haddr hids hsize hperm
  set x : Bucket δ := ⟨xs ++ ys, (t.heap b).localDepth, (t.heap b).size - 1⟩ with hx
  have hst : t.stored.Perm (p :: (t.setBucket b x (t.size - 1) (p :: t.deleted)).stored) := by
    refine hperm.trans (List.Perm.trans ?_ ((setBucket_stored hlt).symm.cons p))
    exact List.Perm.append_right _ List.perm_middle
  refine ⟨t.setBucket b x (t.size - 1) (p :: t.deleted), ?_, h.setBucket (fun q hq => ?_) ?_ ?_
    (h.localDepth b) ?_, hst, rfl, rfl⟩
  · have hremove : (t.heap b).removePage p = x := by
      rw [Bucket.removePage, hxy, filter_addr_ne haddr]
    rw [removePage_eq hb, hremove]
  · refine h.placed b q ?_
    rw [hxy]
    exact ((List.sublist_cons_self p ys).append_left xs).subset hq
  · exact hids.sublist (((List.sublist_cons_self p ys).append_left xs).map _)
  · simp only [hx, List.length_append, List.length_cons] at hsize ⊢
    omega
  · have := h.size
    rw [hst.length_eq, List.length_cons] at this
    omega

/-! ### Runs -/

inductive Op (δ : Type)
  | insertPage (page : Page δ)
  | removePage (page : Page δ)
  | expandDirectory

def step (xxh64 : String → UInt64) :
    Op δ → ExtendibleHashtable δ → Outcome (Unit × ExtendibleHashtable δ)
  | .insertPage page, t => (t.insertPage xxh64 page).map fun t => ((), t)
  | .removePage page, t => (t.removePage xxh64 page).map fun t => ((), t)
  | .expandDirectory, t => .ok ((), t.expandDirectory.2)

/-- The pages in the table after a call. -/
def held : Op δ → List (Page δ) → List (Page δ)
  | .insertPage page, ps => page :: ps
  | .removePage page, ps => ps.filter fun q => q.pageId ≠ page.pageId
  | .expandDirectory, ps => ps

/-- An inserted page is another object than the pages in the table, with another id. -/
def Allowed (ps : List (Page δ)) : Op δ → Prop
  | .insertPage page => ∀ q ∈ ps, q.pageId ≠ page.pageId ∧ q.addr ≠ page.addr
  | .removePage page => page ∈ ps
  | .expandDirectory => True

/-- The table is a map with exactly the pages `ps`. -/
structure IsMapOf (xxh64 : String → UInt64) (t : ExtendibleHashtable δ) (ps : List (Page δ)) :
    Prop where
  keys : ∀ id, id ∈ t.buckets.keys ↔ id.length = t.globalDepth
  numDirectory : t.getNumDirectory = 2 ^ t.globalDepth
  bucket : ∀ p ∈ ps, ∃ b, t.buckets.find (t.hashFunction xxh64 p.pageId) = some b ∧
    p ∈ (t.heap b).pages ∧ ∀ b', p ∈ (t.heap b').pages → b' = b
  once : ∀ b, (t.heap b).pages.Nodup
  present : ∀ b, ∀ p ∈ (t.heap b).pages, p ∈ ps
  getPage : ∀ pageId, t.getPage xxh64 pageId = ps.find? fun p => p.pageId = pageId
  size : t.size = ps.length
  bucketSize : ∀ b, (t.heap b).size = (t.heap b).pages.length

theorem find_pageId {ps : List (Page δ)} (hd : (ps.map Page.pageId).Nodup) {pageId : String}
    {p : Page δ} : ps.find? (fun q => q.pageId = pageId) = some p ↔ p ∈ ps ∧ p.pageId = pageId := by
  constructor
  · intro h
    exact ⟨List.mem_of_find?_eq_some h, by simpa using List.find?_some h⟩
  · rintro ⟨hp, rfl⟩
    obtain ⟨q, hq⟩ : ∃ q, ps.find? (fun q => q.pageId = p.pageId) = some q := by
      rw [← Option.isSome_iff_exists, List.find?_isSome]
      exact ⟨p, hp, by simp⟩
    rw [hq, List.inj_on_of_nodup_map hd (List.mem_of_find?_eq_some hq) hp
      (by simpa using List.find?_some hq)]

/-- A directory with all ids of its depth. -/
theorem numDirectory_of_keys (hdepth : t.globalDepth ≤ 32)
    (hkeys : ∀ id, (t.buckets.find id).isSome ↔ id.length = t.globalDepth) :
    t.getNumDirectory = 2 ^ t.globalDepth := by
  have hp : t.buckets.keys.Perm ((List.range (2 ^ t.globalDepth)).map
      fun i => Utils.getBinaryFromInt (Fin.ofNat _ i) t.globalDepth) := by
    rw [List.perm_ext_iff_of_nodup t.buckets.keys_nodup]
    · intro id
      rw [OrdMap.mem_keys, hkeys, List.mem_map]
      constructor
      · intro hl
        obtain ⟨i, hi, he⟩ := Utils.exists_getBinaryFromInt hdepth hl
        exact ⟨i, List.mem_range.mpr hi, he⟩
      · rintro ⟨i, -, rfl⟩
        exact Utils.length_getBinaryFromInt _ hdepth
    · refine List.Nodup.map_on (fun i hi j hj he => ?_) List.nodup_range
      exact Utils.getBinaryFromInt_injOn hdepth (List.mem_range.mp hi) (List.mem_range.mp hj) he
  rw [getNumDirectory, ← OrdMap.length_keys, hp.length_eq, List.length_map, List.length_range]

theorem Sound.numDirectory (h : Sound xxh64 t) : t.getNumDirectory = 2 ^ t.globalDepth :=
  numDirectory_of_keys h.depth_le h.keys

theorem Sound.isMapOf (h : Sound xxh64 t) {ps : List (Page δ)} (hp : t.stored.Perm ps) :
    IsMapOf xxh64 t ps := by
  have hids := (hp.map Page.pageId).nodup_iff.mp h.stored_ids_nodup
  refine ⟨fun id => OrdMap.mem_keys.trans (h.keys id), h.numDirectory, fun p hm => ?_,
    fun b => (h.ids b).of_map _, fun b p hb => hp.mem_iff.mp (h.mem_stored.mpr ⟨b, hb⟩),
    fun pageId => ?_, h.size.trans (by rw [hp.length_eq]), h.bucketSize⟩
  · obtain ⟨b, hb, -⟩ := h.bucketAt_hash p.pageId
    refine ⟨b, hb, (h.mem_stored_iff hb).mp (hp.mem_iff.mpr hm), fun b' hb' => ?_⟩
    have := h.placed b' p hb'
    rw [hb, Option.some.injEq] at this
    exact this.symm
  · ext p
    rw [h.getPage_eq_some, find_pageId hids, hp.mem_iff]

/-- The table is sound and holds `ps`, all different objects. -/
structure Holds (xxh64 : String → UInt64) (t : ExtendibleHashtable δ) (ps : List (Page δ)) :
    Prop where
  sound : Sound xxh64 t
  stored : t.stored.Perm ps
  addrs : (ps.map Page.addr).Nodup

theorem Holds.ids {ps : List (Page δ)} (h : Holds xxh64 t ps) : (ps.map Page.pageId).Nodup :=
  (h.stored.map Page.pageId).nodup_iff.mp h.sound.stored_ids_nodup

theorem Holds.insertPage {ps : List (Page δ)} {p : Page δ} (h : Holds xxh64 t ps)
    (hp : ∀ q ∈ ps, q.pageId ≠ p.pageId ∧ q.addr ≠ p.addr) :
    ∃ t', t.insertPage xxh64 p = .ok t' ∧ Holds xxh64 t' (p :: ps) ∧
      t'.globalDepth = t.globalDepth ∧ t'.maxDepth = t.maxDepth := by
  obtain ⟨t', ht', hg⟩ := h.sound.insertPage (p := p) fun q hq =>
    (hp q (h.stored.mem_iff.mp hq)).1
  refine ⟨t', ht', ⟨hg.sound, hg.stored.trans (h.stored.cons p), ?_⟩, hg.globalDepth, hg.maxDepth⟩
  refine List.nodup_cons.mpr ⟨fun hm => ?_, h.addrs⟩
  obtain ⟨q, hq, he⟩ := List.mem_map.mp hm
  exact (hp q hq).2 he

theorem Holds.removePage {ps : List (Page δ)} {p : Page δ} (h : Holds xxh64 t ps) (hp : p ∈ ps) :
    ∃ t', t.removePage xxh64 p = .ok t' ∧
      Holds xxh64 t' (ps.filter fun q => q.pageId ≠ p.pageId) ∧
      t'.globalDepth = t.globalDepth ∧ t'.maxDepth = t.maxDepth := by
  obtain ⟨t', ht', hs, hst, hd⟩ := h.sound.removePage
    ((h.stored.map Page.addr).nodup_iff.mpr h.addrs) (h.stored.mem_iff.mpr hp)
  refine ⟨t', ht', ⟨hs, ?_, h.addrs.sublist (List.Sublist.map _ List.filter_sublist)⟩, hd⟩
  have hids := (hst.map Page.pageId).nodup_iff.mp h.sound.stored_ids_nodup
  rw [List.map_cons, List.nodup_cons] at hids
  have hself : t'.stored.filter (fun q => q.pageId ≠ p.pageId) = t'.stored := by
    rw [List.filter_eq_self]
    intro q hq
    have : q.pageId ≠ p.pageId := fun he => hids.1 (List.mem_map.mpr ⟨q, hq, he⟩)
    simpa using this
  have hf := (h.stored.symm.trans hst).filter fun q => q.pageId ≠ p.pageId
  rw [List.filter_cons_of_neg (by simp), hself] at hf
  exact hf.symm

theorem Holds.expandDirectory {ps : List (Page δ)} (h : Holds xxh64 t ps) :
    Holds xxh64 t.expandDirectory.2 ps :=
  ⟨h.sound.expandDirectory, by rw [expandDirectory_stored]; exact h.stored, h.addrs⟩

theorem Holds.step {ps : List (Page δ)} {op : Op δ} (h : Holds xxh64 t ps) (ha : Allowed ps op) :
    ∃ r t', step xxh64 op t = .ok (r, t') ∧ Holds xxh64 t' (held op ps) := by
  cases op with
  | insertPage p =>
    obtain ⟨t', ht', hh, -⟩ := h.insertPage ha
    exact ⟨(), t', by rw [ExtendibleHashtable.step, ht']; rfl, hh⟩
  | removePage p =>
    obtain ⟨t', ht', hh, -⟩ := h.removePage ha
    exact ⟨(), t', by rw [ExtendibleHashtable.step, ht']; rfl, hh⟩
  | expandDirectory => exact ⟨(), _, rfl, h.expandDirectory⟩

theorem Holds.step_minDepth {ps : List (Page δ)} {op : Op δ} {r : Unit} {t' : ExtendibleHashtable δ}
    (h : Holds xxh64 t ps) (ha : Allowed ps op)
    (hs : ExtendibleHashtable.step xxh64 op t = .ok (r, t')) (hm : t.minDepth ≤ t.globalDepth) :
    t'.minDepth ≤ t'.globalDepth := by
  cases op with
  | insertPage p =>
    obtain ⟨t₁, ht₁, he⟩ := map_eq_ok.mp hs
    cases he
    obtain ⟨t₂, ht₂, hg⟩ := h.sound.insertPage (p := p) fun q hq =>
      (ha q (h.stored.mem_iff.mp hq)).1
    rw [ht₁, Except.ok.injEq] at ht₂
    rw [ht₂, hg.minDepth, hg.globalDepth]
    exact hm
  | removePage p =>
    obtain ⟨t₁, ht₁, he⟩ := map_eq_ok.mp hs
    cases he
    obtain ⟨b, -, hb⟩ := bind_eq_ok.mp ht₁
    cases hb
    exact hm
  | expandDirectory =>
    cases hs
    simp only [ExtendibleHashtable.expandDirectory]
    split_ifs
    · exact hm
    · exact hm.trans (Nat.le_succ _)

theorem run_holds (xxh64 : String → UInt64) {minSize maxSize : ℕ} (bucketMaxSize : ℤ)
    (hle : minSize ≤ maxSize) (hmax : maxSize < 2147483648) {ops : List (Op δ)}
    (ha : AlongTotal held Allowed [] ops) :
    ∃ rs t, run (step xxh64) ops (new minSize maxSize bucketMaxSize) = .ok (rs, t) ∧
      Holds xxh64 t (finalState held [] ops) ∧ t.minDepth ≤ t.globalDepth := by
  have hnew : Holds xxh64 (new minSize maxSize bucketMaxSize : ExtendibleHashtable δ) [] :=
    ⟨new_sound hle hmax, by simp, List.nodup_nil⟩
  obtain ⟨rs, t, hr, ht, -⟩ := run_simulates (step xxh64) (P := fun _ _ => True)
    (R := fun t ps => Holds xxh64 t ps ∧ t.minDepth ≤ t.globalDepth) (Q := fun _ _ _ => True)
    (fun t ps op hh hg _ => by
      obtain ⟨r, t', h1, h2⟩ := hh.1.step hg
      exact ⟨r, t', h1, ⟨h2, hh.1.step_minDepth hg h1 hh.2⟩, trivial⟩)
    ⟨hnew, le_rfl⟩ ha (along_true _ _ _)
  exact ⟨rs, t, hr, ht⟩

/-- Through any run the table stays a map with the pages inserted and not yet removed. -/
theorem run_isMapOf (xxh64 : String → UInt64) {minSize maxSize : ℕ} {bucketMaxSize : ℤ}
    (hle : minSize ≤ maxSize) (hmax : maxSize < 2147483648) (ops : List (Op δ))
    (ha : AlongTotal held Allowed [] ops) :
    ∃ rs t, run (step xxh64) ops (new minSize maxSize bucketMaxSize) = .ok (rs, t) ∧
      IsMapOf xxh64 t (finalState held [] ops) := by
  obtain ⟨rs, t, hr, ht, -⟩ := run_holds xxh64 bucketMaxSize hle hmax ha
  exact ⟨rs, t, hr, ht.sound.isMapOf ht.stored⟩

theorem run_isMapOf_insert_expand_remove : ∃ rs t,
    run (step fun id => id.length.toUInt64)
      [.insertPage ⟨0, "a", ()⟩, .insertPage ⟨1, "bc", ()⟩, .expandDirectory,
        .removePage ⟨0, "a", ()⟩, .insertPage ⟨2, "def", ()⟩] (new 1 4 1) = .ok (rs, t) ∧
      IsMapOf (fun id => id.length.toUInt64) t [⟨2, "def", ()⟩, ⟨1, "bc", ()⟩] :=
  run_isMapOf _ (by norm_num) (by norm_num) _ (by simp [AlongTotal, Allowed, held])

end MiniKvs.ExtendibleHashtable
