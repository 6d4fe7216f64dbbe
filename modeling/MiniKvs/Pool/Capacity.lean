import MiniKvs.Pool.Tally

/-! How many pages a pool holds. Below its deepest directory an insertion expands and
does not evict, so a pool whose directory was shrunk may grow past its maximum; and with
very many pages the floats of `resize` count too few of them. -/

namespace MiniKvs

open Lib

variable {δ : Type} {xxh64 : String → UInt64}

namespace LivePool

variable {pool pool' : LivePool δ}

/-- The table counts its pages, which are all different objects. -/
structure Regular (pool : LivePool δ) : Prop where
  tallied : pool.hashtable.Tallied
  nodup : pool.hashtable.held.Nodup
  addrs : ∀ a ∈ pool.hashtable.held, a < pool.allocated
  complete : pool.hashtable.Complete
  maxDepth : pool.hashtable.table.globalDepth ≤ pool.hashtable.table.maxDepth

theorem Regular.new {minSize maxSize : ℕ} (hle : minSize ≤ maxSize) (hmax : maxSize < 2147483648) :
    Regular (new minSize maxSize : LivePool δ) := by
  have hlog : Nat.log 2 minSize ≤ Nat.log 2 maxSize := Nat.log_mono_right hle
  have hlt := LiveTable.log_lt_of_int hmax
  obtain ⟨ht, hh⟩ := LiveTable.new_tallied (δ := δ) minSize maxSize 1
  have hheld : (LivePool.new minSize maxSize : LivePool δ).hashtable.held = 0 := hh
  refine ⟨ht, ?_, ?_, LiveTable.new_complete (by omega), hlog⟩
  · rw [hheld]
    exact Multiset.nodup_zero
  · rw [hheld]
    exact fun a ha => absurd ha (Multiset.notMem_zero a)

/-- Any operation of the list may go with a removal. -/
theorem Regular.removePage (h : Regular pool) {pageId : String} {p : Page δ} {s : LiveTable δ}
    (hg : pool.hashtable.getPage xxh64 pageId = .ok (some p))
    (hr : pool.hashtable.removePage xxh64 p = .ok s) (l : LRU) :
    Regular { pool with hashtable := s, evictionPolicy := l } ∧ s.table.size = pool.size - 1 ∧
      LiveTable.SameDirectory pool.hashtable s := by
  obtain ⟨ht, hheld, hsame⟩ := h.tallied.removePage h.nodup hg hr
  refine ⟨⟨ht, ?_, fun a ha => h.addrs a ?_, h.complete.same hsame, ?_⟩, ?_, hsame⟩
  · have hn := h.nodup
    rw [hheld] at hn
    exact (Multiset.nodup_cons.mp hn).2
  · rw [hheld]
    exact Multiset.mem_cons_of_mem ha
  · rw [hsame.globalDepth, hsame.maxDepth]
    exact h.maxDepth
  · have hsize := h.tallied.size
    rw [hheld, Multiset.card_cons] at hsize
    rw [ht.size, size, hsize]
    push_cast
    ring

theorem Regular.evict (h : Regular pool) (he : pool.evict xxh64 = .ok pool') :
    Regular pool' ∧ pool'.size = pool.size - 1 ∧
      LiveTable.SameDirectory pool.hashtable pool'.hashtable := by
  obtain ⟨key, l, p, s, -, hg, hr, rfl⟩ := evict_eq_ok.mp he
  exact h.removePage hg hr l

theorem Regular.evictTimes : ∀ (n : ℕ) {pool pool' : LivePool δ}, Regular pool →
    evictTimes xxh64 n pool = .ok pool' → Regular pool' ∧ pool'.size = pool.size - n ∧
      LiveTable.SameDirectory pool.hashtable pool'.hashtable := by
  intro n
  induction n with
  | zero =>
    intro pool pool' h he
    cases he
    exact ⟨h, by simp, .refl _⟩
  | succ n ih =>
    intro pool pool' h he
    obtain ⟨pool₁, h₁, he⟩ := bind_eq_ok.mp he
    obtain ⟨hr₁, hs₁, hd₁⟩ := h.evict h₁
    obtain ⟨hr', hs', hd'⟩ := ih hr₁ he
    refine ⟨hr', ?_, hd₁.trans hd'⟩
    rw [hs', hs₁]
    push_cast
    ring

theorem Regular.remove (h : Regular pool) {pageId : String}
    (hr : pool.remove xxh64 pageId = .ok pool') : Regular pool' ∧ pool'.size ≤ pool.size ∧
      LiveTable.SameDirectory pool.hashtable pool'.hashtable := by
  rcases remove_cases hr with ⟨-, rfl⟩ | ⟨p, s, l, hg, hs, -, rfl⟩
  · exact ⟨h, le_rfl, .refl _⟩
  · obtain ⟨hr', hsize, hd⟩ := h.removePage hg hs l
    exact ⟨hr', by rw [size, hsize]; omega, hd⟩

theorem Regular.numDirectory (h : Regular pool) (hmax : pool.hashtable.table.maxDepth < 32) :
    pool.hashtable.table.getNumDirectory = 2 ^ pool.hashtable.table.globalDepth :=
  ExtendibleHashtable.numDirectory_of_keys (by have := h.maxDepth; omega) h.complete.keys

/-- The directory may change while the pages stay. -/
theorem Regular.withTable (h : Regular pool) {s : LiveTable δ} (ht : s.Tallied)
    (hh : s.held = pool.hashtable.held) (hc : s.Complete)
    (hmax : s.table.globalDepth ≤ s.table.maxDepth) :
    Regular { pool with hashtable := s } ∧ s.table.size = pool.size := by
  refine ⟨⟨ht, ?_, fun a ha => h.addrs a ?_, hc, hmax⟩, ?_⟩
  · rw [hh]
    exact h.nodup
  · rw [← hh]
    exact ha
  · rw [ht.size, hh, size, h.tallied.size]

theorem Regular.expandDirectory (h : Regular pool)
    (hg : pool.hashtable.table.globalDepth ≠ pool.hashtable.table.maxDepth) :
    Regular { pool with hashtable := pool.hashtable.expandDirectory } ∧
      pool.hashtable.expandDirectory.table.size = pool.size := by
  obtain ⟨ht, hh⟩ := h.tallied.expandDirectory
  refine h.withTable ht hh (h.complete.expandDirectory hg) ?_
  have hmax := h.maxDepth
  have hdepth : pool.hashtable.expandDirectory.table.globalDepth =
    pool.hashtable.table.globalDepth + 1 := ExtendibleHashtable.expandDirectory_globalDepth hg
  have hmax' : pool.hashtable.expandDirectory.table.maxDepth = pool.hashtable.table.maxDepth :=
    ExtendibleHashtable.expandDirectory_maxDepth
  omega

/-- The directory had room, has grown, or a page was evicted; then `k` pages were put in. -/
inductive MakesRoom (pool pool' : LivePool δ) (k : ℤ) : Prop
  | room
    (room : BufferPool.overThreshold pool.size.toNat pool.hashtable.table.getNumDirectory = false)
    (size : pool'.size = pool.size + k)
    (globalDepth : pool'.hashtable.table.globalDepth = pool.hashtable.table.globalDepth)
  | grown
    (shallow : pool.hashtable.table.globalDepth ≠ pool.hashtable.table.maxDepth)
    (size : pool'.size = pool.size + k)
    (globalDepth : pool'.hashtable.table.globalDepth = pool.hashtable.table.globalDepth + 1)
  | evicted
    (deepest : pool.hashtable.table.globalDepth = pool.hashtable.table.maxDepth)
    (size : pool'.size = pool.size - 1 + k)
    (globalDepth : pool'.hashtable.table.globalDepth = pool.hashtable.table.globalDepth)

theorem Regular.makeRoom (h : Regular pool) (hm : pool.makeRoom xxh64 = .ok pool') :
    Regular pool' ∧ pool'.hashtable.table.maxDepth = pool.hashtable.table.maxDepth ∧
      MakesRoom pool pool' 0 := by
  rcases makeRoom_cases hm with ⟨ho, rfl⟩ | ⟨-, ⟨hg, rfl⟩ | ⟨hg, he⟩⟩
  · exact ⟨h, rfl, .room ho (add_zero _).symm rfl⟩
  · obtain ⟨hr, hsize⟩ := h.expandDirectory hg
    exact ⟨hr, ExtendibleHashtable.expandDirectory_maxDepth,
      .grown hg (hsize.trans (add_zero _).symm)
        (ExtendibleHashtable.expandDirectory_globalDepth hg)⟩
  · obtain ⟨hr, hs, hd⟩ := h.evict he
    exact ⟨hr, hd.maxDepth, .evicted hg (hs.trans (add_zero _).symm) hd.globalDepth⟩

theorem Regular.insert (h : Regular pool) {pageId : String} {data : δ}
    (hi : pool.insert xxh64 pageId data = .ok pool') : Regular pool' ∧
      pool'.hashtable.table.maxDepth = pool.hashtable.table.maxDepth ∧ MakesRoom pool pool' 1 := by
  obtain ⟨pool₁, s, hm, hs, rfl⟩ := insert_cases hi
  obtain ⟨h₁, hmax, hcases⟩ := h.makeRoom hm
  have ha := (h₁.tallied.newPage _).insertPage hs
  have hheld : s.held = pool₁.allocated ::ₘ pool₁.hashtable.held := ha.held
  have hsize : s.table.size = pool₁.size + 1 := by
    rw [ha.tallied.size, hheld, Multiset.card_cons, size, h₁.tallied.size]
    push_cast
    rfl
  have hg : s.table.globalDepth = pool₁.hashtable.table.globalDepth := ha.directory.globalDepth
  have hM : s.table.maxDepth = pool₁.hashtable.table.maxDepth := ha.directory.maxDepth
  refine ⟨⟨ha.tallied, ?_, fun a ha' => ?_, ?_, ?_⟩, hM.trans hmax, ?_⟩
  · rw [hheld, Multiset.nodup_cons]
    exact ⟨fun hin => lt_irrefl _ (h₁.addrs _ hin), h₁.nodup⟩
  · rw [hheld, Multiset.mem_cons] at ha'
    rcases ha' with rfl | ha'
    · exact Nat.lt_succ_self _
    · exact (h₁.addrs a ha').trans (Nat.lt_succ_self _)
  · exact (h₁.complete.newPage _).same ha.directory
  · simp only [hg, hM]
    exact h₁.maxDepth
  · cases hcases with
    | room ho hs₁ hg₁ => exact .room ho (hsize.trans (by omega)) (hg.trans hg₁)
    | grown hne hs₁ hg₁ => exact .grown hne (hsize.trans (by omega)) (hg.trans hg₁)
    | evicted he hs₁ hg₁ => exact .evicted he (hsize.trans (by omega)) (hg.trans hg₁)

theorem Regular.setMaxSize (h : Regular pool) {maxSize : ℕ} {s : LiveTable δ}
    (hs : pool.hashtable.setMaxSize maxSize = .ok s) :
    Regular { pool with hashtable := s } ∧ s.table.size = pool.size ∧
      s.table.maxDepth = Nat.log 2 maxSize := by
  obtain ⟨ht, hh, hc, hM, hg⟩ := h.tallied.setMaxSize h.complete hs
  obtain ⟨hr, hsize⟩ := h.withTable ht hh hc (by rw [hg, hM]; exact Nat.min_le_right _ _)
  exact ⟨hr, hsize, hM⟩

theorem Regular.shrinkDirectory (h : Regular pool) {s : LiveTable δ}
    (hs : pool.hashtable.shrinkDirectory = .ok s) :
    Regular { pool with hashtable := s } ∧ s.table.size = pool.size := by
  obtain ⟨ht, hh⟩ := h.tallied.shrinkDirectory hs
  obtain ⟨hc, -, hM, hg⟩ := h.complete.shrinkDirectory hs
  have hmax := h.maxDepth
  refine h.withTable ht hh hc ?_
  rw [hg, hM]
  split_ifs <;> omega

theorem Regular.resize (h : Regular pool) {newMaxSize : ℕ}
    (hr : pool.resize xxh64 newMaxSize = .ok pool') : Regular pool' ∧
      pool'.hashtable.table.maxDepth = Nat.log 2 newMaxSize ∧
      pool'.size = pool.size - max 0 (numToEvict pool.size.toNat newMaxSize) := by
  simp only [LivePool.resize] at hr
  split_ifs at hr with ho hk
  · obtain ⟨pool₁, h₁, hr⟩ := bind_eq_ok.mp hr
    obtain ⟨s₁, hs₁, hr⟩ := bind_eq_ok.mp hr
    rw [ok_bind] at hr
    obtain ⟨s, hs, hr⟩ := bind_eq_ok.mp hr
    cases hr
    obtain ⟨hr₁, hsize₁, -⟩ := h.evictTimes _ h₁
    obtain ⟨hr₂, hsize₂⟩ := hr₁.shrinkDirectory hs₁
    obtain ⟨hr', hsize', hM⟩ := hr₂.setMaxSize hs
    refine ⟨hr', hM, (hsize'.trans hsize₂).trans ?_⟩
    rw [hsize₁, max_eq_right hk.le, Int.toNat_of_nonneg hk.le]
  · rw [ok_bind] at hr
    obtain ⟨s, hs, hr⟩ := bind_eq_ok.mp hr
    cases hr
    obtain ⟨hr', hsize', hM⟩ := h.setMaxSize hs
    refine ⟨hr', hM, ?_⟩
    rw [max_eq_left (not_lt.mp hk), sub_zero]
    exact hsize'

/-! ### Calls that end -/

theorem policy_ends {α : Type} {x : Outcome α} (h : Avoids .noReturn x) : Ends (policy x) := by
  cases x with
  | error e => exact avoids_error fun he => h (congrArg _ (ShrinkFault.table.inj he))
  | ok a => exact avoids_ok a

theorem evict_ends (pool : LivePool δ) : Ends (pool.evict xxh64) := by
  refine (policy_ends pool.evictionPolicy.evict_ends).bind fun x _ =>
    (LiveTable.getPage_ends pool.hashtable x.1).bind fun found _ => ?_
  cases found with
  | none => exact avoids_error (by decide)
  | some page => exact (LiveTable.removePage_ends _ page).bind fun _ _ => avoids_ok _

theorem evictTimes_ends : ∀ (n : ℕ) (pool : LivePool δ), Ends (evictTimes xxh64 n pool)
  | 0, pool => avoids_ok pool
  | n + 1, pool => (evict_ends pool).bind fun pool _ => evictTimes_ends n pool

theorem remove_ends (pool : LivePool δ) (pageId : String) : Ends (pool.remove xxh64 pageId) := by
  refine (LiveTable.getPage_ends pool.hashtable pageId).bind fun found _ => ?_
  cases found with
  | none => exact avoids_ok pool
  | some page => exact (LiveTable.removePage_ends _ page).bind fun _ _ =>
      (policy_ends (pool.evictionPolicy.remove_ends pageId)).bind fun _ _ => avoids_ok _

theorem Regular.insert_ends (h : Regular pool) (pageId : String) (data : δ) :
    Ends (pool.insert xxh64 pageId data) := by
  refine Avoids.bind ?_ fun pool₁ h₁ => Avoids.bind ?_ fun _ _ => avoids_ok _
  · simp only [LivePool.makeRoom]
    split_ifs
    · exact avoids_ok _
    · exact evict_ends pool
    · exact avoids_ok pool
  · obtain ⟨hr, -⟩ := h.makeRoom h₁
    exact (hr.tallied.newPage _).insertPage_ends _

theorem Regular.resize_ends (h : Regular pool) (newMaxSize : ℕ) :
    Ends (pool.resize xxh64 newMaxSize) := by
  simp only [LivePool.resize]
  split_ifs
  · exact avoids_error (by decide)
  · refine (evictTimes_ends _ pool).bind fun pool₁ h₁ =>
      (LiveTable.shrinkDirectory_ends _).bind fun s hs => (avoids_ok _).bind fun pool₂ h₂ => ?_
    cases h₂
    obtain ⟨hr₁, -⟩ := h.evictTimes _ h₁
    obtain ⟨hr₂, -⟩ := hr₁.shrinkDirectory hs
    exact (hr₂.complete.setMaxSize_ends newMaxSize).bind fun _ _ => avoids_ok _
  · refine (avoids_ok _).bind fun pool₁ h₁ => ?_
    cases h₁
    exact (h.complete.setMaxSize_ends newMaxSize).bind fun _ _ => avoids_ok _

/-! ### The floats of `resize` -/

/-- What rounding takes from `size - 0.75 * new_max_size`, in quarters. -/
def roundingLoss (size newMaxSize : ℕ) : ℤ := 4 * size - 3 * newMaxSize - surplus size newMaxSize

/-- As many pages are evicted as the new maximum asks for, unless rounding takes a quarter of
it and a page. -/
theorem le_numToEvict_iff {size newMaxSize : ℕ} :
    (size : ℤ) - newMaxSize ≤ numToEvict size newMaxSize ↔
      roundingLoss size newMaxSize < newMaxSize + 4 := by
  rw [numToEvict, roundingLoss]
  omega

theorem surplus_of_lt {size newMaxSize : ℕ} (hs : size < 4194304) (hn : newMaxSize < 4194304) :
    surplus size newMaxSize = 4 * size - 3 * newMaxSize := by
  rw [surplus, Utils.toFloat_of_lt (by omega), Utils.toFloat_of_lt (n := newMaxSize) (by omega),
    Utils.toFloat_of_lt (by omega), Utils.roundFloat_of_lt (by push_cast; omega)]
  push_cast
  ring

/-- Up to `2 ^ 24` pages rounding does not matter. -/
theorem roundingLoss_le {size newMaxSize : ℕ} (hpos : 1 ≤ newMaxSize) (hn : newMaxSize < size)
    (hs : size ≤ 16777216) : roundingLoss size newMaxSize ≤ 4 := by
  have hsize : Utils.toFloat size = size := by
    rcases hs.lt_or_eq with hlt | rfl
    · exact Utils.toFloat_of_lt hlt
    · decide
  have hmax : Utils.toFloat newMaxSize = newMaxSize := Utils.toFloat_of_lt (by omega)
  -- both sides of the difference have at most 26 bits
  have herror : ∀ {m : ℕ}, m < 67108864 →
      2 * m ≤ 2 * Utils.toFloat m + 4 ∧ 2 * Utils.toFloat m ≤ 2 * m + 4 := by
    intro m hm
    have hlog : Nat.log 2 m < 26 := Nat.log_lt_of_lt_pow' (by norm_num) (hm.trans_le (by norm_num))
    have hpow : 2 ^ (Nat.log 2 m - 23) ≤ 2 ^ 2 := Nat.pow_le_pow_right (by norm_num) (by omega)
    have he := Utils.toFloat_error m
    omega
  have h₁ := herror (m := 3 * newMaxSize) (by omega)
  have h₂ := herror (m := 4 * size - Utils.toFloat (3 * newMaxSize)) (by omega)
  have hdiff : (4 * size - Utils.toFloat (3 * newMaxSize) : ℤ) =
    (4 * size - Utils.toFloat (3 * newMaxSize) : ℕ) := by omega
  have hpos : 0 < 4 * size - Utils.toFloat (3 * newMaxSize) := by omega
  rw [roundingLoss, surplus, hsize, hmax, hdiff, Utils.roundFloat, Int.natAbs_natCast,
    Int.sign_natCast_of_ne_zero hpos.ne', one_mul]
  omega

end LivePool

/-! ### Runs -/

namespace SizedPool

variable {s s' : SizedPool δ}

/-- The pool holds no more pages than its maximum. -/
def Within (s : SizedPool δ) : Prop := s.pool.size ≤ s.maxSize

/-- A page that is put into a full pool finds the directory at its maximum, and the floats
of a resize lose less than a quarter of the new maximum and a page. -/
def HasRoom (s : SizedPool δ) : PoolCall δ → Prop
  | .insert _ _ => s.pool.size = s.maxSize →
    s.pool.hashtable.table.globalDepth = s.pool.hashtable.table.maxDepth
  | .remove _ => True
  | .resize newMaxSize => s.pool.size ≤ newMaxSize ∨
    LivePool.roundingLoss s.pool.size.toNat newMaxSize < newMaxSize + 4

instance : DecidablePred (Within : SizedPool δ → Prop) := fun _ =>
  inferInstanceAs (Decidable (_ ≤ _))

instance : DecidableRel (HasRoom : SizedPool δ → PoolCall δ → Prop)
  | _, .insert _ _ => inferInstanceAs (Decidable (_ → _))
  | _, .remove _ => .isTrue trivial
  | _, .resize _ => inferInstanceAs (Decidable (_ ∨ _))

/-- The maximum depth is the logarithm of the maximum size. -/
structure Ready (s : SizedPool δ) : Prop where
  regular : s.pool.Regular
  maxDepth : s.pool.hashtable.table.maxDepth = Nat.log 2 s.maxSize
  pos : 1 ≤ s.maxSize
  lt : s.maxSize < 2147483648

theorem Ready.new {minSize maxSize : ℕ} (hmin : 1 ≤ minSize) (hle : minSize ≤ maxSize)
    (hmax : maxSize < 2147483648) : Ready (new minSize maxSize : SizedPool δ) :=
  ⟨.new hle hmax, rfl, hmin.trans hle, hmax⟩

theorem Ready.toNat_size (h : Ready s) : (s.pool.size.toNat : ℤ) = s.pool.size := by
  rw [LivePool.size, h.regular.tallied.size, Int.toNat_natCast]

/-- A full pool whose directory is at its maximum is above the threshold. -/
theorem Ready.overThreshold (h : Ready s) (hfull : s.pool.size = s.maxSize)
    (hg : s.pool.hashtable.table.globalDepth = s.pool.hashtable.table.maxDepth) :
    BufferPool.overThreshold s.pool.size.toNat s.pool.hashtable.table.getNumDirectory = true := by
  have hlt : s.pool.hashtable.table.maxDepth < 32 := by
    rw [h.maxDepth]
    exact LiveTable.log_lt_of_int h.lt
  have hpos := h.pos
  have hpow : 2 ^ Nat.log 2 s.maxSize ≤ Utils.toFloat s.maxSize :=
    Utils.pow_log_le_toFloat (by omega)
  have hone : 0 < 2 ^ Nat.log 2 s.maxSize := by positivity
  rw [BufferPool.overThreshold, h.regular.numDirectory hlt, hg, h.maxDepth, hfull,
    Int.toNat_natCast, decide_eq_true_eq]
  omega

/-- A page that is put into a full pool stays below the maximum when another one is evicted. -/
theorem Ready.insert_within (h : Ready s) (hw : s.pool.size ≤ s.maxSize) {pool : LivePool δ}
    (hroom : LivePool.MakesRoom s.pool pool 1) : pool.size ≤ s.maxSize ↔
      (s.pool.size = s.maxSize →
        s.pool.hashtable.table.globalDepth = s.pool.hashtable.table.maxDepth) := by
  cases hroom with
  | room ho hsize hg =>
    refine ⟨fun hle hfull => by omega, fun hd => ?_⟩
    by_contra hle
    have hfull : s.pool.size = s.maxSize := by omega
    rw [h.overThreshold hfull (hd hfull)] at ho
    cases ho
  | grown hne hsize hg =>
    refine ⟨fun hle hfull => by omega, fun hd => ?_⟩
    by_contra hle
    exact hne (hd (by omega))
  | evicted he hsize hg => exact ⟨fun _ _ => he, fun _ => by omega⟩

theorem Ready.resize_within (h : Ready s) {pool : LivePool δ} {newMaxSize : ℕ}
    (hsize : pool.size =
      s.pool.size - max 0 (LivePool.numToEvict s.pool.size.toNat newMaxSize)) :
    pool.size ≤ newMaxSize ↔ s.pool.size ≤ newMaxSize ∨
      LivePool.roundingLoss s.pool.size.toNat newMaxSize < newMaxSize + 4 := by
  rw [hsize, ← LivePool.le_numToEvict_iff, h.toNat_size]
  omega

/-- Up to `2 ^ 24` pages a resize always evicts enough of them. -/
theorem Ready.hasRoom_resize (h : Ready s) {newMaxSize : ℕ} (hpos : 1 ≤ newMaxSize)
    (hsize : s.pool.size ≤ 16777216) : HasRoom s (.resize newMaxSize) := by
  rcases le_or_gt s.pool.size newMaxSize with hle | hgt
  · exact .inl hle
  · have hnat := h.toNat_size
    have hloss : LivePool.roundingLoss s.pool.size.toNat newMaxSize ≤ 4 :=
      LivePool.roundingLoss_le hpos (by omega) (by omega)
    exact .inr (by omega)

theorem Ready.call {c : PoolCall δ} {r : Unit} (h : Ready s) (hc : c.InRange)
    (hs : call xxh64 c s = .ok (r, s')) : Ready s' ∧ (Within s → (Within s' ↔ HasRoom s c)) := by
  cases c with
  | insert pageId data =>
    obtain ⟨pool, hp, he⟩ := map_eq_ok.mp hs
    cases he
    obtain ⟨hr, hM, hroom⟩ := h.regular.insert hp
    exact ⟨⟨hr, hM.trans h.maxDepth, h.pos, h.lt⟩, fun hw => h.insert_within hw hroom⟩
  | remove pageId =>
    obtain ⟨pool, hp, he⟩ := map_eq_ok.mp hs
    cases he
    obtain ⟨hr, hsize, hd⟩ := h.regular.remove hp
    exact ⟨⟨hr, hd.maxDepth.trans h.maxDepth, h.pos, h.lt⟩,
      fun hw => iff_of_true (hsize.trans hw) trivial⟩
  | resize newMaxSize =>
    obtain ⟨pool, hp, he⟩ := map_eq_ok.mp hs
    cases he
    obtain ⟨hr, hM, hsize⟩ := h.regular.resize hp
    exact ⟨⟨hr, hM, hc.1, hc.2⟩, fun _ => h.resize_within hsize⟩

/-- No call goes on for ever. -/
theorem Ready.call_ends (h : Ready s) (c : PoolCall δ) : Ends (SizedPool.call xxh64 c s) := by
  have hmap : ∀ {x : Except ShrinkFault (LivePool δ)} (f : LivePool δ → Unit × SizedPool δ),
      Ends x → Ends (x.map f) := by
    intro x f hx
    cases x with
    | error e => exact avoids_error fun he => hx (congrArg _ he)
    | ok pool => exact avoids_ok _
  cases c with
  | insert pageId data => exact hmap _ (h.regular.insert_ends pageId data)
  | remove pageId => exact hmap _ (LivePool.remove_ends s.pool pageId)
  | resize newMaxSize => exact hmap _ (h.regular.resize_ends newMaxSize)

theorem new_within (minSize maxSize : ℕ) : Within (new minSize maxSize : SizedPool δ) := by
  have hsize : (new minSize maxSize : SizedPool δ).pool.size = 0 := rfl
  rw [Within, hsize]
  positivity

section Runs

variable (xxh64) {minSize maxSize : ℕ} (hmin : 1 ≤ minSize) (hle : minSize ≤ maxSize)
  {calls : List (PoolCall δ)}

include hmin hle

theorem run_ends (hmax : maxSize < 2147483648) (hcalls : ∀ c ∈ calls, c.InRange) :
    Ends (run (call xxh64) calls (new minSize maxSize)) :=
  avoids_run (call xxh64) (I := Ready) (p := PoolCall.InRange) (fun c _ h _ => h.call_ends c)
    (fun _ _ _ _ h hc hs => (h.call hc hs).1) (.new hmin hle hmax) hcalls

theorem call_within_iff (hmax : maxSize < 2147483648) (hcalls : ∀ c ∈ calls, c.InRange)
    {rs : List Unit} (hr : run (call xxh64) calls (new minSize maxSize) = .ok (rs, s)) :
    Throughout (call xxh64) Within (new minSize maxSize) calls ↔
      Along (call xxh64) HasRoom (new minSize maxSize) calls :=
  throughout_iff_along_of_run (call xxh64) (I := Ready) (p := PoolCall.InRange)
    (fun _ _ _ _ h hw hc hs => ⟨(h.call hc hs).1, (h.call hc hs).2 hw⟩) (.new hmin hle hmax)
    (new_within minSize maxSize) hcalls hr

end Runs

/-- A resize that evicts, and an insertion that does. -/
theorem call_within_iff_resize : Throughout (call fun _ => 0) Within (new 1 2 : SizedPool ℕ)
    [.insert "a" 0, .insert "b" 1, .resize 1, .insert "c" 2] :=
  (call_within_iff (fun _ => 0) (by norm_num) (by norm_num) (by norm_num)
    (by simp [PoolCall.InRange])
    (eq_ok_okOr ([], new 1 2) (by decide +kernel))).mpr (by decide +kernel)

/-- Six pages, a directory that is shrunk from three bits to none, and two pages more. -/
def shrunkAndFilled : List (PoolCall Unit) :=
  [.insert "a" (), .insert "b" (), .insert "c" (), .insert "d" (), .insert "e" (), .insert "f" (),
    .resize 7, .resize 6, .resize 5, .resize 4, .insert "g" (), .insert "h" ()]

/-- The last maximum is four pages, and the pool ends with five. -/
theorem not_call_within : ¬ ∀ (xxh64 : String → UInt64) (minSize maxSize : ℕ)
    (calls : List (PoolCall Unit)), 1 ≤ minSize → minSize ≤ maxSize → maxSize < 2147483648 →
    (∀ c ∈ calls, c.InRange) →
    Along (call xxh64) (NotHeld xxh64) (new minSize maxSize) calls →
    (∃ rs s, run (call xxh64) calls (new minSize maxSize) = .ok (rs, s)) →
    Throughout (call xxh64) Within (new minSize maxSize) calls := by
  intro h
  have hend : (run (call fun _ => 18446744073709551615) shrunkAndFilled (new 1 8)).toOption.map
      (fun x => (x.2.pool.size, x.2.maxSize)) = some (5, 4) := by
    decide +kernel
  cases hr : run (call fun _ => 18446744073709551615) shrunkAndFilled (new 1 8) with
  | error e =>
    rw [hr] at hend
    cases hend
  | ok x =>
    have hw := (h _ 1 8 shrunkAndFilled (by norm_num) (by norm_num) (by norm_num)
      (by simp [shrunkAndFilled, PoolCall.InRange]) (by decide +kernel) ⟨x.1, x.2, hr⟩).finish _ hr
    rw [hr] at hend
    simp only [Except.toOption, Option.map_some, Option.some.injEq, Prod.mk.injEq] at hend
    rw [Within, hend.1, hend.2] at hw
    omega

/-! ### Maxima that leave room at every depth -/

theorem three_quarters_add_log {n : ℕ} (hpos : 1 ≤ n) (h4 : n ≠ 4) (h8 : n ≠ 8) :
    3 * n / 4 + Nat.log 2 n ≤ n := by
  rcases Nat.lt_or_ge n 16 with hlt | hge
  · interval_cases n <;> first | omega | decide
  · have hpow : ∀ m, 4 ≤ m → 4 * m + 3 < 2 ^ (m + 1) := by
      intro m hm
      induction m, hm using Nat.le_induction with
      | base => norm_num
      | succ m _ ih =>
        rw [pow_succ]
        omega
    have hlog : Nat.log 2 n < n / 4 + 1 :=
      Nat.log_lt_of_lt_pow (by omega) (by have := hpow (n / 4) (by omega); omega)
    omega

/-- Not four or eight, for which three quarters and the logarithm are more; and small enough
for the floats to be exact. -/
def Ample (maxSize : ℕ) : Prop := maxSize ≠ 4 ∧ maxSize ≠ 8 ∧ maxSize < 4194304

/-- Each bit that the directory may still grow by leaves room for a page. -/
structure Roomy (s : SizedPool δ) : Prop where
  ready : Ready s
  ample : Ample s.maxSize
  within : Within s
  room : s.pool.hashtable.table.globalDepth < s.pool.hashtable.table.maxDepth →
    s.pool.size + s.pool.hashtable.table.maxDepth ≤
      s.maxSize + s.pool.hashtable.table.globalDepth

end SizedPool

/-- The new maximum of a resize is ample. -/
def PoolCall.Ample : PoolCall δ → Prop
  | .resize newMaxSize => SizedPool.Ample newMaxSize
  | _ => True

namespace SizedPool

variable {s s' : SizedPool δ}

theorem two_pow_add_le {g d : ℕ} (h : g ≤ d) : 2 ^ g + d ≤ 2 ^ d + g := by
  obtain ⟨j, rfl⟩ := Nat.exists_eq_add_of_le h
  have hj : j + 1 ≤ 2 ^ j := Nat.lt_two_pow_self
  have hmul : 2 ^ g * (j + 1) ≤ 2 ^ g * 2 ^ j := Nat.mul_le_mul_left _ hj
  have hle : j ≤ 2 ^ g * j := Nat.le_mul_of_pos_left j (by positivity)
  rw [pow_add]
  rw [mul_add, mul_one] at hmul
  omega

/-- Below the threshold an entry of the directory is free. -/
theorem Roomy.size_lt (h : Roomy s) (ho : BufferPool.overThreshold s.pool.size.toNat
    s.pool.hashtable.table.getNumDirectory = false) :
    s.pool.size < 2 ^ s.pool.hashtable.table.globalDepth := by
  have hw : s.pool.size ≤ s.maxSize := h.within
  have hlt := h.ample.2.2
  have hnat := h.ready.toNat_size
  have hdepth : s.pool.hashtable.table.maxDepth < 32 := by
    rw [h.ready.maxDepth]
    exact LiveTable.log_lt_of_int h.ready.lt
  rw [BufferPool.overThreshold, h.ready.regular.numDirectory hdepth,
    Utils.toFloat_of_lt (by omega), decide_eq_false_iff_not] at ho
  have hpow : 0 < 2 ^ s.pool.hashtable.table.globalDepth := by positivity
  have hlt' : s.pool.size.toNat < 2 ^ s.pool.hashtable.table.globalDepth := by omega
  rw [← hnat]
  exact_mod_cast hlt'

theorem Roomy.insert (h : Roomy s) {pool : LivePool δ} (hr : pool.Regular)
    (hM : pool.hashtable.table.maxDepth = s.pool.hashtable.table.maxDepth)
    (hroom : LivePool.MakesRoom s.pool pool 1) : Roomy { s with pool := pool } := by
  have hmax := h.ready.regular.maxDepth
  have hw : s.pool.size ≤ s.maxSize := h.within
  have hdrift := h.room
  have hready : Ready { s with pool := pool } :=
    ⟨hr, hM.trans h.ready.maxDepth, h.ready.pos, h.ready.lt⟩
  cases hroom with
  | room ho hsize hg =>
    have hfree := h.size_lt ho
    have hpow : (2 ^ s.pool.hashtable.table.globalDepth + s.pool.hashtable.table.maxDepth : ℤ) ≤
        2 ^ s.pool.hashtable.table.maxDepth + s.pool.hashtable.table.globalDepth := by
      exact_mod_cast two_pow_add_le hmax
    have hle : (2 ^ s.pool.hashtable.table.maxDepth : ℤ) ≤ s.maxSize := by
      have hpos := h.ready.pos
      rw [h.ready.maxDepth]
      exact_mod_cast Nat.pow_log_le_self 2 (by omega)
    refine ⟨hready, h.ample, ?_, fun _ => ?_⟩
    · simp only [Within]
      omega
    · simp only [hM, hg]
      omega
  | grown hne hsize hg =>
    have hroom := hdrift (by omega)
    refine ⟨hready, h.ample, ?_, fun _ => ?_⟩
    · simp only [Within]
      omega
    · simp only [hM, hg]
      push_cast
      omega
  | evicted he hsize hg =>
    refine ⟨hready, h.ample, ?_, fun hlt => ?_⟩
    · simp only [Within]
      omega
    · simp only [hM, hg] at hlt
      omega

theorem Roomy.call {c : PoolCall δ} {r : Unit} (h : Roomy s) (hc : c.InRange ∧ c.Ample)
    (hs : call xxh64 c s = .ok (r, s')) : Roomy s' := by
  obtain ⟨hready, -⟩ := h.ready.call hc.1 hs
  have hw : s.pool.size ≤ s.maxSize := h.within
  cases c with
  | insert pageId data =>
    obtain ⟨pool, hp, he⟩ := map_eq_ok.mp hs
    cases he
    obtain ⟨hr, hM, hroom⟩ := h.ready.regular.insert hp
    exact h.insert hr hM hroom
  | remove pageId =>
    obtain ⟨pool, hp, he⟩ := map_eq_ok.mp hs
    cases he
    obtain ⟨-, hsize, hd⟩ := h.ready.regular.remove hp
    refine ⟨hready, h.ample, hsize.trans hw, fun hlt => ?_⟩
    simp only [hd.globalDepth, hd.maxDepth] at hlt ⊢
    have hroom := h.room hlt
    omega
  | resize newMaxSize =>
    obtain ⟨pool, hp, he⟩ := map_eq_ok.mp hs
    cases he
    obtain ⟨-, hM, hsize⟩ := h.ready.regular.resize hp
    obtain ⟨h4, h8, hlt⟩ := hc.2
    have hnat := h.ready.toNat_size
    have hold := h.ample.2.2
    rw [LivePool.numToEvict, LivePool.surplus_of_lt (by omega) hlt, hnat] at hsize
    have hlog := three_quarters_add_log hc.1.1 h4 h8
    refine ⟨hready, hc.2, ?_, fun _ => ?_⟩
    · simp only [Within]
      omega
    · simp only [hM]
      omega

/-- A maximum that is never four or eight is never exceeded. -/
theorem call_within_of_ample (xxh64 : String → UInt64) {minSize maxSize : ℕ} (hmin : 1 ≤ minSize)
    (hle : minSize ≤ maxSize) (hmax : Ample maxSize) {calls : List (PoolCall δ)}
    (hcalls : ∀ c ∈ calls, c.InRange ∧ c.Ample) :
    Throughout (call xxh64) Within (new minSize maxSize) calls := by
  have hlt := hmax.2.2
  refine throughout_of_invariant (call xxh64) (I := Roomy) (fun _ h => h.within)
    (fun _ _ _ _ h hc hs => h.call hc hs)
    ⟨.new hmin hle (by omega), hmax, new_within minSize maxSize, fun _ => ?_⟩ hcalls
  have hsize : (new minSize maxSize : SizedPool δ).pool.size = 0 := rfl
  have hlog : Nat.log 2 maxSize < maxSize := Nat.log_lt_self 2 (by omega)
  have hM : (new minSize maxSize : SizedPool δ).pool.hashtable.table.maxDepth =
    Nat.log 2 maxSize := rfl
  have hmaxSize : (new minSize maxSize : SizedPool δ).maxSize = maxSize := rfl
  rw [hsize, hM, hmaxSize]
  omega

end SizedPool

end MiniKvs
