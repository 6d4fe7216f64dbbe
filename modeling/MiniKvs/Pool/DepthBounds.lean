import MiniKvs.Pool.ShrinkLoss

/-! The depths of a table that is resized and holds no pages. `set_min_size` moves the
minimum and not the directory, so it may leave the directory below the minimum, where
the guard of `shrink_directory`, an equality, no longer stops it. -/

namespace MiniKvs

open Lib

variable {δ : Type} {s s' : LiveTable δ}

/-- The resizing calls. -/
inductive Resize
  | expandDirectory
  | shrinkDirectory
  | setMaxSize (maxSize : ℕ)
  | setMinSize (minSize : ℕ)

namespace Resize

/-- A size is an int from one on. -/
def InRange : Resize → Prop
  | .setMaxSize size => 1 ≤ size ∧ size < 2147483648
  | .setMinSize size => 1 ≤ size ∧ size < 2147483648
  | _ => True

end Resize

namespace LiveTable

def expandDirectory (s : LiveTable δ) : LiveTable δ := { s with table := s.table.expandDirectory.2 }

def setMinSize (s : LiveTable δ) (minSize : ℕ) : LiveTable δ :=
  let minDepth := Nat.log 2 minSize
  { s with table := { s.table with
      minDepth := minDepth
      -- maxDepth is raised if minDepth is greater
      maxDepth := if s.table.maxDepth < minDepth then minDepth else s.table.maxDepth } }

def resize : Resize → LiveTable δ → Except ShrinkFault (Unit × LiveTable δ)
  | .expandDirectory, s => .ok ((), s.expandDirectory)
  | .shrinkDirectory, s => s.shrinkDirectory.map fun s => ((), s)
  | .setMaxSize maxSize, s => (s.setMaxSize maxSize).map fun s => ((), s)
  | .setMinSize minSize, s => .ok ((), s.setMinSize minSize)

/-- The depths are in order, and the directory has all ids of its depth. -/
structure InBounds (s : LiveTable δ) : Prop where
  minDepth : s.table.minDepth ≤ s.table.globalDepth
  maxDepth : s.table.globalDepth ≤ s.table.maxDepth
  keys : ∀ id, id ∈ s.table.buckets.keys ↔ id.length = s.table.globalDepth
  numDirectory : s.table.getNumDirectory = 2 ^ s.table.globalDepth

/-- The minimum is not raised above the depth of the directory. -/
def KeepsMin (s : LiveTable δ) : Resize → Prop
  | .setMinSize minSize => Nat.log 2 minSize ≤ s.table.globalDepth
  | _ => True

instance : DecidableRel (KeepsMin : LiveTable δ → Resize → Prop)
  | s, .setMinSize minSize => inferInstanceAs (Decidable (Nat.log 2 minSize ≤ s.table.globalDepth))
  | _, .expandDirectory => .isTrue trivial
  | _, .shrinkDirectory => .isTrue trivial
  | _, .setMaxSize _ => .isTrue trivial

/-! ### Buckets shared by suffix -/

/-- Without pages, the ids that lead to one bucket are those with a common suffix of some
length, the same for all buckets. -/
structure Uniform (s : LiveTable δ) (k : ℕ) : Prop where
  le : k ≤ s.table.globalDepth
  keys : ∀ id, (s.table.buckets.find id).isSome ↔ id.length = s.table.globalDepth
  live : ∀ id b, s.table.buckets.find id = some b → b ∈ s.liveBuckets
  empty : ∀ b, (s.table.heap b).pages = []
  shared : ∀ id id', id.length = s.table.globalDepth → id'.length = s.table.globalDepth →
    (s.table.buckets.find id = s.table.buckets.find id' ↔
      id.drop (s.table.globalDepth - k) = id'.drop (s.table.globalDepth - k))

theorem Uniform.new {minSize maxSize : ℕ} {bucketMaxSize : ℤ} (h : Nat.log 2 minSize ≤ 32) :
    Uniform (ofTable (.new minSize maxSize bucketMaxSize : ExtendibleHashtable δ))
      (Nat.log 2 minSize) where
  le := le_rfl
  keys := ExtendibleHashtable.new_find h
  live id b hb := by
    have hb : (ExtendibleHashtable.new minSize maxSize bucketMaxSize :
      ExtendibleHashtable δ).buckets.find id = some b := hb
    obtain ⟨i, hi, rfl⟩ := Utils.exists_getBinaryFromInt h
      ((ExtendibleHashtable.new_find h id).mp (by rw [hb]; rfl))
    rw [ExtendibleHashtable.new_find_getBinaryFromInt h hi, Option.some.injEq] at hb
    exact Finset.mem_range.mpr (hb ▸ hi)
  empty _ := rfl
  shared id id' hid hid' := by
    obtain ⟨i, hi, rfl⟩ := Utils.exists_getBinaryFromInt h hid
    obtain ⟨j, hj, rfl⟩ := Utils.exists_getBinaryFromInt h hid'
    have hfind : ∀ {i}, i < 2 ^ Nat.log 2 minSize →
        (ofTable (.new minSize maxSize bucketMaxSize : ExtendibleHashtable δ)).table.buckets.find
          (Utils.getBinaryFromInt (Fin.ofNat _ i) (Nat.log 2 minSize)) = some i :=
      ExtendibleHashtable.new_find_getBinaryFromInt h
    have hdepth : (ofTable (.new minSize maxSize bucketMaxSize :
        ExtendibleHashtable δ)).table.globalDepth - Nat.log 2 minSize = 0 := Nat.sub_self _
    rw [hfind hi, hfind hj, hdepth, List.drop_zero, List.drop_zero, Option.some.injEq]
    exact ⟨fun he => by rw [he], Utils.getBinaryFromInt_injOn h hi hj⟩

theorem Uniform.withDepths {k : ℕ} (h : Uniform s k) (minDepth maxDepth : ℕ) :
    Uniform { s with table := { s.table with minDepth := minDepth, maxDepth := maxDepth } } k :=
  ⟨h.le, h.keys, h.live, h.empty, h.shared⟩

theorem Uniform.expandDirectory {k : ℕ} (h : Uniform s k)
    (hg : s.table.globalDepth ≠ s.table.maxDepth) : Uniform s.expandDirectory k := by
  have hdepth : s.expandDirectory.table.globalDepth = s.table.globalDepth + 1 :=
    ExtendibleHashtable.expandDirectory_globalDepth hg
  have hfind : ∀ id, s.expandDirectory.table.buckets.find id =
      if id.length = s.table.globalDepth + 1 then s.table.buckets.find id.tail else none :=
    ExtendibleHashtable.expand_find h.keys hg
  have hheap : s.expandDirectory.table.heap = s.table.heap :=
    ExtendibleHashtable.expandDirectory_heap
  have hle := h.le
  refine ⟨by omega, fun id => ?_, fun id b hb => ?_, fun b => by rw [hheap]; exact h.empty b,
    fun id id' hid hid' => ?_⟩
  · rw [hdepth]
    exact ExtendibleHashtable.expand_keys h.keys hg id
  · rw [hfind] at hb
    split_ifs at hb
    exact h.live _ b hb
  · -- the new first bit is not part of the suffix
    rw [hdepth] at hid hid'
    obtain ⟨c, x, rfl⟩ := List.exists_cons_of_length_eq_add_one hid
    obtain ⟨c', x', rfl⟩ := List.exists_cons_of_length_eq_add_one hid'
    rw [hfind, hfind, if_pos hid, if_pos hid', hdepth, Nat.succ_sub hle, List.drop_succ_cons,
      List.drop_succ_cons, List.tail_cons, List.tail_cons]
    exact h.shared x x' (Nat.succ.inj hid) (Nat.succ.inj hid')

/-- The pairs of a shrink share their bucket, or no ids share one. -/
theorem Uniform.pair {k : ℕ} (h : Uniform s k) {x : List Bool} {b : ℕ}
    (hb : s.table.buckets.find (false :: x) = some b)
    (hne : s.table.buckets.find (true :: x) ≠ some b) :
    k = s.table.globalDepth ∧ ∀ id, s.table.buckets.find id = some b → id = false :: x := by
  have hlen : ∀ {id b}, s.table.buckets.find id = some b → id.length = s.table.globalDepth :=
    fun hf => (h.keys _).mp (by rw [hf]; rfl)
  have hle := h.le
  have hk : k = s.table.globalDepth := by
    by_contra hk
    refine hne (Eq.trans ((h.shared _ _ ?_ (hlen hb)).mpr ?_) hb)
    · have := hlen hb
      simpa using this
    · obtain ⟨m, hm⟩ : ∃ m, s.table.globalDepth - k = m + 1 :=
        Nat.exists_eq_succ_of_ne_zero (by omega)
      rw [hm, List.drop_succ_cons, List.drop_succ_cons]
  refine ⟨hk, fun id hid => ?_⟩
  have hdrop := (h.shared id (false :: x) (hlen hid) (hlen hb)).mp (hid.trans hb.symm)
  rwa [hk, Nat.sub_self, List.drop_zero, List.drop_zero] at hdrop

theorem Uniform.shrinkDirectory {k g : ℕ} (h : Uniform s k) (hg : s.table.globalDepth = g + 1)
    (hmin : s.table.globalDepth ≠ s.table.minDepth) :
    ∃ s', s.shrinkDirectory = .ok s' ∧ Halved s s' ∧ Uniform s' (min k g) := by
  have hkeys := h.keys
  rw [hg] at hkeys
  obtain ⟨s', hs'⟩ := shrinkDirectory_of_empty hkeys hmin h.live fun x b hb hne =>
    ⟨h.empty b, (h.pair hb hne).2⟩
  have hh := shrinkDirectory_halved hkeys hg hmin hs'
  have hg' : s'.table.globalDepth = g := by
    have := hh.globalDepth
    omega
  have hle := h.le
  have hone : ∀ {id}, id.length = s'.table.globalDepth →
      (true :: id).length = s.table.globalDepth := by
    intro id hid
    rw [List.length_cons, hid, hg', hg]
  refine ⟨s', hs', hh, by omega, hh.keys h.keys, fun id b hb => ?_, fun b => ?_,
    fun id id' hid hid' => ?_⟩
  · rw [hh.find] at hb
    split_ifs at hb
    refine (hh.liveBuckets b).mpr ⟨h.live _ b hb, fun x hx => ?_⟩
    by_contra hne
    cases (h.pair hx hne).2 _ hb
  · rw [(hh.untouched fun _ b _ _ => h.empty b).1]
    exact h.empty b
  · rw [hh.find, hh.find, if_pos hid, if_pos hid', h.shared _ _ (hone hid) (hone hid'), hg', hg]
    rcases Nat.lt_or_ge g k with hlt | hge
    · have hk : k = g + 1 := by omega
      rw [hk, Nat.sub_self, min_eq_right (Nat.le_succ g), Nat.sub_self, List.drop_zero,
        List.drop_zero, List.drop_zero, List.drop_zero, List.cons.injEq, and_iff_right rfl]
    · rw [min_eq_left hge, Nat.succ_sub hge, List.drop_succ_cons, List.drop_succ_cons]

/-- The loop of `set_max_size` ends when the directory is no deeper than the maximum. -/
theorem Uniform.shrinkLoop (fuel : ℕ) : ∀ {s : LiveTable δ} {k : ℕ}, Uniform s k →
    s.table.minDepth ≤ s.table.maxDepth → s.table.globalDepth ≤ s.table.maxDepth + fuel →
    ∃ s' k', LiveTable.shrinkLoop fuel s = .ok s' ∧ Uniform s' k' ∧
      s'.table.minDepth = s.table.minDepth ∧ s'.table.maxDepth = s.table.maxDepth ∧
      s'.table.globalDepth = min s.table.globalDepth s.table.maxDepth := by
  induction fuel with
  | zero =>
    intro s k h _ hle
    exact ⟨s, k, by rw [LiveTable.shrinkLoop, if_neg (by omega)], h, rfl, rfl, by omega⟩
  | succ fuel ih =>
    intro s k h hmin hle
    by_cases hg : s.table.globalDepth > s.table.maxDepth
    · obtain ⟨g, hg'⟩ : ∃ g, s.table.globalDepth = g + 1 :=
        Nat.exists_eq_succ_of_ne_zero (by omega)
      obtain ⟨s₁, h₁, hh, hu⟩ := h.shrinkDirectory hg' (by omega)
      have hd := hh.globalDepth
      have hmin' := hh.minDepth
      have hmax' := hh.maxDepth
      obtain ⟨s', k', h', hu', hm, hM, hgd⟩ := ih hu (by omega) (by omega)
      exact ⟨s', k', by rw [LiveTable.shrinkLoop, if_pos hg, h₁, ok_bind, h'], hu',
        hm.trans hmin', hM.trans hmax', by omega⟩
    · exact ⟨s, k, by rw [LiveTable.shrinkLoop, if_neg hg], h, rfl, rfl, by omega⟩

/-! ### Runs -/

/-- The depths are in order, and the directory is shared by suffix. -/
structure Regular (s : LiveTable δ) : Prop where
  minDepth : s.table.minDepth ≤ s.table.globalDepth
  maxDepth : s.table.globalDepth ≤ s.table.maxDepth
  maxDepth_lt : s.table.maxDepth < 32
  uniform : ∃ k, Uniform s k

theorem Regular.inBounds (h : Regular s) : InBounds s := by
  obtain ⟨k, hu⟩ := h.uniform
  have hmax := h.maxDepth
  have hlt := h.maxDepth_lt
  exact ⟨h.minDepth, hmax, fun id => OrdMap.mem_keys.trans (hu.keys id),
    ExtendibleHashtable.numDirectory_of_keys (by omega) hu.keys⟩

theorem log_lt_of_int {size : ℕ} (h : size < 2147483648) : Nat.log 2 size < 32 :=
  Nat.log_lt_of_lt_pow' (by norm_num) (h.trans (by norm_num))

theorem Regular.new {minSize maxSize : ℕ} {bucketMaxSize : ℤ} (hle : minSize ≤ maxSize)
    (hmax : maxSize < 2147483648) :
    Regular (ofTable (.new minSize maxSize bucketMaxSize : ExtendibleHashtable δ)) := by
  have hlog : Nat.log 2 minSize ≤ Nat.log 2 maxSize := Nat.log_mono_right hle
  have hlt := log_lt_of_int hmax
  exact ⟨le_rfl, hlog, hlt, _, .new (by omega)⟩

theorem Regular.expandDirectory (h : Regular s) : Regular s.expandDirectory := by
  obtain ⟨k, hu⟩ := h.uniform
  by_cases hg : s.table.globalDepth = s.table.maxDepth
  · have he : s.expandDirectory = s := by
      simp only [LiveTable.expandDirectory, ExtendibleHashtable.expandDirectory, if_pos hg]
    rw [he]
    exact h
  · have hdepth : s.expandDirectory.table.globalDepth = s.table.globalDepth + 1 :=
      ExtendibleHashtable.expandDirectory_globalDepth hg
    have hmax : s.expandDirectory.table.maxDepth = s.table.maxDepth :=
      ExtendibleHashtable.expandDirectory_maxDepth
    have hmin : s.expandDirectory.table.minDepth = s.table.minDepth :=
      ExtendibleHashtable.expandDirectory_minDepth
    have := h.minDepth
    have := h.maxDepth
    exact ⟨by omega, by omega, hmax ▸ h.maxDepth_lt, k, hu.expandDirectory hg⟩

theorem Regular.shrinkDirectory (h : Regular s) :
    ∃ s', s.shrinkDirectory = .ok s' ∧ Regular s' := by
  obtain ⟨k, hu⟩ := h.uniform
  by_cases hmin : s.table.globalDepth = s.table.minDepth
  · exact ⟨s, if_pos hmin, h⟩
  · have hle := h.minDepth
    have hmax := h.maxDepth
    obtain ⟨g, hg⟩ : ∃ g, s.table.globalDepth = g + 1 := Nat.exists_eq_succ_of_ne_zero (by omega)
    obtain ⟨s', hs', hh, hu'⟩ := hu.shrinkDirectory hg hmin
    have hd := hh.globalDepth
    have hm := hh.minDepth
    have hM := hh.maxDepth
    exact ⟨s', hs', by omega, by omega, hM ▸ h.maxDepth_lt, _, hu'⟩

theorem Regular.setMaxSize (h : Regular s) {maxSize : ℕ} (hmax : maxSize < 2147483648) :
    ∃ s', s.setMaxSize maxSize = .ok s' ∧ Regular s' := by
  obtain ⟨k, hu⟩ := h.uniform
  have hle := h.minDepth
  obtain ⟨s', k', hs', hu', hm, hM, hg⟩ := Uniform.shrinkLoop s.table.globalDepth
    (hu.withDepths (if s.table.minDepth > Nat.log 2 maxSize then Nat.log 2 maxSize
      else s.table.minDepth) (Nat.log 2 maxSize))
    (by simp only; split_ifs <;> omega) (Nat.le_add_left _ _)
  simp only at hm hM hg
  refine ⟨s', hs', ?_, by omega, hM ▸ log_lt_of_int hmax, k', hu'⟩
  split_ifs at hm <;> omega

/-- A minimum that is kept below the directory does not move the maximum. -/
theorem Regular.setMinSize (h : Regular s) {minSize : ℕ}
    (hg : Nat.log 2 minSize ≤ s.table.globalDepth) : Regular (s.setMinSize minSize) := by
  obtain ⟨k, hu⟩ := h.uniform
  have hmax := h.maxDepth
  have he : (s.setMinSize minSize).table.maxDepth = s.table.maxDepth := if_neg (by omega)
  exact ⟨hg, he ▸ hmax, he ▸ h.maxDepth_lt, k, hu.withDepths _ _⟩

theorem Regular.resize {op : Resize} (h : Regular s) (hop : op.InRange) (hg : KeepsMin s op) :
    ∃ r s', resize op s = .ok (r, s') ∧ Regular s' := by
  cases op with
  | expandDirectory => exact ⟨(), _, rfl, h.expandDirectory⟩
  | shrinkDirectory =>
    obtain ⟨s', hs', h'⟩ := h.shrinkDirectory
    exact ⟨(), s', by rw [LiveTable.resize, hs']; rfl, h'⟩
  | setMaxSize maxSize =>
    obtain ⟨s', hs', h'⟩ := h.setMaxSize hop.2
    exact ⟨(), s', by rw [LiveTable.resize, hs']; rfl, h'⟩
  | setMinSize minSize => exact ⟨(), _, rfl, h.setMinSize hg⟩

/-- Every call of a run returns and leaves the depths in order exactly when no call raises the
minimum above the directory. -/
theorem resize_inBounds_iff {minSize maxSize : ℕ} {bucketMaxSize : ℤ} (hle : minSize ≤ maxSize)
    (hmax : maxSize < 2147483648) {ops : List Resize} (hops : ∀ op ∈ ops, op.InRange) :
    (∃ rs s, run resize ops (ofTable (.new minSize maxSize bucketMaxSize :
        ExtendibleHashtable δ)) = .ok (rs, s)) ∧
      Throughout resize InBounds (ofTable (.new minSize maxSize bucketMaxSize :
        ExtendibleHashtable δ)) ops ↔
      Along resize KeepsMin (ofTable (.new minSize maxSize bucketMaxSize :
        ExtendibleHashtable δ)) ops := by
  have hnew : Regular (ofTable (.new minSize maxSize bucketMaxSize : ExtendibleHashtable δ)) :=
    .new hle hmax
  have htotal := (alongTotal_true (fun (_ : Resize) u => u) () ops).and hops
  have hiff := throughout_iff_along_of_alongTotal resize
    (R := fun s (_ : Unit) => Regular (δ := δ) s) (Q := InBounds) (G := KeepsMin)
    (fun op s _ r s' h hop _ hg hs => by
      obtain ⟨r₁, s₁, h₁, hr⟩ := h.resize hop.2 hg
      rw [hs, Except.ok.injEq, Prod.mk.injEq] at h₁
      exact ⟨h₁.2 ▸ hr, h₁.2 ▸ hr.inBounds⟩)
    (fun op s _ h hop _ hg => by
      cases op with
      | setMinSize minSize => exact ⟨(), _, rfl, fun hb => hg hb.minDepth⟩
      | _ => exact absurd trivial hg)
    hnew hnew.inBounds htotal
  rw [hiff, and_iff_right_iff_imp]
  intro ha
  obtain ⟨rs, s, hr, -⟩ := run_simulates resize (R := fun s (_ : Unit) => Regular (δ := δ) s)
    (P := KeepsMin) (Q := fun _ _ _ => True)
    (fun s _ op h hop hg => by
      obtain ⟨r, s', hs, h'⟩ := h.resize hop.2 hg
      exact ⟨r, s', hs, h', trivial⟩)
    hnew htotal ha
  exact ⟨rs, s, hr⟩

/-- The minimum is raised to the depth that the directory has grown to. -/
theorem resize_inBounds_iff_grow :
    (∃ rs s, run resize [.expandDirectory, .setMinSize 2, .shrinkDirectory, .setMaxSize 1]
        (ofTable (.new 1 8 1 : ExtendibleHashtable Unit)) = .ok (rs, s)) ∧
      Throughout resize InBounds (ofTable (.new 1 8 1 : ExtendibleHashtable Unit))
        [.expandDirectory, .setMinSize 2, .shrinkDirectory, .setMaxSize 1] :=
  (resize_inBounds_iff (by norm_num) (by norm_num) (by simp [Resize.InRange])).mpr (by decide)

/-- The directory is left below the minimum, and a shrink takes the pair of the empty id. -/
theorem not_resize_inBounds : ¬ ∀ (minSize maxSize : ℕ) (bucketMaxSize : ℤ) (ops : List Resize),
    minSize ≤ maxSize → maxSize < 2147483648 → (∀ op ∈ ops, op.InRange) →
    (∃ rs s, run resize ops (ofTable (.new minSize maxSize bucketMaxSize :
        ExtendibleHashtable Unit)) = .ok (rs, s)) ∧
      Throughout resize InBounds (ofTable (.new minSize maxSize bucketMaxSize :
        ExtendibleHashtable Unit)) ops := by
  intro h
  obtain ⟨⟨rs, s, hr⟩, -⟩ := h 1 8 1 [.setMinSize 4, .shrinkDirectory] (by norm_num) (by norm_num)
    (by simp [Resize.InRange])
  have hfail : (run resize [.setMinSize 4, .shrinkDirectory]
      (ofTable (.new 1 8 1 : ExtendibleHashtable Unit))).isOk = false := by decide
  rw [hr] at hfail
  cases hfail

end LiveTable

end MiniKvs
