import MiniKvs.Pool.LocalDepth

/-! What `get_all_pages` returns. It walks the directory and not the buckets, so
the pages of a bucket come once for each id that leads to it. -/

namespace MiniKvs.ExtendibleHashtable

open Lib

variable {δ : Type} {xxh64 : String → UInt64} {t : ExtendibleHashtable δ}

def getAllPages (t : ExtendibleHashtable δ) : List (Page δ) :=
  t.buckets.toList.flatMap fun x => (t.heap x.2).pages

/-- The pages `ps` are returned, each of them once. -/
structure Enumerates (t : ExtendibleHashtable δ) (ps : List (Page δ)) : Prop where
  mem : ∀ p, p ∈ t.getAllPages ↔ p ∈ ps
  once : t.getAllPages.Nodup
  length : (t.getAllPages.length : ℤ) = t.size

/-- One directory entry at most leads to a bucket with pages. -/
def Unaliased (t : ExtendibleHashtable δ) : Prop :=
  ∀ id id' b, t.buckets.find id = some b → t.buckets.find id' = some b →
    (t.heap b).pages ≠ [] → id = id'

instance (t : ExtendibleHashtable δ) : Decidable (Unaliased t) :=
  decidable_of_iff (∀ x ∈ t.buckets.toList, ∀ y ∈ t.buckets.toList, x.2 = y.2 →
      (t.heap x.2).pages ≠ [] → x.1 = y.1)
    ⟨fun h id id' b hb hb' => h (id, b) (OrdMap.find_eq_some.mp hb) (id', b)
        (OrdMap.find_eq_some.mp hb') rfl,
      fun h x hx y hy he => h x.1 y.1 x.2 (OrdMap.find_eq_some.mpr hx)
        (OrdMap.find_eq_some.mpr (he ▸ hy))⟩

theorem mem_getAllPages {p : Page δ} :
    p ∈ t.getAllPages ↔ ∃ id b, t.buckets.find id = some b ∧ p ∈ (t.heap b).pages := by
  rw [getAllPages, List.mem_flatMap]
  constructor
  · rintro ⟨⟨id, b⟩, hx, hp⟩
    exact ⟨id, b, OrdMap.find_eq_some.mpr hx, hp⟩
  · rintro ⟨id, b, hb, hp⟩
    exact ⟨(id, b), OrdMap.find_eq_some.mp hb, hp⟩

/-- Every stored page is returned, however often. -/
theorem Sound.mem_getAllPages (h : Sound xxh64 t) {p : Page δ} :
    p ∈ t.getAllPages ↔ p ∈ t.stored := by
  rw [ExtendibleHashtable.mem_getAllPages, h.mem_stored]
  constructor
  · rintro ⟨id, b, -, hp⟩
    exact ⟨b, hp⟩
  · rintro ⟨b, hp⟩
    exact ⟨_, b, h.placed b p hp, hp⟩

theorem unaliased_of_nodup (h : t.getAllPages.Nodup) : Unaliased t := by
  intro id id' b hb hb' hne
  obtain ⟨p, hp⟩ := List.exists_mem_of_ne_nil _ hne
  by_contra hid
  have hpair := (List.nodup_flatMap.mp h).2
  have hsymm : Std.Symm (Function.onFun List.Disjoint
      fun x : List Bool × ℕ => (t.heap x.2).pages) := ⟨fun _ _ hd => hd.symm⟩
  exact hpair.forall (OrdMap.find_eq_some.mp hb) (OrdMap.find_eq_some.mp hb')
    (fun he => hid (congrArg Prod.fst he)) hp hp

theorem Sound.getAllPages_nodup (h : Sound xxh64 t) (hu : Unaliased t) :
    t.getAllPages.Nodup := by
  refine List.nodup_flatMap.mpr ⟨fun x _ => (h.ids x.2).of_map _, ?_⟩
  have hnodup : t.buckets.toList.Nodup := t.buckets.keys_nodup.of_map _
  refine hnodup.pairwise_of_forall_ne fun x hx y hy hne p hp hp' => hne ?_
  -- a page of both lies in the one bucket of its id
  have hb := h.placed x.2 p hp
  rw [h.placed y.2 p hp', Option.some.injEq] at hb
  have hx' := OrdMap.find_eq_some.mpr hx
  have hy' := OrdMap.find_eq_some.mpr hy
  rw [hb] at hy'
  exact Prod.ext (hu x.1 y.1 x.2 hx' hy' (List.ne_nil_of_mem hp)) hb.symm

theorem Holds.enumerates_iff {ps : List (Page δ)} (h : Holds xxh64 t ps) :
    Enumerates t ps ↔ Unaliased t := by
  refine ⟨fun he => unaliased_of_nodup he.once, fun hu => ?_⟩
  have hnodup := h.sound.getAllPages_nodup hu
  have hperm : t.getAllPages.Perm t.stored :=
    (List.perm_ext_iff_of_nodup hnodup (h.sound.stored_ids_nodup.of_map _)).mpr
      fun _ => h.sound.mem_getAllPages
  exact ⟨fun p => (hperm.trans h.stored).mem_iff, hnodup, by rw [hperm.length_eq, h.sound.size]⟩

/-- Where local depths describe the directory, the buckets with pages are those that are
as deep as it. -/
theorem DescribesDirectory.unaliased_iff (hd : DescribesDirectory t)
    (ha : ∀ id b, t.buckets.find id = some b → b < t.allocated) : Unaliased t ↔
      ∀ b < t.allocated, (t.heap b).pages ≠ [] → (t.heap b).localDepth = t.globalDepth := by
  constructor
  · intro hu b hb hne
    obtain ⟨suffix, he⟩ := hd.suffix b hb
    by_contra hlt
    have hlen := he.length
    have hle := he.le
    -- two entries at least lead to a bucket that is less deep
    have hentries : 1 < (t.entries b).length := by
      rw [hd.entries b hb]
      exact Nat.one_lt_two_pow (by omega)
    have hnodup := entries_nodup (t := t) b
    match hl : t.entries b with
    | [] => simp [hl] at hentries
    | [id] => simp [hl] at hentries
    | id :: id' :: rest =>
      have hid : t.buckets.find id = some b := mem_entries.mp (by rw [hl]; simp)
      have hid' : t.buckets.find id' = some b := mem_entries.mp (by rw [hl]; simp)
      rw [hl, hu id id' b hid hid' hne] at hnodup
      exact (List.nodup_cons.mp hnodup).1 List.mem_cons_self
  · intro hf id id' b hb hb' hne
    have hlt := ha id b hb
    exact (hd.full b hlt (hf b hlt hne)).unique hb hb'

/-- After any run every stored page is returned once exactly when no bucket with pages
is shared. -/
theorem getAllPages_enumerates_iff (xxh64 : String → UInt64) {minSize maxSize : ℕ}
    {bucketMaxSize : ℤ} (hle : minSize ≤ maxSize) (hmax : maxSize < 2147483648)
    {ops : List (Op δ)} (ha : AlongTotal held Allowed [] ops) {rs : List Unit}
    {t : ExtendibleHashtable δ}
    (hr : run (step xxh64) ops (new minSize maxSize bucketMaxSize) = .ok (rs, t)) :
    Enumerates t (finalState held [] ops) ↔ Unaliased t := by
  obtain ⟨rs', t', hr', hh, -⟩ := run_holds xxh64 bucketMaxSize hle hmax ha
  rw [hr, Except.ok.injEq, Prod.mk.injEq] at hr'
  obtain ⟨-, rfl⟩ := hr'
  exact hh.enumerates_iff

/-- A split gives each of the two entries a bucket of its own. -/
theorem getAllPages_enumerates_iff_split : ∃ rs t,
    run (step fun id => id.length.toUInt64)
      [.expandDirectory, .insertPage ⟨0, "bc", ()⟩, .insertPage ⟨1, "a", ()⟩] (new 1 2 1) =
      .ok (rs, t) ∧ Enumerates t [⟨1, "a", ()⟩, ⟨0, "bc", ()⟩] := by
  have hr := eq_ok_okOr ([], new 1 2 1) (x := run (step fun id => id.length.toUInt64)
    [.expandDirectory, .insertPage ⟨0, "bc", ()⟩, .insertPage ⟨1, "a", ()⟩] (new 1 2 1))
    (by decide)
  exact ⟨_, _, hr, (getAllPages_enumerates_iff (fun id => id.length.toUInt64) (by norm_num)
    (by norm_num) (by simp [AlongTotal, Allowed, held]) hr).mpr (by decide)⟩

/-- After the directory has grown both entries lead to the bucket of the page. -/
theorem not_getAllPages_enumerates : ¬ ∀ (xxh64 : String → UInt64) (minSize maxSize : ℕ)
    (bucketMaxSize : ℤ) (ops : List (Op Unit)) (rs : List Unit) (t : ExtendibleHashtable Unit),
    minSize ≤ maxSize → maxSize < 2147483648 → AlongTotal held Allowed [] ops →
    run (step xxh64) ops (new minSize maxSize bucketMaxSize) = .ok (rs, t) →
    Enumerates t (finalState held [] ops) := by
  intro h
  have hr := eq_ok_okOr ([], new 1 2 1) (x := run (step fun id => id.length.toUInt64)
    [.insertPage ⟨0, "a", ()⟩, .expandDirectory] (new 1 2 1)) (by decide)
  have henum := h _ 1 2 1 _ _ _ (by norm_num) (by norm_num) (by simp [AlongTotal, Allowed]) hr
  exact absurd henum.once (by decide)

end MiniKvs.ExtendibleHashtable
