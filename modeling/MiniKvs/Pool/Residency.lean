import MiniKvs.Lib.Recency
import MiniKvs.Pool.Coherence

/-! How long the pool keeps a page. As long as its list is intact, the pages used lately
stand in front of it, and none of them is dropped while they are no more than the pool has
room for. So a page stays until that many others have been used, and pages that fit in the
pool together are read from the file once. -/

namespace MiniKvs

open Lib

variable {δ : Type}

/-! ### Room -/

namespace BufferPool

/-- How many pages the pool always has room for. -/
def room (maxDepth : ℕ) : ℕ := 3 * 2 ^ maxDepth / 4 + 1

theorem toFloat_le {n m : ℕ} (h : n ≤ m) (hd : 2 ^ (Nat.log 2 n - 23) ∣ m) :
    Utils.toFloat n ≤ m := by
  obtain ⟨k, rfl⟩ := hd
  have hdiv := Nat.div_add_mod n (2 ^ (Nat.log 2 n - 23))
  have hpos : 0 < 2 ^ (Nat.log 2 n - 23) := by positivity
  unfold Utils.toFloat
  simp only
  split_ifs with hup
  · -- a number that is rounded up is below the next multiple
    have hlt : n / 2 ^ (Nat.log 2 n - 23) < k := by
      by_contra hk
      have := Nat.mul_le_mul_left (2 ^ (Nat.log 2 n - 23)) (not_lt.mp hk)
      omega
    rw [Nat.mul_comm]
    exact Nat.mul_le_mul_left _ hlt
  · rw [Nat.mul_comm]
    omega

theorem overThreshold_eq_false {n maxDepth : ℕ} (h : n < room maxDepth) :
    overThreshold n (2 ^ maxDepth) = false := by
  unfold room at h
  simp only [overThreshold, decide_eq_false_iff_not, not_lt]
  rcases maxDepth with - | - | d
  · rw [Utils.toFloat_of_lt (by omega)]
    omega
  · rw [Utils.toFloat_of_lt (by omega)]
    omega
  · have hpow : 2 ^ (d + 1 + 1) = 2 ^ d * 4 := pow_add 2 d 2
    have hn : n ≤ 3 * 2 ^ d := by omega
    have hlog : Nat.log 2 n < d + 2 :=
      Nat.log_lt_of_lt_pow' (by omega) (by have := Nat.two_pow_pos d; rw [hpow]; omega)
    have hdvd : 2 ^ (Nat.log 2 n - 23) ∣ 3 * 2 ^ d :=
      Dvd.dvd.mul_left (pow_dvd_pow 2 (by omega)) 3
    have := toFloat_le hn hdvd
    omega

end BufferPool

/-! ### The cache -/

namespace Cache

variable {maxDepth : ℕ} {c : Cache δ} {used : Finset String} {id : String}

theorem ids_filter (c : Cache δ) (id : String) :
    (c.held.filter fun y => y.1 ≠ id).map Prod.fst = c.ids.filter (· ≠ id) := by
  rw [ids, List.filter_map]
  rfl

theorem ids_remove (c : Cache δ) (id : String) : (c.remove id).ids = c.ids.filter (· ≠ id) :=
  ids_filter c id

theorem find_eq_none : c.find id = none ↔ id ∉ c.ids := by
  simp only [find, ids, List.find?_eq_none, decide_eq_true_eq, List.mem_map, not_exists, not_and]

theorem get_of_notMem (h : id ∉ c.ids) : c.get id = c := by
  rw [get, find_eq_none.mpr h]

theorem ids_get (h : id ∈ c.ids) : (c.get id).ids = id :: c.ids.filter (· ≠ id) := by
  unfold get
  cases hf : c.find id with
  | none => exact absurd h (find_eq_none.mp hf)
  | some x =>
    have hx : x.1 = id := by simpa using List.find?_some hf
    simp only [ids, List.map_cons, hx]
    exact congrArg (id :: ·) (ids_filter c id)

/-- Room is never made at the cost of a page used lately. -/
theorem front_makeRoom (h : Front used c.ids) (hn : c.ids.Nodup)
    (hroom : used.card < BufferPool.room maxDepth) : Front used (c.makeRoom maxDepth).ids := by
  unfold makeRoom
  split_ifs with hover hdepth
  · have hids : (c.held.dropLast.map Prod.fst) = c.ids.dropLast := List.map_dropLast ..
    show Front used (c.held.dropLast.map Prod.fst)
    rw [hids]
    refine h.dropLast hn ?_
    by_contra hle
    have hlen : c.held.length = c.ids.length := (List.length_map _).symm
    rw [hdepth, hlen, BufferPool.overThreshold_eq_false (by omega)] at hover
    cases hover
  · exact h
  · exact h

theorem front_insert {data : δ} (h : Front used c.ids) (hn : c.ids.Nodup)
    (hroom : used.card < BufferPool.room maxDepth) :
    Front ({id} ∪ used) (c.insert maxDepth id data).ids :=
  (front_makeRoom h hn hroom).push id

theorem front_get (h : Front used c.ids) (hid : id ∈ c.ids) :
    Front ({id} ∪ used) (c.get id).ids := by
  rw [ids_get hid]
  exact h.touch id

theorem front_remove (h : Front used c.ids) (id : String) :
    Front (used.erase id) (c.remove id).ids := by
  rw [ids_remove]
  exact h.filter id

/-- The page `x` is held, with no more pages of `within` used since than fit in front of it. -/
def Resident (within : Finset String) (x : String × δ) (c : Cache δ) : Prop :=
  x ∈ c.held ∧ ∃ used ⊆ within, x.1 ∈ used ∧ Front used c.ids

end Cache

namespace BufferPool

variable {xxh64 : String → UInt64} {maxDepth : ℕ} {pool pool' : BufferPool δ} {c : Cache δ}
  {within used : Finset String} {x : String × δ}

/-- The page that a call uses; a `get` uses its page also when it is not there. -/
def Op.asks : Op δ → Option String
  | .insert id _ => some id
  | .get id => some id
  | .remove _ => none

/-- Among the pages of `within` there is room for one that is not in front yet. -/
theorem card_lt_room (hroom : within.card ≤ room maxDepth) (hsub : used ⊆ within) {id : String}
    (hid : id ∈ within) (hnot : id ∉ used) : used.card < room maxDepth :=
  (Finset.card_lt_card (Finset.ssubset_iff_of_subset hsub |>.mpr ⟨id, hid, hnot⟩)).trans_le hroom

/-- A page in front stays, whichever of the pages of `within` is used next. -/
theorem InStep.resident (h : InStep xxh64 maxDepth pool c) (hr : c.Resident within x)
    (hroom : within.card ≤ room maxDepth) {op : Op δ} (ha : Allowed c op)
    (hkeep : op ≠ .remove x.1) (hasks : ∀ id ∈ op.asks, id ∈ within) :
    (next maxDepth op c).Resident within x := by
  obtain ⟨hx, used, hsub, hused, hfront⟩ := hr
  cases op with
  | insert id data =>
    have hid : id ∈ within := hasks id rfl
    have hnew : id ∉ used := fun hm => ha (hfront.mem hm)
    have hfront' := Cache.front_makeRoom hfront h.ids_nodup (card_lt_room hroom hsub hid hnew)
    -- the page that stays is the one that was held
    have hstays : x ∈ (c.makeRoom maxDepth).held := by
      obtain ⟨y, hy, hyx⟩ := List.mem_map.mp (hfront'.mem hused)
      have hheld : (c.makeRoom maxDepth).held ⊆ c.held := by
        unfold Cache.makeRoom
        split_ifs
        · exact List.dropLast_subset _
        · exact List.Subset.refl _
        · exact List.Subset.refl _
      rwa [← List.inj_on_of_nodup_map h.ids_nodup (hheld hy) hx hyx]
    exact ⟨List.mem_cons_of_mem _ hstays, _, Finset.insert_subset hid hsub,
      Finset.mem_insert_of_mem hused, hfront'.push id⟩
  | get id =>
    have hid : id ∈ within := hasks id rfl
    by_cases hm : id ∈ c.ids
    · refine ⟨?_, _, Finset.insert_subset hid hsub, Finset.mem_insert_of_mem hused,
        Cache.front_get hfront hm⟩
      cases hf : c.find id with
      | none => exact absurd hm (Cache.find_eq_none.mp hf)
      | some y =>
        obtain ⟨hy, rfl⟩ := h.find_eq_some.mp hf
        simp only [next, Cache.get, hf, List.mem_cons, List.mem_filter]
        by_cases hxy : x.1 = y.1
        · exact .inl (List.inj_on_of_nodup_map h.ids_nodup hx hy hxy)
        · exact .inr ⟨hx, by simpa using hxy⟩
    · rw [next, Cache.get_of_notMem hm]
      exact ⟨hx, used, hsub, hused, hfront⟩
  | remove id =>
    have hne : x.1 ≠ id := fun he => hkeep (by rw [he])
    refine ⟨List.mem_filter.mpr ⟨hx, by simpa using hne⟩, _,
      (Finset.erase_subset id used).trans hsub, Finset.mem_erase.mpr ⟨hne, hused⟩,
      Cache.front_remove hfront id⟩

/-- A page that was just used is in front. -/
theorem InStep.resident_of_use (h : InStep xxh64 maxDepth pool c) (hx : x.1 ∈ within) {op : Op δ}
    (hop : op = .insert x.1 x.2 ∨ op = .get x.1 ∧ answer op c = some x.2) :
    (next maxDepth op c).Resident within x := by
  have hsub : {x.1} ∪ ∅ ⊆ within := by simpa using hx
  rcases hop with rfl | ⟨rfl, hanswer⟩
  · exact ⟨List.mem_cons_self, _, hsub, by simp, (Front.empty _).push x.1⟩
  · obtain ⟨y, hf, hy⟩ := Option.map_eq_some_iff.mp hanswer
    obtain ⟨hm, hid⟩ := h.find_eq_some.mp hf
    obtain rfl : y = x := Prod.ext hid hy
    refine ⟨?_, _, hsub, by simp, Cache.front_get (Front.empty _) (List.mem_map_of_mem hm)⟩
    simp [next, Cache.get, hf]

namespace InStep

theorem run (h : InStep xxh64 maxDepth pool c) {ops : List (Op δ)}
    (ha : AlongTotal (next maxDepth) Allowed c ops) (hk : Along (BufferPool.step xxh64) KeepsFront
      pool ops) : ∃ rs pool', Lib.run (BufferPool.step xxh64) ops pool = .ok (rs, pool') ∧
    InStep xxh64 maxDepth pool' (finalState (next maxDepth) c ops) := by
  obtain ⟨rs, pool', hr, hin, -⟩ := run_simulates (BufferPool.step xxh64)
    (R := InStep xxh64 maxDepth) (Q := fun _ _ _ => True) (fun pool c op h ha hk => by
      obtain ⟨pool', hs, h'⟩ := h.step ha hk
      exact ⟨_, pool', hs, h', trivial⟩) h ha hk
  exact ⟨rs, pool', hr, hin⟩

theorem run_held (h : InStep xxh64 maxDepth pool c) (hx : c.Resident within x)
    (hroom : within.card ≤ room maxDepth) {ops : List (Op δ)}
    (ha : AlongTotal (next maxDepth) Allowed c ops)
    (hk : Along (BufferPool.step xxh64) KeepsFront pool ops) (hkeep : .remove x.1 ∉ ops)
    (hasks : ∀ op ∈ ops, ∀ id ∈ op.asks, id ∈ within) :
    ∃ rs pool' c', Lib.run (BufferPool.step xxh64) ops pool = .ok (rs, pool') ∧
      InStep xxh64 maxDepth pool' c' ∧ x ∈ c'.held := by
  have hguard := ha.and (p := fun op => op ≠ .remove x.1 ∧ ∀ id ∈ op.asks, id ∈ within)
    fun op hop => ⟨fun he => hkeep (he ▸ hop), hasks op hop⟩
  obtain ⟨rs, pool', hr, hin, -⟩ := run_simulates (BufferPool.step xxh64)
    (R := fun pool c => InStep xxh64 maxDepth pool c ∧ c.Resident within x)
    (Q := fun _ _ _ => True) (fun pool c op ⟨h, hx⟩ ⟨ha, hkeep, hasks⟩ hk => by
      obtain ⟨pool', hs, h'⟩ := h.step ha hk
      exact ⟨_, pool', hs, ⟨h', h.resident hx hroom ha hkeep hasks⟩, trivial⟩) ⟨h, hx⟩ hguard hk
  exact ⟨rs, pool', _, hr, hin.1, hin.2.1⟩

end InStep

/-- A page that a call has put in or found is found again as long as it is not removed and
it and the pages used since fit in the pool. -/
theorem run_resident (xxh64 : String → UInt64) {minSize maxSize : ℕ} (hle : minSize ≤ maxSize)
    (hmax : maxSize < 2147483648) (before later : List (Op δ)) (op : Op δ) (x : String × δ)
    (ha : AlongTotal (next (Nat.log 2 maxSize)) Allowed ⟨Nat.log 2 minSize, []⟩
      (before ++ op :: later))
    (hk : Along (step xxh64) KeepsFront (new minSize maxSize) (before ++ op :: later))
    {rs : List (Option δ)}
    (hr : run (step xxh64) (before ++ op :: later) (new minSize maxSize) = .ok (rs, pool))
    (hop : op = .insert x.1 x.2 ∨ op = .get x.1 ∧ rs[before.length]? = some (some x.2))
    (hkeep : .remove x.1 ∉ later)
    (hroom : ({x.1} ∪ (later.filterMap Op.asks).toFinset).card ≤ room (Nat.log 2 maxSize)) :
    ∃ pool', pool.get xxh64 x.1 = .ok (some x.2, pool') := by
  obtain ⟨rs₁, pool₁, rs₂, h₁, h₂, rfl⟩ := (run_append_eq_ok _).mp hr
  obtain ⟨r, pool₂, rs₃, hs, h₃, rfl⟩ := (run_cons_eq_ok _).mp h₂
  obtain ⟨ha₁, ha₂, ha₃⟩ := alongTotal_append.mp ha
  obtain ⟨hk₁, hk₂, hk₃⟩ := Along.of_append _ hk h₁
  obtain ⟨_, _, h₁', hin₁⟩ := (new_inStep hle hmax).run ha₁ hk₁
  obtain ⟨-, rfl⟩ := Prod.mk.inj (Except.ok.inj (h₁.symm.trans h₁'))
  obtain ⟨_, hs', hin₂⟩ := hin₁.step ha₂ hk₂
  obtain ⟨rfl, rfl⟩ := Prod.mk.inj (Except.ok.inj (hs.symm.trans hs'))
  -- from its use on, the page is held
  have hmem : x.1 ∈ {x.1} ∪ (later.filterMap Op.asks).toFinset := by simp
  have huse := hin₁.resident_of_use hmem (hop.imp_right fun ho =>
    ⟨ho.1, by simpa [List.getElem?_append_right, length_run _ h₁] using ho.2⟩)
  obtain ⟨_, _, c', h₃', hin₃, hx⟩ := hin₂.run_held huse hroom ha₃ (hk₃ _ _ hs) hkeep
    fun op hop id hid => Finset.mem_union_right _ (List.mem_toFinset.mpr
      (List.mem_filterMap.mpr ⟨op, hop, hid⟩))
  obtain ⟨-, rfl⟩ := Prod.mk.inj (Except.ok.inj (h₃.symm.trans h₃'))
  obtain ⟨pool', hget, -⟩ := hin₃.get x.1
  rw [hin₃.find_eq_some.mpr ⟨hx, rfl⟩] at hget
  exact ⟨pool', hget⟩

/-- Room for two pages, and two are used. -/
theorem run_resident_two : ∃ pool pool' : BufferPool ℕ,
    run (step fun _ => 0) [.insert "a" 7, .get "a", .insert "b" 8, .remove "c", .get "b"]
      (new 1 2) = .ok ([none, some 7, none, none, some 8], pool) ∧
      pool.get (fun _ => 0) "a" = .ok (some 7, pool') := by
  have hlog : Nat.log 2 2 = 1 := Nat.log_pow Nat.one_lt_two 1
  have hrun : run (step fun _ => 0) [.insert "a" 7, .get "a", .insert "b" 8, .remove "c",
      .get "b"] (new 1 2) = .ok ([none, some 7, none, none, some 8],
        okOr (new 1 2) ((run (step fun _ => 0) [.insert "a" 7, .get "a", .insert "b" 8,
          .remove "c", .get "b"] (new 1 2)).map Prod.snd)) := by
    rfl
  obtain ⟨pool', hget⟩ := run_resident (fun _ => 0) (by norm_num) (by norm_num) [.insert "a" 7]
    [.insert "b" 8, .remove "c", .get "b"] (.get "a") ("a", 7) (by rw [hlog]; decide +kernel)
    (by decide +kernel) hrun (.inr ⟨rfl, rfl⟩) (by simp) (by rw [hlog]; decide)
  exact ⟨_, pool', hrun, hget⟩

/-! ### Pages that fit together -/

namespace InStep

/-- After they have been served, pages that fit in the pool together are in front. -/
theorem serve_front (hroom : within.card ≤ room maxDepth) : ∀ {pages : List (String × δ)}
    {pool : BufferPool δ} {c : Cache δ} {used : Finset String}, InStep xxh64 maxDepth pool c →
    Front used c.ids → used ⊆ within → (∀ y ∈ pages, y.1 ∈ within) →
    ∃ pool' c', pool.serve xxh64 pages = .ok pool' ∧ InStep xxh64 maxDepth pool' c' ∧
      Front ((pages.map Prod.fst).toFinset ∪ used) c'.ids := by
  intro pages
  induction pages with
  | nil =>
    intro pool c used h hfront _ _
    exact ⟨pool, c, rfl, h, by simpa using hfront⟩
  | cons y pages ih =>
    intro pool c used h hfront hsub hp
    have hy := hp y List.mem_cons_self
    have hp' : ∀ z ∈ pages, z.1 ∈ within := fun z hz => hp z (List.mem_cons_of_mem _ hz)
    have hsub' : {y.1} ∪ used ⊆ within := Finset.insert_subset hy hsub
    have hunion : ((y :: pages).map Prod.fst).toFinset ∪ used =
        (pages.map Prod.fst).toFinset ∪ ({y.1} ∪ used) := by
      ext id
      simp
    rw [hunion]
    obtain ⟨pool₁, hget, h₁⟩ := h.get y.1
    by_cases hm : y.1 ∈ c.ids
    · obtain ⟨pool', c', hs, h', hfront'⟩ := ih h₁ (Cache.front_get hfront hm) hsub' hp'
      refine ⟨pool', c', ?_, h', hfront'⟩
      cases hf : c.find y.1 with
      | none => exact absurd hm (Cache.find_eq_none.mp hf)
      | some z =>
        rw [hf] at hget
        simp only [BufferPool.serve, hget, ok_bind, Option.map_some, hs]
    · rw [Cache.get_of_notMem hm] at h₁
      rw [Cache.find_eq_none.mpr hm] at hget
      have hlt := card_lt_room hroom hsub hy fun hu => hm (hfront.mem hu)
      obtain ⟨pool₂, hi, h₂⟩ := h₁.insert hm y.2
      obtain ⟨pool', c', hs, h', hfront'⟩ :=
        ih h₂ (Cache.front_insert hfront h.ids_nodup hlt) hsub' hp'
      refine ⟨pool', c', ?_, h', hfront'⟩
      simp only [BufferPool.serve, hget, ok_bind, Option.map_none, hi, hs]

end InStep

theorem get_table {id : String} {r : Option δ} (h : pool.get xxh64 id = .ok (r, pool')) :
    pool'.hashtable = pool.hashtable ∧ pool'.allocated = pool.allocated := by
  unfold BufferPool.get at h
  cases hp : pool.hashtable.getPage xxh64 id with
  | none =>
    rw [hp] at h
    cases h
    exact ⟨rfl, rfl⟩
  | some page =>
    rw [hp] at h
    obtain ⟨l, -, h⟩ := bind_eq_ok.mp h
    cases h
    exact ⟨rfl, rfl⟩

/-- Pages that are held are served from the pool. -/
theorem InStep.serve_held : ∀ {pages : List (String × δ)} {pool : BufferPool δ} {c : Cache δ},
    InStep xxh64 maxDepth pool c → (∀ y ∈ pages, y.1 ∈ c.ids) →
    ∃ pool', pool.serve xxh64 pages = .ok pool' ∧ pool'.hashtable = pool.hashtable ∧
      pool'.allocated = pool.allocated := by
  intro pages
  induction pages with
  | nil => intro pool c _ _; exact ⟨pool, rfl, rfl, rfl⟩
  | cons y pages ih =>
    intro pool c h hp
    have hy := hp y List.mem_cons_self
    obtain ⟨pool₁, hget, h₁⟩ := h.get y.1
    obtain ⟨pool', hs, htable, hallocated⟩ := ih h₁ fun z hz => by
      rw [Cache.ids_get hy]
      by_cases hzy : z.1 = y.1
      · simp [hzy]
      · simp [hzy, hp z (List.mem_cons_of_mem _ hz)]
    obtain ⟨htable₁, hallocated₁⟩ := get_table hget
    refine ⟨pool', ?_, htable.trans htable₁, hallocated.trans hallocated₁⟩
    cases hf : c.find y.1 with
    | none => exact absurd hy (Cache.find_eq_none.mp hf)
    | some z =>
      rw [hf] at hget
      simp only [BufferPool.serve, hget, ok_bind, Option.map_some, hs]

end BufferPool

end MiniKvs
