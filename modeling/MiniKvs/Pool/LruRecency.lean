import MiniKvs.Pool.LruList

/-! The LRU as a sequence of keys, most recently used first. The linked list
follows this sequence through every run in which `update` is only called with
the key that is already in front; any other `update` leaves a stale back pointer
behind. -/

namespace MiniKvs.LRU

open Lib Lib.DList

inductive Op
  | insert (key : String)
  | update (key : String)
  | remove (key : String)
  | evict
  deriving DecidableEq

/-- One call, with the key it returns. -/
def step : Op → LRU → Outcome (Option String × LRU)
  | .insert key, l => .ok (none, l.insert key)
  | .update key, l => (l.update key).map fun l => (none, l)
  | .remove key, l => (l.remove key).map fun l => (none, l)
  | .evict, l => l.evict.map fun x => (some x.1, x.2)

/-- The keys in order of last use after a call. -/
def recent : Op → List String → List String
  | .insert key, ks => key :: ks
  | .update key, ks => key :: ks.erase key
  | .remove key, ks => ks.erase key
  | .evict, ks => ks.dropLast

/-- The least recently used key, for `evict`. -/
def evicted : Op → List String → Option String
  | .evict, ks => ks.getLast?
  | _, _ => none

/-- Keys are inserted while absent and updated while present, and there is one to evict. -/
def Allowed (ks : List String) : Op → Prop
  | .insert key => key ∉ ks
  | .update key => key ∈ ks
  | .remove _ => True
  | .evict => ks ≠ []

/-- An `update` finds its key in front. -/
def UpdatesFront (ks : List String) : Op → Prop
  | .update key => ks.head? = some key
  | _ => True

/-- The list runs over exactly the keys `ks` in this order, with both outer
pointers null, and the map finds their nodes. -/
def Represents (l : LRU) (ks : List String) : Prop :=
  ∃ ns, ns.map Prod.snd = ks ∧ Linked l none ns

/-- Every state of the run represents the keys used so far, and every `evict`
returns the least recently used one. -/
def Refines : LRU → List String → List Op → Prop
  | l, ks, [] => Represents l ks
  | l, ks, op :: ops => Represents l ks ∧
      ∃ l', step op l = .ok (evicted op ks, l') ∧ Refines l' (recent op ks) ops

/-- What the calls of a run return. -/
def answers : List String → List Op → List (Option String)
  | _, [] => []
  | ks, op :: ops => evicted op ks :: answers (recent op ks) ops

theorem Refines.represents {l : LRU} {ks : List String} {ops : List Op} (h : Refines l ks ops) :
    Represents l ks := by
  cases ops with
  | nil => exact h
  | cons op ops => exact h.1

theorem Refines.run {l : LRU} {ks : List String} {ops : List Op} (h : Refines l ks ops) :
    ∃ l', Lib.run step ops l = .ok (answers ks ops, l') := by
  induction ops generalizing l ks with
  | nil => exact ⟨l, rfl⟩
  | cons op ops ih =>
    obtain ⟨-, l₁, h₁, h₂⟩ := h
    obtain ⟨l', hl'⟩ := ih h₂
    exact ⟨l', (run_cons_eq_ok step).mpr ⟨_, l₁, _, h₁, hl', rfl⟩⟩

/-- Where a key of a duplicate-free list stands, and what is left without it. -/
theorem split_key {ns : List (ℕ × String)} (hd : (ns.map Prod.snd).Nodup) {k : String}
    (hk : k ∈ ns.map Prod.snd) : ∃ xs a ys, ns = xs ++ (a, k) :: ys ∧
      (ns.map Prod.snd).erase k = (xs ++ ys).map Prod.snd := by
  obtain ⟨⟨a, k'⟩, hm, rfl⟩ := List.mem_map.mp hk
  obtain ⟨xs, ys, rfl⟩ := List.append_of_mem hm
  refine ⟨xs, a, ys, rfl, ?_⟩
  rw [List.map_append, List.nodup_append] at hd
  have hnot : k' ∉ xs.map Prod.snd := fun hx => hd.2.2 k' hx k' (by simp) rfl
  rw [List.map_append, List.erase_append_right _ hnot, List.map_cons, List.erase_cons_head,
    List.map_append]

theorem Represents.step {l : LRU} {ks : List String} (h : Represents l ks) {op : Op}
    (ha : Allowed ks op) (hu : UpdatesFront ks op) :
    ∃ l', step op l = .ok (evicted op ks, l') ∧ Represents l' (recent op ks) := by
  obtain ⟨ns, rfl, hl⟩ := h
  cases op with
  | insert key => exact ⟨_, rfl, _, rfl, hl.insert ha⟩
  | update key =>
    cases ns with
    | nil => simp [Allowed] at ha
    | cons n ns =>
      simp only [UpdatesFront, List.map_cons, List.head?_cons, Option.some.injEq] at hu
      subst hu
      refine ⟨l, ?_, n :: ns, by simp [recent], hl⟩
      rw [LRU.step, hl.update_front]; rfl
  | remove key =>
    by_cases hk : key ∈ ns.map Prod.snd
    · obtain ⟨xs, a, ys, rfl, he⟩ := split_key hl.keys hk
      obtain ⟨l', hr, hl'⟩ := hl.remove fun _ => rfl
      exact ⟨l', by rw [LRU.step, hr]; rfl, xs ++ ys, he.symm, hl'⟩
    · refine ⟨l, by rw [LRU.step, hl.remove_absent hk]; rfl, ns, ?_, hl⟩
      exact (List.erase_of_not_mem hk).symm
  | evict =>
    rcases List.eq_nil_or_concat' ns with rfl | ⟨xs, ⟨a, k⟩, rfl⟩
    · exact absurd rfl ha
    · obtain ⟨l', he, hl'⟩ := hl.evict fun _ => rfl
      exact ⟨l', by rw [LRU.step, he]; simp [evicted, Except.map], xs, by simp [recent], hl'⟩

/-- The front node's `prev`. -/
def frontPrev (l : LRU) : Option ℕ := (l.front.bind l.heap).bind fun n => n.prev

theorem Linked.frontPrev {l : LRU} {p : Option ℕ} {x : ℕ × String} {ns : List (ℕ × String)}
    (h : Linked l p (x :: ns)) : l.frontPrev = p := by
  have hf : l.front = some x.1 := h.front
  simp [LRU.frontPrev, hf, h.seg.1]

theorem Represents.frontPrev {l : LRU} {ks : List String} (h : Represents l ks) :
    l.frontPrev = none := by
  obtain ⟨ns, -, hl⟩ := h
  cases ns with
  | nil => simp [LRU.frontPrev, hl.front]
  | cons x ns => exact hl.frontPrev

/-- An `update` of a key that is not in front does not represent the new order. -/
theorem Represents.not_update {l l' : LRU} {ks : List String} (h : Represents l ks) {k : String}
    (hk : k ∈ ks) (hf : ks.head? ≠ some k) (hu : l.update k = .ok l') (ks' : List String) :
    ¬ Represents l' ks' := by
  obtain ⟨ns, rfl, hl⟩ := h
  obtain ⟨xs, a, ys, rfl, -⟩ := split_key hl.keys hk
  have hx : xs ≠ [] := by rintro rfl; simp at hf
  obtain ⟨l'', hu', hl''⟩ := hl.update hx
  rw [hu] at hu'
  cases hu'
  intro hr
  have := hr.frontPrev
  rw [hl''.frontPrev] at this
  exact lastPtr_ne_none _ hx this

/-- The list refines the sequence of keys through a run exactly when every
`update` of the run is of the key in front. -/
theorem refines_iff_updatesFront (ops : List Op) (h : AlongTotal recent Allowed [] ops) :
    Refines new [] ops ↔ AlongTotal recent UpdatesFront [] ops := by
  have hnew : Represents new [] := ⟨[], rfl, new_linked⟩
  revert h hnew
  generalize new = l
  generalize ([] : List String) = ks
  intro h hl
  induction ops generalizing l ks with
  | nil => exact iff_of_true hl trivial
  | cons op ops ih =>
    constructor
    · rintro ⟨-, l', hs, hr⟩
      have hu : UpdatesFront ks op := by
        cases op with
        | update key =>
          by_contra hf
          obtain ⟨l'', hu, he⟩ : ∃ l'', l.update key = .ok l'' ∧ l'' = l' := by
            cases hk : l.update key with
            | error e => rw [step, hk] at hs; cases hs
            | ok l'' => rw [step, hk] at hs; cases hs; exact ⟨_, rfl, rfl⟩
          subst he
          exact hl.not_update h.1 hf hu _ hr.represents
        | insert key => trivial
        | remove key => trivial
        | evict => trivial
      exact ⟨hu, (ih l' _ h.2 hr.represents).mp hr⟩
    · rintro ⟨hu, ht⟩
      obtain ⟨l', hs, hl'⟩ := hl.step h.1 hu
      exact ⟨hl, l', hs, (ih l' _ h.2 hl').mpr ht⟩

/-- Each update is of the key that was just inserted. -/
theorem refines_iff_updatesFront_insert_update : Refines new []
    [.insert "1", .update "1", .insert "2", .update "2", .remove "1", .insert "3", .evict] :=
  (refines_iff_updatesFront _ (by simp [AlongTotal, Allowed, recent])).mpr
    (by simp [AlongTotal, UpdatesFront, recent])

/-- Moving the older of two keys to the front loses a key evicted later: the last
`evict` returns `"2"` again instead of `"3"`. -/
theorem not_refines_update_evict :
    ¬ ∀ ops, AlongTotal recent Allowed [] ops → Refines new [] ops := by
  intro h
  obtain ⟨l, hl⟩ := (h [.insert "1", .insert "2", .update "1", .evict, .evict, .insert "3", .evict]
    (by simp [AlongTotal, Allowed, recent])).run
  have hrun : (Lib.run step [.insert "1", .insert "2", .update "1", .evict, .evict, .insert "3",
      .evict] new).map Prod.fst =
      .ok [none, none, none, some "2", some "1", none, some "2"] := by
    rfl
  rw [hl] at hrun
  simp [answers, evicted, recent, Except.map] at hrun

end MiniKvs.LRU
