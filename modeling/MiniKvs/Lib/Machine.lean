import Mathlib.Data.List.Basic
import Mathlib.Tactic

/-! Machines whose steps may fail, and their runs. A guard may be required
before every step of a run; the two rules lift a step lemma to runs, once for an
invariant and once for a simulation by a machine that never fails. -/

namespace MiniKvs.Lib

variable {ε α β σ τ ο ρ : Type}

theorem bind_eq_ok {x : Except ε α} {f : α → Except ε β} {b : β} :
    (x >>= f) = .ok b ↔ ∃ a, x = .ok a ∧ f a = .ok b := by
  cases x with
  | error e => simp [bind, Except.bind]
  | ok a => simp [bind, Except.bind]

theorem map_eq_ok {x : Except ε α} {f : α → β} {b : β} :
    x.map f = .ok b ↔ ∃ a, x = .ok a ∧ f a = b := by
  cases x with
  | error e => simp [Except.map]
  | ok a => simp [Except.map]

/-- What goes on as a pair with a fixed value is what goes on. -/
theorem exists_map_pair {x : Except ε α} {b : β} :
    (∃ a, x.map (fun a => (b, a)) = .ok (b, a)) ↔ ∃ a, x = .ok a := by
  cases x with
  | error e => simp [Except.map]
  | ok a => simp [Except.map]

@[simp] theorem ok_bind (a : α) (f : α → Except ε β) : (Except.ok a >>= f) = f a := rfl

@[simp] theorem error_bind (e : ε) (f : α → Except ε β) :
    ((Except.error e : Except ε α) >>= f) = .error e := rfl

/-- The result, `d` after a fault. -/
def okOr (d : α) : Except ε α → α
  | .ok a => a
  | .error _ => d

theorem eq_ok_okOr {x : Except ε α} (d : α) (h : x.isOk = true) : x = .ok (okOr d x) := by
  cases x with
  | ok a => rfl
  | error e => cases h

@[simp] theorem pure_eq_ok (a : α) : (pure a : Except ε α) = .ok a := rfl

/-- What one round of a loop keeps, the loop keeps. -/
theorem foldlM_invariant {f : σ → α → Except ε σ} {I : σ → Prop}
    (hf : ∀ s a s', I s → f s a = .ok s' → I s') :
    ∀ {as : List α} {s s' : σ}, I s → as.foldlM f s = .ok s' → I s' := by
  intro as
  induction as with
  | nil =>
    intro s s' hs h
    rw [List.foldlM_nil, pure_eq_ok, Except.ok.injEq] at h
    exact h ▸ hs
  | cons a as ih =>
    intro s s' hs h
    rw [List.foldlM_cons] at h
    obtain ⟨s₁, h₁, h₂⟩ := bind_eq_ok.mp h
    exact ih (hf s a s₁ hs h₁) h₂

/-- A loop goes as another one when its rounds do. -/
theorem foldlM_map {ε' : Type} (φ : σ → τ) {f : σ → α → Except ε σ} {g : τ → α → Except ε' τ}
    (hfg : ∀ s a s', f s a = .ok s' → g (φ s) a = .ok (φ s')) :
    ∀ {as : List α} {s s' : σ}, as.foldlM f s = .ok s' → as.foldlM g (φ s) = .ok (φ s') := by
  intro as
  induction as with
  | nil =>
    intro s s' h
    cases h
    rfl
  | cons a as ih =>
    intro s s' h
    rw [List.foldlM_cons] at h ⊢
    obtain ⟨s₁, h₁, h₂⟩ := bind_eq_ok.mp h
    exact bind_eq_ok.mpr ⟨φ s₁, hfg s a s₁ h₁, ih h₂⟩

/-- The computation does not stop with `e`. -/
def Avoids (e : ε) (x : Except ε α) : Prop := x ≠ .error e

theorem avoids_ok {e : ε} (a : α) : Avoids e (.ok a) := by
  intro h
  cases h

theorem avoids_error {e e' : ε} (h : e' ≠ e) : Avoids e (.error e' : Except ε α) :=
  fun he => h (Except.error.inj he)

theorem Avoids.bind {e : ε} {x : Except ε α} {f : α → Except ε β} (hx : Avoids e x)
    (hf : ∀ a, x = .ok a → Avoids e (f a)) : Avoids e (x >>= f) := by
  cases x with
  | error e' => exact avoids_error fun he => hx (congrArg _ he)
  | ok a => exact hf a rfl

/-- A loop whose rounds avoid a fault, and keep what they need to. -/
theorem avoids_foldlM {e : ε} {f : σ → α → Except ε σ} {I : σ → Prop}
    (hf : ∀ s a, I s → Avoids e (f s a)) (hkeep : ∀ s a s', I s → f s a = .ok s' → I s') :
    ∀ {as : List α} {s : σ}, I s → Avoids e (as.foldlM f s) := by
  intro as
  induction as with
  | nil => intro s _; exact avoids_ok s
  | cons a as ih =>
    intro s hs
    rw [List.foldlM_cons]
    exact (hf s a hs).bind fun s' h => ih (hkeep s a s' hs h)

/-- All steps of a run in order, with what each of them returned. -/
def run (step : ο → σ → Except ε (ρ × σ)) : List ο → σ → Except ε (List ρ × σ)
  | [], s => .ok ([], s)
  | o :: os, s => do
    let (r, s) ← step o s
    let (rs, s) ← run step os s
    .ok (r :: rs, s)

/-- `P` holds before every step of the run. -/
def Along (step : ο → σ → Except ε (ρ × σ)) (P : σ → ο → Prop) : σ → List ο → Prop
  | _, [] => True
  | s, o :: os => P s o ∧ ∀ r s', step o s = .ok (r, s') → Along step P s' os

instance {step : ο → σ → Except ε (ρ × σ)} {P : σ → ο → Prop} [∀ s o, Decidable (P s o)] :
    (s : σ) → (os : List ο) → Decidable (Along step P s os)
  | _, [] => .isTrue trivial
  | s, o :: os => @instDecidableAnd _ _ (inferInstance : Decidable (P s o))
      (match step o s with
      | .ok (r, s') => @decidable_of_iff _ (Along step P s' os)
          ⟨fun ha r₁ s₁ h₁ => (by cases h₁; exact ha), fun ha => ha r s' rfl⟩
          (instDecidableAlong s' os)
      | .error _ => .isTrue fun _ _ h₁ => by cases h₁)

/-- `Q` holds in every state that the run reaches, the first one included. -/
def Throughout (step : ο → σ → Except ε (ρ × σ)) (Q : σ → Prop) : σ → List ο → Prop
  | s, [] => Q s
  | s, o :: os => Q s ∧ ∀ r s', step o s = .ok (r, s') → Throughout step Q s' os

/-- `G` holds before every step of a run that cannot fail. -/
def AlongTotal (next : ο → τ → τ) (G : τ → ο → Prop) : τ → List ο → Prop
  | _, [] => True
  | t, o :: os => G t o ∧ AlongTotal next G (next o t) os

instance {next : ο → τ → τ} {G : τ → ο → Prop} [∀ t o, Decidable (G t o)] :
    (t : τ) → (os : List ο) → Decidable (AlongTotal next G t os)
  | _, [] => .isTrue trivial
  | t, o :: os => @instDecidableAnd _ _ (inferInstance : Decidable (G t o))
      (instDecidableAlongTotal (next o t) os)

/-- Every step returned what `Q` allows in the state it was taken in. -/
def Answers (next : ο → τ → τ) (Q : τ → ο → ρ → Prop) : τ → List ο → List ρ → Prop
  | _, [], [] => True
  | t, o :: os, r :: rs => Q t o r ∧ Answers next Q (next o t) os rs
  | _, _, _ => False

/-- Machines of which one shows what the other does. -/
theorem AlongTotal.of_map {next : ο → τ → τ} {next' : ο → σ → σ} {f : σ → τ}
    (hf : ∀ o s, f (next' o s) = next o (f s)) {G : τ → ο → Prop} :
    ∀ {os : List ο} {s : σ}, AlongTotal next G (f s) os → AlongTotal next' (fun s => G (f s)) s os
  | [], _, _ => trivial
  | o :: _, s, h => ⟨h.1, AlongTotal.of_map hf (by rw [hf]; exact h.2)⟩

theorem AlongTotal.and {next : ο → τ → τ} {G : τ → ο → Prop} {p : ο → Prop} :
    ∀ {os : List ο} {t : τ}, AlongTotal next G t os → (∀ o ∈ os, p o) →
      AlongTotal next (fun t o => G t o ∧ p o) t os
  | [], _, _, _ => trivial
  | o :: _, _, h, hp =>
    ⟨⟨h.1, hp o List.mem_cons_self⟩, h.2.and fun o' ho => hp o' (List.mem_cons_of_mem o ho)⟩

theorem Answers.map {next : ο → τ → τ} {next' : ο → σ → σ} {f : σ → τ}
    (hf : ∀ o s, f (next' o s) = next o (f s)) {Q : τ → ο → ρ → Prop} :
    ∀ {os : List ο} {rs : List ρ} {s : σ}, Answers next' (fun s => Q (f s)) s os rs →
      Answers next Q (f s) os rs
  | [], [], _, _ => trivial
  | o :: _, r :: _, s, h => ⟨h.1, by rw [← hf]; exact Answers.map hf h.2⟩

def finalState (next : ο → τ → τ) (t : τ) (os : List ο) : τ := os.foldl (fun t o => next o t) t

theorem finalState_map {next : ο → τ → τ} {next' : ο → σ → σ} {f : σ → τ}
    (hf : ∀ o s, f (next' o s) = next o (f s)) (os : List ο) (s : σ) :
    f (finalState next' s os) = finalState next (f s) os := by
  induction os generalizing s with
  | nil => rfl
  | cons o os ih => exact (ih (next' o s)).trans (by rw [hf]; rfl)

theorem alongTotal_append {next : ο → τ → τ} {G : τ → ο → Prop} {os os' : List ο} {t : τ} :
    AlongTotal next G t (os ++ os') ↔
      AlongTotal next G t os ∧ AlongTotal next G (finalState next t os) os' := by
  induction os generalizing t with
  | nil => simp [AlongTotal, finalState]
  | cons o os ih => simp [AlongTotal, finalState, ih, and_assoc]

section Run

variable (step : ο → σ → Except ε (ρ × σ))

@[simp] theorem run_nil (s : σ) : run step [] s = .ok ([], s) := rfl

theorem run_cons (o : ο) (os : List ο) (s : σ) :
    run step (o :: os) s =
      step o s >>= fun x => run step os x.2 >>= fun y => .ok (x.1 :: y.1, y.2) := rfl

theorem run_cons_eq_ok {o : ο} {os : List ο} {s s' : σ} {rs : List ρ} :
    run step (o :: os) s = .ok (rs, s') ↔
      ∃ r s₁ rs', step o s = .ok (r, s₁) ∧ run step os s₁ = .ok (rs', s') ∧ rs = r :: rs' := by
  rw [run_cons, bind_eq_ok]
  constructor
  · rintro ⟨⟨r, s₁⟩, h, h'⟩
    obtain ⟨⟨rs', s₂⟩, h₂, h₃⟩ := bind_eq_ok.mp h'
    simp only [Except.ok.injEq, Prod.mk.injEq] at h₃
    obtain ⟨rfl, rfl⟩ := h₃
    exact ⟨r, s₁, rs', h, h₂, rfl⟩
  · rintro ⟨r, s₁, rs', h, h₂, rfl⟩
    exact ⟨(r, s₁), h, bind_eq_ok.mpr ⟨(rs', s'), h₂, rfl⟩⟩

theorem run_append_eq_ok {os os' : List ο} {s s' : σ} {rs : List ρ} :
    run step (os ++ os') s = .ok (rs, s') ↔ ∃ rs₁ s₁ rs₂,
      run step os s = .ok (rs₁, s₁) ∧ run step os' s₁ = .ok (rs₂, s') ∧ rs = rs₁ ++ rs₂ := by
  induction os generalizing s rs with
  | nil => simp
  | cons o os ih =>
    rw [List.cons_append, run_cons_eq_ok]
    constructor
    · rintro ⟨r, s₁, rs', h, h', rfl⟩
      obtain ⟨rs₁, s₂, rs₂, h₁, h₂, rfl⟩ := ih.mp h'
      exact ⟨r :: rs₁, s₂, rs₂, (run_cons_eq_ok step).mpr ⟨r, s₁, rs₁, h, h₁, rfl⟩, h₂, rfl⟩
    · rintro ⟨rs₁, s₂, rs₂, h₁, h₂, rfl⟩
      obtain ⟨r, s₁, rs', h, h', rfl⟩ := (run_cons_eq_ok step).mp h₁
      exact ⟨r, s₁, rs' ++ rs₂, h, ih.mpr ⟨rs', s₂, rs₂, h', h₂, rfl⟩, rfl⟩

theorem length_run {os : List ο} {s s' : σ} {rs : List ρ} (h : run step os s = .ok (rs, s')) :
    rs.length = os.length := by
  induction os generalizing s rs with
  | nil => cases h; rfl
  | cons o os ih =>
    obtain ⟨r, s₁, rs', -, h', rfl⟩ := (run_cons_eq_ok step).mp h
    simp [ih h']

/-- Behind a run that succeeds only its last state counts. -/
theorem Along.of_append {P : σ → ο → Prop} {os os' : List ο} {s s' : σ} {rs : List ρ}
    (ha : Along step P s (os ++ os')) (h : run step os s = .ok (rs, s')) :
    Along step P s os ∧ Along step P s' os' := by
  induction os generalizing s rs with
  | nil =>
    cases h
    exact ⟨trivial, ha⟩
  | cons o os ih =>
    obtain ⟨r, s₁, rs', h₁, h', rfl⟩ := (run_cons_eq_ok step).mp h
    refine ⟨⟨ha.1, fun r' s₂ h₂ => ?_⟩, (ih (ha.2 r s₁ h₁) h').2⟩
    obtain ⟨-, rfl⟩ := Prod.mk.inj (Except.ok.inj (h₁.symm.trans h₂))
    exact (ih (ha.2 r s₁ h₁) h').1

theorem along_true : ∀ (s : σ) (os : List ο), Along step (fun _ _ => True) s os
  | _, [] => trivial
  | _, _ :: os => ⟨trivial, fun _ s' _ => along_true s' os⟩

/-- An invariant that every successful step keeps holds in every state reached. -/
theorem run_invariant {I : σ → Prop}
    (hstep : ∀ o s r s', I s → step o s = .ok (r, s') → I s') :
    ∀ {os : List ο} {s s' : σ} {rs : List ρ}, I s → run step os s = .ok (rs, s') → I s' := by
  intro os
  induction os with
  | nil =>
    intro s s' rs hs h
    simp only [run_nil, Except.ok.injEq, Prod.mk.injEq] at h
    exact h.2 ▸ hs
  | cons o os ih =>
    intro s s' rs hs h
    obtain ⟨r, s₁, rs', h₁, h₂, -⟩ := (run_cons_eq_ok step).mp h
    exact ih (hstep o s r s₁ hs h₁) h₂

theorem Throughout.start {Q : σ → Prop} {s : σ} : ∀ {os : List ο}, Throughout step Q s os → Q s
  | [], h => h
  | _ :: _, h => h.1

theorem Throughout.finish {Q : σ → Prop} : ∀ {os : List ο} {s s' : σ} {rs : List ρ},
    Throughout step Q s os → run step os s = .ok (rs, s') → Q s' := by
  intro os
  induction os with
  | nil =>
    intro s s' rs hq h
    cases h
    exact hq
  | cons o os ih =>
    intro s s' rs hq h
    obtain ⟨r, s₁, rs₁, h₁, h₂, -⟩ := (run_cons_eq_ok step).mp h
    exact ih (hq.2 r s₁ h₁) h₂

/-- Where a step that breaks the guard leads to a state without `Q`, the guarded runs
are the runs with `Q` throughout. The steps that are taken may depend on a machine
that runs alongside. -/
theorem throughout_iff_along_of_alongTotal {R : σ → τ → Prop} {next : ο → τ → τ}
    {A : τ → ο → Prop} {Q : σ → Prop} {G : σ → ο → Prop}
    (hkeep : ∀ o s t r s', R s t → A t o → Q s → G s o → step o s = .ok (r, s') →
      R s' (next o t) ∧ Q s')
    (hbreak : ∀ o s t, R s t → A t o → Q s → ¬ G s o → ∃ r s', step o s = .ok (r, s') ∧ ¬ Q s') :
    ∀ {os : List ο} {s : σ} {t : τ}, R s t → Q s → AlongTotal next A t os →
      (Throughout step Q s os ↔ Along step G s os) := by
  intro os
  induction os with
  | nil => intro s t _ hq _; exact ⟨fun _ => trivial, fun _ => hq⟩
  | cons o os ih =>
    intro s t hR hq hA
    constructor
    · rintro ⟨-, hnext⟩
      have hg : G s o := by
        by_contra hg
        obtain ⟨r, s', h', hn⟩ := hbreak o s t hR hA.1 hq hg
        exact hn (hnext r s' h').start
      refine ⟨hg, fun r s' h' => ?_⟩
      obtain ⟨hR', hq'⟩ := hkeep o s t r s' hR hA.1 hq hg h'
      exact (ih hR' hq' hA.2).mp (hnext r s' h')
    · rintro ⟨hg, hnext⟩
      refine ⟨hq, fun r s' h' => ?_⟩
      obtain ⟨hR', hq'⟩ := hkeep o s t r s' hR hA.1 hq hg h'
      exact (ih hR' hq' hA.2).mpr (hnext r s' h')

theorem alongTotal_true (next : ο → τ → τ) : ∀ (t : τ) (os : List ο),
    AlongTotal next (fun _ _ => True) t os
  | _, [] => trivial
  | t, o :: os => ⟨trivial, alongTotal_true next (next o t) os⟩

theorem throughout_iff_along {I Q : σ → Prop} {G : σ → ο → Prop}
    (hkeep : ∀ o s r s', I s → Q s → G s o → step o s = .ok (r, s') → I s' ∧ Q s')
    (hbreak : ∀ o s, I s → Q s → ¬ G s o → ∃ r s', step o s = .ok (r, s') ∧ ¬ Q s')
    {os : List ο} {s : σ} (hi : I s) (hq : Q s) :
    Throughout step Q s os ↔ Along step G s os :=
  throughout_iff_along_of_alongTotal step (R := fun s (_ : Unit) => I s)
    (fun o s _ r s' hI _ => hkeep o s r s' hI) (fun o s _ hI _ => hbreak o s hI) hi hq
    (alongTotal_true (fun _ t => t) () os)

/-- Where no step fails with `e` and the invariant is kept, no run does. -/
theorem avoids_run {e : ε} {I : σ → Prop} {p : ο → Prop}
    (hf : ∀ o s, I s → p o → Avoids e (step o s))
    (hstep : ∀ o s r s', I s → p o → step o s = .ok (r, s') → I s') :
    ∀ {os : List ο} {s : σ}, I s → (∀ o ∈ os, p o) → Avoids e (run step os s) := by
  intro os
  induction os with
  | nil => intro s _ _; exact avoids_ok _
  | cons o os ih =>
    intro s hs hp
    have ho := hp o List.mem_cons_self
    exact (hf o s hs ho).bind fun x hx => (ih (hstep o s x.1 x.2 hs ho hx) fun o' ho' =>
      hp o' (List.mem_cons_of_mem o ho')).bind fun _ _ => avoids_ok _

/-- An invariant that every guarded step keeps holds throughout a guarded run. -/
theorem throughout_of_along {I Q : σ → Prop} {P : σ → ο → Prop} (hIQ : ∀ s, I s → Q s)
    (hstep : ∀ o s r s', I s → P s o → step o s = .ok (r, s') → I s') :
    ∀ {os : List ο} {s : σ}, I s → Along step P s os → Throughout step Q s os := by
  intro os
  induction os with
  | nil => intro s hs _; exact hIQ s hs
  | cons o os ih =>
    intro s hs hP
    exact ⟨hIQ s hs, fun r s' h => ih (hstep o s r s' hs hP.1 h) (hP.2 r s' h)⟩

theorem along_of_forall {p : ο → Prop} : ∀ {os : List ο} (s : σ), (∀ o ∈ os, p o) →
    Along step (fun _ o => p o) s os
  | [], _, _ => trivial
  | o :: _, _, hp => ⟨hp o List.mem_cons_self, fun _ s' _ =>
      along_of_forall s' fun o' ho => hp o' (List.mem_cons_of_mem o ho)⟩

/-- An invariant that every successful step keeps holds throughout. -/
theorem throughout_of_invariant {I Q : σ → Prop} {p : ο → Prop} (hIQ : ∀ s, I s → Q s)
    (hstep : ∀ o s r s', I s → p o → step o s = .ok (r, s') → I s') {os : List ο} {s : σ}
    (hs : I s) (hp : ∀ o ∈ os, p o) : Throughout step Q s os :=
  throughout_of_along step hIQ hstep hs (along_of_forall step s hp)

/-- Where a step leads to a state with `Q` exactly when it is guarded, the guarded ones
among the runs that return are the runs with `Q` throughout. -/
theorem throughout_iff_along_of_run {I Q : σ → Prop} {G : σ → ο → Prop} {p : ο → Prop}
    (hstep : ∀ o s r s', I s → Q s → p o → step o s = .ok (r, s') → I s' ∧ (Q s' ↔ G s o)) :
    ∀ {os : List ο} {s s' : σ} {rs : List ρ}, I s → Q s → (∀ o ∈ os, p o) →
      run step os s = .ok (rs, s') → (Throughout step Q s os ↔ Along step G s os) := by
  intro os
  induction os with
  | nil => intro s _ _ _ hq _ _; exact ⟨fun _ => trivial, fun _ => hq⟩
  | cons o os ih =>
    intro s s' rs hI hq hp hr
    obtain ⟨r, s₁, rs', h₁, hr', -⟩ := (run_cons_eq_ok step).mp hr
    obtain ⟨hI₁, hiff⟩ := hstep o s r s₁ hI hq (hp o List.mem_cons_self) h₁
    have hp' : ∀ o' ∈ os, p o' := fun o' ho => hp o' (List.mem_cons_of_mem o ho)
    have honly : ∀ {r₂ s₂}, step o s = .ok (r₂, s₂) → s₂ = s₁ := by
      intro r₂ s₂ h₂
      rw [h₁, Except.ok.injEq, Prod.mk.injEq] at h₂
      exact h₂.2.symm
    constructor
    · rintro ⟨-, hnext⟩
      have ht := hnext r s₁ h₁
      refine ⟨hiff.mp ht.start, fun r₂ s₂ h₂ => ?_⟩
      rw [honly h₂]
      exact (ih hI₁ ht.start hp' hr').mp ht
    · rintro ⟨hg, hnext⟩
      refine ⟨hq, fun r₂ s₂ h₂ => ?_⟩
      rw [honly h₂]
      exact (ih hI₁ (hiff.mpr hg) hp' hr').mpr (hnext r s₁ h₁)

/-- Two runs of the same steps keep a relation that every pair of steps keeps. -/
theorem run_related {R : σ → σ → Prop}
    (hstep : ∀ o s t r r' s' t', R s t → step o s = .ok (r, s') → step o t = .ok (r', t') →
      R s' t') :
    ∀ {os : List ο} {s t s' t' : σ} {rs rs' : List ρ}, R s t → run step os s = .ok (rs, s') →
      run step os t = .ok (rs', t') → R s' t' := by
  intro os
  induction os with
  | nil =>
    intro s t s' t' rs rs' hR hs ht
    cases hs
    cases ht
    exact hR
  | cons o os ih =>
    intro s t s' t' rs rs' hR hs ht
    obtain ⟨r, s₁, rs₁, h₁, h₂, -⟩ := (run_cons_eq_ok step).mp hs
    obtain ⟨r', t₁, rs₁', h₁', h₂', -⟩ := (run_cons_eq_ok step).mp ht
    exact ih (hstep o s t r r' s₁ t₁ hR h₁ h₁') h₂ h₂'

/-- Two machines that agree step by step agree over a run. -/
theorem run_agree {step' : ο → τ → Except ε (ρ × τ)} {R : σ → τ → Prop}
    (hstep : ∀ o s t r r' s' t', R s t → step o s = .ok (r, s') → step' o t = .ok (r', t') →
      r = r' ∧ R s' t') :
    ∀ {os : List ο} {s s' : σ} {t t' : τ} {rs rs' : List ρ}, R s t →
      run step os s = .ok (rs, s') → run step' os t = .ok (rs', t') → rs = rs' ∧ R s' t' := by
  intro os
  induction os with
  | nil =>
    intro s s' t t' rs rs' hR hs ht
    cases hs
    cases ht
    exact ⟨rfl, hR⟩
  | cons o os ih =>
    intro s s' t t' rs rs' hR hs ht
    obtain ⟨r, s₁, rs₁, h₁, h₂, rfl⟩ := (run_cons_eq_ok step).mp hs
    obtain ⟨r', t₁, rs₁', h₁', h₂', rfl⟩ := (run_cons_eq_ok step').mp ht
    obtain ⟨rfl, hR₁⟩ := hstep o s t r r' s₁ t₁ hR h₁ h₁'
    obtain ⟨rfl, hR'⟩ := ih hR₁ h₂ h₂'
    exact ⟨rfl, hR'⟩

/-- An abstract machine follows the steps of a run. -/
theorem run_tracks (next : ο → τ → τ) {R : σ → τ → Prop} {p : ο → Prop}
    (hstep : ∀ o s t r s', R s t → p o → step o s = .ok (r, s') → R s' (next o t)) :
    ∀ {os : List ο} {s s' : σ} {t : τ} {rs : List ρ}, R s t → (∀ o ∈ os, p o) →
      run step os s = .ok (rs, s') → R s' (finalState next t os) := by
  intro os
  induction os with
  | nil =>
    intro s s' t rs hR _ h
    cases h
    exact hR
  | cons o os ih =>
    intro s s' t rs hR hp h
    obtain ⟨r, s₁, rs', h₁, h₂, -⟩ := (run_cons_eq_ok step).mp h
    exact ih (hstep o s t r s₁ hR (hp o List.mem_cons_self) h₁)
      (fun o' ho => hp o' (List.mem_cons_of_mem o ho)) h₂

/-- Forward simulation: a guarded step succeeds, keeps the relation and answers as
the abstract state says; then so does every guarded run. -/
theorem run_simulates {next : ο → τ → τ} {R : σ → τ → Prop} {P : σ → ο → Prop}
    {G : τ → ο → Prop} {Q : τ → ο → ρ → Prop}
    (hstep : ∀ s t o, R s t → G t o → P s o →
      ∃ r s', step o s = .ok (r, s') ∧ R s' (next o t) ∧ Q t o r) :
    ∀ {os : List ο} {s : σ} {t : τ}, R s t → AlongTotal next G t os → Along step P s os →
      ∃ rs s', run step os s = .ok (rs, s') ∧ R s' (finalState next t os) ∧
        Answers next Q t os rs := by
  intro os
  induction os with
  | nil => intro s t hR _ _; exact ⟨[], s, rfl, hR, trivial⟩
  | cons o os ih =>
    intro s t hR hG hP
    obtain ⟨r, s₁, h₁, hR₁, hQ⟩ := hstep s t o hR hG.1 hP.1
    obtain ⟨rs, s', h₂, hR', hQ'⟩ := ih hR₁ hG.2 (hP.2 r s₁ h₁)
    exact ⟨r :: rs, s', (run_cons_eq_ok step).mpr ⟨r, s₁, rs, h₁, h₂, rfl⟩, hR', hQ, hQ'⟩

end Run

end MiniKvs.Lib
