import MiniKvs.Lib.Machine

/-! Two computations side by side. They match when both fail alike or both return related
results; what matches step by step matches over a run. -/

namespace MiniKvs.Lib

variable {ε α β γ δ σ τ ο ρ : Type}

inductive Matches (R : α → β → Prop) : Except ε α → Except ε β → Prop
  | ok {a : α} {b : β} (h : R a b) : Matches R (.ok a) (.ok b)
  | error (e : ε) : Matches R (.error e) (.error e)

namespace Matches

variable {R R' : α → β → Prop} {S : γ → δ → Prop} {x : Except ε α} {y : Except ε β}

theorem of_eq {x y : Except ε α} (h : x = y) : Matches Eq x y := by
  subst h
  cases x with
  | error e => exact .error e
  | ok a => exact .ok rfl

theorem eq {x y : Except ε α} (h : Matches Eq x y) : x = y := by
  cases h with
  | ok h => exact congrArg _ h
  | error e => rfl

theorem eq_map {f : β → α} (h : Matches (fun a b => a = f b) x y) : x = y.map f := by
  cases h with
  | ok h => exact congrArg _ h
  | error e => rfl

theorem bind {f : α → Except ε γ} {g : β → Except ε δ} (h : Matches R x y)
    (hf : ∀ a b, x = .ok a → y = .ok b → R a b → Matches S (f a) (g b)) :
    Matches S (x >>= f) (y >>= g) := by
  cases h with
  | ok h => exact hf _ _ rfl rfl h
  | error e => exact .error e

theorem imp (h : Matches R x y) (hR : ∀ a b, R a b → R' a b) : Matches R' x y := by
  cases h with
  | ok h => exact .ok (hR _ _ h)
  | error e => exact .error e

theorem map {f : α → γ} {g : β → δ} (h : Matches R x y) (hf : ∀ a b, R a b → S (f a) (g b)) :
    Matches S (x.map f) (y.map g) := by
  cases h with
  | ok h => exact .ok (hf _ _ h)
  | error e => exact .error e

/-- Loops over the same list, whose rounds match. -/
theorem foldlM {T : σ → τ → Prop} {f : σ → α → Except ε σ} {g : τ → α → Except ε τ}
    (hfg : ∀ a s t, T s t → Matches T (f s a) (g t a)) :
    ∀ (as : List α) {s : σ} {t : τ}, T s t → Matches T (as.foldlM f s) (as.foldlM g t) := by
  intro as
  induction as with
  | nil => intro s t h; exact .ok h
  | cons a as ih =>
    intro s t h
    rw [List.foldlM_cons, List.foldlM_cons]
    exact (hfg a s t h).bind fun s' t' _ _ h' => ih h'

end Matches

/-- The replies are the same, and the states stay related. -/
theorem run_matches {step : ο → σ → Except ε (ρ × σ)} {step' : ο → τ → Except ε (ρ × τ)}
    {R : σ → τ → Prop} (hstep : ∀ o s t, R s t →
      Matches (fun x y => x.1 = y.1 ∧ R x.2 y.2) (step o s) (step' o t)) :
    ∀ (os : List ο) {s : σ} {t : τ}, R s t →
      Matches (fun x y => x.1 = y.1 ∧ R x.2 y.2) (run step os s) (run step' os t) := by
  intro os
  induction os with
  | nil => intro s t h; exact .ok ⟨rfl, h⟩
  | cons o os ih =>
    intro s t h
    rw [run_cons, run_cons]
    refine (hstep o s t h).bind fun x y _ _ hxy => (ih hxy.2).bind fun x' y' _ _ hxy' => ?_
    exact .ok ⟨congrArg₂ _ hxy.1 hxy'.1, hxy'.2⟩

end MiniKvs.Lib
