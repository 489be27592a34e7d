import JsonStencil.Expr.Eval

/-!
# Computations one after another

A list is computed by its members in turn: it fails at the first member that does, after those in
front of it had results. Each member starts in the world that the one before it left.
-/

namespace JsonStencil

namespace Evaluation

variable {σ : Type}

section Bind

variable {α β : Type} {x : Evaluation σ α} {f : α → Evaluation σ β} {s t : World σ}
  {err : EvalError}

theorem run_bind_of_error (h : x s = .error err t) : (x >>= f) s = .error err t := by
  simp only [bind, EStateM.bind, h]

theorem run_bind_of_ok {a : α} (h : x s = .ok a t) : (x >>= f) s = f a t := by
  simp only [bind, EStateM.bind, h]

theorem ok_unique {a a' : α} {t' : World σ} (h : x s = .ok a t) (h' : x s = .ok a' t') :
    a = a' ∧ t = t' := by
  rw [h] at h'
  cases h'
  exact ⟨rfl, rfl⟩

theorem run_bind_eq_error_iff :
    (x >>= f) s = .error err t ↔
      x s = .error err t ∨ ∃ a u, x s = .ok a u ∧ f a u = .error err t := by
  cases hx : x s with
  | error e u => simp [run_bind_of_error hx]
  | ok a u => simp [run_bind_of_ok hx, and_assoc]

theorem run_bind_eq_ok_iff {b : β} :
    (x >>= f) s = .ok b t ↔ ∃ a u, x s = .ok a u ∧ f a u = .ok b t := by
  cases hx : x s with
  | error e u => simp [run_bind_of_error hx]
  | ok a u => simp [run_bind_of_ok hx, and_assoc]

end Bind

variable {α β γ : Type}

/-- A computation that starts in the world `s` has a result, and leaves the world `t`. -/
def Done (step : α → Evaluation σ β) (a : α) (s t : World σ) : Prop := ∃ x, step a s = .ok x t

theorem Done.unique {step : α → Evaluation σ β} {a : α} {s t t' : World σ} (h : Done step a s t)
    (h' : Done step a s t') : t = t' := by
  obtain ⟨x, hx⟩ := h
  obtain ⟨x', hx'⟩ := h'
  exact (ok_unique hx hx').2

theorem Done.ne_error {step : α → Evaluation σ β} {a : α} {s t u : World σ} {err : EvalError}
    (h : Done step a s t) : step a s ≠ .error err u := by
  obtain ⟨x, hx⟩ := h
  rw [hx]
  nofun

/-- All members of a list have results in turn. -/
inductive Passes (step : α → Evaluation σ β) : List α → World σ → World σ → Prop
  | nil (s : World σ) : Passes step [] s s
  | cons {a : α} {as : List α} {s t u : World σ} :
      Done step a s t → Passes step as t u → Passes step (a :: as) s u

section Passes

variable {step : α → Evaluation σ β} {a a' : α} {before before' behind behind' : List α}
  {s t t' u : World σ}

theorem Passes.exists_done (h : Passes step (before ++ a :: behind) s u)
    (hbefore : Passes step before s t) : ∃ r, Done step a t r := by
  induction hbefore with
  | nil s =>
    cases h with
    | cons ha _ => exact ⟨_, ha⟩
  | cons hb _ ih =>
    cases h with
    | cons hb' hrest =>
      cases hb.unique hb'
      exact ih hrest

/-- Of two members that are come to, the one in front has a result. -/
theorem Passes.compare (h : Passes step before s t) (h' : Passes step before' s t')
    (heq : before ++ a :: behind = before' ++ a' :: behind') :
    (a = a' ∧ t = t') ∨ (∃ r, Done step a t r) ∨ ∃ r, Done step a' t' r := by
  induction h generalizing before' with
  | nil s =>
    cases h' with
    | nil =>
      cases heq
      exact .inl ⟨rfl, rfl⟩
    | cons hb _ =>
      cases heq
      exact .inr (.inl ⟨_, hb⟩)
  | cons hb hrest ih =>
    cases h' with
    | nil =>
      cases heq
      exact .inr (.inr ⟨_, hb⟩)
    | cons hb' hrest' =>
      obtain ⟨rfl, heq'⟩ := List.cons.inj heq
      cases hb.unique hb'
      exact ih hrest' heq'

end Passes

/-- A list is computed by its members in turn. -/
structure Sequences (step : α → Evaluation σ β) (run : List α → Evaluation σ γ) : Prop where
  nil : ∃ z, run [] = pure z
  cons : ∀ a as, ∃ g : β → γ → γ, run (a :: as) = do
    let x ← step a
    let xs ← run as
    return g x xs

section Sequences

variable {step : α → Evaluation σ β} {run : List α → Evaluation σ γ} {as : List α} {s t : World σ}

theorem Sequences.passes (hrun : Sequences step run) {z : γ} (h : run as s = .ok z t) :
    Passes step as s t := by
  induction as generalizing s z with
  | nil =>
    obtain ⟨z', hnil⟩ := hrun.nil
    rw [hnil] at h
    cases h
    exact .nil _
  | cons a as ih =>
    obtain ⟨g, hcons⟩ := hrun.cons a as
    rw [hcons] at h
    obtain ⟨x, u, hx, h⟩ := run_bind_eq_ok_iff.1 h
    obtain ⟨xs, r, hxs, h⟩ := run_bind_eq_ok_iff.1 h
    cases h
    exact .cons ⟨x, hx⟩ (ih hxs)

theorem Sequences.eq_error_iff (hrun : Sequences step run) {err : EvalError} :
    run as s = .error err t ↔ ∃ before a behind u,
      as = before ++ a :: behind ∧ Passes step before s u ∧ step a u = .error err t := by
  constructor
  · intro h
    induction as generalizing s with
    | nil =>
      obtain ⟨z, hnil⟩ := hrun.nil
      rw [hnil] at h
      cases h
    | cons a as ih =>
      obtain ⟨g, hcons⟩ := hrun.cons a as
      rw [hcons] at h
      rcases run_bind_eq_error_iff.1 h with hx | ⟨x, u, hx, h⟩
      · exact ⟨[], a, as, s, rfl, .nil s, hx⟩
      rcases run_bind_eq_error_iff.1 h with hxs | ⟨xs, r, hxs, h⟩
      · obtain ⟨before, b, behind, r, rfl, hbefore, hb⟩ := ih hxs
        exact ⟨a :: before, b, behind, r, rfl, .cons ⟨x, hx⟩ hbefore, hb⟩
      · cases h
  · rintro ⟨before, a, behind, u, rfl, hbefore, ha⟩
    induction hbefore with
    | nil s =>
      obtain ⟨g, hcons⟩ := hrun.cons a behind
      rw [List.nil_append, hcons]
      exact run_bind_of_error ha
    | @cons b before _ _ _ hb _ ih =>
      obtain ⟨g, hcons⟩ := hrun.cons b (before ++ a :: behind)
      obtain ⟨x, hx⟩ := hb
      rw [List.cons_append, hcons]
      exact (run_bind_of_ok hx).trans (run_bind_of_error (ih ha))

end Sequences

end Evaluation

end JsonStencil
