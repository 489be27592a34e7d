import JsonStencil.SyntaxError

/-!
# Failures and results of computations

A computation of several steps fails as the first of its steps does that fails, so what all steps
fail with, the computation fails with. It returns what its last step returns.
-/

namespace JsonStencil

variable {ε α β γ : Type} {P : ε → Prop} {x : Except ε α} {e : ε}

def failure? : Except ε α → Option ε
  | .error e => some e
  | .ok _ => none

theorem failure?_eq_some_iff : failure? x = some e ↔ x = .error e := by
  cases x <;> simp [failure?]

theorem failure?_map (f : α → β) (x : Except ε α) : failure? (x.map f) = failure? x := by
  cases x <;> rfl

theorem mapError_map {δ : Type} (f : α → β) (g : ε → δ) (x : Except ε α) :
    (x.map f).mapError g = (x.mapError g).map f := by
  cases x <;> rfl

theorem failure?_both (f : α → β → γ) (x : Except ε α) (y : Except ε β) :
    failure? (do let a ← x; let b ← y; .ok (f a b)) = (failure? x).or (failure? y) := by
  cases x <;> cases y <;> rfl

/-- Whatever the computation fails with has the property. -/
def FailsWith (P : ε → Prop) (x : Except ε α) : Prop := ∀ e, x = .error e → P e

namespace FailsWith

theorem ok (a : α) : FailsWith P (.ok a : Except ε α) := nofun

theorem error (h : P e) : FailsWith P (.error e : Except ε α) := by
  rintro _ ⟨⟩
  exact h

theorem bind {f : α → Except ε β} (hx : FailsWith P x) (hf : ∀ a, x = .ok a → FailsWith P (f a)) :
    FailsWith P (x >>= f) := by
  cases x with
  | error e => exact error (hx e rfl)
  | ok a => exact hf a rfl

theorem map (f : α → β) (hx : FailsWith P x) : FailsWith P (x.map f) := by
  cases x with
  | error e => exact error (hx e rfl)
  | ok a => exact ok (f a)

theorem mapM {as : List β} {f : β → Except ε α} (h : ∀ b ∈ as, FailsWith P (f b)) :
    FailsWith P (as.mapM f) := by
  induction as with
  | nil => exact ok []
  | cons b as ih =>
    rw [List.mapM_cons]
    exact (h b List.mem_cons_self).bind fun _ _ =>
      (ih fun b hb => h b (List.mem_cons_of_mem _ hb)).bind fun _ _ => ok _

end FailsWith

/-- Whatever the computation returns has the property. -/
def Returns (Q : α → Prop) (x : Except ε α) : Prop := ∀ a, x = .ok a → Q a

namespace Returns

variable {Q : α → Prop} {R : β → Prop}

theorem ok {a : α} (h : Q a) : Returns Q (.ok a : Except ε α) := by
  rintro _ ⟨⟩
  exact h

theorem error (e : ε) : Returns Q (.error e : Except ε α) := nofun

theorem bind {f : α → Except ε β} (hf : ∀ a, x = .ok a → Returns R (f a)) :
    Returns R (x >>= f) := by
  cases x with
  | error e => exact error e
  | ok a => exact hf a rfl

theorem mono {Q' : α → Prop} (h : Returns Q x) (hQ : ∀ a, Q a → Q' a) : Returns Q' x :=
  fun a ha => hQ a (h a ha)

theorem mapError {δ : Type} {f : ε → δ} (h : Returns Q x) : Returns Q (x.mapError f) := by
  cases x with
  | error e => exact error _
  | ok a => exact ok (h a rfl)

end Returns

end JsonStencil
