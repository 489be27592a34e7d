import JsonStencil.Proofs.Expr.Operands

/-!
# Where evaluation fails

When routines of the host do not place their errors, evaluation fails just when it comes to a node
whose own operation rejects. There is one such node at most, and the error has its span.
-/

namespace JsonStencil

namespace Expr

open Evaluation

variable {σ : Type} {env : Environment σ}

section Step

variable {e child child' : Expr} {s t u u' : World σ} {fault : Fault} {err : EvalError}

/-- An error of an operand is the error of the node. -/
theorem Operand.eval_eq_error (h : Operand env e s child u)
    (herr : child.eval env u = .error err t) : e.eval env s = .error err t := by
  cases h with
  | part hparts hbefore =>
    have hpart : evalPart env (.hole child) u = .error err t := run_bind_of_error herr
    refine run_bind_of_error ?_
    exact (sequences_parts env).eq_error_iff.2 ⟨_, _, _, _, hparts, hbefore, hpart⟩
  | item hitems hbefore =>
    refine run_bind_of_error ?_
    exact (sequences_items env).eq_error_iff.2 ⟨_, _, _, _, hitems, hbefore, herr⟩
  | entry hentries hbefore hchild =>
    refine run_bind_of_error ?_
    exact (sequences_entries env).eq_error_iff.2
      ⟨_, _, _, _, hentries, hbefore, hchild.eval_eq_error herr⟩
  | owner | indexed | unary | left | first | condition => exact run_bind_of_error herr
  | target =>
    rw [eval_call_eq]
    exact run_bind_of_error herr
  | argument htarget hargs hbefore =>
    obtain ⟨v, hv⟩ := htarget
    rw [eval_call_eq]
    refine (run_bind_of_ok hv).trans (run_bind_of_error ?_)
    exact (sequences_items env).eq_error_iff.2 ⟨_, _, _, _, hargs, hbefore, herr⟩
  | position hfirst | right hfirst =>
    obtain ⟨v, hv⟩ := hfirst
    exact (run_bind_of_ok hv).trans (run_bind_of_error herr)
  | second hv hneeds =>
    refine (run_bind_of_ok hv).trans ?_
    rw [stops_eq_false_iff.2 hneeds]
    exact herr
  | onTrue hv htruthy | onFalse hv htruthy =>
    refine (run_bind_of_ok hv).trans ?_
    rw [htruthy]
    exact herr

/-- An error of a node arises from its own operation, or in an operand. -/
theorem exists_of_eval_eq_error (hplain : env.FailsPlainly) (h : e.eval env s = .error err t) :
    (∃ fault, Rejects env e s fault t ∧ err = ⟨fault, some e.span⟩) ∨
      ∃ child u, Operand env e s child u ∧ child.eval env u = .error err t := by
  cases e with
  | null | bool | number | string => cases h
  | identifier name span =>
    obtain ⟨hnone, rfl, rfl⟩ := lookUp_eq_error_iff.1 h
    exact .inl ⟨_, .identifier hnone, rfl⟩
  | template parts span =>
    rcases run_bind_eq_error_iff.1 h with hparts | ⟨text, u, hparts, h⟩
    · obtain ⟨before, part, behind, u, hsplit, hbefore, hpart⟩ :=
        (sequences_parts env).eq_error_iff.1 hparts
      cases part with
      | text s => cases hpart
      | hole child =>
        rcases run_bind_eq_error_iff.1 hpart with hchild | ⟨v, r, hchild, hpart⟩
        · exact .inr ⟨child, u, .part hsplit hbefore, hchild⟩
        · cases hpart
    · cases h
  | array items span =>
    rcases run_bind_eq_error_iff.1 h with hitems | ⟨vs, u, hitems, h⟩
    · obtain ⟨before, child, behind, u, hsplit, hbefore, hchild⟩ :=
        (sequences_items env).eq_error_iff.1 hitems
      exact .inr ⟨child, u, .item hsplit hbefore, hchild⟩
    · cases h
  | object entries span =>
    rcases run_bind_eq_error_iff.1 h with hentries | ⟨pairs, u, hentries, h⟩
    · obtain ⟨before, x, behind, u, hsplit, hbefore, hentry⟩ :=
        (sequences_entries env).eq_error_iff.1 hentries
      obtain ⟨child, r, hchild, herr⟩ := exists_of_evalEntry_eq_error hentry
      exact .inr ⟨child, r, .entry hsplit hbefore hchild, herr⟩
    · cases h
  | member owner property span =>
    rcases run_bind_eq_error_iff.1 h with howner | ⟨v, u, howner, h⟩
    · exact .inr ⟨owner, s, .owner, howner⟩
    · obtain ⟨fault, hfault, rfl, rfl⟩ := ofOperation_eq_error_iff.1 h
      exact .inl ⟨fault, .member howner hfault, rfl⟩
  | index owner position span =>
    rcases run_bind_eq_error_iff.1 h with howner | ⟨v, u, howner, h⟩
    · exact .inr ⟨owner, s, .indexed, howner⟩
    rcases run_bind_eq_error_iff.1 h with hposition | ⟨w, r, hposition, h⟩
    · exact .inr ⟨position, u, .position ⟨v, howner⟩, hposition⟩
    · obtain ⟨fault, hfault, rfl, rfl⟩ := ofOperation_eq_error_iff.1 h
      exact .inl ⟨fault, .index howner hposition hfault, rfl⟩
  | call callee args span =>
    rw [eval_call_eq] at h
    rcases run_bind_eq_error_iff.1 h with htarget | ⟨v, u, htarget, h⟩
    · exact .inr ⟨callee.callTarget, s, .target, htarget⟩
    rcases run_bind_eq_error_iff.1 h with hargs | ⟨vs, r, hargs, h⟩
    · obtain ⟨before, child, behind, r, hsplit, hbefore, hchild⟩ :=
        (sequences_items env).eq_error_iff.1 hargs
      exact .inr ⟨child, r, .argument ⟨v, htarget⟩ hsplit hbefore, hchild⟩
    · obtain ⟨fault, q, hfails, rfl, rfl⟩ := (applyCall_eq_error_iff hplain).1 h
      exact .inl ⟨fault, .call htarget hargs hfails, rfl⟩
  | unary op operand span =>
    rcases run_bind_eq_error_iff.1 h with hoperand | ⟨v, u, hoperand, h⟩
    · exact .inr ⟨operand, s, .unary, hoperand⟩
    · obtain ⟨fault, hfault, rfl, rfl⟩ := ofOperation_eq_error_iff.1 h
      exact .inl ⟨fault, .unary hoperand hfault, rfl⟩
  | binary op left right span =>
    rcases run_bind_eq_error_iff.1 h with hleft | ⟨v, u, hleft, h⟩
    · exact .inr ⟨left, s, .left, hleft⟩
    rcases run_bind_eq_error_iff.1 h with hright | ⟨w, r, hright, h⟩
    · exact .inr ⟨right, u, .right ⟨v, hleft⟩, hright⟩
    · obtain ⟨fault, hfault, rfl, rfl⟩ := ofOperation_eq_error_iff.1 h
      exact .inl ⟨fault, .binary hleft hright hfault, rfl⟩
  | logical op left right span =>
    rcases run_bind_eq_error_iff.1 h with hleft | ⟨v, u, hleft, h⟩
    · exact .inr ⟨left, s, .first, hleft⟩
    cases hstops : stops op v with
    | true =>
      rw [hstops] at h
      cases h
    | false =>
      rw [hstops] at h
      exact .inr ⟨right, u, .second hleft (stops_eq_false_iff.1 hstops), h⟩
  | conditional condition onTrue onFalse span =>
    rcases run_bind_eq_error_iff.1 h with hcondition | ⟨v, u, hcondition, h⟩
    · exact .inr ⟨condition, s, .condition, hcondition⟩
    cases htruthy : v.isTruthy with
    | true =>
      rw [htruthy] at h
      exact .inr ⟨onTrue, u, .onTrue hcondition htruthy, h⟩
    | false =>
      rw [htruthy] at h
      exact .inr ⟨onFalse, u, .onFalse hcondition htruthy, h⟩

theorem Rejects.eval_eq_error (hplain : env.FailsPlainly) (h : Rejects env e s fault t) :
    e.eval env s = .error ⟨fault, some e.span⟩ t := by
  cases h with
  | identifier hnone => exact lookUp_eq_error_iff.2 ⟨hnone, rfl, rfl⟩
  | member hoperand hfault | unary hoperand hfault =>
    exact (run_bind_of_ok hoperand).trans (ofOperation_eq_error_iff.2 ⟨_, hfault, rfl, rfl⟩)
  | index hfirst hsecond hfault | binary hfirst hsecond hfault =>
    refine (run_bind_of_ok hfirst).trans ((run_bind_of_ok hsecond).trans ?_)
    exact ofOperation_eq_error_iff.2 ⟨_, hfault, rfl, rfl⟩
  | call htarget hargs hfails =>
    rw [eval_call_eq]
    refine (run_bind_of_ok htarget).trans ((run_bind_of_ok hargs).trans ?_)
    exact (applyCall_eq_error_iff hplain).2 ⟨_, _, hfails, rfl, rfl⟩

/-- The operands of a node that rejects have values. -/
theorem Rejects.exists_done (h : Rejects env e s fault t) (hchild : Operand env e s child u) :
    ∃ r, Done (eval env) child u r := by
  cases h with
  | identifier => nomatch hchild
  | member howner =>
    cases hchild with
    | owner => exact ⟨_, _, howner⟩
  | unary hoperand =>
    cases hchild with
    | unary => exact ⟨_, _, hoperand⟩
  | index howner hposition =>
    cases hchild with
    | indexed => exact ⟨_, _, howner⟩
    | position hdone =>
      cases hdone.unique ⟨_, howner⟩
      exact ⟨_, _, hposition⟩
  | binary hleft hright =>
    cases hchild with
    | left => exact ⟨_, _, hleft⟩
    | right hdone =>
      cases hdone.unique ⟨_, hleft⟩
      exact ⟨_, _, hright⟩
  | call htarget hargs =>
    cases hchild with
    | target => exact ⟨_, _, htarget⟩
    | argument hdone hsplit hbefore =>
      cases hdone.unique ⟨_, htarget⟩
      subst hsplit
      exact ((sequences_items env).passes hargs).exists_done hbefore

/-- Of two operands that evaluation comes to, one has a value. -/
theorem Operand.compare (h : Operand env e s child u) (h' : Operand env e s child' u') :
    (child = child' ∧ u = u') ∨ (∃ r, Done (eval env) child u r) ∨
      ∃ r, Done (eval env) child' u' r := by
  cases h with
  | part hsplit hbefore =>
    cases h' with
    | part hsplit' hbefore' =>
      rcases hbefore.compare hbefore' (hsplit ▸ hsplit') with ⟨heq, rfl⟩ | ⟨r, hr⟩ | ⟨r, hr⟩
      · cases heq
        exact .inl ⟨rfl, rfl⟩
      · exact .inr (.inl ⟨r, done_of_evalPart hr⟩)
      · exact .inr (.inr ⟨r, done_of_evalPart hr⟩)
  | item hsplit hbefore =>
    cases h' with
    | item hsplit' hbefore' => exact hbefore.compare hbefore' (hsplit ▸ hsplit')
  | entry hsplit hbefore hchild =>
    cases h' with
    | entry hsplit' hbefore' hchild' =>
      rcases hbefore.compare hbefore' (hsplit ▸ hsplit') with ⟨rfl, rfl⟩ | ⟨r, hr⟩ | ⟨r, hr⟩
      · exact hchild.compare hchild'
      · exact .inr (.inl (hchild.exists_done hr))
      · exact .inr (.inr (hchild'.exists_done hr))
  | owner =>
    cases h' with
    | owner => exact .inl ⟨rfl, rfl⟩
  | indexed =>
    cases h' with
    | indexed => exact .inl ⟨rfl, rfl⟩
    | position hdone => exact .inr (.inl ⟨_, hdone⟩)
  | position hdone =>
    cases h' with
    | indexed => exact .inr (.inr ⟨_, hdone⟩)
    | position hdone' => exact .inl ⟨rfl, hdone.unique hdone'⟩
  | target =>
    cases h' with
    | target => exact .inl ⟨rfl, rfl⟩
    | argument hdone => exact .inr (.inl ⟨_, hdone⟩)
  | argument hdone hsplit hbefore =>
    cases h' with
    | target => exact .inr (.inr ⟨_, hdone⟩)
    | argument hdone' hsplit' hbefore' =>
      cases hdone.unique hdone'
      exact hbefore.compare hbefore' (hsplit ▸ hsplit')
  | unary =>
    cases h' with
    | unary => exact .inl ⟨rfl, rfl⟩
  | left =>
    cases h' with
    | left => exact .inl ⟨rfl, rfl⟩
    | right hdone => exact .inr (.inl ⟨_, hdone⟩)
  | right hdone =>
    cases h' with
    | left => exact .inr (.inr ⟨_, hdone⟩)
    | right hdone' => exact .inl ⟨rfl, hdone.unique hdone'⟩
  | first =>
    cases h' with
    | first => exact .inl ⟨rfl, rfl⟩
    | second hv => exact .inr (.inl ⟨_, _, hv⟩)
  | second hv =>
    cases h' with
    | first => exact .inr (.inr ⟨_, _, hv⟩)
    | second hv' => exact .inl ⟨rfl, (ok_unique hv hv').2⟩
  | condition =>
    cases h' with
    | condition => exact .inl ⟨rfl, rfl⟩
    | onTrue hv | onFalse hv => exact .inr (.inl ⟨_, _, hv⟩)
  | onTrue hv htruthy =>
    cases h' with
    | condition => exact .inr (.inr ⟨_, _, hv⟩)
    | onTrue hv' => exact .inl ⟨rfl, (ok_unique hv hv').2⟩
    | onFalse hv' htruthy' =>
      obtain ⟨rfl, rfl⟩ := ok_unique hv hv'
      cases htruthy.symm.trans htruthy'
  | onFalse hv htruthy =>
    cases h' with
    | condition => exact .inr (.inr ⟨_, _, hv⟩)
    | onTrue hv' htruthy' =>
      obtain ⟨rfl, rfl⟩ := ok_unique hv hv'
      cases htruthy.symm.trans htruthy'
    | onFalse hv' => exact .inl ⟨rfl, (ok_unique hv hv').2⟩

theorem sizeOf_callTarget_le (callee : Expr) : sizeOf callee.callTarget ≤ sizeOf callee := by
  cases callee with
  | member owner property place =>
    simp only [callTarget, Expr.member.sizeOf_spec]
    omega
  | _ => exact Nat.le_refl _

theorem Operand.sizeOf_lt (h : Operand env e s child u) : sizeOf child < sizeOf e := by
  cases h with
  | part hsplit =>
    have hmem := List.sizeOf_lt_of_mem (hsplit ▸ List.mem_append_cons_self)
    simp only [Part.hole.sizeOf_spec] at hmem
    simp only [Expr.template.sizeOf_spec]
    omega
  | item hsplit =>
    have hmem := List.sizeOf_lt_of_mem (hsplit ▸ List.mem_append_cons_self)
    simp only [Expr.array.sizeOf_spec]
    omega
  | entry hsplit _ hchild =>
    have hmem := List.sizeOf_lt_of_mem (hsplit ▸ List.mem_append_cons_self)
    have hlt := hchild.sizeOf_lt
    simp only [Expr.object.sizeOf_spec]
    omega
  | @target callee =>
    have htarget := sizeOf_callTarget_le callee
    simp only [Expr.call.sizeOf_spec]
    omega
  | argument _ hsplit =>
    have hmem := List.sizeOf_lt_of_mem (hsplit ▸ List.mem_append_cons_self)
    simp only [Expr.call.sizeOf_spec]
    omega
  | _ => simp +arith

end Step

section Run

variable {e node node' : Expr} {s t t' u u' : World σ} {fault fault' : Fault} {err : EvalError}

theorem Reaches.eval_eq_error (h : Reaches env e s node t)
    (herr : node.eval env t = .error err u) : e.eval env s = .error err u := by
  induction h with
  | refl => exact herr
  | operand hchild _ ih => exact hchild.eval_eq_error (ih herr)

theorem exists_rejects_of_eval_eq_error (hplain : env.FailsPlainly) (e : Expr) {s : World σ}
    (h : e.eval env s = .error err u) :
    ∃ node t fault, Reaches env e s node t ∧ Rejects env node t fault u ∧
      err = ⟨fault, some node.span⟩ := by
  rcases exists_of_eval_eq_error hplain h with ⟨fault, hrejects, rfl⟩ | ⟨child, r, hchild, herr⟩
  · exact ⟨e, s, fault, .refl e s, hrejects, rfl⟩
  · have hlt := hchild.sizeOf_lt
    obtain ⟨node, t, fault, hreaches, hrejects, rfl⟩ :=
      exists_rejects_of_eval_eq_error hplain child herr
    exact ⟨node, t, fault, .operand hchild hreaches, hrejects, rfl⟩
termination_by sizeOf e

/-- A node that rejects leaves no other node for evaluation to fail at. -/
theorem Reaches.eq_of_rejects (hplain : env.FailsPlainly) (h : Reaches env e s node t)
    (hnode : Rejects env node t fault u) (h' : Reaches env e s node' t')
    (hnode' : Rejects env node' t' fault' u') : node' = node ∧ t' = t := by
  induction h with
  | refl e s =>
    cases h' with
    | refl => exact ⟨rfl, rfl⟩
    | operand hchild' hreaches' =>
      obtain ⟨r, hdone⟩ := hnode.exists_done hchild'
      exact absurd (hreaches'.eval_eq_error (hnode'.eval_eq_error hplain)) hdone.ne_error
  | operand hchild hreaches ih =>
    have herr := hreaches.eval_eq_error (hnode.eval_eq_error hplain)
    cases h' with
    | refl =>
      obtain ⟨r, hdone⟩ := hnode'.exists_done hchild
      exact absurd herr hdone.ne_error
    | operand hchild' hreaches' =>
      have herr' := hreaches'.eval_eq_error (hnode'.eval_eq_error hplain)
      rcases hchild.compare hchild' with ⟨rfl, rfl⟩ | ⟨r, hdone⟩ | ⟨r, hdone⟩
      · exact ih hnode hreaches'
      · exact absurd herr hdone.ne_error
      · exact absurd herr' hdone.ne_error

end Run

theorem eval_eq_error_iff_rejects (env : Environment σ) (hplain : env.FailsPlainly) (e : Expr)
    (s u : World σ) (err : EvalError) :
    e.eval env s = .error err u ↔
      ∃ node t fault, Reaches env e s node t ∧ Rejects env node t fault u ∧
        err = ⟨fault, some node.span⟩ ∧
        ∀ node' t' fault' u', Reaches env e s node' t' → Rejects env node' t' fault' u' →
          node' = node ∧ t' = t ∧ fault' = fault ∧ u' = u := by
  constructor
  · intro h
    obtain ⟨node, t, fault, hreaches, hrejects, rfl⟩ := exists_rejects_of_eval_eq_error hplain e h
    refine ⟨node, t, fault, hreaches, hrejects, rfl, ?_⟩
    intro node' t' fault' u' hreaches' hrejects'
    obtain ⟨rfl, rfl⟩ := hreaches.eq_of_rejects hplain hrejects hreaches' hrejects'
    have hfault := hrejects'.eval_eq_error hplain
    rw [hrejects.eval_eq_error hplain] at hfault
    cases hfault
    exact ⟨rfl, rfl, rfl, rfl⟩
  · rintro ⟨node, t, fault, hreaches, hrejects, rfl, -⟩
    exact hreaches.eval_eq_error (hrejects.eval_eq_error hplain)

/-- A method of the host counts its calls and fails: the error has the span of the call, and the
count is kept. -/
theorem eval_eq_error_iff_rejects_method :
    let bindings := [("o", Value.object [("f", .function ⟨"f", .host 0⟩)])]
    let env : Environment Nat :=
      ⟨⟨bindings⟩, fun _ _ count => .error (.plain (.host "no")) (count + 1), fun p => .error p⟩
    let owner : Expr := .identifier "o" ⟨1, 9, 8, 9⟩
    let call : Expr :=
      .call (.member owner "f" ⟨1, 9, 8, 11⟩) [.bool true ⟨1, 12, 11, 15⟩] ⟨1, 9, 8, 16⟩
    let e : Expr := .logical .and (.bool true ⟨1, 1, 0, 4⟩) call ⟨1, 1, 0, 16⟩
    env.FailsPlainly ∧ e.eval env ⟨1, 7⟩ = .error ⟨.host "no", some call.span⟩ ⟨1, 8⟩ ∧
      ∃ node t fault, Reaches env e ⟨1, 7⟩ node t ∧ Rejects env node t fault ⟨1, 8⟩ ∧
        node.span = call.span := by
  intro bindings env owner call e
  have hplain : env.FailsPlainly := by
    rintro _ _ _ _ _ ⟨⟩
    exact ⟨_, rfl⟩
  have hvalue : e.eval env ⟨1, 7⟩ = .error ⟨.host "no", some call.span⟩ ⟨1, 8⟩ := rfl
  obtain ⟨node, t, fault, hreaches, hrejects, herr, -⟩ :=
    (eval_eq_error_iff_rejects env hplain e _ _ _).1 hvalue
  obtain ⟨-, hspan⟩ := EvalError.mk.inj herr
  exact ⟨hplain, hvalue, node, t, _, hreaches, hrejects, (Option.some.inj hspan).symm⟩

end Expr

end JsonStencil
