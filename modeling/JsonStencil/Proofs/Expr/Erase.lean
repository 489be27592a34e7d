import JsonStencil.Expr.Eval

/-!
# Syntax trees without places

Erasing puts one blank span at every node. The value of an expression and the cause of its error do
not depend on the spans that erasing removes.
-/

namespace JsonStencil

/-- The span of nodes whose place does not matter. -/
def Span.blank : Span := ⟨0, 0, 0, 0⟩

@[simp] theorem Span.merge_blank : Span.blank.merge .blank = .blank := rfl

namespace Expr

mutual

def erase : Expr → Expr
  | .null _ => .null .blank
  | .bool b _ => .bool b .blank
  | .number x _ => .number x .blank
  | .string s _ => .string s .blank
  | .template parts _ => .template (eraseParts parts) .blank
  | .identifier name _ => .identifier name .blank
  | .array items _ => .array (eraseItems items) .blank
  | .object entries _ => .object (eraseEntries entries) .blank
  | .call callee args _ => .call callee.erase (eraseItems args) .blank
  | .member owner property _ => .member owner.erase property .blank
  | .index owner position _ => .index owner.erase position.erase .blank
  | .unary op operand _ => .unary op operand.erase .blank
  | .binary op left right _ => .binary op left.erase right.erase .blank
  | .logical op left right _ => .logical op left.erase right.erase .blank
  | .conditional condition onTrue onFalse _ =>
    .conditional condition.erase onTrue.erase onFalse.erase .blank

def eraseItems : List Expr → List Expr
  | [] => []
  | e :: es => e.erase :: eraseItems es

def eraseParts : List (Part Expr) → List (Part Expr)
  | [] => []
  | .text s :: parts => .text s :: eraseParts parts
  | .hole e :: parts => .hole e.erase :: eraseParts parts

def eraseEntries : List (ObjectEntry Expr) → List (ObjectEntry Expr)
  | [] => []
  | ⟨.named name, e, _⟩ :: entries => ⟨.named name, e.erase, .blank⟩ :: eraseEntries entries
  | ⟨.computed key, e, _⟩ :: entries =>
    ⟨.computed key.erase, e.erase, .blank⟩ :: eraseEntries entries

end

theorem eraseItems_eq_map (es : List Expr) : eraseItems es = es.map erase := by
  induction es with
  | nil => rfl
  | cons e es ih => rw [eraseItems, ih, List.map_cons]

theorem eraseParts_eq_map (parts : List (Part Expr)) :
    eraseParts parts = parts.map (Part.map erase) := by
  induction parts with
  | nil => rfl
  | cons part parts ih => cases part <;> simp only [eraseParts, ih, List.map_cons, Part.map]

end Expr

def PropertyKey.erase : PropertyKey Expr → PropertyKey Expr
  | .named name => .named name
  | .computed e => .computed e.erase

def ObjectEntry.erase (entry : ObjectEntry Expr) : ObjectEntry Expr :=
  ⟨entry.key.erase, entry.value.erase, .blank⟩

namespace Expr

theorem eraseEntries_eq_map (entries : List (ObjectEntry Expr)) :
    eraseEntries entries = entries.map ObjectEntry.erase := by
  induction entries with
  | nil => rfl
  | cons entry entries ih =>
    obtain ⟨key, e, span⟩ := entry
    cases key <;> simp only [eraseEntries, ih, List.map_cons] <;> rfl

@[simp] theorem span_erase (e : Expr) : e.erase.span = .blank := by
  cases e <;> rfl

theorem eq_array_of_erase {e : Expr} {items : List Expr} (h : e.erase = .array items .blank) :
    ∃ es span, e = .array es span ∧ es.map erase = items := by
  cases e with
  | array es span =>
    simp only [erase, eraseItems_eq_map, array.injEq, and_true] at h
    exact ⟨es, span, rfl, h⟩
  | _ => cases h

theorem eq_object_of_erase {e : Expr} {entries : List (ObjectEntry Expr)}
    (h : e.erase = .object entries .blank) :
    ∃ es span, e = .object es span ∧ es.map ObjectEntry.erase = entries := by
  cases e with
  | object es span =>
    simp only [erase, eraseEntries_eq_map, object.injEq, and_true] at h
    exact ⟨es, span, rfl, h⟩
  | _ => cases h

theorem eq_identifier_of_erase {e : Expr} {name : String}
    (h : e.erase = .identifier name .blank) : ∃ span, e = .identifier name span := by
  cases e with
  | identifier name' span =>
    cases h
    exact ⟨span, rfl⟩
  | _ => cases h

theorem eq_call_of_erase {e : Expr} {name : String} {args : List Expr}
    (h : e.erase = .call (.identifier name .blank) args .blank) :
    ∃ es place span, e = .call (.identifier name place) es span ∧ es.map erase = args := by
  cases e with
  | call callee es span =>
    simp only [erase, eraseItems_eq_map, call.injEq, and_true] at h
    obtain ⟨place, rfl⟩ := eq_identifier_of_erase h.1
    exact ⟨es, place, span, rfl, h.2⟩
  | _ => cases h

end Expr

/-- A computation of which only the cause of an error is known. -/
abbrev Meaning (σ : Type) := EStateM Fault (World σ)

namespace Meaning

variable {σ α : Type}

def ofOperation : Except Fault α → Meaning σ α
  | .ok a => pure a
  | .error fault => throw fault

def ofCall (call : HostCall σ α) : Meaning σ α := fun w =>
  match call w.state with
  | .ok a state => .ok a { w with state }
  | .error e state => .error e.fault { w with state }

end Meaning

namespace Evaluation

variable {σ α β : Type}

/-- Forgets where an error arose. -/
def cause (x : Evaluation σ α) : Meaning σ α := x.adaptExcept (·.fault)

@[simp] theorem cause_pure (a : α) : cause (pure a : Evaluation σ α) = pure a := rfl

@[simp] theorem cause_bind (x : Evaluation σ α) (f : α → Evaluation σ β) :
    cause (x >>= f) = cause x >>= fun a => cause (f a) := by
  funext w
  simp only [cause, bind, EStateM.adaptExcept, EStateM.bind]
  cases x w <;> rfl

@[simp] theorem cause_fail (fault : Fault) (span : Span) :
    cause (fail fault span : Evaluation σ α) = throw fault := rfl

theorem cause_lookUp (env : Environment σ) (name : String) (span span' : Span) :
    cause (lookUp env name span) = cause (lookUp env name span') := by
  funext w
  simp only [cause, EStateM.adaptExcept, lookUp]
  cases env.resolve? name w.serial <;> rfl

theorem cause_ofCall (span : Span) (call : HostCall σ α) :
    cause (ofCall span call) = .ofCall call := by
  funext w
  simp only [cause, EStateM.adaptExcept, ofCall, Meaning.ofCall]
  cases call w.state with
  | ok a state => rfl
  | error e state => cases e <;> rfl

theorem cause_callValue (env : Environment σ) (callee callee' : Expr) (target : Value)
    (args : List Value) (span span' : Span) (h : calleeName callee = calleeName callee') :
    cause (callValue env callee target args span) =
      cause (callValue env callee' target args span') := by
  cases target with
  | function f => simp only [callValue, cause_ofCall]
  | _ => simp only [callValue, cause_fail, h]

theorem cause_ofOperation (span : Span) (x : Except Fault α) :
    cause (ofOperation span x : Evaluation σ α) = .ofOperation x := by
  cases x <;> rfl

end Evaluation

namespace Expr

open Evaluation

variable {σ : Type}

def isMember : Expr → Bool
  | .member _ _ _ => true
  | _ => false

theorem eval_call (env : Environment σ) {callee : Expr} (args : List Expr) (span : Span)
    (h : callee.isMember = false) :
    (Expr.call callee args span).eval env = (do
      let target ← callee.eval env
      let values ← evalItems env args
      callValue env callee target values span) := by
  cases callee <;> first | rfl | cases h

theorem cause_eval_call_erase {env : Environment σ} {callee : Expr} (args : List Expr) (span : Span)
    (h : callee.isMember = false)
    (ih : cause (callee.erase.eval env) = cause (callee.eval env))
    (ihArgs : cause (evalItems env (eraseItems args)) = cause (evalItems env args)) :
    cause ((Expr.call callee args span).erase.eval env) =
      cause ((Expr.call callee args span).eval env) := by
  have herase : callee.erase.isMember = false := by
    cases callee <;> first | rfl | cases h
  have hname : calleeName callee.erase = calleeName callee := by
    cases callee <;> rfl
  rw [erase, eval_call env _ _ h, eval_call env _ _ herase]
  simp only [cause_bind, ih, ihArgs, cause_callValue env _ _ _ _ .blank span hname]

mutual

theorem cause_eval_erase (env : Environment σ) :
    ∀ e : Expr, cause (e.erase.eval env) = cause (e.eval env)
  | .null _ => rfl
  | .bool _ _ => rfl
  | .number _ _ => rfl
  | .string _ _ => rfl
  | .identifier name span => cause_lookUp env name _ _
  | .template parts _ => by
    simp only [erase, eval, cause_bind, cause_evalParts_erase env parts, cause_pure]
  | .array items _ => by
    simp only [erase, eval, cause_bind, cause_evalItems_erase env items, cause_pure]
  | .object entries _ => by
    simp only [erase, eval, cause_bind, cause_evalEntries_erase env entries, cause_pure]
  | .member owner property _ => by
    simp only [erase, eval, cause_bind, cause_eval_erase env owner, cause_ofOperation]
  | .index owner position _ => by
    simp only [erase, eval, cause_bind, cause_eval_erase env owner, cause_eval_erase env position,
      cause_ofOperation]
  | .call callee args _ => by
    have ihArgs := cause_evalItems_erase env args
    have ih := cause_eval_erase env callee
    cases callee with
    | member owner property s =>
      simp only [erase, eval, cause_bind, cause_eval_erase env owner, ihArgs, cause_ofCall]
    | _ => exact cause_eval_call_erase _ _ rfl ih ihArgs
  | .unary _ operand _ => by
    simp only [erase, eval, cause_bind, cause_eval_erase env operand, cause_ofOperation]
  | .binary _ left right _ => by
    simp only [erase, eval, cause_bind, cause_eval_erase env left, cause_eval_erase env right,
      cause_ofOperation]
  | .logical op left right _ => by
    simp only [erase, eval, cause_bind, cause_eval_erase env left]
    congr 1
    funext v
    split
    · rfl
    · exact cause_eval_erase env right
  | .conditional condition onTrue onFalse _ => by
    simp only [erase, eval, cause_bind, cause_eval_erase env condition]
    congr 1
    funext v
    split
    · exact cause_eval_erase env onTrue
    · exact cause_eval_erase env onFalse

theorem cause_evalItems_erase (env : Environment σ) :
    ∀ items : List Expr, cause (evalItems env (eraseItems items)) = cause (evalItems env items)
  | [] => rfl
  | item :: items => by
    simp only [eraseItems, evalItems, cause_bind, cause_eval_erase env item,
      cause_evalItems_erase env items, cause_pure]

theorem cause_evalParts_erase (env : Environment σ) :
    ∀ parts : List (Part Expr),
      cause (evalParts env (eraseParts parts)) = cause (evalParts env parts)
  | [] => rfl
  | .text s :: parts => by
    simp only [eraseParts, evalParts, cause_bind, cause_evalParts_erase env parts, cause_pure]
  | .hole e :: parts => by
    simp only [eraseParts, evalParts, cause_bind, cause_eval_erase env e,
      cause_evalParts_erase env parts, cause_pure]

theorem cause_evalEntries_erase (env : Environment σ) :
    ∀ entries : List (ObjectEntry Expr),
      cause (evalEntries env (eraseEntries entries)) = cause (evalEntries env entries)
  | [] => rfl
  | ⟨.named name, e, _⟩ :: entries => by
    simp only [eraseEntries, evalEntries, cause_bind, cause_eval_erase env e,
      cause_evalEntries_erase env entries, cause_pure]
  | ⟨.computed key, e, _⟩ :: entries => by
    simp only [eraseEntries, evalEntries, cause_bind, cause_eval_erase env key,
      cause_eval_erase env e, cause_evalEntries_erase env entries, cause_pure]

end

end Expr

end JsonStencil
