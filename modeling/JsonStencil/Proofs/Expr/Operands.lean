import JsonStencil.Proofs.Expr.Erase
import JsonStencil.Proofs.Expr.Order

/-!
# Operands and operations

Evaluation of a node comes to its operands in turn, to each one after those before it have values.
The operation of a node itself may reject the values of its operands.
-/

namespace JsonStencil

/-- The routines of the host fail by faults that take their place from the call. -/
def Environment.FailsPlainly {σ : Type} (env : Environment σ) : Prop :=
  ∀ serial args p e q, env.host serial args p = .error e q → ∃ fault, e = .plain fault

namespace Evaluation

variable {σ α : Type} {s t : World σ} {err : EvalError}

theorem ofOperation_eq_error_iff {span : Span} {y : Except Fault α} :
    ofOperation span y s = .error err t ↔
      ∃ fault, y = .error fault ∧ err = ⟨fault, some span⟩ ∧ t = s := by
  cases y with
  | ok a =>
    constructor
    · intro h
      cases h
    · rintro ⟨fault, h, -⟩
      cases h
  | error fault =>
    constructor
    · intro h
      cases h
      exact ⟨fault, rfl, rfl, rfl⟩
    · rintro ⟨fault', h, rfl, rfl⟩
      cases h
      rfl

theorem ofCall_eq_error_iff {span : Span} {call : HostCall σ α} :
    ofCall span call s = .error err t ↔
      ∃ e q, call s.state = .error e q ∧ err = e.locate span ∧ t = { s with state := q } := by
  unfold ofCall
  cases call s.state with
  | ok a p =>
    constructor
    · intro h
      cases h
    · rintro ⟨e, q, h, -⟩
      cases h
  | error e p =>
    constructor
    · intro h
      cases h
      exact ⟨e, p, rfl, rfl, rfl⟩
    · rintro ⟨e', q, h, rfl, rfl⟩
      cases h
      rfl

theorem lookUp_eq_error_iff {env : Environment σ} {name : String} {span : Span} :
    lookUp env name span s = .error err t ↔
      env.resolve? name s.serial = none ∧ err = ⟨.undefined name, some span⟩ ∧ t = s := by
  unfold lookUp
  cases env.resolve? name s.serial with
  | some found =>
    constructor
    · intro h
      cases h
    · rintro ⟨h, -⟩
      cases h
  | none =>
    constructor
    · intro h
      cases h
      exact ⟨rfl, rfl, rfl⟩
    · rintro ⟨-, rfl, rfl⟩
      rfl

/-- When a logical operator needs its second operand: the first one leaves the outcome open. -/
inductive NeedsSecond : LogicalOp → Value → Prop
  | and {v : Value} : v.isTruthy = true → NeedsSecond .and v
  | or {v : Value} : v.isTruthy = false → NeedsSecond .or v
  | nullish : NeedsSecond .nullish .null

theorem stops_eq_false_iff {op : LogicalOp} {v : Value} :
    stops op v = false ↔ NeedsSecond op v := by
  constructor
  · intro h
    cases op with
    | and => exact .and (by simpa [stops] using h)
    | or => exact .or h
    | nullish =>
      cases v with
      | null => exact .nullish
      | _ => cases h
  · intro h
    cases h with
    | and htruthy => simp [stops, htruthy]
    | or htruthy => exact htruthy
    | nullish => rfl

end Evaluation

namespace Environment

variable {σ : Type} {env : Environment σ} {p q : σ} {e : CallError}

theorem plain_of_ofExcept {α : Type} {x : Except Fault α}
    (h : HostCall.ofExcept x p = .error e q) : ∃ fault, e = .plain fault := by
  cases x with
  | ok a => cases h
  | error fault =>
    cases h
    exact ⟨fault, rfl⟩

theorem FailsPlainly.callFunction (h : env.FailsPlainly) {f : Function} {args : List Value}
    (he : env.callFunction f args p = .error e q) : ∃ fault, e = .plain fault := by
  obtain ⟨name, routine⟩ := f
  cases routine with
  | host serial => exact h serial args p e q he
  | builtin b serial => exact plain_of_ofExcept he

theorem FailsPlainly.callMethod (h : env.FailsPlainly) {v : Value} {name : String}
    {args : List Value} (he : env.callMethod v name args p = .error e q) :
    ∃ fault, e = .plain fault := by
  cases v with
  | string s => exact plain_of_ofExcept he
  | number x => exact plain_of_ofExcept he
  | array items => exact plain_of_ofExcept he
  | object entries =>
    simp only [Environment.callMethod] at he
    cases hmember : Entries.get? entries name with
    | none =>
      rw [hmember] at he
      cases he
      exact ⟨_, rfl⟩
    | some member =>
      rw [hmember] at he
      cases member with
      | function f => exact h.callFunction he
      | _ =>
        cases he
        exact ⟨_, rfl⟩
  | _ =>
    cases he
    exact ⟨_, rfl⟩

end Environment

namespace Expr

open Evaluation

variable {σ : Type} {env : Environment σ}

def evalPart (env : Environment σ) : Part Expr → Evaluation σ String
  | .text s => pure s
  | .hole e => return (← e.eval env).display

def evalKey (env : Environment σ) : PropertyKey Expr → Evaluation σ String
  | .named name => pure name
  | .computed key => return (← key.eval env).propertyName

/-- The name and the value of an entry, the name first. -/
def evalEntry (env : Environment σ) (entry : ObjectEntry Expr) : Evaluation σ (String × Value) := do
  let name ← evalKey env entry.key
  let v ← entry.value.eval env
  return (name, v)

theorem sequences_items (env : Environment σ) : Sequences (eval env) (evalItems env) :=
  ⟨⟨[], rfl⟩, fun _ _ => ⟨List.cons, rfl⟩⟩

theorem sequences_parts (env : Environment σ) : Sequences (evalPart env) (evalParts env) := by
  refine ⟨⟨"", rfl⟩, fun part parts => ⟨(· ++ ·), ?_⟩⟩
  cases part with
  | text s => rfl
  | hole e => simp only [evalParts, evalPart, bind_assoc, pure_bind]

theorem sequences_entries (env : Environment σ) : Sequences (evalEntry env) (evalEntries env) := by
  refine ⟨⟨[], rfl⟩, fun entry entries => ⟨List.cons, ?_⟩⟩
  obtain ⟨key, e, place⟩ := entry
  cases key with
  | named name => simp only [evalEntries, evalEntry, evalKey, bind_assoc, pure_bind]
  | computed key => simp only [evalEntries, evalEntry, evalKey, bind_assoc, pure_bind]

/-- What a call evaluates first: the receiver of a method, or else the callee. -/
def callTarget : Expr → Expr
  | .member owner _ _ => owner
  | callee => callee

/-- Evaluation of an entry comes to its key, and to its value once the key has a name. -/
inductive EntryOperand (env : Environment σ) : ObjectEntry Expr → World σ → Expr → World σ → Prop
  | key {key e : Expr} {place : Span} {s : World σ} :
      EntryOperand env ⟨.computed key, e, place⟩ s key s
  | value {key : PropertyKey Expr} {e : Expr} {place : Span} {s t : World σ} :
      Done (evalKey env) key s t → EntryOperand env ⟨key, e, place⟩ s e t

/-- Evaluation of a node comes to an operand of it, all operands before that one having values. -/
inductive Operand (env : Environment σ) : Expr → World σ → Expr → World σ → Prop
  | part {parts before behind : List (Part Expr)} {e : Expr} {span : Span} {s t : World σ} :
      parts = before ++ .hole e :: behind → Passes (evalPart env) before s t →
      Operand env (.template parts span) s e t
  | item {items before behind : List Expr} {e : Expr} {span : Span} {s t : World σ} :
      items = before ++ e :: behind → Passes (eval env) before s t →
      Operand env (.array items span) s e t
  | entry {entries before behind : List (ObjectEntry Expr)} {x : ObjectEntry Expr} {e : Expr}
      {span : Span} {s t u : World σ} :
      entries = before ++ x :: behind → Passes (evalEntry env) before s t →
      EntryOperand env x t e u → Operand env (.object entries span) s e u
  | owner {owner : Expr} {property : String} {span : Span} {s : World σ} :
      Operand env (.member owner property span) s owner s
  | indexed {owner position : Expr} {span : Span} {s : World σ} :
      Operand env (.index owner position span) s owner s
  | position {owner position : Expr} {span : Span} {s t : World σ} :
      Done (eval env) owner s t → Operand env (.index owner position span) s position t
  | target {callee : Expr} {args : List Expr} {span : Span} {s : World σ} :
      Operand env (.call callee args span) s callee.callTarget s
  | argument {callee e : Expr} {args before behind : List Expr} {span : Span} {s t u : World σ} :
      Done (eval env) callee.callTarget s t → args = before ++ e :: behind →
      Passes (eval env) before t u → Operand env (.call callee args span) s e u
  | unary {op : UnaryOp} {e : Expr} {span : Span} {s : World σ} :
      Operand env (.unary op e span) s e s
  | left {op : BinaryOp} {left right : Expr} {span : Span} {s : World σ} :
      Operand env (.binary op left right span) s left s
  | right {op : BinaryOp} {left right : Expr} {span : Span} {s t : World σ} :
      Done (eval env) left s t → Operand env (.binary op left right span) s right t
  | first {op : LogicalOp} {left right : Expr} {span : Span} {s : World σ} :
      Operand env (.logical op left right span) s left s
  | second {op : LogicalOp} {left right : Expr} {span : Span} {v : Value} {s t : World σ} :
      left.eval env s = .ok v t → NeedsSecond op v →
      Operand env (.logical op left right span) s right t
  | condition {condition onTrue onFalse : Expr} {span : Span} {s : World σ} :
      Operand env (.conditional condition onTrue onFalse span) s condition s
  | onTrue {condition onTrue onFalse : Expr} {span : Span} {v : Value} {s t : World σ} :
      condition.eval env s = .ok v t → v.isTruthy = true →
      Operand env (.conditional condition onTrue onFalse span) s onTrue t
  | onFalse {condition onTrue onFalse : Expr} {span : Span} {v : Value} {s t : World σ} :
      condition.eval env s = .ok v t → v.isTruthy = false →
      Operand env (.conditional condition onTrue onFalse span) s onFalse t

/-- Evaluation comes to a node of the tree, in the world that was left until then. -/
inductive Reaches (env : Environment σ) : Expr → World σ → Expr → World σ → Prop
  | refl (e : Expr) (s : World σ) : Reaches env e s e s
  | operand {e child node : Expr} {s t u : World σ} :
      Operand env e s child t → Reaches env child t node u → Reaches env e s node u

/-- What a call fails by, from the values of its callee or receiver and of its arguments, and how
that changes the state of the host. -/
inductive CallFails (env : Environment σ) : Expr → Value → List Value → σ → Fault → σ → Prop
  | method {owner : Expr} {property : String} {place : Span} {v : Value} {vs : List Value}
      {e : CallError} {p q : σ} :
      env.callMethod v property vs p = .error e q →
      CallFails env (.member owner property place) v vs p e.fault q
  | function {callee : Expr} {f : Function} {vs : List Value} {e : CallError} {p q : σ} :
      callee.isMember = false → env.callFunction f vs p = .error e q →
      CallFails env callee (.function f) vs p (.inCall f.name e.fault) q
  | notFunction {callee : Expr} {v : Value} {vs : List Value} {p : σ} :
      callee.isMember = false → (∀ f, v ≠ .function f) →
      CallFails env callee v vs p (.notFunction (calleeName callee) v.kind) p

/-- All operands of a node have values, and its own operation rejects them. -/
inductive Rejects (env : Environment σ) : Expr → World σ → Fault → World σ → Prop
  | identifier {name : String} {span : Span} {s : World σ} :
      env.resolve? name s.serial = none → Rejects env (.identifier name span) s (.undefined name) s
  | member {owner : Expr} {property : String} {span : Span} {v : Value} {s t : World σ}
      {fault : Fault} :
      owner.eval env s = .ok v t → v.getProperty property = .error fault →
      Rejects env (.member owner property span) s fault t
  | index {owner position : Expr} {span : Span} {v w : Value} {s t u : World σ} {fault : Fault} :
      owner.eval env s = .ok v t → position.eval env t = .ok w u →
      v.getIndex w = .error fault → Rejects env (.index owner position span) s fault u
  | call {callee : Expr} {args : List Expr} {span : Span} {v : Value} {vs : List Value}
      {s t u : World σ} {fault : Fault} {q : σ} :
      callee.callTarget.eval env s = .ok v t → evalItems env args t = .ok vs u →
      CallFails env callee v vs u.state fault q →
      Rejects env (.call callee args span) s fault { u with state := q }
  | unary {op : UnaryOp} {e : Expr} {span : Span} {v : Value} {s t : World σ} {fault : Fault} :
      e.eval env s = .ok v t → op.apply v = .error fault →
      Rejects env (.unary op e span) s fault t
  | binary {op : BinaryOp} {left right : Expr} {span : Span} {v w : Value} {s t u : World σ}
      {fault : Fault} :
      left.eval env s = .ok v t → right.eval env t = .ok w u →
      op.apply v w = .error fault → Rejects env (.binary op left right span) s fault u

/-- What a call does with its values. -/
def applyCall (env : Environment σ) (callee : Expr) (v : Value) (vs : List Value) (span : Span) :
    Evaluation σ Value :=
  match callee with
  | .member _ property _ => ofCall span (env.callMethod v property vs)
  | callee => callValue env callee v vs span

theorem eval_call_eq (env : Environment σ) (callee : Expr) (args : List Expr) (span : Span) :
    (Expr.call callee args span).eval env = (do
      let v ← callee.callTarget.eval env
      let vs ← evalItems env args
      applyCall env callee v vs span) := by
  cases callee <;> rfl

section Call

variable {callee : Expr} {v : Value} {vs : List Value} {span : Span} {s t : World σ}
  {err : EvalError}

theorem named_eq_error_iff {α : Type} {name : String} {call : HostCall σ α} {e : CallError}
    {p q : σ} :
    HostCall.named name call p = .error e q ↔
      ∃ e', call p = .error e' q ∧ e = .plain (.inCall name e'.fault) := by
  simp only [HostCall.named, EStateM.adaptExcept]
  cases call p with
  | ok a p' =>
    constructor
    · intro h
      cases h
    · rintro ⟨e', h, -⟩
      cases h
  | error e' p' =>
    constructor
    · intro h
      cases h
      exact ⟨e', rfl, rfl⟩
    · rintro ⟨e'', h, rfl⟩
      cases h
      rfl

theorem callValue_eq_error_iff (hcallee : callee.isMember = false) :
    callValue env callee v vs span s = .error err t ↔
      ∃ fault q, CallFails env callee v vs s.state fault q ∧ err = ⟨fault, some span⟩ ∧
        t = { s with state := q } := by
  constructor
  · intro h
    cases v with
    | function f =>
      obtain ⟨e, q, he, rfl, rfl⟩ := ofCall_eq_error_iff.1 h
      obtain ⟨e', he', rfl⟩ := named_eq_error_iff.1 he
      exact ⟨_, q, .function hcallee he', rfl, rfl⟩
    | _ =>
      cases h
      exact ⟨_, s.state, .notFunction hcallee (fun _ h => by cases h), rfl, rfl⟩
  · rintro ⟨fault, q, hfails, rfl, rfl⟩
    cases hfails with
    | method => cases hcallee
    | function _ he =>
      exact ofCall_eq_error_iff.2 ⟨_, q, named_eq_error_iff.2 ⟨_, he, rfl⟩, rfl, rfl⟩
    | notFunction _ hv =>
      cases v with
      | function f => exact absurd rfl (hv f)
      | _ => rfl

theorem applyCall_eq_error_iff (hplain : env.FailsPlainly) :
    applyCall env callee v vs span s = .error err t ↔
      ∃ fault q, CallFails env callee v vs s.state fault q ∧ err = ⟨fault, some span⟩ ∧
        t = { s with state := q } := by
  unfold applyCall
  split
  next owner property place =>
    rw [ofCall_eq_error_iff]
    constructor
    · rintro ⟨e, q, he, rfl, rfl⟩
      obtain ⟨fault, rfl⟩ := hplain.callMethod he
      exact ⟨fault, q, .method he, rfl, rfl⟩
    · rintro ⟨fault, q, hfails, rfl, rfl⟩
      cases hfails with
      | method he =>
        obtain ⟨fault, rfl⟩ := hplain.callMethod he
        exact ⟨_, q, he, rfl, rfl⟩
      | function hcallee | notFunction hcallee => cases hcallee
  next hcallee =>
    refine callValue_eq_error_iff ?_
    cases callee with
    | member owner property place => exact absurd rfl (hcallee owner property place)
    | _ => rfl

end Call

theorem done_of_evalPart {e : Expr} {s t : World σ} (h : Done (evalPart env) (.hole e) s t) :
    Done (eval env) e s t := by
  obtain ⟨text, htext⟩ := h
  obtain ⟨v, u, hv, hu⟩ := run_bind_eq_ok_iff.1 htext
  cases hu
  exact ⟨v, hv⟩

theorem done_of_evalKey {key : Expr} {s t : World σ}
    (h : Done (evalKey env) (.computed key) s t) : Done (eval env) key s t := by
  obtain ⟨name, hname⟩ := h
  obtain ⟨v, u, hv, hu⟩ := run_bind_eq_ok_iff.1 hname
  cases hu
  exact ⟨v, hv⟩

theorem exists_done_of_evalEntry {entry : ObjectEntry Expr} {s t : World σ}
    (h : Done (evalEntry env) entry s t) :
    ∃ u, Done (evalKey env) entry.key s u ∧ Done (eval env) entry.value u t := by
  obtain ⟨pair, hpair⟩ := h
  obtain ⟨name, u, hname, hpair⟩ := run_bind_eq_ok_iff.1 hpair
  obtain ⟨v, r, hv, hr⟩ := run_bind_eq_ok_iff.1 hpair
  cases hr
  exact ⟨u, ⟨name, hname⟩, v, hv⟩

section Entry

variable {x : ObjectEntry Expr} {child child' : Expr} {s t u u' : World σ} {err : EvalError}

theorem EntryOperand.eval_eq_error (h : EntryOperand env x s child u)
    (herr : child.eval env u = .error err t) : evalEntry env x s = .error err t := by
  cases h with
  | key => exact run_bind_of_error (run_bind_of_error herr)
  | value hkey =>
    obtain ⟨name, hname⟩ := hkey
    exact (run_bind_of_ok hname).trans (run_bind_of_error herr)

theorem exists_of_evalEntry_eq_error (h : evalEntry env x s = .error err t) :
    ∃ child u, EntryOperand env x s child u ∧ child.eval env u = .error err t := by
  obtain ⟨key, e, place⟩ := x
  rcases run_bind_eq_error_iff.1 h with hkey | ⟨name, u, hname, h⟩
  · cases key with
    | named name => cases hkey
    | computed key =>
      rcases run_bind_eq_error_iff.1 hkey with hkey | ⟨v, u, hv, hkey⟩
      · exact ⟨key, s, .key, hkey⟩
      · cases hkey
  · rcases run_bind_eq_error_iff.1 h with he | ⟨v, r, hv, h⟩
    · exact ⟨e, u, .value ⟨name, hname⟩, he⟩
    · cases h

theorem EntryOperand.exists_done (h : EntryOperand env x s child u)
    (hdone : Done (evalEntry env) x s t) : ∃ r, Done (eval env) child u r := by
  obtain ⟨r, hkey, hvalue⟩ := exists_done_of_evalEntry hdone
  cases h with
  | key => exact ⟨r, done_of_evalKey hkey⟩
  | value hkey' =>
    cases hkey.unique hkey'
    exact ⟨t, hvalue⟩

theorem EntryOperand.compare (h : EntryOperand env x s child u)
    (h' : EntryOperand env x s child' u') :
    (child = child' ∧ u = u') ∨ (∃ r, Done (eval env) child u r) ∨
      ∃ r, Done (eval env) child' u' r := by
  cases h with
  | key =>
    cases h' with
    | key => exact .inl ⟨rfl, rfl⟩
    | value hkey => exact .inr (.inl ⟨_, done_of_evalKey hkey⟩)
  | value hkey =>
    cases h' with
    | key => exact .inr (.inr ⟨_, done_of_evalKey hkey⟩)
    | value hkey' => exact .inl ⟨rfl, hkey.unique hkey'⟩

theorem EntryOperand.sizeOf_lt (h : EntryOperand env x s child u) : sizeOf child < sizeOf x := by
  cases h with
  | key =>
    simp only [ObjectEntry.mk.sizeOf_spec, PropertyKey.computed.sizeOf_spec]
    omega
  | value =>
    simp only [ObjectEntry.mk.sizeOf_spec]
    omega

end Entry

end Expr

end JsonStencil
