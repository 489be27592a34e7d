import JsonStencil.Context
import JsonStencil.Expr.Basic
import JsonStencil.Operator

/-!
# Evaluation

An expression has a value in an environment, or an error at the place where it arose. Parts are
evaluated from left to right, and only those that the outcome needs. Evaluation carries the serial
number that the next look-up of a builtin takes, and the state of the host, which calls may change.
-/

namespace JsonStencil

/-- What evaluation takes over from what came before it and passes on to what comes next, whether it
has a value or fails. Serial numbers below the next one may be in use. -/
structure World (σ : Type) where
  serial : Nat
  state : σ

/-- A computation in a world that may end in an error. -/
abbrev Evaluation (σ : Type) := EStateM EvalError (World σ)

namespace Evaluation

variable {σ α : Type}

def fail (fault : Fault) (span : Span) : Evaluation σ α := throw ⟨fault, some span⟩

def ofOperation (span : Span) : Except Fault α → Evaluation σ α
  | .ok a => pure a
  | .error fault => fail fault span

/-- A call in the state of the host. An error without a place takes that of the call. -/
def ofCall (span : Span) (call : HostCall σ α) : Evaluation σ α := fun w =>
  match call w.state with
  | .ok a state => .ok a { w with state }
  | .error e state => .error (e.locate span) { w with state }

def lookUp (env : Environment σ) (name : String) (span : Span) : Evaluation σ Value := fun w =>
  match env.resolve? name w.serial with
  | some (v, serial) => .ok v { w with serial }
  | none => .error ⟨.undefined name, some span⟩ w

def stops (op : LogicalOp) (v : Value) : Bool :=
  match op with
  | .and => !v.isTruthy
  | .or => v.isTruthy
  | .nullish => !v.isNull

def calleeName : Expr → Option String
  | .identifier name _ => some name
  | _ => none

/-- Calls a value that has to be a function. -/
def callValue (env : Environment σ) (callee : Expr) (target : Value) (args : List Value)
    (span : Span) : Evaluation σ Value :=
  match target with
  | .function f => ofCall span (.named f.name (env.callFunction f args))
  | v => fail (.notFunction (calleeName callee) v.kind) span

end Evaluation

namespace Expr

open Evaluation

variable {σ : Type}

mutual

def eval (env : Environment σ) : Expr → Evaluation σ Value
  | .null _ => pure .null
  | .bool b _ => pure (.bool b)
  | .number x _ => pure (.number x)
  | .string s _ => pure (.string s)
  | .identifier name span => lookUp env name span
  | .template parts _ => return .string (← evalParts env parts)
  | .array items _ => return .array (← evalItems env items)
  | .object entries _ => return .object (Entries.ofPairs (← evalEntries env entries))
  | .member owner property span => do
    let v ← eval env owner
    ofOperation span (v.getProperty property)
  | .index owner position span => do
    let v ← eval env owner
    let w ← eval env position
    ofOperation span (v.getIndex w)
  | .call (.member owner property _) args span => do
    let receiver ← eval env owner
    let values ← evalItems env args
    ofCall span (env.callMethod receiver property values)
  | .call callee args span => do
    let target ← eval env callee
    let values ← evalItems env args
    callValue env callee target values span
  | .unary op operand span => do
    let v ← eval env operand
    ofOperation span (op.apply v)
  | .binary op left right span => do
    let v ← eval env left
    let w ← eval env right
    ofOperation span (op.apply v w)
  | .logical op left right _ => do
    let v ← eval env left
    if stops op v then return v else eval env right
  | .conditional condition onTrue onFalse _ => do
    let v ← eval env condition
    if v.isTruthy then eval env onTrue else eval env onFalse

def evalItems (env : Environment σ) : List Expr → Evaluation σ (List Value)
  | [] => pure []
  | item :: items => do
    let v ← eval env item
    let vs ← evalItems env items
    return v :: vs

def evalParts (env : Environment σ) : List (Part Expr) → Evaluation σ String
  | [] => pure ""
  | .text s :: parts => return s ++ (← evalParts env parts)
  | .hole e :: parts => do
    let v ← eval env e
    return v.display ++ (← evalParts env parts)

/-- The pairs of names and values of the entries of an object, a key before its value. -/
def evalEntries (env : Environment σ) :
    List (ObjectEntry Expr) → Evaluation σ (List (String × Value))
  | [] => pure []
  | ⟨.named name, e, _⟩ :: entries => do
    let v ← eval env e
    let rest ← evalEntries env entries
    return (name, v) :: rest
  | ⟨.computed key, e, _⟩ :: entries => do
    let k ← eval env key
    let v ← eval env e
    let rest ← evalEntries env entries
    return (k.propertyName, v) :: rest

end

end Expr

end JsonStencil
