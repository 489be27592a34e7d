import JsonStencil.Builtin
import JsonStencil.Value.Json
import JsonStencil.Value.Methods

/-!
# Contexts

The variables that an expression sees, and what else its evaluation takes from the host: the
routines that functions run, and the language of patterns.
-/

namespace JsonStencil

structure Context where
  bindings : List (String × Value)
  deriving Inhabited

namespace Context

def empty : Context := ⟨[]⟩

def get? (context : Context) (name : String) : Option Value := Entries.get? context.bindings name

def set (context : Context) (name : String) (v : Value) : Context :=
  ⟨Entries.insert name v context.bindings⟩

def remove (context : Context) (name : String) : Context :=
  ⟨Entries.remove context.bindings name⟩

def contains (context : Context) (name : String) : Bool := (context.get? name).isSome

def size (context : Context) : Nat := context.bindings.length

def names (context : Context) : List String :=
  (Entries.keys context.bindings).mergeSort fun s t => !(t < s)

def ofJson : Json → Except Fault Context
  | .object entries => .ok ⟨Value.ofJsonEntries entries⟩
  | json => .error (.contextNotObject (Value.ofJson json).kind)

end Context

/-- The outcome of a run, without the state that it leaves. -/
def outcome {ε σ α : Type} : EStateM.Result ε σ α → Except ε α
  | .ok a _ => .ok a
  | .error e _ => .error e

/-- A call that may read and change the state of the host, also when it fails. -/
abbrev HostCall (σ α : Type) := EStateM CallError σ α

namespace HostCall

variable {σ α : Type}

/-- What needs no host, and fails by faults that take their place from the call. -/
def ofExcept : Except Fault α → HostCall σ α
  | .ok a => pure a
  | .error fault => throw (.plain fault)

/-- The message of a failed call starts with the name of the function, and its own place is lost. -/
def named (name : String) (call : HostCall σ α) : HostCall σ α :=
  call.adaptExcept fun e => .plain (.inCall name e.fault)

theorem outcome_ofExcept (x : Except Fault α) (p : σ) :
    outcome (ofExcept x p) = x.mapError .plain := by
  cases x <;> rfl

theorem outcome_named (name : String) (call : HostCall σ α) (p : σ) :
    outcome (named name call p) =
      (outcome (call p)).mapError fun e => .plain (.inCall name e.fault) := by
  simp only [named, EStateM.adaptExcept]
  cases call p <;> rfl

end HostCall

/-- A context with what the host supplies: its routines by serial number, which share a state, and
its language of patterns. -/
structure Environment (σ : Type) where
  context : Context
  host : Nat → List Value → HostCall σ Value
  patterns : PatternLanguage

namespace Environment

variable {σ : Type}

/-- A context in which no function has a routine of the host. -/
def ofContext (patterns : PatternLanguage) (context : Context) : Environment Unit :=
  ⟨context, fun _ _ => throw (.plain (.host "")), patterns⟩

/-- The value of a name: a variable, else a constant, else a builtin, which takes the next serial
number for its routine. The number that comes next then is second. -/
def resolve? (env : Environment σ) (name : String) (serial : Nat) : Option (Value × Nat) :=
  match env.context.get? name with
  | some v => some (v, serial)
  | none =>
    match constant? name with
    | some v => some (v, serial)
    | none =>
      (Builtin.ofName? name).map fun b => (.function ⟨b.name, .builtin b serial⟩, serial + 1)

def callFunction (env : Environment σ) (f : Function) (args : List Value) : HostCall σ Value :=
  match f.routine with
  | .host serial => env.host serial args
  | .builtin b _ => .ofExcept (b.apply args)

/-- Calls a method of a value. The methods of an object are its entries. -/
def callMethod (env : Environment σ) (v : Value) (name : String) (args : List Value) :
    HostCall σ Value :=
  match v with
  | .string s => .ofExcept (Value.stringMethod env.patterns s name args)
  | .number x => .ofExcept (Value.numberMethod x name args)
  | .array items => .ofExcept (Value.arrayMethod items name args)
  | .object entries =>
    match Entries.get? entries name with
    | some (.function f) => env.callFunction f args
    | some member => throw (.plain (.memberNotFunction name member.kind))
    | none => throw (.plain (.memberMissing name))
  | .null => throw (.plain (.readsNull name))
  | v => throw (.plain (.noMethods name v.kind))

end Environment

end JsonStencil
