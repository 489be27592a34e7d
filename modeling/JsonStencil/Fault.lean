import JsonStencil.Span
import JsonStencil.Value.Basic

/-!
# Faults of evaluation

Everything that can go wrong with values, by cause, with the message of each cause.
-/

namespace JsonStencil

inductive Arithmetic where
  | subtract | multiply | divide | remainder
  deriving DecidableEq, Repr

inductive Comparison where
  | less | lessEqual | greater | greaterEqual
  deriving DecidableEq, Repr

inductive Fault where
  | readsNull (name : String)
  | memberNotFunction (name : String) (kind : ValueKind)
  | memberMissing (name : String)
  | noMethods (name : String) (kind : ValueKind)
  | unknownMethod (name : String) (kind : ValueKind)
  | argumentCount (method : String) (expected actual : Nat)
  | notStringArgument (method : String) (kind : ValueKind)
  | fixedPlaces (given : String)
  | malformedPattern (message : String)
  | functionInJson (name : String)
  | notSingle (builtin : Builtin) (actual : Nat)
  | noLength (kind : ValueKind)
  | nothingToJoin
  | notCollection (builtin : Builtin) (kind : ValueKind)
  | negate (kind : ValueKind)
  | add (left right : ValueKind)
  | arithmetic (operation : Arithmetic) (left right : ValueKind)
  | compare (comparison : Comparison) (left right : ValueKind)
  | undefined (name : String)
  | notFunction (name : Option String) (kind : ValueKind)
  | contextNotObject (kind : ValueKind)
  | host (message : String)
  | inCall (name : String) (cause : Fault)
  deriving DecidableEq

namespace Arithmetic

def verb : Arithmetic → String
  | .subtract => "subtract"
  | .multiply => "multiply"
  | .divide => "divide"
  | .remainder => "take the remainder of"

end Arithmetic

namespace Comparison

def text : Comparison → String
  | .less => "<"
  | .lessEqual => "<="
  | .greater => ">"
  | .greaterEqual => ">="

def holds : Comparison → Ordering → Bool
  | .less => Ordering.isLT
  | .lessEqual => Ordering.isLE
  | .greater => Ordering.isGT
  | .greaterEqual => Ordering.isGE

end Comparison

namespace Fault

def message : Fault → String
  | .readsNull name => "Cannot read properties of null (reading '" ++ name ++ "')"
  | .memberNotFunction name kind => "'" ++ name ++ "' is a " ++ kind.name ++ ", not a function"
  | .memberMissing name => "Method '" ++ name ++ "' not found on object"
  | .noMethods name kind => "Cannot call method '" ++ name ++ "' on " ++ kind.name
  | .unknownMethod name kind =>
    "'" ++ name ++ "' is not " ++ (if kind = .array then "an " else "a ") ++ kind.name ++ " method"
  | .argumentCount method expected actual =>
    method ++ "() expects " ++ toString expected ++ " argument(s), got " ++ toString actual
  | .notStringArgument method kind =>
    method ++ "() expects a string argument, got " ++ kind.name
  | .fixedPlaces given => "toFixed() digits must be between 0 and 100, got " ++ given
  | .malformedPattern message => message
  | .functionInJson name => "Cannot convert function '" ++ name ++ "' to JSON"
  | .notSingle builtin actual =>
    builtin.name ++ "() takes exactly 1 argument, got " ++ toString actual
  | .noLength kind => "len() requires a string, array or object, got " ++ kind.name
  | .nothingToJoin => "join() requires an array and an optional separator"
  | .notCollection builtin kind => builtin.name ++ "() requires an object, got " ++ kind.name
  | .negate kind => "Cannot negate " ++ kind.name
  | .add left right => "Cannot add " ++ left.name ++ " and " ++ right.name
  | .arithmetic operation left right =>
    "Cannot " ++ operation.verb ++ " " ++ left.name ++ " and " ++ right.name
  | .compare comparison left right =>
    "Cannot compare " ++ left.name ++ " " ++ comparison.text ++ " " ++ right.name
  | .undefined name => "'" ++ name ++ "' is not defined"
  | .notFunction (some name) kind =>
    "'" ++ name ++ "' is not a function (got " ++ kind.name ++ ")"
  | .notFunction none kind => "expression is not a function (got " ++ kind.name ++ ")"
  | .contextNotObject kind => "context must be a JSON object, got " ++ kind.name
  | .host message => message
  | .inCall name cause => name ++ "(): " ++ cause.message

end Fault

structure EvalError where
  fault : Fault
  span : Option Span
  deriving DecidableEq

/-- How a call fails: by a fault that takes its place from the call, or by an error of its own. -/
inductive CallError where
  | plain (fault : Fault)
  | placed (error : EvalError)
  deriving DecidableEq

namespace CallError

def fault : CallError → Fault
  | .plain fault => fault
  | .placed error => error.fault

def locate (span : Span) : CallError → EvalError
  | .plain fault => ⟨fault, some span⟩
  | .placed error => error

end CallError

end JsonStencil
