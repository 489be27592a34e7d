import JsonStencil.Text.CaseMapping
import JsonStencil.Value.Access

/-!
# Methods

The methods of strings, numbers and arrays. The language of the patterns that strings are matched
against is not fixed here.
-/

namespace JsonStencil

/-- A language of patterns. It says which texts have a match of a pattern, or by what message the
pattern is malformed, and says the same each time. -/
abbrev PatternLanguage := String → Except String (String → Bool)

namespace Value

def expectCount (method : String) (args : List Value) (n : Nat) : Except Fault Unit :=
  if args.length = n then .ok () else .error (.argumentCount method n args.length)

def stringArgument (method : String) : Value → Except Fault String
  | .string s => .ok s
  | v => .error (.notStringArgument method v.kind)

def onlyString (method : String) (args : List Value) : Except Fault String := do
  expectCount method args 1
  stringArgument method (ofOption args.head?)

/-- The parts of a text around a delimiter, and its characters for an empty delimiter. -/
def splitText (s delimiter : String) : List Value :=
  if delimiter = "" then s.toList.map ofChar
  else (splitOn delimiter.toList s.toList).map fun part => .string (.ofList part)

def stringMethod (patterns : PatternLanguage) (s method : String) (args : List Value) :
    Except Fault Value :=
  match method with
  | "toUpperCase" => do
    expectCount method args 0
    return .string (upperText s)
  | "toLowerCase" => do
    expectCount method args 0
    return .string (lowerText s)
  | "trim" => do
    expectCount method args 0
    return .string (trimText s)
  | "includes" => do
    let needle ← onlyString method args
    return .bool (occursIn needle.toList s.toList)
  | "startsWith" => do
    let front ← onlyString method args
    return .bool (startsWith front.toList s.toList)
  | "endsWith" => do
    let back ← onlyString method args
    return .bool (startsWith back.toList.reverse s.toList.reverse)
  | "split" => do
    let delimiter ← onlyString method args
    return .array (splitText s delimiter)
  | "replace" => do
    expectCount method args 2
    let old ← stringArgument method (ofOption args[0]?)
    let new := (ofOption args[1]?).display
    return .string (.ofList (replaceFirst old.toList new.toList s.toList))
  | "matches" => do
    let text ← onlyString method args
    match patterns text with
    | .ok isMatch => return .bool (isMatch s)
    | .error message => .error (.malformedPattern message)
  | _ => .error (.unknownMethod method .string)

/-- The number of places that an argument asks for, from 0 to 100. -/
def fixedPlaces? : Value → Option Nat
  | .number x =>
    if x.isNaN || x.isLt (.zero false) || Binary64.isLt (.ofNat 100) x then none else some x.toIndex
  | _ => none

def numberMethod (x : Binary64) (method : String) (args : List Value) : Except Fault Value :=
  match method, args with
  | "toFixed", [] => .ok (.string (x.fixed 0))
  | "toFixed", arg :: _ =>
    match fixedPlaces? arg with
    | some places => .ok (.string (x.fixed places))
    | none => .error (.fixedPlaces arg.display)
  | _, _ => .error (.unknownMethod method .number)

/-- A bound of a slice of `length` items, counted from the end when it is negative. -/
def sliceBound (length default : Nat) : Option Value → Nat
  | none => default
  | some v =>
    let x := v.toNumber
    if x.isLt (.zero false) then length - (-x).toIndex else min x.toIndex length

def arrayMethod (items : List Value) (method : String) (args : List Value) : Except Fault Value :=
  match method with
  | "join" => do
    let separator ← match args with
      | [] => .ok ","
      | arg :: _ => stringArgument method arg
    return .string (joinDisplays separator items)
  | "includes" => do
    expectCount method args 1
    return .bool (items.any fun v => v.equal (ofOption args.head?))
  | "indexOf" => do
    expectCount method args 1
    return match items.findIdx? fun v => v.equal (ofOption args.head?) with
      | some i => ofNat i
      | none => .number (.ofInt (-1))
  | "slice" =>
    let start := sliceBound items.length 0 args[0]?
    let stop := sliceBound items.length items.length args[1]?
    .ok (.array ((items.take stop).drop start))
  | "reverse" => do
    expectCount method args 0
    return .array items.reverse
  | _ => .error (.unknownMethod method .array)

end Value

end JsonStencil
