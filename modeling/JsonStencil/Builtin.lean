import JsonStencil.Text.CaseMapping
import JsonStencil.Value.Access

/-!
# Builtins

The functions and constants that every expression can name. Functions of numbers take the numbers of
their arguments and of the items of arrays among them.
-/

namespace JsonStencil

namespace Value

/-- The numbers of the arguments, arrays being spread. -/
def numbers (args : List Value) : List Binary64 :=
  args.flatMap fun v => match v with
    | .array items => items.map toNumber
    | v => [v.toNumber]

def spread (args : List Value) : List Value :=
  args.flatMap fun v => match v with
    | .array items => items
    | v => [v]

end Value

namespace Builtin

open Value

def greater (x y : Binary64) : Binary64 := if x.isLt y then y else x

def lesser (x y : Binary64) : Binary64 := if y.isLt x then y else x

/-- The outcome of a fold over numbers, not-a-number if one of them is that. -/
def foldNumbers (pick : Binary64 → Binary64 → Binary64) (first : Binary64) (xs : List Binary64) :
    Binary64 :=
  if xs.any Binary64.isNaN then .nan else xs.foldl pick first

/-- The nearest integer, a half going up. -/
def roundHalfUp (x : Binary64) : Binary64 := (x + Binary64.half).floor

/-- The sum from left to right, negative zero for no numbers. -/
def total (xs : List Binary64) : Binary64 := xs.foldl (· + ·) (.zero true)

def single (b : Builtin) (args : List Value) (f : Value → Except Fault Value) :
    Except Fault Value :=
  match args with
  | [v] => f v
  | args => .error (.notSingle b args.length)

def ofNumber (f : Binary64 → Binary64) (v : Value) : Except Fault Value :=
  .ok (.number (f v.toNumber))

def ofText (f : String → String) (v : Value) : Except Fault Value := .ok (.string (f v.display))

def length : Value → Except Fault Value
  | .string s => .ok (Value.ofNat s.length)
  | .array items => .ok (Value.ofNat items.length)
  | .object entries => .ok (Value.ofNat entries.length)
  | v => .error (.noLength v.kind)

def keysOf : Value → Except Fault Value
  | .object entries => .ok (.array ((Entries.keys entries).map .string))
  | .array items => .ok (.array ((List.range items.length).map fun i => .string (toString i)))
  | v => .error (.notCollection .keys v.kind)

def valuesOf : Value → Except Fault Value
  | .object entries => .ok (.array (Entries.values entries))
  | .array items => .ok (.array items)
  | v => .error (.notCollection .values v.kind)

def concatenate : List Value → Value
  | args@(.array _ :: _) => .array (spread args)
  | args => .string (String.join (args.map display))

def joinItems : List Value → Except Fault Value
  | [.array items] => .ok (.string (joinDisplays "," items))
  | [.array items, separator] => .ok (.string (joinDisplays separator.display items))
  | _ => .error .nothingToJoin

def apply (b : Builtin) (args : List Value) : Except Fault Value :=
  match b with
  | .max => .ok (.number (foldNumbers greater (.infinity true) (numbers args)))
  | .min => .ok (.number (foldNumbers lesser (.infinity false) (numbers args)))
  | .sum => .ok (.number (total (numbers args)))
  | .abs => single b args (ofNumber Binary64.abs)
  | .floor => single b args (ofNumber Binary64.floor)
  | .ceil => single b args (ofNumber Binary64.ceil)
  | .round => single b args (ofNumber roundHalfUp)
  | .len => single b args length
  | .concat => .ok (concatenate args)
  | .join => joinItems args
  | .keys => single b args keysOf
  | .values => single b args valuesOf
  | .upper => single b args (ofText upperText)
  | .lower => single b args (ofText lowerText)
  | .trim => single b args (ofText trimText)
  | .string => single b args (ofText id)
  | .number => single b args (ofNumber id)

end Builtin

def constant? : String → Option Value
  | "NaN" => some (.number .nan)
  | "Infinity" => some (.number (.infinity false))
  | "undefined" => some .null
  | _ => none

end JsonStencil
