import JsonStencil.Entries
import JsonStencil.Numeric.Shortest
import JsonStencil.Text.CharClass

/-!
# Values

Values of expressions, which are templates too. A function is a name with a routine and stands for
itself only: two functions are equal when they are the same routine, whatever it computes.
-/

namespace JsonStencil

/-- Functions that every expression can call by name. -/
inductive Builtin where
  | max | min | sum | abs | floor | ceil | round
  | len | concat | join | keys | values
  | upper | lower | trim | string | number
  deriving DecidableEq, Repr

namespace Builtin

def all : List Builtin :=
  [.max, .min, .sum, .abs, .floor, .ceil, .round, .len, .concat, .join, .keys, .values,
   .upper, .lower, .trim, .string, .number]

def name : Builtin → String
  | .max => "max"
  | .min => "min"
  | .sum => "sum"
  | .abs => "abs"
  | .floor => "floor"
  | .ceil => "ceil"
  | .round => "round"
  | .len => "len"
  | .concat => "concat"
  | .join => "join"
  | .keys => "keys"
  | .values => "values"
  | .upper => "upper"
  | .lower => "lower"
  | .trim => "trim"
  | .string => "string"
  | .number => "number"

def ofName? (name : String) : Option Builtin := all.find? fun b => b.name = name

theorem mem_all (b : Builtin) : b ∈ all := by cases b <;> decide

end Builtin

/-- What a function runs: a routine of the host, or a builtin as it was looked up. Every look-up of
a builtin makes a routine of its own. What the host makes is a routine of the host, even if it does
what a builtin does. -/
inductive Routine where
  | host (serial : Nat)
  | builtin (b : Builtin) (serial : Nat)
  deriving DecidableEq, Repr

structure Function where
  name : String
  routine : Routine
  deriving DecidableEq, Repr

inductive Value where
  | null
  | bool (b : Bool)
  | number (x : Binary64)
  | string (s : String)
  | array (items : List Value)
  | object (entries : List (String × Value))
  | function (f : Function)
  deriving Inhabited

inductive ValueKind where
  | null | boolean | number | string | array | object | function
  deriving DecidableEq, Repr

def ValueKind.name : ValueKind → String
  | .null => "null"
  | .boolean => "boolean"
  | .number => "number"
  | .string => "string"
  | .array => "array"
  | .object => "object"
  | .function => "function"

namespace Value

def kind : Value → ValueKind
  | .null => .null
  | .bool _ => .boolean
  | .number _ => .number
  | .string _ => .string
  | .array _ => .array
  | .object _ => .object
  | .function _ => .function

def isNull : Value → Bool
  | .null => true
  | _ => false

def isTruthy : Value → Bool
  | .null => false
  | .bool b => b
  | .number x => !x.isZero && !x.isNaN
  | .string s => s ≠ ""
  | .array _ | .object _ | .function _ => true

/-- The number a text spells, zero for a blank one and not-a-number for one that spells none. -/
def numberOfText (s : String) : Binary64 :=
  let cs := trimBlank s.toList
  if cs.isEmpty then .zero false else (Binary64.read? cs).getD .nan

def toNumber : Value → Binary64
  | .null => .zero false
  | .bool b => .ofNat b.toNat
  | .number x => x
  | .string s => numberOfText s
  | .array _ | .object _ | .function _ => .nan

mutual

/-- The text of a value inside other text. -/
def display : Value → String
  | .null => "null"
  | .bool b => toString b
  | .number x => x.display
  | .string s => s
  | .array items => String.intercalate "," (itemDisplays items)
  | .object _ => "[object Object]"
  | .function f => "[Function: " ++ f.name ++ "]"

def itemDisplays : List Value → List String
  | [] => []
  | item :: items => (if item.isNull then "" else item.display) :: itemDisplays items

end

def joinDisplays (separator : String) (items : List Value) : String :=
  String.intercalate separator (itemDisplays items)

def propertyName : Value → String
  | .string s => s
  | v => v.display

mutual

/-- Equality of contents, in which the order of object entries does not matter, numbers compare as
numbers, and functions as routines. -/
def equal : Value → Value → Bool
  | .null, .null => true
  | .bool a, .bool b => a = b
  | .number x, .number y => x.equal y
  | .string s, .string t => s = t
  | .array xs, .array ys => itemsEqual xs ys
  | .object es, .object fs => es.length = fs.length && entriesWithin es fs
  | .function f, .function g => f.routine = g.routine
  | _, _ => false

def itemsEqual : List Value → List Value → Bool
  | [], [] => true
  | x :: xs, y :: ys => x.equal y && itemsEqual xs ys
  | _, _ => false

/-- Whether every entry has an equal one under the same key on the other side. -/
def entriesWithin : List (String × Value) → List (String × Value) → Bool
  | [], _ => true
  | (key, v) :: es, fs =>
    (match Entries.get? fs key with
      | some w => v.equal w
      | none => false) && entriesWithin es fs

end

end Value

end JsonStencil
