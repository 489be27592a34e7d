import JsonStencil.Fault
import JsonStencil.Json.Basic

/-!
# Values and JSON

Every document is a value. A value without functions is a document again, in which whole numbers
below `2 ^ 53` are integers and numbers that are not finite are null.
-/

namespace JsonStencil.Value

mutual

def ofJson : Json → Value
  | .null => .null
  | .bool b => .bool b
  | .integer n => .number (.ofInt n)
  | .float x => .number x
  | .string s => .string s
  | .array items => .array (ofJsonItems items)
  | .object entries => .object (ofJsonEntries entries)

def ofJsonItems : List Json → List Value
  | [] => []
  | item :: items => ofJson item :: ofJsonItems items

def ofJsonEntries : List (String × Json) → List (String × Value)
  | [] => []
  | (key, value) :: entries => (key, ofJson value) :: ofJsonEntries entries

end

def numberToJson (x : Binary64) : Json :=
  match x.toSafeInt? with
  | some n => .integer n
  | none => if x.isFinite then .float x else .null

mutual

/-- The document of a value. The first function inside is at fault. -/
def toJson : Value → Except Fault Json
  | .null => .ok .null
  | .bool b => .ok (.bool b)
  | .number x => .ok (numberToJson x)
  | .string s => .ok (.string s)
  | .array items => (toJsonItems items).map .array
  | .object entries => (toJsonEntries entries).map .object
  | .function f => .error (.functionInJson f.name)

def toJsonItems : List Value → Except Fault (List Json)
  | [] => .ok []
  | item :: items => do
    let json ← item.toJson
    let rest ← toJsonItems items
    .ok (json :: rest)

def toJsonEntries : List (String × Value) → Except Fault (List (String × Json))
  | [] => .ok []
  | (key, value) :: entries => do
    let json ← value.toJson
    let rest ← toJsonEntries entries
    .ok ((key, json) :: rest)

end

end JsonStencil.Value
