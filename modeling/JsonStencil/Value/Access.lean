import JsonStencil.Fault

/-!
# Properties and positions

What a value holds under a name or at a position. Nothing there reads as null, and only null itself
cannot be read.
-/

namespace JsonStencil.Value

def ofOption (v : Option Value) : Value := v.getD .null

def ofNat (n : Nat) : Value := .number (.ofNat n)

def ofChar (c : Char) : Value := .string (.ofList [c])

def readPosition? (name : String) : Option Nat :=
  match name.toList with
  | '+' :: cs => Decimal.readNat? cs
  | cs => Decimal.readNat? cs

def position? (x : Binary64) : Option Nat :=
  if x.isInteger && !x.isLt (.zero false) then some x.toIndex else none

def getProperty (v : Value) (name : String) : Except Fault Value :=
  match v with
  | .null => .error (.readsNull name)
  | .object entries => .ok (ofOption (Entries.get? entries name))
  | .string s => .ok (if name = "length" then ofNat s.length else .null)
  | .array items =>
    if name = "length" then .ok (ofNat items.length)
    else .ok (ofOption ((readPosition? name).bind fun i => items[i]?))
  | .function f => .ok (if name = "name" then .string f.name else .null)
  | .bool _ | .number _ => .ok .null

def getIndex (v index : Value) : Except Fault Value :=
  match v, index with
  | .array items, .number x => .ok (ofOption ((position? x).bind fun i => items[i]?))
  | .string s, .number x => .ok (ofOption ((position? x).bind fun i => (s.toList[i]?).map ofChar))
  | v, index => v.getProperty index.propertyName

end JsonStencil.Value
