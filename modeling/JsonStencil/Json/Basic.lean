import JsonStencil.Entries
import JsonStencil.Numeric.Shortest

/-!
# JSON documents

Numbers are kept apart by how they are written: a whole number without point and exponent is an
integer as long as it fits into 64 bits, every other number is a binary64 number. Objects keep the
order of their keys.
-/

namespace JsonStencil

inductive Json where
  | null
  | bool (b : Bool)
  | integer (n : Int)
  | float (x : Binary64)
  | string (s : String)
  | array (items : List Json)
  | object (entries : List (String × Json))
  deriving Inhabited

namespace Json

/-- The number written as a sign and digits only. Minus zero and whole numbers beyond 64 bits are no
integers. -/
def ofWhole (negative : Bool) (n : Nat) : Json :=
  if negative then
    if 0 < n ∧ n ≤ UInt64.size / 2 then .integer (-n) else .float (.ofDecimal true n 0)
  else if n < UInt64.size then .integer n
  else .float (.ofDecimal false n 0)

def field? (json : Json) (key : String) : Option Json :=
  match json with
  | .object entries => Entries.get? entries key
  | _ => none

end Json

end JsonStencil
