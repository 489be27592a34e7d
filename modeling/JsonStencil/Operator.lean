import JsonStencil.Expr.Basic
import JsonStencil.Fault

/-!
# Operators

Operators on values. Arithmetic takes numbers only, a sum with a string on either side joins texts,
and an order compares two numbers or two strings.
-/

namespace JsonStencil

def UnaryOp.apply (op : UnaryOp) (v : Value) : Except Fault Value :=
  match op, v with
  | .not, v => .ok (.bool !v.isTruthy)
  | .plus, v => .ok (.number v.toNumber)
  | .minus, .number x => .ok (.number (-x))
  | .minus, v => .error (.negate v.kind)

def addValues : Value → Value → Except Fault Value
  | .number x, .number y => .ok (.number (x + y))
  | .string s, v => .ok (.string (s ++ v.display))
  | v, .string s => .ok (.string (v.display ++ s))
  | v, w => .error (.add v.kind w.kind)

def Arithmetic.run : Arithmetic → Binary64 → Binary64 → Binary64
  | .subtract, x, y => x - y
  | .multiply, x, y => x * y
  | .divide, x, y => x / y
  | .remainder, x, y => x % y

def Arithmetic.apply (operation : Arithmetic) : Value → Value → Except Fault Value
  | .number x, .number y => .ok (.number (operation.run x y))
  | v, w => .error (.arithmetic operation v.kind w.kind)

/-- Strings are ordered by code points. -/
def compareTexts (s t : String) : Ordering :=
  if s < t then .lt else if s = t then .eq else .gt

def Comparison.apply (comparison : Comparison) : Value → Value → Except Fault Value
  | .number x, .number y => .ok (.bool ((x.compare? y).any comparison.holds))
  | .string s, .string t => .ok (.bool (comparison.holds (compareTexts s t)))
  | v, w => .error (.compare comparison v.kind w.kind)

def BinaryOp.apply (op : BinaryOp) (v w : Value) : Except Fault Value :=
  match op with
  | .add => addValues v w
  | .sub => Arithmetic.subtract.apply v w
  | .mul => Arithmetic.multiply.apply v w
  | .div => Arithmetic.divide.apply v w
  | .rem => Arithmetic.remainder.apply v w
  | .equal => .ok (.bool (v.equal w))
  | .notEqual => .ok (.bool !v.equal w)
  | .less => Comparison.less.apply v w
  | .lessEqual => Comparison.lessEqual.apply v w
  | .greater => Comparison.greater.apply v w
  | .greaterEqual => Comparison.greaterEqual.apply v w

end JsonStencil
