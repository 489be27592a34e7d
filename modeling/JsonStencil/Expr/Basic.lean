import JsonStencil.Numeric.Binary64
import JsonStencil.Span
import JsonStencil.Text.Part

/-!
# Expressions

Syntax trees of the expression language. Every node carries the span of its text, in which
parentheses around it are not included.
-/

namespace JsonStencil

inductive UnaryOp where
  | not | minus | plus
  deriving DecidableEq, Repr

inductive BinaryOp where
  | add | sub | mul | div | rem
  | equal | notEqual | less | lessEqual | greater | greaterEqual
  deriving DecidableEq, Repr

/-- Operators that may leave their right operand alone. -/
inductive LogicalOp where
  | and | or | nullish
  deriving DecidableEq, Repr

/-- How an object names a property: by a fixed name, or by the display of an expression. -/
inductive PropertyKey (α : Type) where
  | named (name : String)
  | computed (e : α)

structure ObjectEntry (α : Type) where
  key : PropertyKey α
  value : α
  span : Span

inductive Expr where
  | null (span : Span)
  | bool (b : Bool) (span : Span)
  | number (x : Binary64) (span : Span)
  | string (s : String) (span : Span)
  | template (parts : List (Part Expr)) (span : Span)
  | identifier (name : String) (span : Span)
  | array (items : List Expr) (span : Span)
  | object (entries : List (ObjectEntry Expr)) (span : Span)
  | call (callee : Expr) (args : List Expr) (span : Span)
  | member (owner : Expr) (property : String) (span : Span)
  | index (owner position : Expr) (span : Span)
  | unary (op : UnaryOp) (operand : Expr) (span : Span)
  | binary (op : BinaryOp) (left right : Expr) (span : Span)
  | logical (op : LogicalOp) (left right : Expr) (span : Span)
  | conditional (condition onTrue onFalse : Expr) (span : Span)

namespace Expr

def span : Expr → Span
  | .null span | .bool _ span | .number _ span | .string _ span | .template _ span
  | .identifier _ span | .array _ span | .object _ span | .call _ _ span | .member _ _ span
  | .index _ _ span | .unary _ _ span | .binary _ _ _ span | .logical _ _ _ span
  | .conditional _ _ _ span => span

def joinBinary (op : BinaryOp) (left right : Expr) : Expr :=
  .binary op left right (left.span.merge right.span)

def joinLogical (op : LogicalOp) (left right : Expr) : Expr :=
  .logical op left right (left.span.merge right.span)

end Expr

end JsonStencil
