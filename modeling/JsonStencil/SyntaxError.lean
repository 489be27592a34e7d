import JsonStencil.Span

/-!
# Syntax errors

A source text is refused for a lexical fault or by the grammar. Only an unexpected end has no span.
-/

namespace JsonStencil

inductive LexicalFault where
  | unexpectedChar (c : Char) (suggestion : Option String)
  | unterminatedString
  | unterminatedTemplate
  | invalidNumber (text : String)
  | invalidEscape (c : Char)
  | nestedTooDeeply (limit : Nat)
  deriving DecidableEq, Repr

namespace LexicalFault

def message : LexicalFault → String
  | .unexpectedChar c none => "unexpected character '" ++ c.toString ++ "'"
  | .unexpectedChar c (some s) =>
    "unexpected character '" ++ c.toString ++ "' (did you mean '" ++ s ++ "'?)"
  | .unterminatedString => "unterminated string literal"
  | .unterminatedTemplate => "unterminated template literal"
  | .invalidNumber text => "invalid number: '" ++ text ++ "'"
  | .invalidEscape c => "invalid escape sequence: '\\" ++ c.toString ++ "'"
  | .nestedTooDeeply limit =>
    "template literal nested too deeply (limit " ++ toString limit ++ ")"

end LexicalFault

structure LexicalError where
  fault : LexicalFault
  span : Span
  deriving DecidableEq, Repr

inductive SyntaxError where
  | lexical (error : LexicalError)
  | unexpectedToken (expected found : String) (span : Span)
  | unexpectedEnd (expected : String) (context : Option String)
  | invalid (message : String) (span : Span)
  deriving DecidableEq, Repr

namespace SyntaxError

def span? : SyntaxError → Option Span
  | .lexical error => some error.span
  | .unexpectedToken _ _ span => some span
  | .unexpectedEnd _ _ => none
  | .invalid _ span => some span

def message : SyntaxError → String
  | .lexical error => error.fault.message
  | .unexpectedToken expected found _ => "expected " ++ expected ++ ", found " ++ found
  | .unexpectedEnd expected none => "unexpected end of input, expected " ++ expected
  | .unexpectedEnd expected (some context) =>
    "unexpected end of input while parsing " ++ context ++ ", expected " ++ expected
  | .invalid message _ => message

end SyntaxError

theorem map_eq_ok_iff {ε α β : Type} {f : α → β} {x : Except ε α} {b : β} :
    x.map f = .ok b ↔ ∃ a, x = .ok a ∧ f a = b := by
  cases x <;> simp [Except.map]

theorem bind_eq_ok_iff {ε α β : Type} {x : Except ε α} {f : α → Except ε β} {b : β} :
    x >>= f = .ok b ↔ ∃ a, x = .ok a ∧ f a = .ok b := by
  cases x <;> simp [bind, Except.bind]

theorem ok_bind {ε α β : Type} (a : α) (f : α → Except ε β) :
    (.ok a : Except ε α) >>= f = f a := rfl

end JsonStencil
