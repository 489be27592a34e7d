import JsonStencil.Json.Basic
import JsonStencil.Text.Hexadecimal

/-!
# Writing JSON

The compact text of a document: no blanks, characters beyond ASCII as they are, and a point or an
exponent in every float.
-/

namespace JsonStencil.Json

def escapeChar (c : Char) : List Char :=
  match c with
  | '"' => ['\\', '"']
  | '\\' => ['\\', '\\']
  | '\n' => ['\\', 'n']
  | '\r' => ['\\', 'r']
  | '\t' => ['\\', 't']
  | '\x08' => ['\\', 'b']
  | '\x0c' => ['\\', 'f']
  | c => if c.toNat < 0x20 then '\\' :: 'u' :: fourHexDigits c.toNat else [c]

def quoted (s : String) : List Char := '"' :: s.toList.flatMap escapeChar ++ ['"']

mutual

def chars : Json → List Char
  | .null => "null".toList
  | .bool b => (toString b).toList
  | .integer n => (toString n).toList
  | .float x => x.floatChars
  | .string s => quoted s
  | .array [] => ['[', ']']
  | .array (item :: items) => '[' :: item.chars ++ itemsChars items
  | .object [] => ['{', '}']
  | .object ((key, value) :: entries) =>
    '{' :: quoted key ++ ':' :: value.chars ++ entriesChars entries

def itemsChars : List Json → List Char
  | [] => [']']
  | item :: items => ',' :: item.chars ++ itemsChars items

def entriesChars : List (String × Json) → List Char
  | [] => ['}']
  | (key, value) :: entries => ',' :: quoted key ++ ':' :: value.chars ++ entriesChars entries

end

def render (json : Json) : String := .ofList json.chars

end JsonStencil.Json
