import JsonStencil.Numeric.Shortest
import JsonStencil.Span
import JsonStencil.Text.Part

/-!
# Tokens

The tokens of the expression language with the texts by which they are shown. A template literal
keeps the code between its braces as text with the span of that text.
-/

namespace JsonStencil

/-- Tokens with a fixed spelling that is no word. -/
inductive Symbol where
  | equal | strictEqual | notEqual | strictNotEqual
  | less | lessEqual | greater | greaterEqual
  | plus | minus | star | slash | percent | bang
  | andAnd | orOr | question | questionQuestion
  | leftBrace | rightBrace | leftBracket | rightBracket | leftParen | rightParen
  | dot | comma | colon
  deriving DecidableEq, Repr

namespace Symbol

def text : Symbol → String
  | .equal => "=="
  | .strictEqual => "==="
  | .notEqual => "!="
  | .strictNotEqual => "!=="
  | .less => "<"
  | .lessEqual => "<="
  | .greater => ">"
  | .greaterEqual => ">="
  | .plus => "+"
  | .minus => "-"
  | .star => "*"
  | .slash => "/"
  | .percent => "%"
  | .bang => "!"
  | .andAnd => "&&"
  | .orOr => "||"
  | .question => "?"
  | .questionQuestion => "??"
  | .leftBrace => "\x7b"
  | .rightBrace => "\x7d"
  | .leftBracket => "["
  | .rightBracket => "]"
  | .leftParen => "("
  | .rightParen => ")"
  | .dot => "."
  | .comma => ","
  | .colon => ":"

/-- Every symbol, longer spellings first. -/
def all : List Symbol :=
  [.strictEqual, .strictNotEqual,
   .equal, .notEqual, .lessEqual, .greaterEqual, .andAnd, .orOr, .questionQuestion,
   .less, .greater, .plus, .minus, .star, .slash, .percent, .bang, .question,
   .leftBrace, .rightBrace, .leftBracket, .rightBracket, .leftParen, .rightParen,
   .dot, .comma, .colon]

theorem mem_all (s : Symbol) : s ∈ all := by cases s <;> decide

/-- The longest symbol that a text starts with. -/
def ofFront? (cs : List Char) : Option Symbol :=
  all.find? fun s => startsWith s.text.toList cs

end Symbol

inductive Keyword where
  | true | false | null
  deriving DecidableEq, Repr

namespace Keyword

def text : Keyword → String
  | .true => "true"
  | .false => "false"
  | .null => "null"

def ofText? (word : String) : Option Keyword :=
  [Keyword.true, .false, .null].find? fun k => k.text = word

end Keyword

/-- The text of an expression in a template literal. -/
structure CodeText where
  source : String
  span : Span
  deriving DecidableEq

/-- A part of a template literal: decoded text, or code. -/
abbrev TemplateChunk := Part CodeText

inductive Token where
  | keyword (k : Keyword)
  | symbol (s : Symbol)
  | identifier (name : String)
  | string (s : String)
  | template (chunks : List TemplateChunk)
  | number (x : Binary64)
  deriving DecidableEq

namespace Token

def text : Token → String
  | .keyword k => k.text
  | .symbol s => s.text
  | .identifier name => name
  | .string s => "'" ++ s ++ "'"
  | .template _ => "`...`"
  | .number x => x.briefText

def describe : Token → String
  | .keyword k => "keyword '" ++ k.text ++ "'"
  | .symbol s => "'" ++ s.text ++ "'"
  | .identifier name => "identifier '" ++ name ++ "'"
  | .string s => "string '" ++ s ++ "'"
  | .template _ => "template literal"
  | .number x => "number " ++ x.briefText

end Token

/-- A token with the span of its spelling. -/
structure Lexeme where
  token : Token
  span : Span
  deriving DecidableEq

def CodeText.relocate (base : Span) (code : CodeText) : CodeText :=
  ⟨code.source, code.span.relocate base⟩

def Token.relocate (base : Span) : Token → Token
  | .template chunks => .template (chunks.map (Part.map (·.relocate base)))
  | t => t

/-- Moves a token of a part of a text into the whole text. -/
def Lexeme.relocate (base : Span) (l : Lexeme) : Lexeme :=
  ⟨l.token.relocate base, l.span.relocate base⟩

end JsonStencil
