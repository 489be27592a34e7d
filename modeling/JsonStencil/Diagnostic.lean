import JsonStencil.SyntaxError

/-!
# Rendering syntax errors

A rendered error names its place, quotes the line it starts on and puts carets below the characters
of its span.
-/

namespace JsonStencil

structure Diagnostic where
  message : String
  label : String
  span? : Option Span

namespace Diagnostic

def ofLexical (e : LexicalError) : Diagnostic := ⟨e.fault.message, "lexical error", some e.span⟩

def ofSyntax (e : SyntaxError) : Diagnostic := ⟨e.message, "parse error", e.span?⟩

def headline (message : String) : String := "error: " ++ message ++ "\n"

/-- The lines of a text. A carriage return belongs to the line feed behind it, and a line feed at
the end of the text starts no line. -/
def lines (cs : List Char) : List (List Char) :=
  let cut := splitOn ['\n'] cs
  let ended := cut.dropLast.map fun line =>
    if line.getLast? = some '\r' then line.dropLast else line
  let last := cut.getLast?.getD []
  if last.isEmpty then ended else ended ++ [last]

/-- How many columns a text takes, a tab taking four. -/
def width (cs : List Char) : Nat := cs.length + 3 * cs.count '\t'

/-- The carets for a span: one for each character of its byte range, and one if that is empty or no
part of the source. -/
def caretCount (source : List Char) (span : Span) : Nat :=
  ((byteRange? span.start span.stop source).map fun part => max part.length 1).getD 1

def row (numberWidth : Nat) (number text : String) : String :=
  let pad := String.ofList (List.replicate (numberWidth - number.length) ' ')
  " " ++ pad ++ number ++ " | " ++ text ++ "\n"

def quotation (source : List Char) (label : String) (span : Span) : String :=
  match if span.line = 0 then none else (lines source)[span.line - 1]? with
  | none => ""
  | some line =>
    let numberWidth := max 2 (toString (span.line + 1)).length
    let indent := List.replicate (width (line.take (span.column - 1))) ' '
    let carets := List.replicate (caretCount source span) '^'
    row numberWidth (toString span.line) (.ofList line) ++
      row numberWidth "" (.ofList (indent ++ carets) ++ " " ++ label)

def render (source : String) (d : Diagnostic) : String :=
  match d.span? with
  | none => headline d.message ++ "   | " ++ d.label ++ "\n"
  | some span =>
    headline d.message ++
      "  --> line " ++ toString span.line ++ ":" ++ toString span.column ++ "\n   |\n" ++
      quotation source.toList d.label span ++ "   |\n"

end Diagnostic

def SyntaxError.render (source : String) : SyntaxError → String
  | .lexical e => (Diagnostic.ofLexical e).render source
  | e => (Diagnostic.ofSyntax e).render source

end JsonStencil
