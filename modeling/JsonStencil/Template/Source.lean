import JsonStencil.Template.Segment
import JsonStencil.Value.Basic

/-!
# Templates as expressions

The source text of the expression that builds a template's value. A text that is one placeholder
becomes its expression and any other text with placeholders a template literal. An object whose only
key starts with the sigil becomes a call, and one with a doubled sigil an object again.
-/

namespace JsonStencil

def maxTemplateDepth : Nat := 32

inductive CompileError where
  /-- A value that no source stands for, with the keys and positions that lead to it. -/
  | unsupported (kind : ValueKind) (path : List String)
  | tooDeep (limit : Nat)
  deriving DecidableEq, Repr

namespace CompileError

/-- A key or position in a path, in which a tilde is written `~0` and a slash `~1`. -/
def pathSegment (segment : String) : List Char :=
  '/' :: segment.toList.flatMap fun c =>
    if c = '~' then ['~', '0'] else if c = '/' then ['~', '1'] else [c]

def pathText (path : List String) : String := .ofList (path.flatMap pathSegment)

def message : CompileError → String
  | .unsupported kind [] => "value cannot be of type '" ++ kind.name ++ "'"
  | .unsupported kind path =>
    "value cannot be of type '" ++ kind.name ++ "' (at " ++ pathText path ++ ")"
  | .tooDeep limit => "template is nested deeper than " ++ toString limit ++ " levels"

end CompileError

namespace Template

def numberSource (x : Binary64) : List Char := x.text.toList

def escapeQuoted (c : Char) : List Char :=
  match c with
  | '\\' => ['\\', '\\']
  | '\'' => ['\\', '\'']
  | '\n' => ['\\', 'n']
  | '\r' => ['\\', 'r']
  | c => [c]

def quote (s : String) : List Char := '\'' :: s.toList.flatMap escapeQuoted ++ ['\'']

def escapeTemplate (c : Char) : List Char :=
  if c = '\\' ∨ c = '\x60' ∨ c = '$' then ['\\', c] else [c]

def partSource : Part Placeholder → List Char
  | .text s => s.toList.flatMap escapeTemplate
  | .hole p => '$' :: '{' :: p.source.toList ++ ['}']

/-- The source of a text: a string literal, which may name a property, or another expression. -/
inductive TextSource where
  | quoted (source : List Char)
  | computed (source : List Char)

def TextSource.chars : TextSource → List Char
  | .quoted source => source
  | .computed source => source

def templateLiteral (parts : List (Part Placeholder)) : List Char :=
  '\x60' :: parts.flatMap partSource ++ ['\x60']

def textSource (o : TemplateOptions) (s : String) : TextSource :=
  match segments o s with
  | [] => .quoted (quote "")
  | [.text t] => .quoted (quote t)
  | [.hole p] =>
    if p.spansWhole s then .computed p.source.toList else .computed (templateLiteral [.hole p])
  | parts => .computed (templateLiteral parts)

def keySource (o : TemplateOptions) (key : String) : List Char :=
  match textSource o key with
  | .quoted source => source
  | .computed source => '[' :: source ++ [']']

/-- What the only key of an object says about it. -/
inductive KeyRole where
  | property
  | call (name : List Char)
  | escaped (name : List Char)

def keyRole (o : TemplateOptions) (key : String) : KeyRole :=
  if o.sigil = "" then .property
  else match dropFront? o.sigil.toList key.toList with
    | none | some [] => .property
    | some name => if startsWith o.sigil.toList name then .escaped name else .call name

def commaSeparated (sources : List (List Char)) : List Char :=
  [',', ' '].intercalate sources

def entrySource (key value : List Char) : List Char := key ++ ':' :: ' ' :: value

def braced (source : List Char) : List Char := '{' :: ' ' :: source ++ [' ', '}']

mutual

/-- The source of a template below a path, which comes last key first, at a depth. -/
def source (o : TemplateOptions) (path : List String) (depth : Nat) (v : Value) :
    Except CompileError (List Char) :=
  if maxTemplateDepth < depth then .error (.tooDeep maxTemplateDepth)
  else match v with
    | .null => .ok "null".toList
    | .bool b => .ok (toString b).toList
    | .number x => .ok (numberSource x)
    | .string s => .ok (textSource o s).chars
    | .function _ => .error (.unsupported .function path.reverse)
    | .array items =>
      (itemSources o path depth 0 items).map fun sources => '[' :: commaSeparated sources ++ [']']
    | .object [(key, value)] =>
      match keyRole o key with
      | .property =>
        (source o (key :: path) (depth + 1) value).map fun s =>
          braced (entrySource (keySource o key) s)
      | .escaped name =>
        (source o (key :: path) (depth + 1) value).map fun s =>
          braced (entrySource (keySource o (.ofList name)) s)
      | .call name =>
        match value with
        | .array items =>
          (itemSources o (key :: path) (depth + 1) 0 items).map fun sources =>
            name ++ '(' :: commaSeparated sources ++ [')']
        | value => (source o (key :: path) (depth + 1) value).map fun s => name ++ '(' :: s ++ [')']
    | .object entries =>
      (entrySources o path depth entries).map fun sources => braced (commaSeparated sources)

/-- The sources of items from a position on, one level below a depth. -/
def itemSources (o : TemplateOptions) (path : List String) (depth position : Nat) :
    List Value → Except CompileError (List (List Char))
  | [] => .ok []
  | item :: items => do
    let s ← source o (toString position :: path) (depth + 1) item
    let rest ← itemSources o path depth (position + 1) items
    .ok (s :: rest)

def entrySources (o : TemplateOptions) (path : List String) (depth : Nat) :
    List (String × Value) → Except CompileError (List (List Char))
  | [] => .ok []
  | (key, value) :: entries => do
    let s ← source o (key :: path) (depth + 1) value
    let rest ← entrySources o path depth entries
    .ok (entrySource (keySource o key) s :: rest)

end

theorem source_of_deep {o : TemplateOptions} {path : List String} {depth : Nat}
    (h : maxTemplateDepth < depth) (v : Value) :
    source o path depth v = .error (.tooDeep maxTemplateDepth) := by
  rw [source.eq_def, if_pos h]

end Template

def Value.templateSource (o : TemplateOptions) (template : Value) : Except CompileError String :=
  (Template.source o [] 0 template).map .ofList

end JsonStencil
