import JsonStencil.Numeric.Decimal
import JsonStencil.Outer.Pattern
import JsonStencil.Text.Hexadecimal
import JsonStencil.Value.Methods

/-!
# Reading patterns

The usual notation of regular expressions, without look-around, back-references and the properties
of Unicode. Flags in a group hold up to its end. A text that breaks the notation is no pattern. The
language that this makes is one that a host can supply, and no result is about it.
-/

namespace JsonStencil.Pattern

structure Flags where
  ignoreCase : Bool
  multiLine : Bool
  dotMatchesNewline : Bool
  deriving DecidableEq, Repr

namespace Flags

def initial : Flags := ⟨false, false, false⟩

/-- Sets or clears the flag with a letter. The flags for lazy repetition and for Unicode change
nothing. -/
def set? (flags : Flags) (on : Bool) : Char → Option Flags
  | 'i' => some { flags with ignoreCase := on }
  | 'm' => some { flags with multiLine := on }
  | 's' => some { flags with dotMatchesNewline := on }
  | 'U' => some flags
  | 'u' => if on then some flags else none
  | _ => none

end Flags

def caseSet (flags : Flags) (s : CharSet) : CharSet := if flags.ignoreCase then .anyCase s else s

def isEscapable (c : Char) : Bool :=
  c.toNat < 0x80 && !c.isAlphanum && c ≠ '<' && c ≠ '>'

/-- What an escape sequence or a plain character stands for. -/
inductive Atom where
  | literal (c : Char)
  | set (s : CharSet)
  | assertion (a : Assertion)

def readCode? (width : Nat) : List Char → Option (Char × List Char)
  | '{' :: cs =>
    match cs.dropWhile (· ≠ '}') with
    | '}' :: rest =>
      ((readHex? (cs.takeWhile (· ≠ '}'))).bind charOfNat?).map fun c => (c, rest)
    | _ => none
  | cs =>
    if cs.length < width then none
    else ((readHex? (cs.take width)).bind charOfNat?).map fun c => (c, cs.drop width)

def isBoundaryNameChar (c : Char) : Bool := c.isAlpha || c = '-'

/-- Reads the name in braces that may follow the escape of a word boundary. -/
def readBoundary? (cs : List Char) : Option (Assertion × List Char) :=
  match cs with
  | '{' :: c :: rest =>
    if isBoundaryNameChar c then
      match (c :: rest).dropWhile isBoundaryNameChar with
      | '}' :: after =>
        (match String.ofList ((c :: rest).takeWhile isBoundaryNameChar) with
          | "start" => some Assertion.wordStart
          | "end" => some .wordEnd
          | "start-half" => some .wordStartHalf
          | "end-half" => some .wordEndHalf
          | _ => none).map fun a => (a, after)
      | _ => none
    else some (.wordBoundary, cs)
  | _ => some (.wordBoundary, cs)

def readEscape? : List Char → Option (Atom × List Char)
  | [] => none
  | c :: cs =>
    match c with
    | 'x' => (readCode? 2 cs).map fun (c, rest) => (.literal c, rest)
    | 'u' => (readCode? 4 cs).map fun (c, rest) => (.literal c, rest)
    | 'U' => (readCode? 8 cs).map fun (c, rest) => (.literal c, rest)
    | 'd' => some (.set .digit, cs)
    | 'D' => some (.set (.complement .digit), cs)
    | 's' => some (.set .space, cs)
    | 'S' => some (.set (.complement .space), cs)
    | 'w' => some (.set .word, cs)
    | 'W' => some (.set (.complement .word), cs)
    | 'a' => some (.literal '\x07', cs)
    | 'f' => some (.literal '\x0c', cs)
    | 'n' => some (.literal '\n', cs)
    | 'r' => some (.literal '\r', cs)
    | 't' => some (.literal '\t', cs)
    | 'v' => some (.literal '\x0b', cs)
    | 'A' => some (.assertion .textStart, cs)
    | 'z' => some (.assertion .textEnd, cs)
    | 'B' => some (.assertion .noWordBoundary, cs)
    | '<' => some (.assertion .wordStart, cs)
    | '>' => some (.assertion .wordEnd, cs)
    | 'b' => (readBoundary? cs).map fun (a, rest) => (.assertion a, rest)
    | c => if isEscapable c then some (.literal c, cs) else none

/-! ## Bracketed sets -/

def readSetAtom? : List Char → Option (Atom × List Char)
  | [] => none
  | '\\' :: cs => readEscape? cs
  | c :: cs => some (.literal c, cs)

def setOfAtom? (flags : Flags) : Atom → Option CharSet
  | .literal c => some (caseSet flags (.single c))
  | .set s => some s
  | .assertion _ => none

/-- Reads a character, a range or an escaped set inside brackets. A hyphen before a bracket or
another hyphen makes no range. -/
def readRange? (flags : Flags) (cs : List Char) : Option (CharSet × List Char) := do
  let (first, rest) ← readSetAtom? cs
  match rest with
  | [] => none
  | '-' :: ']' :: _ | '-' :: '-' :: _ => return (← setOfAtom? flags first, rest)
  | '-' :: rest =>
    let (last, rest) ← readSetAtom? rest
    match first, last with
    | .literal a, .literal b => if a ≤ b then some (caseSet flags (.range a b), rest) else none
    | _, _ => none
  | rest => return (← setOfAtom? flags first, rest)

def ranges (pairs : List (Char × Char)) : CharSet :=
  pairs.foldl (fun s pair => .union s (.range pair.1 pair.2)) .none

def namedSet? : String → Option CharSet
  | "alnum" => some (ranges [('0', '9'), ('A', 'Z'), ('a', 'z')])
  | "alpha" => some (ranges [('A', 'Z'), ('a', 'z')])
  | "ascii" => some (ranges [('\x00', '\x7f')])
  | "blank" => some (ranges [('\t', '\t'), (' ', ' ')])
  | "cntrl" => some (ranges [('\x00', '\x1f'), ('\x7f', '\x7f')])
  | "digit" => some (ranges [('0', '9')])
  | "graph" => some (ranges [('!', '~')])
  | "lower" => some (ranges [('a', 'z')])
  | "print" => some (ranges [(' ', '~')])
  | "punct" => some (ranges [('!', '/'), (':', '@'), ('[', '\x60'), ('{', '~')])
  | "space" => some (ranges [('\t', '\r'), (' ', ' ')])
  | "upper" => some (ranges [('A', 'Z')])
  | "word" => some (ranges [('0', '9'), ('A', 'Z'), ('_', '_'), ('a', 'z')])
  | "xdigit" => some (ranges [('0', '9'), ('A', 'F'), ('a', 'f')])
  | _ => none

/-- Reads the rest of a named set such as `[:alpha:]` behind its bracket. -/
def readNamedSet? (flags : Flags) : List Char → Option (CharSet × List Char)
  | ':' :: cs =>
    let (negated, cs) := match cs with
      | '^' :: cs => (true, cs)
      | cs => (false, cs)
    match cs.dropWhile Char.isAlpha with
    | ':' :: ']' :: rest =>
      (namedSet? (.ofList (cs.takeWhile Char.isAlpha))).map fun s =>
        (if negated then .complement (caseSet flags s) else caseSet flags s, rest)
    | _ => none
  | _ => none

inductive SetOp where
  | inter | diff | symmDiff

def SetOp.apply : SetOp → CharSet → CharSet → CharSet
  | .inter, s, t => .inter s t
  | .diff, s, t => .diff s t
  | .symmDiff, s, t => .union (.diff s t) (.diff t s)

def closeOp (pending : Option (SetOp × CharSet)) (s : CharSet) : CharSet :=
  match pending with
  | none => s
  | some (op, left) => op.apply left s

/-- The members at the start of a bracketed set that have a meaning of their own further on:
hyphens, and a closing bracket if nothing is before it. -/
def leadingMembers (cs : List Char) : CharSet × List Char :=
  match cs with
  | '-' :: _ => (.single '-', cs.dropWhile (· = '-'))
  | ']' :: rest => (.single ']', rest)
  | _ => (.none, cs)

/-- Reads the rest of a bracketed set behind what was read of it, in `n` steps at most. -/
def readSet? (flags : Flags) : Nat → Option (SetOp × CharSet) → CharSet → List Char →
    Option (CharSet × List Char)
  | 0, _, _, _ => none
  | n + 1, pending, s, cs =>
    match cs with
    | [] => none
    | ']' :: rest => some (closeOp pending s, rest)
    | '&' :: '&' :: rest => readSet? flags n (some (.inter, closeOp pending s)) .none rest
    | '-' :: '-' :: rest => readSet? flags n (some (.diff, closeOp pending s)) .none rest
    | '~' :: '~' :: rest => readSet? flags n (some (.symmDiff, closeOp pending s)) .none rest
    | '[' :: rest =>
      match readNamedSet? flags rest with
      | some (named, rest) => readSet? flags n pending (.union s named) rest
      | none =>
        let (negated, rest) := match rest with
          | '^' :: rest => (true, rest)
          | rest => (false, rest)
        let (leading, rest) := leadingMembers rest
        match readSet? flags n none leading rest with
        | none => none
        | some (inner, rest) =>
          readSet? flags n pending (.union s (if negated then .complement inner else inner)) rest
    | cs =>
      match readRange? flags cs with
      | none => none
      | some (range, rest) => readSet? flags n pending (.union s range) rest

/-! ## Repetition and groups -/

def readCount? (cs : List Char) : Option (Nat × List Char) :=
  let digits := cs.dropWhile isBlank
  match Decimal.readNat? (digits.takeWhile Char.isDigit) with
  | none => none
  | some n =>
    if n < UInt32.size then some (n, (digits.dropWhile Char.isDigit).dropWhile isBlank) else none

def readCounts? (cs : List Char) : Option ((Nat × Option Nat) × List Char) := do
  let (min, rest) ← readCount? cs
  match rest with
  | '}' :: rest => some ((min, some min), rest)
  | ',' :: '}' :: rest => some ((min, none), rest)
  | ',' :: rest =>
    let (max, rest) ← readCount? rest
    match rest with
    | '}' :: rest => if min ≤ max then some ((min, some max), rest) else none
    | _ => none
  | _ => none

def dropLazy : List Char → List Char
  | '?' :: rest => rest
  | rest => rest

/-- Reads flags up to a colon or a closing parenthesis, which stay. A flag may occur only once, and
after a minus at least one follows. -/
def readFlags? (flags : Flags) (on : Bool) (seen : List Char) : List Char →
    Option (Flags × List Char)
  | [] => none
  | '-' :: rest => if on then readFlags? flags false ('-' :: seen) rest else none
  | c :: rest =>
    if c = ':' ∨ c = ')' then
      if seen.head? = some '-' then none else some (flags, c :: rest)
    else if c ∈ seen then none
    else match flags.set? on c with
      | none => none
      | some flags => readFlags? flags on (c :: seen) rest

def isGroupNameChar (c : Char) : Bool :=
  c = '_' || c = '.' || c = '[' || c = ']' || isAlphabetic c || isNumeric c

def readGroupName? (cs : List Char) : Option (List Char) :=
  match cs.head?, cs.dropWhile isGroupNameChar with
  | some c, '>' :: rest => if isAlphabetic c || c = '_' then some rest else none
  | _, _ => none

inductive Opening where
  /-- A group with the flags that hold in it. -/
  | group (flags : Flags)
  /-- Flags for the rest of the group around it. -/
  | setting (flags : Flags)

def readOpening? (flags : Flags) : List Char → Option (Opening × List Char)
  | '?' :: 'P' :: '<' :: rest => (readGroupName? rest).map fun rest => (.group flags, rest)
  | '?' :: '<' :: rest => (readGroupName? rest).map fun rest => (.group flags, rest)
  | '?' :: ')' :: _ => none
  | '?' :: rest =>
    match readFlags? flags true [] rest with
    | some (flags, ':' :: rest) => some (.group flags, rest)
    | some (flags, ')' :: rest) => some (.setting flags, rest)
    | _ => none
  | rest => some (.group flags, rest)

def joinParts (parts : List (Option Pattern)) : Pattern :=
  parts.foldl (fun q p => match p with
    | none => q
    | some p => .sequence p q) .empty

def joinBranches (branches : Option Pattern) (parts : List (Option Pattern)) : Pattern :=
  match branches with
  | none => joinParts parts
  | some p => .choice p (joinParts parts)

def dotSet (flags : Flags) : CharSet :=
  if flags.dotMatchesNewline then .complement .none else .complement (.single '\n')

def patternOfAtom (flags : Flags) : Atom → Pattern
  | .literal c => .set (caseSet flags (.single c))
  | .set s => .set s
  | .assertion a => .assertion a

/-- Reads branches up to the end of the group or of the text, in `n` steps at most. The parts of the
current branch come last one first, with nothing for a setting of flags, which cannot be
repeated. -/
def readBranches? : Nat → Flags → Option Pattern → List (Option Pattern) → List Char →
    Option (Pattern × List Char)
  | 0, _, _, _, _ => none
  | n + 1, flags, branches, parts, cs =>
    let repeated (min : Nat) (max : Option Nat) (rest : List Char) :=
      match parts with
      | some p :: parts =>
        readBranches? n flags branches (some (.repeated p min max) :: parts) (dropLazy rest)
      | _ => none
    match cs with
    | [] => some (joinBranches branches parts, [])
    | ')' :: _ => some (joinBranches branches parts, cs)
    | '|' :: rest => readBranches? n flags (some (joinBranches branches parts)) [] rest
    | '*' :: rest => repeated 0 none rest
    | '+' :: rest => repeated 1 none rest
    | '?' :: rest => repeated 0 (some 1) rest
    | '{' :: rest =>
      match readCounts? rest with
      | none => none
      | some ((min, max), rest) => repeated min max rest
    | '(' :: rest =>
      match readOpening? flags rest with
      | none => none
      | some (.setting flags, rest) => readBranches? n flags branches (none :: parts) rest
      | some (.group inner, rest) =>
        match readBranches? n inner none [] rest with
        | some (p, ')' :: rest) => readBranches? n flags branches (some p :: parts) rest
        | _ => none
    | '[' :: rest =>
      let (negated, rest) := match rest with
        | '^' :: rest => (true, rest)
        | rest => (false, rest)
      let (leading, rest) := leadingMembers rest
      match readSet? flags n none leading rest with
      | none => none
      | some (s, rest) =>
        let s := if negated then .complement s else s
        readBranches? n flags branches (some (.set s) :: parts) rest
    | '.' :: rest => readBranches? n flags branches (some (.set (dotSet flags)) :: parts) rest
    | '^' :: rest =>
      let a := if flags.multiLine then Assertion.lineStart else .textStart
      readBranches? n flags branches (some (.assertion a) :: parts) rest
    | '$' :: rest =>
      let a := if flags.multiLine then Assertion.lineEnd else .textEnd
      readBranches? n flags branches (some (.assertion a) :: parts) rest
    | '\\' :: rest =>
      match readEscape? rest with
      | none => none
      | some (atom, rest) =>
        readBranches? n flags branches (some (patternOfAtom flags atom) :: parts) rest
    | c :: rest =>
      readBranches? n flags branches (some (patternOfAtom flags (.literal c)) :: parts) rest

def read? (text : String) : Option Pattern :=
  match readBranches? (text.length + 1) .initial none [] text.toList with
  | some (p, []) => some p
  | _ => none

def language : PatternLanguage := fun text =>
  match read? text with
  | some p => .ok p.matchesIn
  | none => .error "regex parse error"

end JsonStencil.Pattern
