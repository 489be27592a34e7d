import JsonStencil.Json.Basic
import JsonStencil.Text.Hexadecimal

/-!
# Reading JSON

The reader takes any blanks between tokens and pairs of surrogate escapes. The last of several
values for one key counts, at the place of the first.
-/

namespace JsonStencil.Json

def isSpace (c : Char) : Bool := c = ' ' || c = '\n' || c = '\r' || c = '\t'

def skipSpace (cs : List Char) : List Char := cs.dropWhile isSpace

def isHighSurrogate (unit : Nat) : Bool := 0xd800 ≤ unit && unit < 0xdc00

def isLowSurrogate (unit : Nat) : Bool := 0xdc00 ≤ unit && unit < 0xe000

def shortEscape? : Char → Option Char
  | '"' => some '"'
  | '\\' => some '\\'
  | '/' => some '/'
  | 'b' => some '\x08'
  | 'f' => some '\x0c'
  | 'n' => some '\n'
  | 'r' => some '\r'
  | 't' => some '\t'
  | _ => none

def pairedChar (high low : Nat) : Char :=
  .ofNat (0x10000 + (high - 0xd800) * 0x400 + (low - 0xdc00))

def readString? : List Char → Option (List Char × List Char)
  | '"' :: rest => some ([], rest)
  | '\\' :: 'u' :: a :: b :: c :: d :: rest =>
    match readHex? [a, b, c, d] with
    | none => none
    | some unit =>
      if isHighSurrogate unit then
        match rest with
        | '\\' :: 'u' :: a :: b :: c :: d :: rest =>
          match readHex? [a, b, c, d] with
          | none => none
          | some low =>
            if isLowSurrogate low then
              (readString? rest).map fun (cs, rest) => (pairedChar unit low :: cs, rest)
            else none
        | _ => none
      else if isLowSurrogate unit then none
      else (readString? rest).map fun (cs, rest) => (Char.ofNat unit :: cs, rest)
  | '\\' :: c :: rest =>
    match shortEscape? c with
    | none => none
    | some e => (readString? rest).map fun (cs, rest) => (e :: cs, rest)
  | c :: rest =>
    if c.toNat < 0x20 then none else (readString? rest).map fun (cs, rest) => (c :: cs, rest)
  | [] => none

def isNumberChar (c : Char) : Bool :=
  c.isDigit || c = '-' || c = '+' || c = '.' || c = 'e' || c = 'E'

/-- Whether a point or an exponent follows the whole part of a number as the grammar asks. -/
def isNumberTail : List Char → Bool
  | '.' :: c :: _ => c.isDigit
  | c :: _ => c = 'e' || c = 'E'
  | [] => true

def readUnsigned? (negative : Bool) (cs : List Char) : Option Json :=
  let (whole, rest) := cs.span Char.isDigit
  if whole.isEmpty || (whole.head? = some '0' && 1 < whole.length) || !isNumberTail rest then none
  else if rest.isEmpty then some (ofWhole negative (Nat.ofDigitChars 10 whole 0))
  else match Decimal.read? cs with
    | none => none
    | some d =>
      if (d.toBinary64 negative).isFinite then some (.float (d.toBinary64 negative)) else none

def readNumber? : List Char → Option Json
  | '-' :: cs => readUnsigned? true cs
  | cs => readUnsigned? false cs

mutual

/-- Reads one document. The first argument bounds the number of steps. -/
def readValue? : Nat → List Char → Option (Json × List Char)
  | 0, _ => none
  | n + 1, cs =>
    match skipSpace cs with
    | 'n' :: 'u' :: 'l' :: 'l' :: rest => some (.null, rest)
    | 't' :: 'r' :: 'u' :: 'e' :: rest => some (.bool true, rest)
    | 'f' :: 'a' :: 'l' :: 's' :: 'e' :: rest => some (.bool false, rest)
    | '"' :: rest => (readString? rest).map fun (cs, rest) => (.string (.ofList cs), rest)
    | '[' :: rest =>
      match skipSpace rest with
      | ']' :: rest => some (.array [], rest)
      | rest => (readItems? n rest).map fun (items, rest) => (.array items, rest)
    | '{' :: rest =>
      match skipSpace rest with
      | '}' :: rest => some (.object [], rest)
      | rest =>
        (readEntries? n rest).map fun (pairs, rest) => (.object (Entries.ofPairs pairs), rest)
    | rest =>
      let (number, rest) := rest.span isNumberChar
      (readNumber? number).map fun json => (json, rest)

def readItems? : Nat → List Char → Option (List Json × List Char)
  | 0, _ => none
  | n + 1, cs =>
    match readValue? n cs with
    | none => none
    | some (item, rest) =>
      match skipSpace rest with
      | ']' :: rest => some ([item], rest)
      | ',' :: rest => (readItems? n rest).map fun (items, rest) => (item :: items, rest)
      | _ => none

def readEntries? : Nat → List Char → Option (List (String × Json) × List Char)
  | 0, _ => none
  | n + 1, cs =>
    match skipSpace cs with
    | '"' :: rest =>
      match readString? rest with
      | none => none
      | some (key, rest) =>
        match skipSpace rest with
        | ':' :: rest =>
          match readValue? n rest with
          | none => none
          | some (value, rest) =>
            match skipSpace rest with
            | '}' :: rest => some ([(.ofList key, value)], rest)
            | ',' :: rest =>
              (readEntries? n rest).map fun (pairs, rest) => ((.ofList key, value) :: pairs, rest)
            | _ => none
        | _ => none
    | _ => none

end

/-- Reads a text that is one document. Every step of the reader consumes a character, so the length
of the text bounds their number. -/
def read? (text : String) : Option Json :=
  let cs := text.toList
  match readValue? (cs.length + 1) cs with
  | some (json, rest) => if (skipSpace rest).isEmpty then some json else none
  | none => none

end JsonStencil.Json
