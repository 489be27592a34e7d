import JsonStencil.Numeric.Decimal
import JsonStencil.Text.Hexadecimal

/-!
# Words of TOML documents

Which words are numbers, truth values or dates. A single underscore may stand between two digits of
a number.
-/

namespace JsonStencil.Toml

/-- Removes the underscores between digits. -/
def digitsOnly? (digit : Char → Bool) : List Char → Option (List Char)
  | [] => none
  | [c] => if digit c then some [c] else none
  | c :: '_' :: cs => if digit c then (digitsOnly? digit cs).map (c :: ·) else none
  | c :: cs => if digit c then (digitsOnly? digit cs).map (c :: ·) else none

def isDigitBelow (base : Nat) (c : Char) : Bool := (hexDigit? c).any (· < base)

/-- The value of digits in a base, if they are digits and their number fits a signed 64-bit word. -/
def isCoded (base : Nat) (cs : List Char) : Bool :=
  match digitsOnly? (isDigitBelow base) cs with
  | none => false
  | some ds => ds.foldl (fun n d => base * n + (hexDigit? d).getD 0) 0 < UInt64.size / 2

def wholeDigits? (cs : List Char) : Option (List Char) :=
  match digitsOnly? Char.isDigit cs with
  | some ('0' :: _ :: _) => none
  | ds => ds

def isInteger (cs : List Char) : Bool :=
  match cs with
  | '0' :: 'x' :: ds => isCoded 16 ds
  | '0' :: 'o' :: ds => isCoded 8 ds
  | '0' :: 'b' :: ds => isCoded 2 ds
  | _ =>
    let (negative, body) := Decimal.splitSign cs
    match wholeDigits? body with
    | none => false
    | some ds => Nat.ofDigitChars 10 ds 0 < UInt64.size / 2 + negative.toNat

def isDigitOrBar (c : Char) : Bool := c.isDigit || c = '_'

/-- The exponent of a number up to the end of the word, empty for none. -/
def exponentDigits? : List Char → Option (List Char)
  | [] => some []
  | c :: cs =>
    if c = 'e' ∨ c = 'E' then
      (digitsOnly? Char.isDigit (Decimal.splitSign cs).2).map fun ds =>
        'e' :: (if (Decimal.splitSign cs).1 then ['-'] else []) ++ ds
    else none

/-- The digits behind a point, empty for none, and what follows them. -/
def fractionDigits? : List Char → Option (List Char × List Char)
  | '.' :: cs =>
    (digitsOnly? Char.isDigit (cs.takeWhile isDigitOrBar)).map fun ds =>
      ('.' :: ds, cs.dropWhile isDigitOrBar)
  | cs => some ([], cs)

/-- A number with a point or an exponent that is not too large, or a word for infinity or
not-a-number. -/
def isFloat (cs : List Char) : Bool :=
  let (negative, body) := Decimal.splitSign cs
  if body = "inf".toList ∨ body = "nan".toList then true
  else match wholeDigits? (body.takeWhile isDigitOrBar),
      fractionDigits? (body.dropWhile isDigitOrBar) with
    | some whole, some (fraction, rest) =>
      match exponentDigits? rest with
      | some exponent =>
        !(fraction.isEmpty && exponent.isEmpty) &&
          (Decimal.read? (whole ++ fraction ++ exponent)).any
            fun d => (d.toBinary64 negative).isFinite
      | none => false
    | _, _ => false

/-- A number of exactly `width` digits between two bounds, and what follows it. -/
def field? (width low high : Nat) (cs : List Char) : Option (Nat × List Char) :=
  match Decimal.readNat? (cs.take width) with
  | none => none
  | some n =>
    if cs.length < width ∨ n < low ∨ high < n then none else some (n, cs.drop width)

def expect? (c : Char) : List Char → Option (List Char)
  | [] => none
  | d :: cs => if c = d then some cs else none

def isLeapYear (year : Nat) : Bool := year % 4 = 0 && (year % 100 ≠ 0 || year % 400 = 0)

def daysInMonth (year month : Nat) : Nat :=
  if month = 2 then if isLeapYear year then 29 else 28
  else if month ∈ [4, 6, 9, 11] then 30
  else 31

def afterDay? (cs : List Char) : Option (List Char) := do
  let (year, cs) ← field? 4 0 9999 cs
  let cs ← expect? '-' cs
  let (month, cs) ← field? 2 1 12 cs
  let cs ← expect? '-' cs
  let (_, cs) ← field? 2 1 (daysInMonth year month) cs
  return cs

def afterTime? (cs : List Char) : Option (List Char) := do
  let (_, cs) ← field? 2 0 23 cs
  let cs ← expect? ':' cs
  let (_, cs) ← field? 2 0 59 cs
  let cs ← expect? ':' cs
  let (_, cs) ← field? 2 0 60 cs
  match cs with
  | '.' :: rest =>
    if (rest.takeWhile Char.isDigit).isEmpty then none else rest.dropWhile Char.isDigit
  | cs => cs

/-- Whether a text is empty or an offset from universal time. -/
def isOffset (cs : List Char) : Bool :=
  match cs with
  | [] => true
  | [c] => c = 'Z' || c = 'z'
  | c :: cs =>
    (c = '+' || c = '-') &&
      ((do
        let (_, cs) ← field? 2 0 23 cs
        let cs ← expect? ':' cs
        let (_, cs) ← field? 2 0 59 cs
        return cs) = some [])

def isDay (cs : List Char) : Bool := afterDay? cs = some []

def isDate (cs : List Char) : Bool :=
  afterTime? cs = some [] ||
    match afterDay? cs with
    | some [] => true
    | some (c :: rest) => (c = 'T' || c = 't' || c = ' ') && (afterTime? rest).any isOffset
    | none => false

def isTruth (cs : List Char) : Bool := cs = "true".toList || cs = "false".toList

end JsonStencil.Toml
