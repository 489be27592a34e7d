import JsonStencil.Numeric.Binary64

/-!
# Decimal notation

A decimal is a magnitude `digits * 10 ^ exponent`. It is written positionally or with an exponent,
and read by the grammar of a sign, digits with at most one point among them, and an exponent.
-/

namespace JsonStencil

attribute [local instance (high)] instPowNat

/-- The magnitude `digits * 10 ^ exponent`. -/
structure Decimal where
  digits : Nat
  exponent : Int
  deriving DecidableEq, Repr

namespace Decimal

/-- Moves up to `n` of the zeros that end the digits into the exponent. -/
def strip : Nat → Decimal → Decimal
  | 0, d => d
  | n + 1, d =>
    if d.digits ≠ 0 ∧ d.digits % 10 = 0 then strip n ⟨d.digits / 10, d.exponent + 1⟩ else d

def toBinary64 (negative : Bool) (d : Decimal) : Binary64 :=
  .ofDecimal negative d.digits d.exponent

def padded (width n : Nat) : List Char :=
  let ds := Nat.toDigits 10 n
  List.replicate (width - ds.length) '0' ++ ds

/-- The text of `n / 10 ^ places` with exactly that many places after the point. -/
def fixed (places n : Nat) : List Char :=
  if places = 0 then Nat.toDigits 10 n
  else Nat.toDigits 10 (n / 10 ^ places) ++ '.' :: padded places (n % 10 ^ places)

/-- The text without an exponent. -/
def positional (d : Decimal) : List Char :=
  if d.exponent < 0 then fixed (-d.exponent).toNat d.digits
  else Nat.toDigits 10 (d.digits * 10 ^ d.exponent.toNat)

def scientific (d : Decimal) : List Char :=
  match Nat.toDigits 10 d.digits with
  | [] => []
  | c :: cs =>
    let point := if cs.isEmpty then [] else '.' :: cs
    c :: point ++ 'e' :: (toString (d.exponent + cs.length)).toList

def splitSign : List Char → Bool × List Char
  | '-' :: cs => (true, cs)
  | '+' :: cs => (false, cs)
  | cs => (false, cs)

def readNat? (cs : List Char) : Option Nat :=
  if cs.isEmpty || !cs.all Char.isDigit then none else some (Nat.ofDigitChars 10 cs 0)

def readExponent? : List Char → Option Int
  | [] => some 0
  | c :: cs =>
    if c = 'e' ∨ c = 'E' then
      (readNat? (splitSign cs).2).map (Binary64.signed (splitSign cs).1)
    else none

def splitFraction : List Char → List Char × List Char
  | '.' :: cs => cs.span Char.isDigit
  | cs => ([], cs)

/-- Reads an unsigned decimal to the end of the text. A digit is needed on one side of the point. -/
def read? (cs : List Char) : Option Decimal :=
  let (whole, afterWhole) := cs.span Char.isDigit
  let (fraction, afterFraction) := splitFraction afterWhole
  if whole.isEmpty && fraction.isEmpty then none
  else (readExponent? afterFraction).map fun e =>
    ⟨Nat.ofDigitChars 10 (whole ++ fraction) 0, e - fraction.length⟩

end Decimal

namespace Binary64

/-- Reads a number: a decimal, or one of the words for infinity and not-a-number in any case, with
an optional sign. -/
def read? (cs : List Char) : Option Binary64 :=
  let (negative, body) := Decimal.splitSign cs
  let word := body.map Char.toLower
  if word = "inf".toList ∨ word = "infinity".toList then some (.infinity negative)
  else if word = "nan".toList then some .nan
  else (Decimal.read? body).map (Decimal.toBinary64 negative)

end Binary64

end JsonStencil
