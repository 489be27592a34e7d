import JsonStencil.Numeric.Decimal

/-!
# Decimal texts of binary64 numbers

The shortest decimal of a number has the fewest digits among those that read back as the number,
and lies nearest to it among these. The texts of numbers are laid out from it. A text with a given
number of places is rounded from the exact value instead.
-/

namespace JsonStencil.Binary64

attribute [local instance (high)] instPowNat

/-- The `k` with `10 ^ (k - 1) ≤ quanta / one < 10 ^ k`, for a positive number of quanta. -/
def decimalScale (quanta : Nat) : Int :=
  (Nat.toDigits 10 (quanta * 10 ^ (330 : Nat) / one)).length - 330

/-- Numerator and denominator of a number of quanta measured in units of `10 ^ exponent`. -/
def inUnitsOf (exponent : Int) (quanta : Nat) : Nat × Nat :=
  (quanta * 10 ^ (-exponent).toNat, one * 10 ^ exponent.toNat)

/-- The decimal with `n` digits that reads back as the number, the nearer one if both neighbours of
the number do and the larger one at a tie. -/
def decimalOfLength? (negative : Bool) (quanta : Nat) (x : Binary64) (n : Nat) : Option Decimal :=
  let exponent := decimalScale quanta - n
  let (num, den) := inUnitsOf exponent quanta
  let lower := Decimal.strip n ⟨num / den, exponent⟩
  let upper := Decimal.strip n ⟨num / den + 1, exponent⟩
  let nearestFirst := if 2 * (num % den) < den then [lower, upper] else [upper, lower]
  nearestFirst.find? fun d => d.toBinary64 negative = x

/-- The shortest decimal of a magnitude. Seventeen digits always suffice; the exact expansion closes
the search. -/
def shortest (negative : Bool) (quanta : Nat) (x : Binary64) : Decimal :=
  if quanta = 0 then ⟨0, 0⟩
  else ((List.range 17).findSome? fun n => decimalOfLength? negative quanta x (n + 1)).getD
    ⟨quanta * 5 ^ fractionBits, -fractionBits⟩

def signChars (negative : Bool) (cs : List Char) : List Char := if negative then '-' :: cs else cs

/-- The text of a finite number without an exponent, or a given name for infinity. -/
def chars (infinityName : String) : Binary64 → List Char
  | .nan => "NaN".toList
  | .infinity negative => signChars negative infinityName.toList
  | x@(.finite negative quanta _) => signChars negative (shortest negative quanta x).positional

def text (x : Binary64) : String := .ofList (x.chars "Infinity")

def briefText (x : Binary64) : String := .ofList (x.chars "inf")

def display (x : Binary64) : String := if x.isZero then "0" else x.text

/-- The text with a given number of places, rounded from the exact value to the nearest and at a
tie to the even last digit. -/
def fixed (places : Nat) : Binary64 → String
  | .finite negative quanta _ =>
    .ofList (signChars negative (Decimal.fixed places (roundDiv (quanta * 10 ^ places) one)))
  | x => x.text

/-- The text of a finite number in which a point or an exponent always occurs. Exponents are used
from `10 ^ 16` on and below `10 ^ (-5)`. -/
def floatChars : Binary64 → List Char
  | x@(.finite negative quanta _) =>
    let d := shortest negative quanta x
    let scale : Int := d.exponent + (Nat.toDigits 10 d.digits).length
    signChars negative <|
      if scale ≤ -5 ∨ 16 < scale then d.scientific
      else if d.exponent < 0 then d.positional
      else d.positional ++ ".0".toList
  | _ => "null".toList

end JsonStencil.Binary64
