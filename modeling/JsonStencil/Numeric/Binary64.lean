/-!
# Binary64 numbers

A finite number is a sign and a whole number of quanta, one quantum being `2 ^ (-1074)`, the
least positive binary64 number. Every operation computes on exact natural numbers and rounds
once, to the nearest representable number of quanta and to the even one at a tie.
-/

namespace JsonStencil

attribute [local instance (high)] instPowNat

/-- The quotient `num / den` rounded to the nearest natural number, a half going to the even one. -/
def roundDiv (num den : Nat) : Nat :=
  let q := num / den
  let twice := 2 * (num % den)
  if twice < den then q
  else if den < twice then q + 1
  else if q % 2 = 0 then q else q + 1

theorem roundDiv_le_succ (num den : Nat) : roundDiv num den ≤ num / den + 1 := by
  simp only [roundDiv]
  repeat' split
  all_goals omega

namespace Binary64

def precision : Nat := 53

/-- The number of bits that divide one unit into quanta. -/
def fractionBits : Nat := 1074

def one : Nat := 2 ^ fractionBits

/-- Numbers of quanta from here on are too large for a finite number. -/
def overflow : Nat := 2 ^ (fractionBits + 1024)

theorem one_pos : 0 < one := Nat.two_pow_pos fractionBits

theorem overflow_pos : 0 < overflow := Nat.two_pow_pos (fractionBits + 1024)

/-- A number of quanta fits a significand and lies below the overflow threshold. -/
def Representable (quanta : Nat) : Prop :=
  quanta < overflow ∧
    ∃ significand scale : Nat, significand < 2 ^ precision ∧ quanta = significand * 2 ^ scale

/-- The number of low bits that a significand of this size does not keep. -/
def excess (quanta : Nat) : Nat := quanta.log2 + 1 - precision

def roundQuanta (num den : Nat) : Nat :=
  let scale := excess (num / den)
  roundDiv num (den * 2 ^ scale) * 2 ^ scale

theorem lt_two_pow_excess (q : Nat) : q < 2 ^ (precision + excess q) := by
  have h : q < 2 ^ (q.log2 + 1) := Nat.lt_log2_self
  exact Nat.lt_of_lt_of_le h (Nat.pow_le_pow_right (by decide) (by simp only [excess]; omega))

theorem roundQuanta_significand (num den : Nat) :
    ∃ significand scale : Nat,
      significand < 2 ^ precision ∧ roundQuanta num den = significand * 2 ^ scale := by
  simp only [roundQuanta]
  generalize hs : excess (num / den) = s
  have hq : num / den < 2 ^ (precision + s) := hs ▸ lt_two_pow_excess _
  have hdiv : num / (den * 2 ^ s) < 2 ^ precision := by
    rw [← Nat.div_div_eq_div_mul]
    exact Nat.div_lt_of_lt_mul (by rwa [← Nat.pow_add, Nat.add_comm])
  have hle := roundDiv_le_succ num (den * 2 ^ s)
  by_cases h : roundDiv num (den * 2 ^ s) < 2 ^ precision
  · exact ⟨_, s, h, rfl⟩
  · refine ⟨1, precision + s, by decide, ?_⟩
    have : roundDiv num (den * 2 ^ s) = 2 ^ precision := by omega
    rw [this, ← Nat.pow_add, Nat.one_mul]

end Binary64

inductive Binary64 where
  | nan
  | infinity (negative : Bool)
  | finite (negative : Bool) (quanta : Nat) (representable : Binary64.Representable quanta)
  deriving DecidableEq

namespace Binary64

def zero (negative : Bool) : Binary64 :=
  .finite negative 0 ⟨overflow_pos, 0, 0, by decide, rfl⟩

instance : Inhabited Binary64 := ⟨zero false⟩

/-- The number nearest to `num / den` quanta, infinity when that is too large. -/
def ofRatio (negative : Bool) (num den : Nat) : Binary64 :=
  if h : roundQuanta num den < overflow then
    .finite negative (roundQuanta num den) ⟨h, roundQuanta_significand num den⟩
  else .infinity negative

def ofQuanta (negative : Bool) (quanta : Nat) : Binary64 := ofRatio negative quanta 1

def ofNat (n : Nat) : Binary64 := ofQuanta false (n * one)

def ofInt (n : Int) : Binary64 := ofQuanta (n < 0) (n.natAbs * one)

/-- The number nearest to `digits * 10 ^ exponent`. The first two guards answer as rounding would,
without building a power of ten that no binary64 number reaches. -/
def ofDecimal (negative : Bool) (digits : Nat) (exponent : Int) : Binary64 :=
  if digits = 0 then zero negative
  else if 400 < exponent then .infinity negative
  else if exponent < -(400 + digits.log2 + 1 : Int) then zero negative
  else ofRatio negative (digits * 10 ^ exponent.toNat * one) (10 ^ (-exponent).toNat)

def isNaN : Binary64 → Bool
  | .nan => true
  | _ => false

def isFinite : Binary64 → Bool
  | .finite .. => true
  | _ => false

def isZero : Binary64 → Bool
  | .finite _ 0 _ => true
  | _ => false

def isInteger : Binary64 → Bool
  | .finite _ quanta _ => quanta % one = 0
  | _ => false

def signed (negative : Bool) (quanta : Nat) : Int := if negative then -quanta else quanta

protected def neg : Binary64 → Binary64
  | .nan => .nan
  | .infinity negative => .infinity !negative
  | .finite negative quanta h => .finite (!negative) quanta h

protected def abs : Binary64 → Binary64
  | .nan => .nan
  | .infinity _ => .infinity false
  | .finite _ quanta h => .finite false quanta h

/-- Exact opposites add up to positive zero, and only two negative zeros to negative zero. -/
protected def add : Binary64 → Binary64 → Binary64
  | .nan, _ | _, .nan => .nan
  | .infinity s, .infinity t => if s = t then .infinity s else .nan
  | .infinity s, .finite .. | .finite .., .infinity s => .infinity s
  | .finite s p _, .finite t q _ =>
    let sum := signed s p + signed t q
    if sum = 0 then zero (s && t) else ofQuanta (sum < 0) sum.natAbs

protected def sub (x y : Binary64) : Binary64 := x.add y.neg

protected def mul : Binary64 → Binary64 → Binary64
  | .nan, _ | _, .nan => .nan
  | .infinity s, .infinity t => .infinity (s != t)
  | .infinity s, .finite t q _ | .finite t q _, .infinity s =>
    if q = 0 then .nan else .infinity (s != t)
  | .finite s p _, .finite t q _ => ofRatio (s != t) (p * q) one

protected def div : Binary64 → Binary64 → Binary64
  | .nan, _ | _, .nan => .nan
  | .infinity _, .infinity _ => .nan
  | .infinity s, .finite t _ _ => .infinity (s != t)
  | .finite s _ _, .infinity t => zero (s != t)
  | .finite s p _, .finite t q _ =>
    if q ≠ 0 then ofRatio (s != t) (p * one) q
    else if p = 0 then .nan else .infinity (s != t)

/-- The remainder of truncating division, with the sign of the dividend. -/
protected def rem : Binary64 → Binary64 → Binary64
  | .nan, _ | _, .nan | .infinity _, _ => .nan
  | x@(.finite ..), .infinity _ => x
  | .finite s p _, .finite _ q _ => if q = 0 then .nan else ofQuanta s (p % q)

instance : Neg Binary64 := ⟨Binary64.neg⟩
instance : Add Binary64 := ⟨Binary64.add⟩
instance : Sub Binary64 := ⟨Binary64.sub⟩
instance : Mul Binary64 := ⟨Binary64.mul⟩
instance : Div Binary64 := ⟨Binary64.div⟩
instance : Mod Binary64 := ⟨Binary64.rem⟩

/-- The integer part of a magnitude, rounded up if asked. -/
def wholeUnits (up : Bool) (quanta : Nat) : Nat :=
  if up then (quanta + (one - 1)) / one else quanta / one

def floor : Binary64 → Binary64
  | .finite s q _ => ofQuanta s (wholeUnits s q * one)
  | x => x

def ceil : Binary64 → Binary64
  | .finite s q _ => ofQuanta s (wholeUnits (!s) q * one)
  | x => x

def half : Binary64 := ofRatio false one 2

def compare? : Binary64 → Binary64 → Option Ordering
  | .nan, _ | _, .nan => none
  | .infinity s, .infinity t => some (compare (t : Bool) s)
  | .infinity s, .finite .. => some (if s then .lt else .gt)
  | .finite .., .infinity t => some (if t then .gt else .lt)
  | .finite s p _, .finite t q _ => some (compare (signed s p) (signed t q))

/-- Numeric equality: the zeros are equal and not-a-number equals nothing. -/
def equal (x y : Binary64) : Bool := x.compare? y = some .eq

def isLt (x y : Binary64) : Bool := x.compare? y = some .lt

/-- The integer part as an index: not-a-number and negative numbers give 0, and numbers from
`2 ^ 64` on the largest 64-bit index. -/
def toIndex : Binary64 → Nat
  | .nan | .infinity true | .finite true _ _ => 0
  | .infinity false => UInt64.size - 1
  | .finite false q _ => min (q / one) (UInt64.size - 1)

def toSafeInt? : Binary64 → Option Int
  | .finite s q _ =>
    if q % one = 0 ∧ q / one < 2 ^ precision then some (signed s (q / one)) else none
  | _ => none

end Binary64

end JsonStencil
