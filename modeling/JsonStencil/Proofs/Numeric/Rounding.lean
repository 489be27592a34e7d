import JsonStencil.Builtin
import JsonStencil.Proofs.Numeric.Nearest
import Mathlib.Algebra.Order.Round
import Mathlib.Data.Rat.Floor
import Mathlib.Tactic.Linarith
import Mathlib.Tactic.NormNum

/-!
# Rounding to whole numbers

Rounding to the nearest whole number adds one half, in numbers, and takes the floor. The sum is
rounded, which moves it over a whole number for the number right below one half and for the odd
whole numbers next to whole numbers only: there the outcome is one too large.
-/

namespace JsonStencil

attribute [local instance (high)] instPowNat

namespace Binary64

variable {q n : Nat} {negative : Bool}

theorem signed_false (n : Nat) : signed false n = n :=
  if_neg Bool.false_ne_true

theorem signed_true (n : Nat) : signed true n = -n :=
  if_pos rfl

section Values

theorem representable_half : Representable halfQuanta := by
  refine ⟨Nat.pow_lt_pow_right (by decide) (by decide), 1, fractionBits - 1, by decide, ?_⟩
  rw [Nat.one_mul, halfQuanta]

theorem half_eq : half = .finite false halfQuanta representable_half := by
  rw [half, one_eq, Nat.mul_comm]
  exact ofRatio_mul false representable_half (by decide)

theorem representable_roundQuanta (h : roundQuanta n 1 < overflow) :
    Representable (roundQuanta n 1) :=
  ⟨h, roundQuanta_significand n 1⟩

theorem ofQuanta_eq (negative : Bool) (h : roundQuanta n 1 < overflow) :
    ofQuanta negative n = .finite negative (roundQuanta n 1) (representable_roundQuanta h) := by
  rw [ofQuanta, ofRatio, dif_pos h]

theorem ofQuanta_zero (negative : Bool) : ofQuanta negative 0 = zero negative := by
  have hexact :=
    ofRatio_mul negative (representable_mul_one (Nat.two_pow_pos precision)) Nat.one_pos
  rw [Nat.mul_one] at hexact
  simp only [Nat.zero_mul] at hexact
  rw [ofQuanta, hexact, zero]

theorem wholeUnits_down (q : Nat) : wholeUnits false q = q / one := by
  rw [wholeUnits, if_neg Bool.false_ne_true]

theorem wholeUnits_up (q : Nat) : wholeUnits true q = (q + (one - 1)) / one := by
  rw [wholeUnits, if_pos rfl]

theorem wholeUnits_le (up : Bool) (h : q ≤ n * one) : wholeUnits up q ≤ n := by
  have hone := one_pos
  cases up with
  | true =>
    rw [wholeUnits_up]
    refine Nat.le_of_lt_succ (Nat.div_lt_of_lt_mul ?_)
    rw [Nat.mul_succ, Nat.mul_comm]
    omega
  | false =>
    rw [wholeUnits_down]
    exact Nat.div_le_of_le_mul (by rw [Nat.mul_comm]; exact h)

theorem representable_wholeUnits (up : Bool) (h : Representable q) :
    Representable (wholeUnits up q * one) := by
  by_cases hf : fractionBits ≤ excess q
  · obtain ⟨m, hm⟩ := exists_units h hf
    have hunits : wholeUnits up q = m := by
      rw [hm]
      cases up with
      | true => exact wholeUnits_units m
      | false => rw [wholeUnits_down, Nat.mul_div_cancel m one_pos]
    rw [hunits, ← hm]
    exact h
  · have hsmall : q ≤ 2 ^ (precision - 1) * one := by
      rw [two_pow_mul_one]
      exact Nat.le_trans (Nat.le_of_lt (lt_two_pow_excess q))
        (Nat.pow_le_pow_right (by decide) (by simp only [precision]; omega))
    have hle : wholeUnits up q ≤ 2 ^ (precision - 1) := wholeUnits_le up hsmall
    exact representable_mul_one (Nat.lt_of_le_of_lt hle (by decide))

theorem floor_finite (h : Representable q) : floor (.finite negative q h) =
    .finite negative (wholeUnits negative q * one) (representable_wholeUnits negative h) := by
  have hexact := ofRatio_mul negative (representable_wholeUnits negative h) Nat.one_pos
  rw [Nat.mul_one] at hexact
  rw [floor, ofQuanta, hexact]

end Values

section Sum

theorem roundQuanta_lt_overflow (hf : excess n ≤ fractionBits) : roundQuanta n 1 < overflow := by
  have hle : roundQuanta n 1 ≤ 2 ^ (precision + excess n) :=
    roundQuanta_le (Nat.le_of_lt (lt_two_pow_excess n)) (Nat.pow_dvd_pow 2 (Nat.le_add_left _ _))
  refine Nat.lt_of_le_of_lt hle (Nat.pow_lt_pow_right (by decide) ?_)
  simp only [precision, fractionBits] at hf ⊢
  omega

variable (h : Representable q)

include h

theorem roundQuanta_add_half_lt : roundQuanta (q + halfQuanta) 1 < overflow := by
  by_cases hq : halfQuanta ≤ q
  · cases excess_le_or_eq h hq with
    | inl hsmall => exact roundQuanta_lt_overflow hsmall
    | inr heq => exact heq.symm ▸ h.1
  · apply roundQuanta_lt_overflow
    have hsum : q + halfQuanta ≤ 2 * halfQuanta := by omega
    have hsucc := excess_le_succ hsum
    rw [excess_halfQuanta] at hsucc
    exact Nat.le_trans hsucc (by decide)

theorem roundQuanta_sub_half_lt : roundQuanta (q - halfQuanta) 1 < overflow :=
  Nat.lt_of_le_of_lt (roundQuanta_le (Nat.sub_le q halfQuanta)
    (Nat.dvd_trans (Nat.pow_dvd_pow 2 (excess_mono (Nat.sub_le q halfQuanta)))
      (two_pow_excess_dvd h))) h.1

end Sum

/-- Adding one half to the number takes its sum over a whole number. -/
def Crosses (negative : Bool) (q : Nat) : Prop :=
  negative = false ∧ q + halfStep = halfQuanta ∨ OddUnits q

/-- So many units are the whole part of the sum of the quanta and one half. -/
def WholeOfSum (units quanta : Int) : Prop :=
  units * one ≤ quanta + halfQuanta ∧ quanta + halfQuanta < (units + 1) * one

/-- The rounded sum has the whole part of the sum, or comes to the next unit. -/
def RoundsTo (negative : Bool) (q : Nat) (units : Int) : Prop :=
  (¬ Crosses negative q → WholeOfSum units (signed negative q)) ∧
    (Crosses negative q → WholeOfSum (units - 1) (signed negative q))

theorem wholeOfSum_div (q : Nat) : WholeOfSum ((q + halfQuanta) / one : Nat) q := by
  have hle := Nat.div_mul_le_self (q + halfQuanta) one
  have hlt := Nat.lt_div_mul_add (a := q + halfQuanta) one_pos
  constructor
  · exact_mod_cast hle
  · rw [Int.add_mul, Int.one_mul]
    exact_mod_cast hlt

theorem wholeOfSum_wholeUnits (hq : halfQuanta < q) :
    WholeOfSum (-(wholeUnits true (q - halfQuanta) : Nat)) (-(q : Int)) := by
  rw [wholeUnits_up]
  have hle := Nat.div_mul_le_self (q - halfQuanta + (one - 1)) one
  have hlt := Nat.lt_div_mul_add (a := q - halfQuanta + (one - 1)) one_pos
  have hone := one_pos
  generalize (q - halfQuanta + (one - 1)) / one = units at hle hlt
  constructor
  · rw [Int.neg_mul, ← Int.natCast_mul]
    omega
  · rw [Int.add_mul, Int.neg_mul, ← Int.natCast_mul]
    omega

theorem not_oddUnits_of_le (hq : q ≤ halfQuanta) : ¬ OddUnits q := by
  rintro ⟨m, -, hlo, -, hm⟩
  have hlt := halfQuanta_lt_one
  have hle : 1 * one ≤ m * one := Nat.mul_le_mul_right one (Nat.lt_of_le_of_lt (Nat.zero_le _) hlo)
  omega

theorem roundsTo_sum (h : Representable q) :
    RoundsTo false q (roundQuanta (q + halfQuanta) 1 / one : Nat) := by
  have hwhole := wholeOfSum_div q
  by_cases hq : q < halfQuanta
  · obtain ⟨hnear, hfar⟩ := roundQuanta_add_half_of_lt h hq
    have hzero : (q + halfQuanta) / one = 0 := Nat.div_eq_of_lt (by rw [one_eq]; omega)
    rw [hzero] at hwhole
    constructor
    · intro hc
      rw [Nat.div_eq_of_lt (hfar fun hstep => hc (.inl ⟨rfl, hstep⟩))]
      exact hwhole
    · intro hc
      have hstep : q + halfStep = halfQuanta := by
        cases hc with
        | inl hstep => exact hstep.2
        | inr hodd => exact absurd hodd (not_oddUnits_of_le (Nat.le_of_lt hq))
      rw [hnear hstep, Nat.div_self one_pos]
      exact hwhole
  · have hle := Nat.le_of_not_lt hq
    constructor
    · intro hc
      rw [div_roundQuanta_add_half h hle fun hodd => hc (.inr hodd)]
      exact hwhole
    · intro hc
      have hodd : OddUnits q := by
        cases hc with
        | inl hstep =>
          have hpos : 0 < halfStep := Nat.two_pow_pos _
          omega
        | inr hodd => exact hodd
      rw [div_roundQuanta_of_oddUnits hodd, Int.natCast_add, Int.natCast_one, Int.add_sub_cancel]
      exact hwhole

theorem roundsTo_difference (h : Representable q) (hq : halfQuanta < q) :
    RoundsTo true q (-(wholeUnits true (roundQuanta (q - halfQuanta) 1) : Nat)) := by
  have hwhole := wholeOfSum_wholeUnits hq
  constructor
  · intro hc
    rw [wholeUnits_sub_half h hq fun hodd => hc (.inr hodd)]
    exact hwhole
  · intro hc
    have hodd : OddUnits q := hc.resolve_left fun hstep => Bool.noConfusion hstep.1
    rw [wholeUnits_sub_half_of_oddUnits hodd, Int.natCast_add, Int.neg_add] at hwhole
    exact hwhole

theorem roundsTo_zero (hq : q ≤ halfQuanta) : RoundsTo true q 0 := by
  have hone := one_eq
  have hpos := halfQuanta_pos
  constructor
  · intro
    simp only [WholeOfSum, signed_true]
    omega
  · intro hc
    cases hc with
    | inl hstep => exact Bool.noConfusion hstep.1
    | inr hodd => exact absurd hodd (not_oddUnits_of_le hq)

/-- The exact value of a finite number. -/
def toRat : Binary64 → ℚ
  | .finite negative quanta _ => signed negative quanta / one
  | _ => 0

/-- The numbers that are taken too far: the one right below one half, and the odd whole numbers
next to whole numbers. -/
def RoundsAcross (x : Binary64) : Prop :=
  x.toRat = 1 / 2 - 1 / 2 ^ (54 : Nat) ∨
    ∃ n : ℤ, Odd n ∧ 2 ^ (52 : Nat) < |n| ∧ |n| < 2 ^ (53 : Nat) ∧ x.toRat = n

section Exact

theorem cast_one_pos : (0 : ℚ) < one := by exact_mod_cast one_pos

theorem toRat_units (negative : Bool) {m : Nat} (hm : Representable (m * one)) :
    toRat (.finite negative (m * one) hm) = signed negative m := by
  rw [toRat, signed_mul, Int.cast_mul, Int.cast_natCast, mul_div_cancel_right₀ _ cast_one_pos.ne']

theorem toRat_ofNat (hn : n < 2 ^ precision) : (ofNat n).toRat = n := by
  rw [ofNat_eq_finite hn, toRat_units, signed_false, Int.cast_natCast]

theorem one_div_two : (1 / 2 : ℚ) = halfQuanta / one := by
  have htwo : (one : ℚ) = 2 * halfQuanta := by exact_mod_cast one_eq
  rw [div_eq_div_iff two_ne_zero cast_one_pos.ne', htwo]
  ring

theorem toRat_add_half (h : Representable q) : toRat (.finite negative q h) + 1 / 2 =
    ((signed negative q + halfQuanta : ℤ) : ℚ) / one := by
  rw [toRat, one_div_two, ← add_div]
  push_cast
  rfl

theorem floor_toRat_add_half (negative : Bool) {r : ℤ} (h : Representable q)
    (hr : WholeOfSum r (signed negative q)) : ⌊toRat (.finite negative q h) + 1 / 2⌋ = r := by
  rw [toRat_add_half, Int.floor_eq_iff, le_div_iff₀ cast_one_pos, div_lt_iff₀ cast_one_pos]
  exact_mod_cast hr

theorem toRat_eq_intCast_iff (h : Representable q) (n : ℤ) :
    toRat (.finite negative q h) = n ↔ signed negative q = n * one := by
  rw [toRat, div_eq_iff cast_one_pos.ne']
  exact_mod_cast Iff.rfl

theorem one_div_two_pow : (1 / 2 ^ (54 : Nat) : ℚ) = halfStep / one := by
  have hstep : one = 2 ^ (54 : Nat) * halfStep := by
    rw [one, halfStep, two_pow_mul (c := fractionBits) (by decide)]
  have hpos : (halfStep : ℚ) ≠ 0 := Nat.cast_ne_zero.2 (Nat.two_pow_pos _).ne'
  have hpow : ((2 ^ (54 : Nat) : Nat) : ℚ) = 2 ^ (54 : Nat) := by norm_num
  rw [hstep, Nat.cast_mul, hpow, div_mul_eq_div_div_swap, div_self hpos]

theorem toRat_eq_below_half_iff (h : Representable q) :
    toRat (.finite negative q h) = 1 / 2 - 1 / 2 ^ (54 : Nat) ↔
      negative = false ∧ q + halfStep = halfQuanta := by
  have hlt : halfStep < halfQuanta := Nat.pow_lt_pow_right (by decide) (by decide)
  rw [one_div_two_pow, one_div_two, ← sub_div, toRat, div_left_inj' cast_one_pos.ne',
    ← Nat.cast_sub (Nat.le_of_lt hlt), ← Int.cast_natCast, Int.cast_inj]
  cases negative with
  | false =>
    simp only [signed_false, true_and]
    omega
  | true =>
    simp only [signed_true, Bool.true_eq_false, false_and, iff_false]
    omega

theorem oddUnits_iff (negative : Bool) (q : Nat) :
    OddUnits q ↔ ∃ n : ℤ, Odd n ∧ 2 ^ (52 : Nat) < |n| ∧ |n| < 2 ^ (53 : Nat) ∧
      signed negative q = n * one := by
  constructor
  · rintro ⟨m, hodd, hlo, hhi, hq⟩
    have habs : |signed negative m| = m := by rw [Int.abs_eq_natAbs, natAbs_signed]
    refine ⟨signed negative m, ?_, ?_, ?_, ?_⟩
    · rw [← Int.natAbs_odd, natAbs_signed]
      exact Nat.odd_iff.2 hodd
    · rw [habs]
      exact_mod_cast hlo
    · rw [habs]
      exact_mod_cast hhi
    · rw [hq, signed_mul]
  · rintro ⟨n, hodd, hlo, hhi, hn⟩
    rw [Int.abs_eq_natAbs] at hlo hhi
    refine ⟨n.natAbs, Nat.odd_iff.1 (Int.natAbs_odd.2 hodd), ?_, ?_, ?_⟩
    · exact_mod_cast hlo
    · exact_mod_cast hhi
    · rw [← natAbs_signed negative q, hn, Int.natAbs_mul, Int.natAbs_natCast]

theorem roundsAcross_finite (h : Representable q) :
    RoundsAcross (.finite negative q h) ↔ Crosses negative q := by
  simp only [RoundsAcross, Crosses, toRat_eq_below_half_iff, toRat_eq_intCast_iff]
  rw [oddUnits_iff negative q]

theorem nearest_of_floor {x : ℚ} {r : ℤ} {across : Prop} (hnot : ¬ across → ⌊x + 1 / 2⌋ = r)
    (hcross : across → ⌊x + 1 / 2⌋ = r - 1) :
    ((x - 1 / 2 < r ∧ r ≤ x + 1 / 2) ↔ ¬ across) ∧ (across → r = ⌊x + 1 / 2⌋ + 1) ∧
      ∀ n : ℤ, x = n → (r = n ↔ ¬ across) := by
  have hwhole : (x - 1 / 2 < r ∧ r ≤ x + 1 / 2) ↔ ¬ across := by
    have hfloor : (x - 1 / 2 < r ∧ r ≤ x + 1 / 2) ↔ ⌊x + 1 / 2⌋ = r := by
      rw [Int.floor_eq_iff]
      constructor
      · rintro ⟨hlo, hhi⟩
        exact ⟨hhi, by linarith⟩
      · rintro ⟨hlo, hhi⟩
        exact ⟨by linarith, hlo⟩
    rw [hfloor]
    constructor
    · intro heq hc
      have := hcross hc
      omega
    · exact hnot
  refine ⟨hwhole, fun hc => by rw [hcross hc, Int.sub_add_cancel], fun n hn => ?_⟩
  rw [← hwhole, hn]
  constructor
  · rintro rfl
    exact ⟨by linarith, by linarith⟩
  · rintro ⟨hlo, hhi⟩
    have hlt : n < r + 1 := by exact_mod_cast (by linarith : (n : ℚ) < r + 1)
    have hgt : r < n + 1 := by exact_mod_cast (by linarith : (r : ℚ) < n + 1)
    omega

end Exact

end Binary64

namespace Builtin

open Binary64

variable {q : Nat} {negative : Bool}

/-- The sum of a number and one half is a sum or a difference of quanta. -/
theorem finite_add_half (h : Representable q) : Binary64.finite negative q h + half =
    if negative ∧ halfQuanta < q then ofQuanta true (q - halfQuanta)
    else if negative then ofQuanta false (halfQuanta - q)
    else ofQuanta false (q + halfQuanta) := by
  have hpos := halfQuanta_pos
  change Binary64.add _ _ = _
  rw [half_eq, Binary64.add]
  cases negative with
  | false =>
    simp only [signed_false, Bool.false_eq_true, if_false, false_and]
    rw [if_neg (by omega), decide_eq_false (by omega), ← Int.natCast_add, Int.natAbs_natCast]
  | true =>
    simp only [signed_false, signed_true, if_true, true_and]
    by_cases hq : halfQuanta < q
    · have habs : (-(q : Int) + halfQuanta).natAbs = q - halfQuanta := by omega
      rw [if_pos hq, if_neg (by omega), decide_eq_true (by omega), habs]
    · have habs : (-(q : Int) + halfQuanta).natAbs = halfQuanta - q := by omega
      rw [if_neg hq, habs]
      split
      · rw [show halfQuanta - q = 0 by omega, ofQuanta_zero, Bool.and_false]
      · rw [decide_eq_false (by omega)]

/-- Rounding a number gives whole units, those of its sum with one half or one more. -/
theorem roundHalfUp_finite (negative : Bool) (h : Representable q) :
    ∃ (s : Bool) (m : Nat) (hm : Representable (m * one)),
      roundHalfUp (.finite negative q h) = .finite s (m * one) hm ∧
      RoundsTo negative q (signed s m) := by
  rw [roundHalfUp, finite_add_half h]
  cases negative with
  | false =>
    rw [if_neg (by simp), if_neg Bool.false_ne_true, ofQuanta_eq false (roundQuanta_add_half_lt h),
      floor_finite]
    refine ⟨false, _, _, rfl, ?_⟩
    rw [signed_false, wholeUnits_down]
    exact roundsTo_sum h
  | true =>
    by_cases hq : halfQuanta < q
    · rw [if_pos ⟨rfl, hq⟩, ofQuanta_eq true (roundQuanta_sub_half_lt h), floor_finite]
      refine ⟨true, _, _, rfl, ?_⟩
      rw [signed_true]
      exact roundsTo_difference h hq
    · have hle : halfQuanta - q ≤ halfQuanta := Nat.sub_le _ _
      have hsmall : roundQuanta (halfQuanta - q) 1 ≤ halfQuanta :=
        roundQuanta_le hle (Nat.dvd_trans (Nat.pow_dvd_pow 2 (excess_mono hle))
          (two_pow_excess_dvd representable_half))
      rw [if_neg fun hc => hq hc.2, if_pos rfl,
        ofQuanta_eq false (Nat.lt_of_le_of_lt hsmall representable_half.1), floor_finite]
      refine ⟨false, _, _, rfl, ?_⟩
      rw [signed_false, wholeUnits_down,
        Nat.div_eq_of_lt (Nat.lt_of_le_of_lt hsmall halfQuanta_lt_one)]
      exact roundsTo_zero (Nat.le_of_not_lt hq)

theorem representable_five_halves : Representable (5 * halfQuanta) := by
  refine ⟨?_, 5, fractionBits - 1, by decide, by rw [halfQuanta]⟩
  have hthree : Representable (3 * one) := representable_mul_one (by decide)
  have hlt := hthree.1
  rw [one_eq] at hlt
  omega

/-- A finite number is rounded to the nearest whole number, a half going up, unless it is taken too
far. Then the outcome is the next whole number, a whole number's successor among them. -/
theorem apply_round_nearest (v : Value) (hv : v.toNumber.isFinite) :
    ∃ (r : ℤ) (y : Binary64), apply .round [v] = .ok (.number y) ∧ y.isFinite ∧ y.toRat = r ∧
      ((v.toNumber.toRat - 1 / 2 < r ∧ r ≤ v.toNumber.toRat + 1 / 2) ↔
        ¬ v.toNumber.RoundsAcross) ∧
      (v.toNumber.RoundsAcross → r = ⌊v.toNumber.toRat + 1 / 2⌋ + 1) ∧
      ∀ n : ℤ, v.toNumber.toRat = n → (r = n ↔ ¬ v.toNumber.RoundsAcross) := by
  have happly : apply .round [v] = .ok (.number (roundHalfUp v.toNumber)) := rfl
  rw [happly]
  generalize v.toNumber = x at hv
  cases x with
  | nan => cases hv
  | infinity => cases hv
  | finite negative q h =>
    obtain ⟨s, m, hm, hround, hnot, hcross⟩ := roundHalfUp_finite negative h
    rw [← roundsAcross_finite h] at hnot hcross
    refine ⟨signed s m, _, rfl, hround ▸ rfl, by rw [hround, toRat_units], ?_⟩
    generalize signed s m = r at hnot hcross
    have hfloor (r : ℤ) := floor_toRat_add_half negative (r := r) h
    generalize Binary64.finite negative q h = x at hnot hcross hfloor
    have hnear : ¬ x.RoundsAcross → ⌊x.toRat + 1 / 2⌋ = r := fun hc => hfloor r (hnot hc)
    have hnext : x.RoundsAcross → ⌊x.toRat + 1 / 2⌋ = r - 1 := fun hc => hfloor _ (hcross hc)
    exact nearest_of_floor hnear hnext

theorem apply_round_nearest_half : ∃ y : Binary64,
    apply .round [.string "-2.5"] = .ok (.number y) ∧ y.isFinite ∧ y.toRat = -2 := by
  have hx : (Value.string "-2.5").toNumber =
      .finite true (5 * halfQuanta) representable_five_halves := by
    decide +kernel
  obtain ⟨r, y, happly, hfinite, hr, hnear, -, -⟩ :=
    apply_round_nearest (.string "-2.5") (hx ▸ rfl)
  have hvalue : (Value.string "-2.5").toNumber.toRat = -(5 / 2) := by
    have hhalf := one_div_two
    rw [hx, toRat, signed_true]
    push_cast
    rw [neg_div, mul_div_assoc, ← hhalf]
    norm_num
  have hacross : ¬ (Value.string "-2.5").toNumber.RoundsAcross := by
    rw [hx, roundsAcross_finite]
    rintro (hstep | ⟨m, -, -, -, hm⟩)
    · exact Bool.noConfusion hstep.1
    · rw [one_eq, Nat.mul_left_comm, ← Nat.mul_assoc] at hm
      have := Nat.eq_of_mul_eq_mul_right halfQuanta_pos hm
      omega
  obtain ⟨hlo, hhi⟩ := hnear.2 hacross
  rw [hvalue] at hlo hhi
  have hlt : -3 < r := by exact_mod_cast (by linarith : (-3 : ℚ) < r)
  have hle : r ≤ -2 := by exact_mod_cast (by linarith : (r : ℚ) ≤ -2)
  refine ⟨y, happly, hfinite, ?_⟩
  rw [hr, show r = -2 by omega]
  norm_num

theorem not_apply_round_nearest : ¬ ∃ (r : ℤ) (y : Binary64),
    apply .round [.number (.ofNat 4503599627370497)] = .ok (.number y) ∧ y.toRat = r ∧
      (Binary64.ofNat 4503599627370497).toRat - 1 / 2 < r ∧
      r ≤ (Binary64.ofNat 4503599627370497).toRat + 1 / 2 := by
  rintro ⟨r, y, happly, hr, -, hle⟩
  have hround : apply .round [.number (.ofNat 4503599627370497)] =
      .ok (.number (.ofNat 4503599627370498)) := by
    have hnumber : roundHalfUp (.ofNat 4503599627370497) = .ofNat 4503599627370498 := by
      decide +kernel
    rw [apply, single, ofNumber, Value.toNumber, hnumber]
  have hy : y = .ofNat 4503599627370498 := by
    rw [hround] at happly
    exact (Value.number.inj (Except.ok.inj happly)).symm
  rw [hy, toRat_ofNat (by decide)] at hr
  rw [toRat_ofNat (by decide), ← hr] at hle
  norm_num at hle

end Builtin
end JsonStencil
