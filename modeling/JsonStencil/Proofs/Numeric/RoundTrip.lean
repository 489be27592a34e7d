import JsonStencil.Numeric.Shortest
import Mathlib.Data.List.TakeDrop

/-!
# The text of a number reads back

A representable number of quanta is what rounding makes of any ratio that equals it. The shortest
decimal of a number is chosen among those that read back, and where the search finds none the exact
expansion stands. Its positional text is read as a decimal of the same value.
-/

namespace JsonStencil

attribute [local instance (high)] instPowNat

namespace Binary64

theorem natAbs_signed (negative : Bool) (n : Nat) : (signed negative n).natAbs = n := by
  cases negative <;> simp [signed]

theorem signed_natAbs (n : Int) : signed (n < 0) n.natAbs = n := by
  by_cases h : n < 0
  · simp only [signed, h, decide_true, if_true]
    omega
  · simp only [signed, h, decide_false, Bool.false_eq_true, if_false]
    omega

theorem signed_mul (negative : Bool) (n k : Nat) :
    signed negative (n * k) = signed negative n * k := by
  cases negative with
  | false => exact Int.natCast_mul n k
  | true => exact (congrArg Neg.neg (Int.natCast_mul n k)).trans (Int.neg_mul n k).symm

theorem roundDiv_mul {den : Nat} (hden : 0 < den) (q : Nat) : roundDiv (q * den) den = q := by
  simp [roundDiv, Nat.mul_div_cancel _ hden, hden]

theorem two_pow_excess_dvd {q : Nat} (h : Representable q) : 2 ^ excess q ∣ q := by
  obtain ⟨-, significand, scale, hs, rfl⟩ := h
  by_cases hzero : significand * 2 ^ scale = 0
  · rw [hzero]
    exact Nat.dvd_zero _
  · have hlt : significand * 2 ^ scale < 2 ^ (precision + scale) := by
      rw [Nat.pow_add]
      exact Nat.mul_lt_mul_of_pos_right hs (Nat.two_pow_pos scale)
    have hlog := (Nat.log2_lt hzero).2 hlt
    have hle : excess (significand * 2 ^ scale) ≤ scale := by
      unfold excess
      omega
    exact Nat.dvd_trans (Nat.pow_dvd_pow 2 hle) (Nat.dvd_mul_left _ _)

theorem roundQuanta_mul {q den : Nat} (h : Representable q) (hden : 0 < den) :
    roundQuanta (q * den) den = q := by
  obtain ⟨m, hm⟩ := two_pow_excess_dvd h
  have hpos : 0 < den * 2 ^ excess q := Nat.mul_pos hden (Nat.two_pow_pos _)
  have hnum : q * den = m * (den * 2 ^ excess q) := by
    conv => lhs; rw [hm]
    ac_rfl
  simp only [roundQuanta, Nat.mul_div_cancel _ hden]
  rw [hnum, roundDiv_mul hpos, Nat.mul_comm, ← hm]

theorem ofRatio_mul (negative : Bool) {q den : Nat} (h : Representable q) (hden : 0 < den) :
    ofRatio negative (q * den) den = .finite negative q h := by
  have hround := roundQuanta_mul h hden
  have hlt : roundQuanta (q * den) den < overflow := hround.symm ▸ h.1
  rw [ofRatio, dif_pos hlt]
  simp only [hround]

theorem ofDecimal_exact (negative : Bool) {q : Nat} (h : Representable q) (hq : q ≠ 0) :
    ofDecimal negative (q * 5 ^ fractionBits) (-fractionBits) = .finite negative q h := by
  have hfive : 0 < 5 ^ fractionBits := Nat.pow_pos (by decide)
  have hdigits : q * 5 ^ fractionBits ≠ 0 := Nat.mul_ne_zero hq (Nat.ne_of_gt hfive)
  have hlog : fractionBits ≤ (q * 5 ^ fractionBits).log2 := by
    rw [Nat.le_log2 hdigits]
    exact Nat.le_trans (Nat.pow_le_pow_left (by decide) fractionBits)
      (Nat.le_mul_of_pos_left _ (Nat.pos_of_ne_zero hq))
  have hten : (10 : Nat) ^ fractionBits = 5 ^ fractionBits * one := by
    rw [one, ← Nat.mul_pow]
  unfold ofDecimal
  rw [if_neg hdigits, if_neg (by omega), if_neg (by omega), Int.neg_neg, Int.toNat_natCast]
  have hnum : q * 5 ^ fractionBits * 10 ^ (-(fractionBits : Int)).toNat * one =
      q * 10 ^ fractionBits := by
    rw [Int.toNat_neg_natCast, Nat.pow_zero, Nat.mul_one, hten, Nat.mul_assoc]
  rw [hnum]
  exact ofRatio_mul negative h (Nat.pow_pos (by decide))

theorem toBinary64_of_decimalOfLength? {negative : Bool} {quanta n : Nat} {x : Binary64}
    {d : Decimal} (h : decimalOfLength? negative quanta x n = some d) :
    d.toBinary64 negative = x := by
  have hreads := List.find?_some h
  exact of_decide_eq_true hreads

/-- The shortest decimal of a number reads back as the number. -/
theorem toBinary64_shortest (negative : Bool) {quanta : Nat} (h : Representable quanta) :
    (shortest negative quanta (.finite negative quanta h)).toBinary64 negative =
      .finite negative quanta h := by
  unfold shortest
  split
  next hzero =>
    subst hzero
    rfl
  next hzero =>
    -- a decimal that is found was checked to read back, and the exact expansion needs no check
    cases hfound : (List.range 17).findSome? fun n =>
        decimalOfLength? negative quanta (.finite negative quanta h) (n + 1) with
    | none => exact ofDecimal_exact negative h hzero
    | some d =>
      obtain ⟨n, -, hn⟩ := List.exists_of_findSome?_eq_some hfound
      exact toBinary64_of_decimalOfLength? hn

theorem ofRatio_not (negative : Bool) (num den : Nat) :
    ofRatio (!negative) num den = (ofRatio negative num den).neg := by
  unfold ofRatio
  split <;> rfl

theorem ofDecimal_not (negative : Bool) (digits : Nat) (exponent : Int) :
    ofDecimal (!negative) digits exponent = (ofDecimal negative digits exponent).neg := by
  unfold ofDecimal
  repeat' split
  · rfl
  · rfl
  · rfl
  · exact ofRatio_not negative _ _

theorem ofDecimal_of_nonneg {negative : Bool} {digits : Nat} {exponent : Int}
    (hexp : 0 ≤ exponent) (h : (ofDecimal negative digits exponent).isFinite) :
    ofDecimal negative (digits * 10 ^ exponent.toNat) 0 = ofDecimal negative digits exponent := by
  unfold ofDecimal at h ⊢
  by_cases hzero : digits = 0
  · simp [hzero]
  · have hpow : 0 < 10 ^ exponent.toNat := Nat.pow_pos (by decide)
    have hne : digits * 10 ^ exponent.toNat ≠ 0 := Nat.mul_ne_zero hzero (Nat.ne_of_gt hpow)
    rw [if_neg hzero] at h ⊢
    by_cases hlarge : 400 < exponent
    · rw [if_pos hlarge] at h
      cases h
    · have hneg : (-exponent).toNat = 0 := by omega
      rw [if_neg hne, if_neg (by decide), if_neg (by omega), if_neg hlarge, if_neg (by omega), hneg]
      simp

end Binary64

namespace Decimal

theorem all_isDigit_toDigits (n : Nat) : ∀ c ∈ Nat.toDigits 10 n, c.isDigit :=
  fun _ => Nat.isDigit_of_mem_toDigits (by decide) (by decide)

theorem all_isDigit_padded (width n : Nat) : ∀ c ∈ padded width n, c.isDigit := by
  intro c hc
  rcases List.mem_append.1 hc with hc | hc
  · rw [(List.mem_replicate.1 hc).2]
    rfl
  · exact all_isDigit_toDigits n c hc

theorem length_padded {width n : Nat} (hw : 0 < width) (h : n < 10 ^ width) :
    (padded width n).length = width := by
  have := (Nat.length_toDigits_le_iff (by decide) hw).2 h
  simp only [padded, List.length_append, List.length_replicate]
  omega

theorem ofDigitChars_padded (width n : Nat) : Nat.ofDigitChars 10 (padded width n) 0 = n := by
  simp [padded, Nat.ofDigitChars_append]

theorem span_isDigit {ds cs : List Char} (hds : ∀ c ∈ ds, c.isDigit)
    (hcs : ∀ c ∈ cs.head?, c.isDigit = false) : (ds ++ cs).span Char.isDigit = (ds, cs) := by
  rw [List.span_eq_takeWhile_dropWhile, List.takeWhile_append_of_pos hds,
    List.dropWhile_append_of_pos hds]
  cases cs with
  | nil => simp
  | cons c cs => simp [hcs c rfl]

theorem read?_toDigits (n : Nat) : read? (Nat.toDigits 10 n) = some ⟨n, 0⟩ := by
  have hend : ∀ c ∈ [].head?, Char.isDigit c = false := nofun
  have hspan := span_isDigit (all_isDigit_toDigits n) hend
  rw [List.append_nil] at hspan
  have hne : (Nat.toDigits 10 n).isEmpty = false := by
    simp
  unfold read?
  rw [hspan]
  simp [splitFraction, hne, readExponent?]

theorem read?_fixed {places : Nat} (hp : 0 < places) (n : Nat) :
    read? (fixed places n) = some ⟨n, -places⟩ := by
  have hpow : 0 < 10 ^ places := Nat.pow_pos (by decide)
  have hspan := span_isDigit (all_isDigit_toDigits (n / 10 ^ places))
    (show ∀ c ∈ ('.' :: padded places (n % 10 ^ places)).head?, c.isDigit = false by simp)
  have hspan' := span_isDigit (all_isDigit_padded places (n % 10 ^ places))
    (show ∀ c ∈ [].head?, Char.isDigit c = false from nofun)
  rw [List.append_nil] at hspan'
  have hne : (Nat.toDigits 10 (n / 10 ^ places)).isEmpty = false := by
    simp
  have hlength := length_padded hp (Nat.mod_lt n hpow)
  have hdigits : Nat.ofDigitChars 10
      (Nat.toDigits 10 (n / 10 ^ places) ++ padded places (n % 10 ^ places)) 0 = n := by
    rw [Nat.ofDigitChars_append, Nat.ofDigitChars_ten_toDigits,
      Nat.ofDigitChars_eq_ofDigitChars_zero, hlength, ofDigitChars_padded]
    exact Nat.div_add_mod n _
  unfold read?
  rw [fixed, if_neg (Nat.ne_of_gt hp), hspan]
  dsimp only
  rw [splitFraction, hspan']
  simp [hne, readExponent?, hdigits, hlength]

/-- The positional text of a decimal that is no overflow reads as a decimal of the same value. -/
theorem exists_read?_positional {negative : Bool} {d : Decimal}
    (h : (d.toBinary64 negative).isFinite) :
    ∃ d', read? d.positional = some d' ∧ d'.toBinary64 negative = d.toBinary64 negative := by
  unfold positional
  split
  next hneg =>
    have hplaces : -(((-d.exponent).toNat : Nat) : Int) = d.exponent := by omega
    exact ⟨_, read?_fixed (by omega) d.digits, by rw [hplaces]⟩
  next hneg =>
    exact ⟨_, read?_toDigits _, Binary64.ofDecimal_of_nonneg (by omega) h⟩

theorem positional_chars (d : Decimal) :
    ∃ c cs, d.positional = c :: cs ∧ c.isDigit ∧ ∀ x ∈ cs, x.isDigit ∨ x = '.' := by
  have hstart (n : Nat) (back : List Char) (hback : ∀ x ∈ back, x.isDigit ∨ x = '.') :
      ∃ c cs, Nat.toDigits 10 n ++ back = c :: cs ∧ c.isDigit ∧ ∀ x ∈ cs, x.isDigit ∨ x = '.' := by
    have hdigits := all_isDigit_toDigits n
    cases hn : Nat.toDigits 10 n with
    | nil => exact absurd hn Nat.toDigits_ne_nil
    | cons c cs =>
      rw [hn] at hdigits
      refine ⟨c, cs ++ back, rfl, hdigits c List.mem_cons_self, fun x hx => ?_⟩
      rcases List.mem_append.1 hx with hx | hx
      · exact .inl (hdigits x (List.mem_cons_of_mem _ hx))
      · exact hback x hx
  have hwhole (n : Nat) := hstart n [] nofun
  simp only [List.append_nil] at hwhole
  unfold positional fixed
  split
  · split
    · exact hwhole _
    · refine hstart _ _ fun x hx => ?_
      rcases List.mem_cons.1 hx with rfl | hx
      · exact .inr rfl
      · exact .inl (all_isDigit_padded _ _ x hx)
  · exact hwhole _

end Decimal

namespace Binary64

/-- The magnitude of a finite number reads back from its shortest text. -/
theorem exists_read?_shortest (negative : Bool) {quanta : Nat} (h : Representable quanta) :
    ∃ d, Decimal.read? (shortest negative quanta (.finite negative quanta h)).positional = some d ∧
      d.toBinary64 false = .finite false quanta h := by
  have hshortest := toBinary64_shortest negative h
  obtain ⟨d, hd, hvalue⟩ := Decimal.exists_read?_positional
    (show (Decimal.toBinary64 negative _).isFinite by rw [hshortest]; rfl)
  refine ⟨d, hd, ?_⟩
  rw [hshortest] at hvalue
  cases negative with
  | false => exact hvalue
  | true =>
    have hnot := ofDecimal_not true d.digits d.exponent
    rw [Decimal.toBinary64] at hvalue ⊢
    rw [show false = !true from rfl, hnot, hvalue]
    rfl

end Binary64

end JsonStencil
