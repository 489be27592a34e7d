import JsonStencil.Proofs.Numeric.RoundTrip

/-!
# Texts of floats

The text of a finite float is laid out from its shortest decimal: positionally, with a zero behind
the point of a whole number, or with an exponent. Each layout is read as a decimal of the same
value.
-/

namespace JsonStencil

attribute [local instance (high)] instPowNat

namespace Binary64

theorem roundDiv_mul_right {k : Nat} (hk : 0 < k) (num den : Nat) :
    roundDiv (num * k) (den * k) = roundDiv num den := by
  have htwice : 2 * (num % den * k) = 2 * (num % den) * k := (Nat.mul_assoc _ _ _).symm
  simp only [roundDiv, Nat.mul_div_mul_right _ _ hk, Nat.mul_mod_mul_right, htwice,
    Nat.mul_lt_mul_right hk]

theorem roundQuanta_mul_right {k : Nat} (hk : 0 < k) (num den : Nat) :
    roundQuanta (num * k) (den * k) = roundQuanta num den := by
  have hden : den * k * 2 ^ excess (num / den) = den * 2 ^ excess (num / den) * k :=
    Nat.mul_right_comm _ _ _
  simp only [roundQuanta, Nat.mul_div_mul_right _ _ hk, hden, roundDiv_mul_right hk]

theorem ofRatio_mul_right (negative : Bool) {k : Nat} (hk : 0 < k) (num den : Nat) :
    ofRatio negative (num * k) (den * k) = ofRatio negative num den := by
  simp only [ofRatio, roundQuanta_mul_right hk]

theorem ofDecimal_tenths (negative : Bool) (n : Nat) :
    ofDecimal negative (n * 10) (-1) = ofDecimal negative n 0 := by
  unfold ofDecimal
  by_cases hzero : n = 0
  · simp [hzero]
  · have hratio := ofRatio_mul_right negative (by decide : 0 < 10) (n * one) 1
    have htenths : n * 10 * 10 ^ (-1 : Int).toNat * one = n * one * 10 := by
      rw [show (-1 : Int).toNat = 0 from rfl, Nat.pow_zero, Nat.mul_one, Nat.mul_right_comm]
    have hunits : n * 10 ^ (0 : Int).toNat * one = n * one := by
      rw [Int.toNat_zero, Nat.pow_zero, Nat.mul_one]
    rw [if_neg (by omega), if_neg hzero, if_neg (by decide), if_neg (by omega), if_neg (by decide),
      if_neg (by omega), htenths, hunits]
    exact hratio

end Binary64

namespace Decimal

theorem digitChar_eq_zero : ∀ n < 10, Nat.digitChar n = '0' → n = 0 := by decide

theorem eq_zero_of_head?_toDigits {n : Nat} (h : (Nat.toDigits 10 n).head? = some '0') : n = 0 := by
  induction n using Nat.strongRecOn with
  | ind n ih =>
    rw [Nat.toDigits_eq_if (by decide)] at h
    split at h
    next hlt => exact digitChar_eq_zero n hlt (by simpa using h)
    next hge =>
      have hfront : (Nat.toDigits 10 (n / 10)).head? = some '0' := by
        cases hq : Nat.toDigits 10 (n / 10) with
        | nil => exact absurd hq Nat.toDigits_ne_nil
        | cons c cs =>
          rw [hq] at h
          exact h
      have hquotient := ih (n / 10) (by omega) hfront
      omega

/-- No zero stands in front of other digits. -/
theorem toDigits_of_head?_eq_zero {n : Nat} (h : (Nat.toDigits 10 n).head? = some '0') :
    Nat.toDigits 10 n = ['0'] := by
  rw [eq_zero_of_head?_toDigits h]
  rfl

theorem toList_toString_ofNat (n : Nat) : (toString (n : Int)).toList = Nat.toDigits 10 n :=
  Nat.toList_repr

theorem toList_toString_negSucc (n : Nat) :
    (toString (Int.negSucc n)).toList = '-' :: Nat.toDigits 10 (n + 1) := by
  have htext : toString (Int.negSucc n) = "-" ++ (n + 1).repr := rfl
  rw [htext, String.toList_append, Nat.toList_repr]
  rfl

theorem splitSign_toDigits (n : Nat) :
    splitSign (Nat.toDigits 10 n) = (false, Nat.toDigits 10 n) := by
  have hdigits := all_isDigit_toDigits n
  cases hn : Nat.toDigits 10 n with
  | nil => rfl
  | cons c cs =>
    have hc : c.isDigit := hdigits c (hn ▸ List.mem_cons_self)
    unfold splitSign
    split <;> simp_all

theorem readNat?_toDigits (n : Nat) : readNat? (Nat.toDigits 10 n) = some n := by
  have hall : (Nat.toDigits 10 n).all Char.isDigit = true :=
    List.all_eq_true.2 (all_isDigit_toDigits n)
  simp [readNat?, hall, Nat.ofDigitChars_ten_toDigits]

theorem readExponent?_toString (e : Int) : readExponent? ('e' :: (toString e).toList) = some e := by
  rw [readExponent?, if_pos (.inl rfl)]
  cases e with
  | ofNat n =>
    rw [Int.ofNat_eq_natCast, toList_toString_ofNat, splitSign_toDigits, readNat?_toDigits]
    rfl
  | negSucc n =>
    rw [toList_toString_negSucc, splitSign, readNat?_toDigits]
    rfl

section Read

variable {whole fraction tail : List Char} {e : Int}

theorem read?_whole (hwhole : ∀ c ∈ whole, c.isDigit) (hne : whole ≠ [])
    (htail : ∀ c ∈ tail.head?, c.isDigit = false ∧ c ≠ '.') (he : readExponent? tail = some e) :
    read? (whole ++ tail) = some ⟨Nat.ofDigitChars 10 whole 0, e⟩ := by
  have hfraction : splitFraction tail = ([], tail) := by
    unfold splitFraction
    split
    next => exact ((htail '.' rfl).2 rfl).elim
    next => rfl
  unfold read?
  rw [span_isDigit hwhole fun c hc => (htail c hc).1]
  simp [hfraction, hne, he]

theorem read?_point (hwhole : ∀ c ∈ whole, c.isDigit) (hne : whole ≠ [])
    (hfraction : ∀ c ∈ fraction, c.isDigit) (htail : ∀ c ∈ tail.head?, c.isDigit = false)
    (he : readExponent? tail = some e) :
    read? (whole ++ '.' :: (fraction ++ tail)) =
      some ⟨Nat.ofDigitChars 10 (whole ++ fraction) 0, e - fraction.length⟩ := by
  have hpoint : ∀ c ∈ ('.' :: (fraction ++ tail)).head?, c.isDigit = false := by
    intro c hc
    cases hc
    rfl
  unfold read?
  rw [span_isDigit hwhole hpoint]
  dsimp only
  rw [splitFraction, span_isDigit hfraction htail]
  simp [hne, he]

end Read

theorem read?_scientific (d : Decimal) : read? d.scientific = some d := by
  have hdigits := all_isDigit_toDigits d.digits
  have hvalue : Nat.ofDigitChars 10 (Nat.toDigits 10 d.digits) 0 = d.digits :=
    Nat.ofDigitChars_ten_toDigits
  unfold scientific
  cases hd : Nat.toDigits 10 d.digits with
  | nil => exact absurd hd Nat.toDigits_ne_nil
  | cons c cs =>
    rw [hd] at hdigits hvalue
    have hc : ∀ x ∈ [c], x.isDigit := by simpa using hdigits c List.mem_cons_self
    have hcs : ∀ x ∈ cs, x.isDigit := fun x hx => hdigits x (List.mem_cons_of_mem _ hx)
    have hexponent := readExponent?_toString (d.exponent + cs.length)
    cases cs with
    | nil =>
      have hread := read?_whole hc (List.cons_ne_nil _ _) (by simp) hexponent
      simpa [hvalue] using hread
    | cons c' cs =>
      have hread := read?_point hc (List.cons_ne_nil _ _) hcs (by simp) hexponent
      simpa [hvalue] using hread

theorem read?_tenths (n : Nat) :
    read? (Nat.toDigits 10 n ++ ".0".toList) = some ⟨n * 10, -1⟩ := by
  have hzero : ∀ c ∈ ['0'], Char.isDigit c := by simp
  have hend : ∀ c ∈ ([] : List Char).head?, c.isDigit = false := by simp
  have hread := read?_point (all_isDigit_toDigits n) Nat.toDigits_ne_nil hzero hend rfl
  have hvalue : Nat.ofDigitChars 10 (Nat.toDigits 10 n ++ ['0']) 0 = n * 10 := by
    rw [Nat.ofDigitChars_append, Nat.ofDigitChars_ten_toDigits, Nat.ofDigitChars_cons,
      Nat.ofDigitChars_nil]
    omega
  rw [hvalue] at hread
  exact hread

end Decimal

end JsonStencil
