import JsonStencil.Json.Reader
import JsonStencil.Json.Writer
import JsonStencil.Proofs.Numeric.FloatText

/-!
# Numbers of documents

An integer is written in digits only, and a float with a point or an exponent behind them. Both are
read as what they were, in front of anything that is no part of a number.
-/

namespace JsonStencil

namespace Json

open Binary64 (signChars)
open Decimal (all_isDigit_toDigits toDigits_of_head?_eq_zero)

attribute [local instance (high)] instPowNat

/-- Digits, of which none but a single one is a zero in front, and then a point or an exponent. -/
def IsFloatText (cs : List Char) : Prop :=
  ∃ whole tail, cs = whole ++ tail ∧ (∀ c ∈ whole, c.isDigit) ∧ whole ≠ [] ∧
    (whole.head? = some '0' → whole = ['0']) ∧ tail ≠ [] ∧ isNumberTail tail

theorem not_isDigit_of_isNumberTail {tail : List Char} (h : isNumberTail tail) :
    ∀ c ∈ tail.head?, c.isDigit = false := by
  intro c hc
  unfold isNumberTail at h
  split at h
  next =>
    cases hc
    rfl
  next =>
    cases hc
    simp only [Bool.or_eq_true, decide_eq_true_eq] at h
    rcases h with rfl | rfl <;> rfl
  next => cases hc

theorem isFloatText_fixed {places : Nat} (hp : 0 < places) (n : Nat) :
    IsFloatText (Decimal.fixed places n) := by
  have hpadded := Decimal.all_isDigit_padded places (n % 10 ^ places)
  have hlength := Decimal.length_padded hp (Nat.mod_lt n (Nat.pow_pos (by decide : 0 < 10)))
  refine ⟨Nat.toDigits 10 (n / 10 ^ places), '.' :: Decimal.padded places (n % 10 ^ places),
    by rw [Decimal.fixed, if_neg (Nat.ne_of_gt hp)], all_isDigit_toDigits _, Nat.toDigits_ne_nil,
    toDigits_of_head?_eq_zero, List.cons_ne_nil _ _, ?_⟩
  cases hcs : Decimal.padded places (n % 10 ^ places) with
  | nil =>
    rw [hcs, List.length_nil] at hlength
    omega
  | cons c cs =>
    rw [hcs] at hpadded
    exact hpadded c List.mem_cons_self

theorem isFloatText_tenths (n : Nat) : IsFloatText (Nat.toDigits 10 n ++ ".0".toList) :=
  ⟨_, _, rfl, all_isDigit_toDigits n, Nat.toDigits_ne_nil, toDigits_of_head?_eq_zero, by decide,
    rfl⟩

theorem isFloatText_scientific (d : Decimal) : IsFloatText d.scientific := by
  have hdigits := all_isDigit_toDigits d.digits
  unfold Decimal.scientific
  cases hd : Nat.toDigits 10 d.digits with
  | nil => exact absurd hd Nat.toDigits_ne_nil
  | cons c cs =>
    rw [hd] at hdigits
    have hc : ∀ x ∈ [c], x.isDigit := by simpa using hdigits c List.mem_cons_self
    refine ⟨[c], _, rfl, hc, List.cons_ne_nil _ _, by simp, by simp, ?_⟩
    cases cs with
    | nil => rfl
    | cons c' cs => exact hdigits c' (by simp)

/-- A text of digits, signs, points and exponent marks. -/
def IsNumberText (cs : List Char) : Prop := ∀ c ∈ cs, isNumberChar c

section NumberText

variable {cs ds : List Char}

theorem isNumberText_of_isDigit (h : ∀ c ∈ cs, c.isDigit) : IsNumberText cs := by
  intro c hc
  simp [isNumberChar, h c hc]

theorem IsNumberText.append (h : IsNumberText cs) (h' : IsNumberText ds) :
    IsNumberText (cs ++ ds) := List.forall_mem_append.2 ⟨h, h'⟩

theorem IsNumberText.cons {c : Char} (hc : isNumberChar c) (h : IsNumberText cs) :
    IsNumberText (c :: cs) := List.forall_mem_cons.2 ⟨hc, h⟩

theorem isNumberText_toDigits (n : Nat) : IsNumberText (Nat.toDigits 10 n) :=
  isNumberText_of_isDigit (all_isDigit_toDigits n)

theorem IsNumberText.signChars (negative : Bool) (h : IsNumberText cs) :
    IsNumberText (signChars negative cs) := by
  cases negative with
  | false => exact h
  | true => exact .cons rfl h

theorem isNumberText_integer (n : Int) : IsNumberText (toString n).toList := by
  cases n with
  | ofNat n =>
    rw [Int.ofNat_eq_natCast, Decimal.toList_toString_ofNat]
    exact isNumberText_toDigits n
  | negSucc n =>
    rw [Decimal.toList_toString_negSucc]
    exact .cons rfl (isNumberText_toDigits _)

theorem isNumberText_fixed (places n : Nat) : IsNumberText (Decimal.fixed places n) := by
  unfold Decimal.fixed
  split
  · exact isNumberText_toDigits n
  · exact (isNumberText_toDigits _).append
      (.cons rfl (isNumberText_of_isDigit (Decimal.all_isDigit_padded _ _)))

theorem isNumberText_scientific (d : Decimal) : IsNumberText d.scientific := by
  have hdigits := all_isDigit_toDigits d.digits
  have hexponent (e : Int) : IsNumberText ('e' :: (toString e).toList) :=
    .cons rfl (isNumberText_integer e)
  unfold Decimal.scientific
  cases hd : Nat.toDigits 10 d.digits with
  | nil => exact absurd hd Nat.toDigits_ne_nil
  | cons c cs =>
    rw [hd] at hdigits
    have hc : isNumberChar c := isNumberText_of_isDigit hdigits c List.mem_cons_self
    have hcs : IsNumberText cs := (List.forall_mem_cons.1 (isNumberText_of_isDigit hdigits)).2
    cases cs with
    | nil => exact .cons hc (hexponent _)
    | cons c' cs => exact (IsNumberText.cons hc (.cons rfl hcs)).append (hexponent _)

end NumberText

/-- A text of the magnitude of a float, which is the given number behind the sign. -/
structure FloatText (negative : Bool) (x : Binary64) (cs : List Char) : Prop where
  layout : IsFloatText cs
  chars : IsNumberText cs
  value : ∃ d, Decimal.read? cs = some d ∧ d.toBinary64 negative = x

theorem exists_magnitude (negative : Bool) {quanta : Nat} (h : Binary64.Representable quanta) :
    ∃ cs, (Binary64.finite negative quanta h).floatChars = signChars negative cs ∧
      FloatText negative (.finite negative quanta h) cs := by
  have hvalue := Binary64.toBinary64_shortest negative h
  unfold Binary64.floatChars
  dsimp only
  generalize Binary64.shortest negative quanta (.finite negative quanta h) = d at hvalue ⊢
  refine ⟨_, rfl, ?_⟩
  split
  · exact ⟨isFloatText_scientific d, isNumberText_scientific d, d, Decimal.read?_scientific d,
      hvalue⟩
  · by_cases hneg : d.exponent < 0
    · have hplaces : -(((-d.exponent).toNat : Nat) : Int) = d.exponent := by omega
      rw [if_pos hneg, Decimal.positional, if_pos hneg]
      refine ⟨isFloatText_fixed (by omega) _, isNumberText_fixed _ _, _,
        Decimal.read?_fixed (by omega) d.digits, ?_⟩
      rw [hplaces]
      exact hvalue
    · have hfinite : (d.toBinary64 negative).isFinite := by
        rw [hvalue]
        rfl
      rw [if_neg hneg, Decimal.positional, if_neg hneg]
      refine ⟨isFloatText_tenths _,
        (isNumberText_toDigits _).append (by simp [IsNumberText, isNumberChar]), _,
        Decimal.read?_tenths _, ?_⟩
      rw [← hvalue, Decimal.toBinary64, Binary64.ofDecimal_tenths]
      exact Binary64.ofDecimal_of_nonneg (by omega) hfinite

section Read

variable {negative : Bool} {cs : List Char} {x : Binary64}

theorem readUnsigned?_toDigits (negative : Bool) (n : Nat) :
    readUnsigned? negative (Nat.toDigits 10 n) = some (ofWhole negative n) := by
  have hend : ∀ c ∈ ([] : List Char).head?, c.isDigit = false := by simp
  have hspan := Decimal.span_isDigit (all_isDigit_toDigits n) hend
  have hzero : ¬((Nat.toDigits 10 n).head? = some '0' ∧ 1 < (Nat.toDigits 10 n).length) := by
    rintro ⟨hhead, hlength⟩
    rw [toDigits_of_head?_eq_zero hhead] at hlength
    cases hlength with
    | step h => cases h
  rw [List.append_nil] at hspan
  unfold readUnsigned?
  rw [hspan]
  simp [hzero, isNumberTail, Nat.ofDigitChars_ten_toDigits]

theorem FloatText.readUnsigned?_eq (h : FloatText negative x cs) (hx : x.isFinite) :
    readUnsigned? negative cs = some (.float x) := by
  obtain ⟨⟨whole, tail, rfl, hwhole, hne, hzero, htail, hnumber⟩, -, d, hd, rfl⟩ := h
  have hsingle : ¬(whole.head? = some '0' ∧ 1 < whole.length) := by
    rintro ⟨hhead, hlength⟩
    rw [hzero hhead] at hlength
    cases hlength with
    | step h => cases h
  unfold readUnsigned?
  rw [Decimal.span_isDigit hwhole (not_isDigit_of_isNumberTail hnumber)]
  simp [hsingle, hne, htail, hnumber, hd, hx]

theorem readNumber?_signChars (negative : Bool) {c : Char} {cs : List Char} (hc : c.isDigit) :
    readNumber? (signChars negative (c :: cs)) = readUnsigned? negative (c :: cs) := by
  cases negative with
  | true => rfl
  | false =>
    have hminus : c ≠ '-' := by
      rintro rfl
      cases hc
    rw [signChars, if_neg Bool.false_ne_true]
    unfold readNumber?
    split
    next heq => cases heq; exact (hminus rfl).elim
    next => rfl

end Read

/-- The integers of 64 bits with or without a sign, which documents hold as such. -/
def IsWord (n : Int) : Prop := -((UInt64.size / 2 : Nat) : Int) ≤ n ∧ n < (UInt64.size : Nat)

instance (n : Int) : Decidable (IsWord n) := inferInstanceAs (Decidable (_ ∧ _))

/-- A text that is read as a number. -/
structure IsNumber (cs : List Char) (json : Json) : Prop where
  chars : IsNumberText cs
  start : ∃ c rest, cs = c :: rest ∧ (c = '-' ∨ c.isDigit)
  reads : readNumber? cs = some json

theorem IsNumber.of_readUnsigned? {negative : Bool} {cs : List Char} {json : Json}
    (hchars : IsNumberText cs) (hstart : ∃ c rest, cs = c :: rest ∧ c.isDigit)
    (h : readUnsigned? negative cs = some json) : IsNumber (signChars negative cs) json := by
  obtain ⟨c, rest, rfl, hc⟩ := hstart
  refine ⟨hchars.signChars negative, ?_, (readNumber?_signChars negative hc).trans h⟩
  cases negative with
  | false => exact ⟨c, rest, rfl, .inr hc⟩
  | true => exact ⟨'-', c :: rest, rfl, .inl rfl⟩

theorem exists_digit_of_ne_nil {cs : List Char} (h : ∀ c ∈ cs, c.isDigit) (hne : cs ≠ [])
    (tail : List Char) : ∃ c rest, cs ++ tail = c :: rest ∧ c.isDigit := by
  cases cs with
  | nil => exact (hne rfl).elim
  | cons c cs => exact ⟨c, cs ++ tail, rfl, h c List.mem_cons_self⟩

theorem isNumber_integer {n : Int} (h : IsWord n) : IsNumber (toString n).toList (.integer n) := by
  obtain ⟨hlow, hhigh⟩ := h
  have hdigits (negative : Bool) (n : Nat) :
      IsNumber (signChars negative (Nat.toDigits 10 n)) (ofWhole negative n) := by
    have hstart := exists_digit_of_ne_nil (all_isDigit_toDigits n) Nat.toDigits_ne_nil []
    rw [List.append_nil] at hstart
    exact .of_readUnsigned? (isNumberText_toDigits n) hstart (readUnsigned?_toDigits negative n)
  cases n with
  | ofNat n =>
    rw [Int.ofNat_eq_natCast] at hhigh ⊢
    have hwhole : ofWhole false n = .integer n := by
      simp only [ofWhole, Bool.false_eq_true, if_false]
      rw [if_pos (by omega)]
    have hnumber := hdigits false n
    rw [hwhole] at hnumber
    rw [Decimal.toList_toString_ofNat]
    exact hnumber
  | negSucc n =>
    have hwhole : ofWhole true (n + 1) = .integer (.negSucc n) := by
      simp only [ofWhole, if_true]
      rw [if_pos (by omega)]
      rfl
    have hnumber := hdigits true (n + 1)
    rw [hwhole] at hnumber
    rw [Decimal.toList_toString_negSucc]
    exact hnumber

theorem isNumber_float {x : Binary64} (hx : x.isFinite) : IsNumber x.floatChars (.float x) := by
  cases x with
  | nan => cases hx
  | infinity negative => cases hx
  | finite negative quanta h =>
    obtain ⟨cs, hcs, htext⟩ := exists_magnitude negative h
    obtain ⟨whole, tail, htail, hwhole, hne, -⟩ := htext.layout
    have hstart := exists_digit_of_ne_nil hwhole hne tail
    rw [← htail] at hstart
    rw [hcs]
    exact .of_readUnsigned? htext.chars hstart (htext.readUnsigned?_eq hx)

end Json

end JsonStencil
