import JsonStencil.Proofs.Numeric.Whole
import JsonStencil.Proofs.Value.Equality
import JsonStencil.Value.Access

/-!
# Items of arrays by number and by text

An array finds an item under a number, and under a text that is read as a position. The text of a
number is read as a position exactly if the number is one, so both find the same.
-/

namespace JsonStencil

attribute [local instance (high)] instPowNat

namespace Binary64

section Points

variable {s t : Bool} {p q n : Nat} {hp : Representable p} {hq : Representable q}

theorem signed_lt_zero_iff : signed s p < 0 ↔ s ∧ p ≠ 0 := by
  cases s with
  | false => simp [signed]
  | true =>
    simp only [signed, if_true, true_and]
    omega

theorem isLt_finite_iff : (finite s p hp).isLt (finite t q hq) ↔ signed s p < signed t q := by
  simp [isLt, compare?, Int.compare_eq_lt]

theorem isLt_zero_iff : (finite s p hp).isLt (.zero false) ↔ s ∧ p ≠ 0 :=
  isLt_finite_iff.trans signed_lt_zero_iff

/-- A number is a position if it is that many units, without a sign or none at all. -/
theorem point?_finite_iff : (finite s p hp).point? = some (.inr (n * one : Nat)) ↔
    p = n * one ∧ (s = false ∨ n = 0) := by
  rw [point?, Option.some_inj, Sum.inr.injEq]
  have hzero : n * one = 0 ↔ n = 0 := Nat.mul_eq_zero.trans (or_iff_left (Nat.ne_of_gt one_pos))
  rw [← hzero]
  cases s with
  | false => simp only [signed, Bool.false_eq_true, if_false, Int.natCast_inj, true_or, and_true]
  | true =>
    simp only [signed, if_true, Bool.true_eq_false, false_or]
    omega

theorem point?_ofNat (h : n < 2 ^ precision) : (ofNat n).point? = some (.inr (n * one : Nat)) := by
  rw [ofNat_eq_finite h]
  rfl

theorem equal_ofNat_iff {x : Binary64} (h : n < 2 ^ precision) :
    x.equal (ofNat n) ↔ x.point? = some (.inr (n * one : Nat)) := by
  rw [equal_iff, point?_ofNat h]
  constructor
  · rintro ⟨place, hx, hplace⟩
    rw [hx, hplace]
  · intro hx
    exact ⟨_, hx, rfl⟩

theorem isInteger_of_point? {x : Binary64} (h : x.point? = some (.inr (n * one : Nat))) :
    x.isInteger := by
  cases x with
  | nan => cases h
  | infinity negative => cases h
  | finite negative quanta hq =>
    rw [isInteger, (point?_finite_iff.1 h).1, Nat.mul_mod_left]
    rfl

theorem isLt_zero_of_point? {x : Binary64} (h : x.point? = some (.inr (n * one : Nat))) :
    x.isLt (.zero false) = false := by
  cases x with
  | nan => cases h
  | infinity negative => cases h
  | finite negative quanta hq =>
    obtain ⟨hunits, hsign⟩ := point?_finite_iff.1 h
    rw [← Bool.not_eq_true, isLt_zero_iff]
    rintro ⟨hneg, hne⟩
    rw [hsign.resolve_left (by simp [hneg]), Nat.zero_mul] at hunits
    exact hne hunits

theorem isLt_ofNat_of_point? {x : Binary64} {m : Nat} (h : x.point? = some (.inr (n * one : Nat)))
    (hm : m < 2 ^ precision) (hlt : n < m) : x.isLt (.ofNat m) := by
  cases x with
  | nan => cases h
  | infinity negative => cases h
  | finite negative quanta hq =>
    have hsigned : signed negative quanta = (n * one : Nat) := Sum.inr.inj (Option.some.inj h)
    rw [ofNat_eq_finite hm, isLt_finite_iff, hsigned]
    exact Int.ofNat_lt.2 ((Nat.mul_lt_mul_right one_pos).2 hlt)

end Points

end Binary64

namespace Value

open Binary64

section ReadPosition

variable {name : String} {c d : Char} {cs : List Char}

theorem readPosition?_of_toDigits {n : Nat} (h : name.toList = Nat.toDigits 10 n) :
    readPosition? name = some n := by
  have hdigits := Decimal.all_isDigit_toDigits n
  rw [readPosition?, h]
  split
  next cs heq =>
    rw [heq] at hdigits
    cases hdigits '+' List.mem_cons_self
  next => exact Decimal.readNat?_toDigits n

theorem readPosition?_eq_none (h : name.toList = c :: cs) (hc : c ≠ '+') (hd : d ∈ c :: cs)
    (hdigit : d.isDigit = false) : readPosition? name = none := by
  have hall : (c :: cs).all Char.isDigit = false :=
    List.all_eq_false.2 ⟨d, hd, ne_true_of_eq_false hdigit⟩
  rw [readPosition?, h]
  split
  next heq => exact absurd (List.cons.inj heq).1 hc
  next => simp [Decimal.readNat?, hall]

/-- Only the text of a decimal without places is read as a position. -/
theorem readPosition?_positional {d : Decimal} (h : name.toList = d.positional) :
    readPosition? name =
      if d.exponent < 0 then none else some (d.digits * 10 ^ d.exponent.toNat) := by
  split
  next hneg =>
    obtain ⟨c, cs, hchars, hc, -⟩ := Decimal.positional_chars d
    have hplaces : (-d.exponent).toNat ≠ 0 := by omega
    have hpoint : '.' ∈ d.positional := by
      rw [Decimal.positional, if_pos hneg, Decimal.fixed, if_neg hplaces]
      exact List.mem_append_right _ List.mem_cons_self
    rw [hchars] at h hpoint
    refine readPosition?_eq_none h ?_ hpoint rfl
    rintro rfl
    cases hc
  next hneg =>
    rw [Decimal.positional, if_neg hneg] at h
    exact readPosition?_of_toDigits h

end ReadPosition

section Display

variable {quanta i : Nat} {x : Binary64}

theorem display_zero (negative : Bool) (h : Representable 0) :
    (finite negative 0 h).display = "0" := rfl

theorem toList_display (negative : Bool) (h : Representable quanta) (hne : quanta ≠ 0) :
    (finite negative quanta h).display.toList =
      signChars negative (shortest negative quanta (.finite negative quanta h)).positional := by
  have hzero : (finite negative quanta h).isZero = false := by
    cases quanta with
    | zero => exact absurd rfl hne
    | succ n => rfl
  rw [Binary64.display, hzero, if_neg Bool.false_ne_true, text, String.toList_ofList]
  rfl

/-- No number is written as the name of the length. -/
theorem display_ne_length (x : Binary64) : x.display ≠ "length" := by
  intro heq
  cases x with
  | nan => exact absurd heq (by decide)
  | infinity negative => exact absurd heq (by cases negative <;> decide)
  | finite negative quanta h =>
    by_cases hne : quanta = 0
    · subst hne
      rw [display_zero] at heq
      exact absurd heq (by decide)
    · obtain ⟨c, cs, hchars, hdigit, -⟩ :=
        Decimal.positional_chars (shortest negative quanta (.finite negative quanta h))
      have hlist := toList_display negative h hne
      rw [heq, hchars] at hlist
      cases negative with
      | false =>
        cases hlist
        cases hdigit
      | true => cases hlist

/-- The shortest text of a magnitude is read as a position exactly if it is that many units. -/
theorem readPosition?_shortest_iff {name : String} (h : Representable quanta)
    (hname : name.toList = (shortest false quanta (.finite false quanta h)).positional)
    (hi : i < 2 ^ precision) : readPosition? name = some i ↔ quanta = i * one := by
  rw [readPosition?_positional hname]
  split
  next hneg =>
    constructor
    · intro hread
      cases hread
    · intro hunits
      exact absurd (exponent_nonneg_shortest false h hunits hi) (Int.not_le.2 hneg)
  next hneg =>
    have hwhole := ofDecimal_of_toBinary64 (Int.not_lt.1 hneg) (toBinary64_shortest false h)
    rw [Option.some_inj]
    generalize (shortest false quanta (.finite false quanta h)).digits *
      10 ^ (shortest false quanta (.finite false quanta h)).exponent.toNat = n at hwhole ⊢
    rcases quanta_of_ofDecimal hwhole with hunits | ⟨hlarge, hunits⟩
    · rw [hunits, Nat.mul_left_inj (Nat.ne_of_gt Binary64.one_pos)]
    · have hlt : i * one < 2 ^ precision * one := (Nat.mul_lt_mul_right Binary64.one_pos).2 hi
      constructor
      · intro hn
        omega
      · intro hposition
        omega

/-- The text of a number is read as a position exactly if the number is that position. -/
theorem readPosition?_display_iff (hi : i < 2 ^ precision) :
    readPosition? x.display = some i ↔ x.point? = some (.inr (i * one : Nat)) := by
  cases x with
  | nan =>
    have hnone : readPosition? Binary64.nan.display = none := by decide
    rw [hnone]
    exact ⟨nofun, nofun⟩
  | infinity negative =>
    have hnone : readPosition? (Binary64.infinity negative).display = none := by
      cases negative <;> decide
    rw [hnone]
    exact ⟨nofun, nofun⟩
  | finite negative quanta h =>
    rw [point?_finite_iff]
    by_cases hzero : quanta = 0
    · subst hzero
      have hread : readPosition? "0" = some 0 := by decide
      rw [display_zero, hread, Option.some_inj]
      constructor
      · rintro rfl
        exact ⟨(Nat.zero_mul one).symm, .inr rfl⟩
      · rintro ⟨hunits, -⟩
        exact ((Nat.mul_eq_zero.1 hunits.symm).resolve_right (Nat.ne_of_gt Binary64.one_pos)).symm
    · have hlist := toList_display negative h hzero
      cases negative with
      | true =>
        rw [readPosition?_eq_none hlist (by decide) List.mem_cons_self rfl]
        refine ⟨nofun, fun hposition => ?_⟩
        obtain ⟨hunits, hsign⟩ := hposition
        rw [hsign.resolve_left Bool.noConfusion, Nat.zero_mul] at hunits
        exact absurd hunits hzero
      | false =>
        rw [readPosition?_shortest_iff h hlist hi]
        exact ⟨fun hunits => ⟨hunits, .inl rfl⟩, And.left⟩

theorem position?_eq_some_iff (hi : i < 2 ^ precision) :
    position? x = some i ↔ x.point? = some (.inr (i * one : Nat)) := by
  cases x with
  | nan => exact ⟨nofun, nofun⟩
  | infinity negative => exact ⟨nofun, nofun⟩
  | finite negative quanta h =>
    have hlarge : 2 ^ precision < UInt64.size - 1 := by decide
    rw [point?_finite_iff, position?, Option.ite_none_right_eq_some, Option.some_inj,
      Bool.and_eq_true, Bool.not_eq_true', ← Bool.not_eq_true, isLt_zero_iff, isInteger,
      decide_eq_true_iff]
    cases negative with
    | false =>
      rw [toIndex]
      constructor
      · rintro ⟨⟨hmod, -⟩, hindex⟩
        have hdiv : quanta / one = i := by omega
        exact ⟨by rw [← hdiv, Nat.div_mul_cancel (Nat.dvd_of_mod_eq_zero hmod)], .inl rfl⟩
      · rintro ⟨hunits, -⟩
        have hdiv : quanta / one = i := by rw [hunits, Nat.mul_div_cancel _ Binary64.one_pos]
        refine ⟨⟨by rw [hunits, Nat.mul_mod_left], fun hneg => Bool.false_ne_true hneg.1⟩, by omega⟩
    | true =>
      constructor
      · rintro ⟨⟨-, hnonneg⟩, rfl⟩
        have hzero : quanta = 0 := by simpa using hnonneg
        exact ⟨hzero.trans (Nat.zero_mul one).symm, .inr rfl⟩
      · rintro ⟨hunits, hsign⟩
        have hindex := hsign.resolve_left Bool.noConfusion
        have hzero : quanta = 0 := by rw [hunits, hindex, Nat.zero_mul]
        exact ⟨⟨by rw [hzero, Nat.zero_mod], fun hneg => hneg.2 hzero⟩, hindex.symm⟩

end Display

section Arrays

variable {items : List Value} {i : Nat} {x : Binary64}

theorem getIndex_number (items : List Value) (x : Binary64) :
    (Value.array items).getIndex (.number x) =
      .ok (ofOption ((position? x).bind fun i => items[i]?)) := rfl

theorem getProperty_array {name : String} (h : name ≠ "length") :
    (Value.array items).getProperty name =
      .ok (ofOption ((readPosition? name).bind fun i => items[i]?)) := if_neg h

/-- Positions behind the last item do not matter. -/
theorem bind_getElem?_congr {p q : Option Nat}
    (h : ∀ i < items.length, p = some i ↔ q = some i) :
    (p.bind fun i => items[i]?) = q.bind fun i => items[i]? := by
  ext v
  simp only [Option.bind_eq_some_iff, List.getElem?_eq_some_iff]
  refine exists_congr fun i => ?_
  constructor
  · rintro ⟨hp, hi, hv⟩
    exact ⟨(h i hi).1 hp, hi, hv⟩
  · rintro ⟨hq, hi, hv⟩
    exact ⟨(h i hi).2 hq, hi, hv⟩

/-- An item is found under a number as it is under the text of the number: the item at that position
if the number is one, and null under all other numbers. -/
theorem getIndex_eq_getProperty (hsize : items.length < 2 ^ (53 : Nat)) (v : Value) :
    (Value.array items).getIndex v = (Value.array items).getProperty v.propertyName ∧
      ∀ x, v = .number x →
        (∀ (i : Nat) (hi : i < items.length), x.equal (.ofNat i) →
          (Value.array items).getIndex v = .ok items[i]) ∧
        (x.isInteger = false ∨ x.isLt (.zero false) ∨ x.isLt (.ofNat items.length) = false →
          (Value.array items).getIndex v = .ok .null) := by
  refine ⟨?_, ?_⟩
  · cases v with
    | number x =>
      rw [getIndex_number, propertyName, display, getProperty_array (display_ne_length x)]
      · refine congrArg (fun item => Except.ok (ofOption item)) (bind_getElem?_congr fun i hi => ?_)
        have hlt := Nat.lt_trans hi hsize
        rw [position?_eq_some_iff hlt, readPosition?_display_iff hlt]
      · nofun
    | _ => rfl
  · rintro x rfl
    refine ⟨fun i hi hequal => ?_, fun hnone => ?_⟩
    · have hlt := Nat.lt_trans hi hsize
      rw [getIndex_number, (position?_eq_some_iff hlt).2 ((equal_ofNat_iff hlt).1 hequal),
        Option.bind_some, List.getElem?_eq_getElem hi]
      rfl
    · have hitem : ((position? x).bind fun i => items[i]?) = none := by
        rw [Option.bind_eq_none_iff]
        intro i hposition
        rw [List.getElem?_eq_none_iff, ← Nat.not_lt]
        intro hi
        have hpoint := (position?_eq_some_iff (Nat.lt_trans hi hsize)).1 hposition
        rcases hnone with h | h | h
        · exact Bool.noConfusion ((isInteger_of_point? hpoint).symm.trans h)
        · exact Bool.noConfusion ((isLt_zero_of_point? hpoint).symm.trans h)
        · exact Bool.noConfusion ((isLt_ofNat_of_point? hpoint hsize hi).symm.trans h)
      rw [getIndex_number, hitem]
      rfl

theorem getIndex_eq_getProperty_negative_zero :
    let v : Value := .array [.string "a", .string "b"]
    [Value.string "a", .string "b"].length < 2 ^ (53 : Nat) ∧
      (Binary64.zero true).equal (.ofNat 0) ∧
      v.getIndex (.number (.zero true)) = .ok (.string "a") ∧
      v.getProperty (Value.number (.zero true)).propertyName = .ok (.string "a") ∧
      Binary64.half.isInteger = false ∧ v.getIndex (.number .half) = .ok .null ∧
      v.getProperty (Value.number .half).propertyName = .ok .null := by
  intro v
  have hsize : [Value.string "a", .string "b"].length < 2 ^ (53 : Nat) := by decide
  have hzero : (Binary64.zero true).equal (.ofNat 0) := by decide +kernel
  have hhalf : Binary64.half.isInteger = false := by decide +kernel
  obtain ⟨hagree, hnumber⟩ := getIndex_eq_getProperty hsize (.number (.zero true))
  obtain ⟨hagree', hnumber'⟩ := getIndex_eq_getProperty hsize (.number .half)
  have hitem := (hnumber _ rfl).1 0 (by decide) hzero
  have hnull := (hnumber' _ rfl).2 (.inl hhalf)
  exact ⟨hsize, hzero, hitem, hagree.symm.trans hitem, hhalf, hnull, hagree'.symm.trans hnull⟩

end Arrays

end Value

end JsonStencil
