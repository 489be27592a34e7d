import JsonStencil.Proofs.Numeric.FloatText

/-!
# Texts of whole numbers

A whole number below `2 ^ 53` is held exactly, its shortest decimal has no digits behind the point,
and no other digits are read as the number.
-/

namespace JsonStencil

attribute [local instance (high)] instPowNat

namespace Binary64

section Whole

variable {negative : Bool} {n bits quanta : Nat}

theorem representable_mul_one (h : n < 2 ^ precision) : Representable (n * one) := by
  refine ⟨?_, n, fractionBits, h, rfl⟩
  calc n * one < 2 ^ precision * one := Nat.mul_lt_mul_of_pos_right h one_pos
    _ = 2 ^ (precision + fractionBits) := by rw [one, ← Nat.pow_add]
    _ ≤ overflow := Nat.pow_le_pow_right (by decide) (by decide)

/-- Whole numbers below `2 ^ 53` are numbers exactly. -/
theorem ofNat_eq_finite (h : n < 2 ^ precision) :
    ofNat n = .finite false (n * one) (representable_mul_one h) := by
  have hexact := ofRatio_mul false (representable_mul_one h) Nat.one_pos
  rw [Nat.mul_one] at hexact
  exact hexact

theorem div_le_roundDiv (num den : Nat) : num / den ≤ roundDiv num den := by
  simp only [roundDiv]
  repeat' split
  all_goals omega

/-- Rounding does not cross a power of two. -/
theorem two_pow_le_roundQuanta (h : 2 ^ bits ≤ quanta) : 2 ^ bits ≤ roundQuanta quanta 1 := by
  have hne : quanta ≠ 0 := by
    have := Nat.two_pow_pos bits
    omega
  have hlog : bits ≤ quanta.log2 := (Nat.le_log2 hne).2 h
  simp only [roundQuanta, Nat.div_one, Nat.one_mul]
  generalize hs : excess quanta = scale
  have hscale : scale ≤ quanta.log2 := by
    rw [← hs, excess, precision]
    omega
  have hquotient : 2 ^ (quanta.log2 - scale) ≤ quanta / 2 ^ scale := by
    rw [Nat.le_div_iff_mul_le (Nat.two_pow_pos scale), ← Nat.pow_add, Nat.sub_add_cancel hscale]
    exact Nat.log2_self_le hne
  calc 2 ^ bits ≤ 2 ^ quanta.log2 := Nat.pow_le_pow_right (by decide) hlog
    _ = 2 ^ (quanta.log2 - scale) * 2 ^ scale := by rw [← Nat.pow_add, Nat.sub_add_cancel hscale]
    _ ≤ roundDiv quanta (2 ^ scale) * 2 ^ scale :=
      Nat.mul_le_mul_right _ (Nat.le_trans hquotient (div_le_roundDiv _ _))

theorem ofDecimal_zero (negative : Bool) (n : Nat) :
    ofDecimal negative n 0 = ofRatio negative (n * one) 1 := by
  unfold ofDecimal
  by_cases hzero : n = 0
  · have hexact :=
      ofRatio_mul negative (representable_mul_one (Nat.two_pow_pos precision)) Nat.one_pos
    rw [if_pos hzero, hzero]
    rw [Nat.mul_one] at hexact
    exact hexact.symm ▸ by simp [zero]
  · rw [if_neg hzero, if_neg (by decide), if_neg (by omega)]
    simp

theorem ofDecimal_mul_pow (negative : Bool) {k : Nat} (hk : k ≤ 400) (digits : Nat) :
    ofDecimal negative (digits * 10 ^ k) 0 = ofDecimal negative digits k := by
  rw [ofDecimal_zero]
  unfold ofDecimal
  by_cases hzero : digits = 0
  · rw [if_pos hzero, hzero, Nat.zero_mul, ← ofDecimal_zero]
    rfl
  · rw [if_neg hzero, if_neg (by omega), if_neg (by omega), Int.toNat_natCast,
      Int.toNat_neg_natCast, Nat.pow_zero]

/-- Digits that are read as a number are its whole units, unless they are too many to tell. -/
theorem quanta_of_ofDecimal {hq : Representable quanta}
    (h : ofDecimal negative n 0 = .finite negative quanta hq) :
    quanta = n * one ∨ 2 ^ precision ≤ n ∧ 2 ^ precision * one ≤ quanta := by
  rw [ofDecimal_zero] at h
  by_cases hn : n < 2 ^ precision
  · have hexact := ofRatio_mul negative (representable_mul_one hn) Nat.one_pos
    rw [Nat.mul_one, h] at hexact
    exact .inl (Binary64.finite.inj hexact).2
  · have hle : 2 ^ precision ≤ n := Nat.le_of_not_lt hn
    refine .inr ⟨hle, ?_⟩
    rw [ofRatio] at h
    split at h
    · rw [← (Binary64.finite.inj h).2, one, ← Nat.pow_add]
      refine two_pow_le_roundQuanta ?_
      rw [Nat.pow_add]
      exact Nat.mul_le_mul_right _ hle
    · cases h

theorem ofDecimal_of_toBinary64 {d : Decimal} {hq : Representable quanta} (hexp : 0 ≤ d.exponent)
    (h : d.toBinary64 negative = .finite negative quanta hq) :
    ofDecimal negative (d.digits * 10 ^ d.exponent.toNat) 0 = .finite negative quanta hq := by
  have hfinite : (ofDecimal negative d.digits d.exponent).isFinite := by
    rw [← Decimal.toBinary64, h]
    rfl
  exact (ofDecimal_of_nonneg hexp hfinite).trans h

end Whole

end Binary64

namespace Decimal

theorem length_toDigits_mul_pow {n : Nat} (hn : 0 < n) (k : Nat) :
    (Nat.toDigits 10 (n * 10 ^ k)).length = (Nat.toDigits 10 n).length + k := by
  induction k with
  | zero => simp
  | succ k ih =>
    have hpos : 0 < n * 10 ^ k := Nat.mul_pos hn (Nat.pow_pos (by decide))
    have happend := Nat.toDigits_append_toDigits (by decide : 1 < 10) hpos (by decide : 0 < 10)
    have hmul : n * 10 ^ (k + 1) = 10 * (n * 10 ^ k) + 0 := by
      rw [Nat.pow_succ]
      ac_rfl
    rw [hmul, ← happend, List.length_append, ih]
    rfl

theorem strip_eq (n : Nat) (d : Decimal) : ∃ k ≤ n,
    (strip n d).exponent = d.exponent + k ∧ (strip n d).digits * 10 ^ k = d.digits := by
  induction n generalizing d with
  | zero => exact ⟨0, Nat.le_refl 0, by simp [strip], by simp [strip]⟩
  | succ n ih =>
    rw [strip]
    split
    next h =>
      obtain ⟨k, hk, hexponent, hdigits⟩ := ih ⟨d.digits / 10, d.exponent + 1⟩
      refine ⟨k + 1, Nat.succ_le_succ hk, ?_, ?_⟩
      · rw [hexponent, Int.add_assoc, Int.natCast_add, Int.add_comm 1]
        rfl
      · rw [Nat.pow_succ, ← Nat.mul_assoc, hdigits]
        exact Nat.div_mul_cancel (Nat.dvd_of_mod_eq_zero h.2)
    next => exact ⟨0, Nat.zero_le _, by simp, by simp⟩

theorem toBinary64_strip (negative : Bool) {n : Nat} (hn : n ≤ 400) (m : Nat) :
    (strip n ⟨m, 0⟩).toBinary64 negative = Binary64.ofDecimal negative m 0 := by
  obtain ⟨k, hk, hexponent, hdigits⟩ := strip_eq n ⟨m, 0⟩
  rw [toBinary64, hexponent, Int.zero_add,
    ← Binary64.ofDecimal_mul_pow negative (Nat.le_trans hk hn), hdigits]

end Decimal

namespace Binary64

theorem decimalScale_mul_one {m : Nat} (hm : 0 < m) :
    decimalScale (m * one) = (Nat.toDigits 10 m).length := by
  have hquotient (k : Nat) : m * one * 10 ^ k / one = m * 10 ^ k := by
    rw [Nat.mul_right_comm, Nat.mul_div_cancel _ one_pos]
  simp only [decimalScale, hquotient, Decimal.length_toDigits_mul_pow hm]
  omega

theorem exponent_nonneg_of_decimalOfLength? {negative : Bool} {quanta n : Nat} {x : Binary64}
    {d : Decimal} (h : decimalOfLength? negative quanta x n = some d)
    (hn : n ≤ decimalScale quanta) :
    0 ≤ d.exponent := by
  have hmem := List.mem_of_find?_eq_some h
  have hstrip (digits : Nat) :
      0 ≤ (Decimal.strip n ⟨digits, decimalScale quanta - n⟩).exponent := by
    obtain ⟨k, -, hexponent, -⟩ := Decimal.strip_eq n ⟨digits, decimalScale quanta - n⟩
    dsimp only at hexponent
    omega
  split at hmem
  all_goals
    simp only [List.mem_cons, List.not_mem_nil, or_false] at hmem
    rcases hmem with rfl | rfl
    all_goals exact hstrip _

/-- A whole number with `n` digits is found among the decimals with `n` digits. -/
theorem isSome_decimalOfLength? (negative : Bool) {m : Nat} (hm : 0 < m) (hlt : m < 2 ^ precision) :
    (decimalOfLength? negative (m * one)
      (.finite negative (m * one) (representable_mul_one hlt))
      (Nat.toDigits 10 m).length).isSome := by
  have hlength : (Nat.toDigits 10 m).length ≤ 16 := by
    rw [Nat.length_toDigits_le_iff (by decide) (by decide)]
    exact Nat.lt_trans hlt (by decide)
  have hexact : ofDecimal negative m 0 =
      .finite negative (m * one) (representable_mul_one hlt) := by
    have hratio := ofRatio_mul negative (representable_mul_one hlt) Nat.one_pos
    rw [ofDecimal_zero, ← hratio, Nat.mul_one]
  have hreads :=
    (Decimal.toBinary64_strip negative (Nat.le_trans hlength (by decide)) m).trans hexact
  unfold decimalOfLength?
  rw [decimalScale_mul_one hm, Int.sub_self]
  simp only [inUnitsOf, Int.neg_zero, Int.toNat_zero, Nat.pow_zero, Nat.mul_one,
    Nat.mul_div_cancel _ one_pos, Nat.mul_mod_left, Nat.mul_zero, one_pos, if_true]
  rw [List.find?_cons_of_pos (by rw [hreads]; exact decide_eq_true rfl)]
  rfl

/-- The shortest decimal of a whole number below `2 ^ 53` has no digits behind the point. -/
theorem exponent_nonneg_shortest (negative : Bool) {quanta m : Nat} (h : Representable quanta)
    (hunits : quanta = m * one) (hlt : m < 2 ^ precision) :
    0 ≤ (shortest negative quanta (.finite negative quanta h)).exponent := by
  revert h
  rw [hunits]
  intro h
  unfold shortest
  split
  next => exact Int.le_refl 0
  next hne =>
    have hm : 0 < m := Nat.pos_of_ne_zero fun h => hne (by rw [h, Nat.zero_mul])
    have hlength : (Nat.toDigits 10 m).length ≤ 17 := by
      rw [Nat.length_toDigits_le_iff (by decide) (by decide)]
      exact Nat.lt_trans hlt (by decide)
    have hpos : 0 < (Nat.toDigits 10 m).length := List.length_pos_iff.2 Nat.toDigits_ne_nil
    -- the search goes no further than the number of digits, where the number itself is met
    have hrange : List.range 17 = List.range (Nat.toDigits 10 m).length ++
        (List.range (17 - (Nat.toDigits 10 m).length)).map ((Nat.toDigits 10 m).length + ·) := by
      rw [← List.range_add]
      congr 1
      omega
    have hfound : ((List.range (Nat.toDigits 10 m).length).findSome? fun n =>
        decimalOfLength? negative (m * one)
          (.finite negative (m * one) (representable_mul_one hlt)) (n + 1)).isSome := by
      rw [List.findSome?_isSome_iff]
      refine ⟨(Nat.toDigits 10 m).length - 1, List.mem_range.2 (by omega), ?_⟩
      rw [Nat.sub_add_cancel hpos]
      exact isSome_decimalOfLength? negative hm hlt
    obtain ⟨d, hd⟩ := Option.isSome_iff_exists.1 hfound
    obtain ⟨n, hn, hdecimal⟩ := List.exists_of_findSome?_eq_some hd
    rw [hrange, List.findSome?_append, hd, Option.some_or, Option.getD_some]
    refine exponent_nonneg_of_decimalOfLength? hdecimal ?_
    have := List.mem_range.1 hn
    rw [decimalScale_mul_one hm]
    omega

end Binary64

end JsonStencil
