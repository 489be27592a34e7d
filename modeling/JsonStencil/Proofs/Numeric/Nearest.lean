import JsonStencil.Proofs.Numeric.Whole

/-!
# Rounding next to a half

Rounding moves a number of quanta by half the distance of its neighbours at most, and not across a
representable one. So the sum of a representable number and one half keeps its whole part, except
where one half is half the distance of neighbouring units, and right below one half.
-/

namespace JsonStencil

attribute [local instance (high)] instPowNat

theorem add_le_of_dvd_of_lt {d a b : Nat} (ha : d ∣ a) (hb : d ∣ b) (h : a < b) : a + d ≤ b := by
  obtain ⟨i, rfl⟩ := ha
  obtain ⟨j, rfl⟩ := hb
  have hij : i + 1 ≤ j := Nat.lt_of_mul_lt_mul_left h
  calc d * i + d = d * (i + 1) := (Nat.mul_succ d i).symm
    _ ≤ d * j := Nat.mul_le_mul_left d hij

theorem roundDiv_near (num : Nat) {den : Nat} (hden : 0 < den) :
    2 * (den * roundDiv num den) ≤ 2 * num + den ∧
      2 * num ≤ 2 * (den * roundDiv num den) + den := by
  have hmod := Nat.div_add_mod num den
  have hlt := Nat.mod_lt num hden
  have hsucc : den * (num / den + 1) = den * (num / den) + den := Nat.mul_succ _ _
  simp only [roundDiv]
  repeat' split
  all_goals omega

/-- A tie goes to the even multiple. -/
theorem roundDiv_tie {num den c k : Nat} (hnum : num = den * k + c) (hc : den = 2 * c)
    (hpos : 0 < c) : roundDiv num den = k + k % 2 := by
  have hlt : c < den := by omega
  have hdiv : num / den = k := by
    rw [hnum, Nat.mul_add_div (by omega), Nat.div_eq_of_lt hlt, Nat.add_zero]
  have hmod : num % den = c := by rw [hnum, Nat.mul_add_mod, Nat.mod_eq_of_lt hlt]
  simp only [roundDiv, hdiv, hmod]
  rw [if_neg (by omega), if_neg (by omega)]
  split <;> omega

namespace Binary64

/-- One half in quanta. -/
def halfQuanta : Nat := 2 ^ (fractionBits - 1)

/-- What one half is above the number right below it. -/
def halfStep : Nat := 2 ^ (fractionBits - precision - 1)

theorem two_pow_mul {a b c : Nat} (h : a + b = c) : 2 ^ a * 2 ^ b = 2 ^ c := by
  rw [← Nat.pow_add, h]

theorem two_mul_two_pow {b c : Nat} (h : b + 1 = c) : 2 * 2 ^ b = 2 ^ c := by
  rw [← h, Nat.pow_succ']

theorem one_eq : one = 2 * halfQuanta := by
  rw [one, halfQuanta, two_mul_two_pow (c := fractionBits) (by decide)]

theorem two_pow_mul_one (k : Nat) : 2 ^ k * one = 2 ^ (k + fractionBits) := by
  rw [one, two_pow_mul rfl]

theorem halfQuanta_pos : 0 < halfQuanta := Nat.two_pow_pos (fractionBits - 1)

section Excess

variable {n m a b f : Nat}

theorem excess_mono (h : n ≤ m) : excess n ≤ excess m := by
  by_cases hn : n = 0
  · subst hn
    exact Nat.zero_le _
  · have hm : m ≠ 0 := by omega
    have hlog : n.log2 ≤ m.log2 := (Nat.le_log2 hm).2 (Nat.le_trans (Nat.log2_self_le hn) h)
    simp only [excess]
    omega

theorem excess_eq (hlo : 2 ^ (precision - 1 + f) ≤ n) (hhi : n < 2 ^ (precision + f)) :
    excess n = f := by
  have hne : n ≠ 0 := by
    have := Nat.two_pow_pos (precision - 1 + f)
    omega
  have hexp : precision + f = precision - 1 + f + 1 := by
    simp only [precision]
    omega
  have hlog : n.log2 = precision - 1 + f := (Nat.log2_eq_iff hne).2 ⟨hlo, hexp ▸ hhi⟩
  simp only [excess, hlog, precision]
  omega

theorem two_pow_le_of_excess (h : 0 < excess n) : 2 ^ (precision - 1 + excess n) ≤ n := by
  have hne : n ≠ 0 := by
    intro hn
    subst hn
    exact absurd h (by decide)
  refine Nat.le_trans (Nat.pow_le_pow_right (by decide) ?_) (Nat.log2_self_le hne)
  simp only [excess, precision] at h ⊢
  omega

theorem roundQuanta_one (n : Nat) :
    roundQuanta n 1 = 2 ^ excess n * roundDiv n (2 ^ excess n) := by
  rw [roundQuanta, Nat.div_one, Nat.one_mul, Nat.mul_comm]

theorem dvd_roundQuanta (n : Nat) : 2 ^ excess n ∣ roundQuanta n 1 :=
  ⟨_, roundQuanta_one n⟩

/-- Rounding goes no farther than half the distance of two neighbours. -/
theorem two_mul_roundQuanta_le (n : Nat) : 2 * roundQuanta n 1 ≤ 2 * n + 2 ^ excess n := by
  rw [roundQuanta_one]
  exact (roundDiv_near n (Nat.two_pow_pos _)).1

theorem le_two_mul_roundQuanta (n : Nat) : 2 * n ≤ 2 * roundQuanta n 1 + 2 ^ excess n := by
  rw [roundQuanta_one]
  exact (roundDiv_near n (Nat.two_pow_pos _)).2

/-- Rounding does not cross a neighbour. -/
theorem roundQuanta_le (h : n ≤ b) (hb : 2 ^ excess n ∣ b) : roundQuanta n 1 ≤ b := by
  by_contra hlt
  have hnext := add_le_of_dvd_of_lt hb (dvd_roundQuanta n) (Nat.lt_of_not_le hlt)
  have hnear := two_mul_roundQuanta_le n
  have hpos := Nat.two_pow_pos (excess n)
  omega

theorem le_roundQuanta (h : a ≤ n) (ha : 2 ^ excess n ∣ a) : a ≤ roundQuanta n 1 := by
  by_contra hlt
  have hnext := add_le_of_dvd_of_lt (dvd_roundQuanta n) ha (Nat.lt_of_not_le hlt)
  have hnear := le_two_mul_roundQuanta n
  have hpos := Nat.two_pow_pos (excess n)
  omega

theorem roundQuanta_of_dvd (h : 2 ^ excess n ∣ n) : roundQuanta n 1 = n :=
  Nat.le_antisymm (roundQuanta_le (Nat.le_refl n) h) (le_roundQuanta (Nat.le_refl n) h)

theorem roundQuanta_tie {k c : Nat} (hf : excess n = f) (hn : n = 2 ^ f * k + c)
    (hc : 2 ^ f = 2 * c) : roundQuanta n 1 = 2 ^ f * (k + k % 2) := by
  have hpos := Nat.two_pow_pos f
  rw [roundQuanta_one, hf, roundDiv_tie hn hc (by omega)]

end Excess

section Half

variable {q m : Nat}

theorem pow_dvd_one {f : Nat} (h : f ≤ fractionBits) : 2 ^ f ∣ one := Nat.pow_dvd_pow 2 h

theorem pow_dvd_one_of_le {f : Nat} (h : fractionBits ≤ f) : one ∣ 2 ^ f := Nat.pow_dvd_pow 2 h

theorem two_mul_one_le {f : Nat} (h : fractionBits < f) : 2 * one ≤ 2 ^ f := by
  rw [one, two_mul_two_pow rfl]
  exact Nat.pow_le_pow_right (by decide) h

theorem pow_dvd_half {f : Nat} (h : f < fractionBits) : 2 ^ f ∣ halfQuanta :=
  Nat.pow_dvd_pow 2 (Nat.le_sub_one_of_lt h)

/-- The sum of one half and a smaller number stays below one, but for the number right below. -/
theorem roundQuanta_add_half_of_lt (h : Representable q) (hq : q < halfQuanta) :
    (q + halfStep = halfQuanta → roundQuanta (q + halfQuanta) 1 = one) ∧
    (q + halfStep ≠ halfQuanta → roundQuanta (q + halfQuanta) 1 < one) := by
  have hone := one_eq
  have hf : excess (q + halfQuanta) = fractionBits - precision := by
    refine excess_eq ?_ ?_
    · exact Nat.le_trans (Nat.pow_le_pow_right (by decide) (by decide)) (Nat.le_add_left _ q)
    · exact Nat.lt_of_lt_of_le (show q + halfQuanta < one by omega)
        (Nat.pow_le_pow_right (by decide) (by decide))
  have hstep : 2 ^ (fractionBits - precision) = 2 * halfStep := by
    rw [halfStep, two_mul_two_pow (c := fractionBits - precision) (by decide)]
  constructor
  · intro heq
    have hsplit : 2 ^ (fractionBits - precision) * 2 ^ precision = one := by
      rw [one, two_pow_mul (c := fractionBits) (by decide)]
    obtain ⟨k, hk, hodd⟩ : ∃ k, 2 ^ precision = k + 1 ∧ k % 2 = 1 :=
      ⟨2 ^ precision - 1, by decide, by decide⟩
    rw [hk, Nat.mul_add_one] at hsplit
    have hsum : q + halfQuanta = 2 ^ (fractionBits - precision) * k + halfStep := by omega
    rw [roundQuanta_tie hf hsum hstep, hodd, Nat.mul_add_one, hsplit]
  · intro hne
    have hnear := two_mul_roundQuanta_le (q + halfQuanta)
    rw [hf, hstep] at hnear
    have hgap : q + halfStep ≤ halfQuanta := by
      by_contra hgap
      have hhalf : 2 ^ precision * halfStep = halfQuanta := by
        rw [halfQuanta, halfStep, two_pow_mul (c := fractionBits - 1) (by decide)]
      have hlow : 2 ^ (precision - 1 + (fractionBits - precision - 1)) =
          2 ^ (precision - 1) * halfStep := by
        rw [halfStep, two_pow_mul rfl]
      have hexcess : excess q = fractionBits - precision - 1 := by
        refine excess_eq ?_ (Nat.lt_of_lt_of_le hq (Nat.pow_le_pow_right (by decide) (by decide)))
        rw [hlow]
        simp only [precision] at hhalf ⊢
        omega
      have hdvd := two_pow_excess_dvd h
      rw [hexcess] at hdvd
      exact hgap (add_le_of_dvd_of_lt hdvd (pow_dvd_half (by decide)) hq)
    omega

/-- What is left of a half behind whole units rounds to the even unit where units are neighbours. -/
theorem roundQuanta_tie_units (hlo : 2 ^ (precision - 1) ≤ m) (hhi : m < 2 ^ precision) :
    roundQuanta (m * one + halfQuanta) 1 = (m + m % 2) * one := by
  have hone := one_eq
  have hpos := halfQuanta_pos
  have hf : excess (m * one + halfQuanta) = fractionBits := by
    refine excess_eq ?_ ?_
    · rw [← two_pow_mul_one]
      exact Nat.le_trans (Nat.mul_le_mul_right one hlo) (Nat.le_add_right _ _)
    · rw [← two_pow_mul_one]
      have hnext : (m + 1) * one ≤ 2 ^ precision * one := Nat.mul_le_mul_right one hhi
      rw [Nat.succ_mul] at hnext
      omega
  have hsum : m * one + halfQuanta = 2 ^ fractionBits * m + halfQuanta := by
    rw [Nat.mul_comm m, one]
  rw [roundQuanta_tie hf hsum one_eq, Nat.mul_comm, one]

theorem halfQuanta_lt_one : halfQuanta < one := by
  have hpos := halfQuanta_pos
  rw [one_eq]
  omega

theorem excess_halfQuanta : excess halfQuanta = fractionBits - precision := by
  apply excess_eq
  · exact Nat.pow_le_pow_right (by decide) (by decide)
  · exact Nat.pow_lt_pow_right (by decide) (by decide)

theorem exists_units (h : Representable q) (hf : fractionBits ≤ excess q) : ∃ m, q = m * one := by
  obtain ⟨m, hm⟩ := Nat.dvd_trans (pow_dvd_one_of_le hf) (two_pow_excess_dvd h)
  exact ⟨m, hm.trans (Nat.mul_comm one m)⟩

/-- Doubling a number takes one more bit. -/
theorem excess_le_succ (h : m ≤ 2 * q) : excess m ≤ excess q + 1 := by
  by_contra hlt
  have hlarge := two_pow_le_of_excess (Nat.lt_of_le_of_lt (Nat.zero_le _) (Nat.lt_of_not_le hlt))
  have hsmall := lt_two_pow_excess q
  have hdouble : 2 * 2 ^ (precision + excess q) ≤ 2 ^ (precision - 1 + excess m) := by
    rw [two_mul_two_pow rfl]
    exact Nat.pow_le_pow_right (by decide) (by simp only [precision]; omega)
  omega

/-- An odd number of units that is next to the units around it. -/
def OddUnits (quanta : Nat) : Prop :=
  ∃ m, m % 2 = 1 ∧ 2 ^ (precision - 1) < m ∧ m < 2 ^ precision ∧ quanta = m * one

theorem mod_two_of_not_oddUnits (h : ¬ OddUnits (m * one)) (hlo : 2 ^ (precision - 1) ≤ m)
    (hhi : m < 2 ^ precision) : m % 2 = 0 := by
  by_contra hodd
  have heven : 2 ^ (precision - 1) % 2 = 0 := by decide
  exact h ⟨m, by omega, by omega, hhi, rfl⟩

theorem div_units (m : Nat) : (m * one + halfQuanta) / one = m := by
  rw [Nat.mul_comm, Nat.mul_add_div one_pos, Nat.div_eq_of_lt halfQuanta_lt_one, Nat.add_zero]

/-- A number with the distance of one to its neighbours is some number of units. -/
theorem exists_units_of_excess (h : Representable q) (he : excess q = fractionBits) :
    ∃ m, q = m * one ∧ 2 ^ (precision - 1) ≤ m ∧ m < 2 ^ precision := by
  obtain ⟨m, hm⟩ := exists_units h (Nat.le_of_eq he.symm)
  have hlarge := two_pow_le_of_excess (n := q) (by rw [he]; decide)
  have hsmall := lt_two_pow_excess q
  rw [he, ← two_pow_mul_one, hm] at hlarge hsmall
  exact ⟨m, hm, Nat.le_of_mul_le_mul_right hlarge one_pos, Nat.lt_of_mul_lt_mul_right hsmall⟩

theorem wholeUnits_units (m : Nat) : wholeUnits true (m * one) = m := by
  have hone := one_pos
  rw [wholeUnits, if_pos rfl, Nat.mul_comm, Nat.mul_add_div one_pos, Nat.div_eq_of_lt (by omega),
    Nat.add_zero]

theorem wholeUnits_units_add_half (m : Nat) : wholeUnits true (m * one + halfQuanta) = m + 1 := by
  have hone := one_eq
  have hpos := halfQuanta_pos
  have hsum : m * one + halfQuanta + (one - 1) = one * (m + 1) + (halfQuanta - 1) := by
    rw [Nat.mul_succ, Nat.mul_comm]
    omega
  rw [wholeUnits, if_pos rfl, hsum, Nat.mul_add_div one_pos, Nat.div_eq_of_lt (by omega),
    Nat.add_zero]

theorem units_sub_half (hm : 0 < m) : m * one - halfQuanta = (m - 1) * one + halfQuanta := by
  have hone := one_eq
  obtain ⟨k, hk⟩ : ∃ k, m = k + 1 := ⟨m - 1, by omega⟩
  rw [hk, Nat.succ_mul, Nat.add_sub_cancel]
  omega

theorem div_roundQuanta_of_oddUnits (hodd : OddUnits q) :
    roundQuanta (q + halfQuanta) 1 / one = (q + halfQuanta) / one + 1 := by
  obtain ⟨m, hm, hlo, hhi, hq⟩ := hodd
  rw [hq, roundQuanta_tie_units (Nat.le_of_lt hlo) hhi, hm, div_units, Nat.mul_div_cancel _ one_pos]

theorem wholeUnits_sub_half_of_oddUnits (hodd : OddUnits q) : wholeUnits true (q - halfQuanta) =
    wholeUnits true (roundQuanta (q - halfQuanta) 1) + 1 := by
  obtain ⟨m, hm, hlo, hhi, hq⟩ := hodd
  have heven : (m - 1) % 2 = 0 := by omega
  rw [hq, units_sub_half (by omega), roundQuanta_tie_units (by omega) (by omega), heven,
    Nat.add_zero, wholeUnits_units, wholeUnits_units_add_half]

section Sum

variable (h : Representable q)

include h

/-- A number too large for halves takes no half. -/
theorem roundQuanta_add_half_of_large (hf : fractionBits < excess (q + halfQuanta))
    (he : excess q = excess (q + halfQuanta)) : roundQuanta (q + halfQuanta) 1 = q := by
  have hdvd := two_pow_excess_dvd h
  rw [he] at hdvd
  have hle := le_roundQuanta (Nat.le_add_right q halfQuanta) hdvd
  have hnear := two_mul_roundQuanta_le (q + halfQuanta)
  have hstep := two_mul_one_le hf
  have hlt := halfQuanta_lt_one
  by_contra hne
  have hnext := add_le_of_dvd_of_lt hdvd (dvd_roundQuanta _)
    (Nat.lt_of_le_of_ne hle (Ne.symm hne))
  omega

/-- A sum that needs one more bit starts from a number with fractional bits. -/
theorem excess_lt_of_carry (hf : excess (q + halfQuanta) = excess q + 1) :
    excess q < fractionBits := by
  by_contra hlarge
  have hbelow := lt_two_pow_excess q
  have hreach := two_pow_le_of_excess (n := q + halfQuanta) (by omega)
  have hexp : precision - 1 + excess (q + halfQuanta) = precision + excess q := by
    simp only [precision]
    omega
  have hnext := add_le_of_dvd_of_lt (two_pow_excess_dvd h)
    (Nat.pow_dvd_pow 2 (Nat.le_add_left (excess q) precision)) hbelow
  have hgap := Nat.le_of_dvd (Nat.two_pow_pos _) (pow_dvd_one_of_le (Nat.le_of_not_lt hlarge))
  have hlt := halfQuanta_lt_one
  rw [hexp] at hreach
  omega

/-- A sum that comes to the next power of two stays in the unit behind it. -/
theorem div_roundQuanta_of_carry (hq : halfQuanta ≤ q)
    (hf : excess (q + halfQuanta) = excess q + 1) :
    roundQuanta (q + halfQuanta) 1 / one = (q + halfQuanta) / one := by
  have hlt := halfQuanta_lt_one
  have hbelow := lt_two_pow_excess q
  have hreach := two_pow_le_of_excess (n := q + halfQuanta) (by omega)
  have hexp : precision - 1 + excess (q + halfQuanta) = precision + excess q := by
    simp only [precision]
    omega
  rw [hexp] at hreach
  have he := excess_lt_of_carry h hf
  have hstep : 2 ^ excess (q + halfQuanta) ≤ one :=
    Nat.le_of_dvd one_pos (pow_dvd_one (by omega))
  have hexcess : fractionBits - precision ≤ excess q := excess_halfQuanta ▸ excess_mono hq
  obtain ⟨k, hk⟩ : one ∣ 2 ^ (precision + excess q) :=
    pow_dvd_one_of_le (by simp only [precision, fractionBits] at hexcess ⊢; omega)
  have hstay : 2 ^ (precision + excess q) ≤ roundQuanta (q + halfQuanta) 1 :=
    le_roundQuanta hreach (Nat.pow_dvd_pow 2 (by simp only [precision]; omega))
  have hnear := two_mul_roundQuanta_le (q + halfQuanta)
  have hone := one_eq
  rw [hk] at hbelow hreach hstay
  have hunit (n : Nat) (hlo : one * k ≤ n) (hhi : n < one * k + one) : n / one = k :=
    Nat.div_eq_of_lt_le (by rw [Nat.mul_comm]; exact hlo)
      (by rw [Nat.succ_mul, Nat.mul_comm]; exact hhi)
  rw [hunit _ hstay (by omega), hunit _ hreach (by omega)]

theorem div_roundQuanta_add_half (hq : halfQuanta ≤ q) (hodd : ¬ OddUnits q) :
    roundQuanta (q + halfQuanta) 1 / one = (q + halfQuanta) / one := by
  have hle : excess q ≤ excess (q + halfQuanta) := excess_mono (Nat.le_add_right q halfQuanta)
  have hsucc : excess (q + halfQuanta) ≤ excess q + 1 := excess_le_succ (by omega)
  by_cases he : excess q = excess (q + halfQuanta)
  · rcases Nat.lt_trichotomy (excess (q + halfQuanta)) fractionBits with hf | hf | hf
    · -- the sum is exact
      have hdvd := two_pow_excess_dvd h
      rw [he] at hdvd
      rw [roundQuanta_of_dvd (Nat.dvd_add hdvd (pow_dvd_half hf))]
    · obtain ⟨m, hm, hlo, hhi⟩ := exists_units_of_excess h (he.trans hf)
      rw [hm] at hodd ⊢
      rw [roundQuanta_tie_units hlo hhi, mod_two_of_not_oddUnits hodd hlo hhi, Nat.add_zero,
        div_units, Nat.mul_div_cancel m one_pos]
    · obtain ⟨m, hm⟩ := exists_units h (Nat.le_trans (Nat.le_of_lt hf) (Nat.le_of_eq he.symm))
      rw [roundQuanta_add_half_of_large h hf he, hm, div_units, Nat.mul_div_cancel m one_pos]
  · exact div_roundQuanta_of_carry h hq (by omega)

/-- The sum is small or the half is lost. -/
theorem excess_le_or_eq (hq : halfQuanta ≤ q) :
    excess (q + halfQuanta) ≤ fractionBits ∨ roundQuanta (q + halfQuanta) 1 = q := by
  have hle : excess q ≤ excess (q + halfQuanta) := excess_mono (Nat.le_add_right q halfQuanta)
  have hsucc : excess (q + halfQuanta) ≤ excess q + 1 := excess_le_succ (by omega)
  by_cases hf : fractionBits < excess (q + halfQuanta)
  · by_cases he : excess q = excess (q + halfQuanta)
    · exact .inr (roundQuanta_add_half_of_large h hf he)
    · have := excess_lt_of_carry h (by omega)
      omega
  · exact .inl (Nat.le_of_not_lt hf)

theorem roundQuanta_sub_half_of_large (hq : halfQuanta < q)
    (hf : fractionBits < excess (q - halfQuanta)) : roundQuanta (q - halfQuanta) 1 = q := by
  have hdvd : 2 ^ excess (q - halfQuanta) ∣ q :=
    Nat.dvd_trans (Nat.pow_dvd_pow 2 (excess_mono (Nat.sub_le q halfQuanta))) (two_pow_excess_dvd h)
  have hle := roundQuanta_le (Nat.sub_le q halfQuanta) hdvd
  have hnear := le_two_mul_roundQuanta (q - halfQuanta)
  have hstep := two_mul_one_le hf
  have hlt := halfQuanta_lt_one
  by_contra hne
  have hnext := add_le_of_dvd_of_lt (dvd_roundQuanta _) hdvd (Nat.lt_of_le_of_ne hle hne)
  omega

theorem exists_units_sub_half (hq : halfQuanta < q)
    (hf : excess (q - halfQuanta) = fractionBits) : ∃ k, q = (k + 1) * one ∧
      q - halfQuanta = k * one + halfQuanta ∧ 2 ^ (precision - 1) ≤ k ∧ k < 2 ^ precision := by
  have hle : fractionBits ≤ excess q := hf ▸ excess_mono (Nat.sub_le q halfQuanta)
  obtain ⟨m, hm⟩ := exists_units h hle
  have hpos : 0 < m := by
    by_contra hzero
    rw [Nat.eq_zero_of_not_pos hzero, Nat.zero_mul] at hm
    omega
  have hsub := units_sub_half hpos
  rw [← hm] at hsub
  have hlarge := two_pow_le_of_excess (n := q - halfQuanta) (by rw [hf]; decide)
  have hsmall := lt_two_pow_excess (q - halfQuanta)
  have hlt := halfQuanta_lt_one
  rw [hf, ← two_pow_mul_one, hsub] at hlarge hsmall
  refine ⟨m - 1, by rw [Nat.sub_add_cancel hpos]; exact hm, hsub, ?_, ?_⟩
  · refine Nat.le_of_lt_succ (Nat.lt_of_mul_lt_mul_right (a := one) ?_)
    rw [Nat.succ_mul]
    omega
  · exact Nat.lt_of_mul_lt_mul_right (Nat.lt_of_le_of_lt (Nat.le_add_right _ _) hsmall)

theorem wholeUnits_sub_half (hq : halfQuanta < q) (hodd : ¬ OddUnits q) :
    wholeUnits true (roundQuanta (q - halfQuanta) 1) = wholeUnits true (q - halfQuanta) := by
  have hle : excess (q - halfQuanta) ≤ excess q := excess_mono (Nat.sub_le q halfQuanta)
  rcases Nat.lt_trichotomy (excess (q - halfQuanta)) fractionBits with hf | hf | hf
  · have hdvd := Nat.dvd_trans (Nat.pow_dvd_pow 2 hle) (two_pow_excess_dvd h)
    rw [roundQuanta_of_dvd (Nat.dvd_sub hdvd (pow_dvd_half hf))]
  · obtain ⟨k, hk, hsub, hlo, hhi⟩ := exists_units_sub_half h hq hf
    have heven : k % 2 = 1 := by
      by_contra heven
      refine hodd ⟨k + 1, by omega, by omega, ?_, hk⟩
      have : 2 ^ precision % 2 = 0 := by decide
      omega
    rw [hsub, roundQuanta_tie_units hlo hhi, heven, wholeUnits_units, wholeUnits_units_add_half]
  · obtain ⟨m, hm⟩ := exists_units h (Nat.le_trans (Nat.le_of_lt hf) hle)
    rw [roundQuanta_sub_half_of_large h hq hf]
    have hm1 : 0 < m := by
      by_contra hm0
      rw [Nat.eq_zero_of_not_pos hm0, Nat.zero_mul] at hm
      omega
    rw [hm, units_sub_half hm1, wholeUnits_units, wholeUnits_units_add_half]
    omega

end Sum

end Half

end Binary64
end JsonStencil
