import JsonStencil.Token.Lexer

/-!
# Character classes in ASCII

The changes of the Unicode classes lie beyond ASCII, where letters and digits are the plain ones.
-/

namespace JsonStencil

theorem insideChanges_of_forall_lt {changes : List Nat} {n : Nat} (h : ∀ x ∈ changes, n < x) :
    insideChanges changes n = false := by
  have hcount : changes.countP (· ≤ n) = 0 := by
    rw [List.countP_eq_zero]
    intro x hx
    simpa using h x hx
  simp [insideChanges, hcount]

theorem isAlphabetic_of_lt {c : Char} (h : c.toNat < 128) : isAlphabetic c = c.isAlpha := by
  have hchanges : ∀ x ∈ CharClass.alphabetic, 128 ≤ x := by decide +kernel
  have hinside := insideChanges_of_forall_lt fun x hx => Nat.lt_of_lt_of_le h (hchanges x hx)
  rw [isAlphabetic, hinside, Bool.or_false]

theorem isNumeric_of_lt {c : Char} (h : c.toNat < 128) : isNumeric c = c.isDigit := by
  have hchanges : ∀ x ∈ CharClass.numeric, 128 ≤ x := by decide +kernel
  have hinside := insideChanges_of_forall_lt fun x hx => Nat.lt_of_lt_of_le h (hchanges x hx)
  rw [isNumeric, hinside, Bool.or_false]

namespace Lexer

theorem isIdentifierStart_of_lt {c : Char} (h : c.toNat < 128) :
    isIdentifierStart c = (c.isAlpha || c = '_' || c = '$') := by
  rw [isIdentifierStart, isAlphabetic_of_lt h]

theorem isIdentifierChar_of_lt {c : Char} (h : c.toNat < 128) :
    isIdentifierChar c = (c.isAlpha || c = '_' || c = '$' || c.isDigit) := by
  rw [isIdentifierChar, isIdentifierStart_of_lt h, isNumeric_of_lt h]

theorem not_isIdentifierChar {c : Char} (h : c.toNat < 128 ∧
    (c.isAlpha || c = '_' || c = '$' || c.isDigit) = false) : isIdentifierChar c = false :=
  (isIdentifierChar_of_lt h.1).trans h.2

theorem not_isIdentifierStart {c : Char} (h : c.toNat < 128 ∧
    (c.isAlpha || c = '_' || c = '$') = false) : isIdentifierStart c = false :=
  (isIdentifierStart_of_lt h.1).trans h.2

theorem isIdentifierStart_of_isDigit {c : Char} (h : c.isDigit) : isIdentifierStart c = false := by
  have hrange : 48 ≤ c.toNat ∧ c.toNat ≤ 57 := by
    simp only [Char.isDigit, Bool.and_eq_true, decide_eq_true_eq] at h
    exact h
  have hall : ∀ n ∈ List.range' 48 10, ((Char.ofNat n).isAlpha || Char.ofNat n = '_' ||
      Char.ofNat n = '$') = false := by decide
  refine not_isIdentifierStart ⟨by omega, ?_⟩
  simpa using hall c.toNat (by simp only [List.mem_range'_1]; omega)

end Lexer

end JsonStencil
