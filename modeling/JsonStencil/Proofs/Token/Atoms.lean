import JsonStencil.Proofs.Numeric.RoundTrip
import JsonStencil.Proofs.Token.Composition
import Mathlib.Data.List.TakeWhile

/-!
# Words and numbers

A word that is no keyword is one identifier. A number is its magnitude as one number, behind a minus
sign when it is negative, where infinity and not-a-number are words.
-/

namespace JsonStencil

open Lexer

/-- A name as the expression language writes it, which is no keyword. -/
def IsIdentifier (name : String) : Prop :=
  ∃ c cs, name.toList = c :: cs ∧ isIdentifierStart c ∧ (∀ x ∈ cs, isIdentifierChar x) ∧
    Keyword.ofText? name = none

instance (name : String) : Decidable (IsIdentifier name) :=
  match h : name.toList with
  | [] => .isFalse fun ⟨c, cs, hname, _⟩ => by simp [h] at hname
  | c :: cs =>
    decidable_of_iff (isIdentifierStart c ∧ cs.all isIdentifierChar ∧
      Keyword.ofText? name = none) <| by
      rw [List.all_eq_true]
      constructor
      · exact fun hname => ⟨c, cs, h, hname⟩
      · rintro ⟨c', cs', hname, hrest⟩
        rw [h] at hname
        cases hname
        exact hrest

theorem Lexes.of_readToken {c : Char} {cs : List Char} {token : Token} {next : Cursor}
    (hc : isSeparator c = false)
    (h : readToken c (.ofText (c :: cs)) = .ok (token, next)) (hnext : next.rest = []) :
    Lexes (c :: cs) [token.erase] := by
  simpa using Lexes.of_tokenize (tokenize_of_readToken hc h hnext)

theorem isSeparator_of_isDigit {c : Char} (h : c.isDigit) : isSeparator c = false := by
  refine Bool.eq_false_iff.2 fun hsep => ?_
  simp only [isSeparator, Bool.or_eq_true, decide_eq_true_eq] at hsep
  rcases hsep with ((rfl | rfl) | rfl) | rfl <;> cases h

theorem isSeparator_of_isIdentifierStart {c : Char} (h : isIdentifierStart c) :
    isSeparator c = false := by
  refine Bool.eq_false_iff.2 fun hsep => ?_
  simp only [isSeparator, Bool.or_eq_true, decide_eq_true_eq] at hsep
  have hnot : isIdentifierStart c = false := by
    refine not_isIdentifierStart ?_
    rcases hsep with ((rfl | rfl) | rfl) | rfl <;> decide
  rw [hnot] at h
  cases h

theorem Lexes.word {name : String} (h : IsIdentifier name) :
    Lexes name.toList [.identifier name] := by
  obtain ⟨c, cs, hname, hc, hcs, hkeyword⟩ := h
  have hwhole : ∀ x ∈ c :: cs, isIdentifierChar x := by
    intro x hx
    rcases List.mem_cons.1 hx with rfl | hx
    · simp [isIdentifierChar, hc]
    · exact hcs x hx
  have hword : readWord (.ofText (c :: cs)) =
      (.identifier name, Cursor.skipWhile isIdentifierChar (.ofText (c :: cs))) := by
    have htake : (c :: cs).takeWhile isIdentifierChar = name.toList := by
      rw [hname]
      exact List.takeWhile_eq_self_iff.2 hwhole
    simp only [readWord, Cursor.ofText, htake, String.ofList_toList, hkeyword]
  have hread : readToken c (.ofText (c :: cs)) =
      .ok (.identifier name, Cursor.skipWhile isIdentifierChar (.ofText (c :: cs))) := by
    rw [readToken_word hc rfl, hword]
  rw [hname]
  refine Lexes.of_readToken (isSeparator_of_isIdentifierStart hc) hread ?_
  exact List.dropWhile_eq_nil_iff.2 hwhole

theorem Lexes.magnitude (negative : Bool) {quanta : Nat} (h : Binary64.Representable quanta) :
    Lexes (Binary64.shortest negative quanta (.finite negative quanta h)).positional
      [.number (.finite false quanta h)] := by
  obtain ⟨d, hd, hvalue⟩ := Binary64.exists_read?_shortest negative h
  obtain ⟨c, cs, htext, hc, hcs⟩ :=
    Decimal.positional_chars (Binary64.shortest negative quanta (.finite negative quanta h))
  rw [htext] at hd ⊢
  have hbody : ∀ x ∈ c :: cs, isNumberBody x := by
    intro x hx
    rcases List.mem_cons.1 hx with rfl | hx
    · simp [isNumberBody, hc]
    · simpa [isNumberBody] using hcs x hx
  have htake : (c :: cs).takeWhile isNumberBody = c :: cs := List.takeWhile_eq_self_iff.2 hbody
  have hdrop : (c :: cs).dropWhile isNumberBody = [] := List.dropWhile_eq_nil_iff.2 hbody
  have hread : readToken c (.ofText (c :: cs)) =
      .ok (.number (.finite false quanta h),
        Cursor.skipWhile isNumberBody (.ofText (c :: cs))) := by
    rw [readToken_number hc, readNumber]
    simp [Cursor.ofText, Cursor.skipWhile, htake, hdrop, exponentChars, Cursor.skip, numberToken,
      hd, hvalue, Position.after]
  exact Lexes.of_readToken (isSeparator_of_isDigit hc) hread hdrop

end JsonStencil
