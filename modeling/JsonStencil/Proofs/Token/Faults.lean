import JsonStencil.Proofs.Failures
import JsonStencil.Proofs.Token.Layout

/-!
# The places of lexical errors

Every reader of the lexer moves its cursor over the text in front of it. A reader fails at the
cursor that it comes to, or between two of its cursors, so what it reports is a place in the text.
It starts at a token, or behind a backslash.
-/

namespace JsonStencil

/-- A place that cannot be told from the end of a line before it: a character other than a blank
stands at it, or no part of a line end stands before it. -/
def Anchored (cs : List Char) (i : Nat) : Prop :=
  (∃ c ∈ (cs.drop i).head?, Lexer.isSeparator c = false) ∨
    ∃ c ∈ (cs.take i).getLast?, c ≠ '\n' ∧ c ≠ '\r'

/-- The span is that of some characters of the text, at an anchored place. -/
def Spot (cs : List Char) (span : Span) : Prop :=
  ∃ i j, i ≤ j ∧ j ≤ cs.length ∧ Anchored cs i ∧ span = .slice cs i j

theorem Anchored.of_head {cs : List Char} {i : Nat} {c : Char} {ds : List Char}
    (h : cs.drop i = c :: ds)
    (hc : Lexer.isSeparator c = false) : Anchored cs i :=
  .inl ⟨c, by rw [h]; rfl, hc⟩

theorem Anchored.behind {cs : List Char} {i : Nat} {c : Char} {ds : List Char}
    (h : cs.drop i = c :: ds)
    (hc : c ≠ '\n' ∧ c ≠ '\r') : Anchored cs (i + 1) := by
  refine .inr ⟨c, ?_, hc⟩
  rw [List.take_add, h, List.take_succ_cons, List.take_zero, List.getLast?_concat]
  rfl

namespace Lexer

/-- The cursor behind some characters of a text. -/
def cursorAt (cs : List Char) (i : Nat) : Cursor := ⟨Position.start.after (cs.take i), cs.drop i⟩

/-- The error stands between two places of the text, the first of which is anchored. -/
def PlacedIn (cs : List Char) (e : LexicalError) : Prop :=
  ∃ i j, i ≤ j ∧ Anchored cs i ∧ e.span = .slice cs i j

variable {cs : List Char} {i j : Nat} {last : Cursor}

theorem cursorAt_skip (n : Nat) : (cursorAt cs i).skip n = cursorAt cs (i + n) := by
  simp [cursorAt, Cursor.skip, List.take_add, Position.after_append]

theorem exists_cursorAt_of_append {used : List Char}
    (hrest : (cursorAt cs i).rest = used ++ last.rest)
    (hposition : last.position = (cursorAt cs i).position.after used) :
    ∃ j, i ≤ j ∧ last = cursorAt cs j := by
  refine ⟨i + used.length, Nat.le_add_right _ _, ?_⟩
  have hused : (cursorAt cs i).rest.take used.length = used := by rw [hrest, List.take_left]
  have hlast : (cursorAt cs i).rest.drop used.length = last.rest := by rw [hrest, List.drop_left]
  rw [← cursorAt_skip, Cursor.skip, hused, hlast, ← hposition]

theorem exists_cursorAt_skipWhile (cs : List Char) (i : Nat) (p : Char → Bool) :
    ∃ j, i ≤ j ∧ (cursorAt cs i).skipWhile p = cursorAt cs j :=
  exists_cursorAt_of_append List.takeWhile_append_dropWhile.symm rfl

theorem fail_placed {α : Type} (fault : LexicalFault) (hi : Anchored cs i) (hij : i ≤ j) :
    FailsWith (PlacedIn cs) (fail fault (cursorAt cs i).position (cursorAt cs j) : Except _ α) :=
  .error ⟨i, j, hij, hi, rfl⟩

theorem readEscape_placed (hi : Anchored cs i) :
    FailsWith (PlacedIn cs) (readEscape (cursorAt cs i)) := by
  have hescape (a : Option Char) (fault : LexicalFault) (n : Nat) : FailsWith (PlacedIn cs)
      ((a.map fun c => (.ok (c, (cursorAt cs i).skip n) : Except _ _)).getD
        (fail fault (cursorAt cs i).position ((cursorAt cs i).skip n))) := by
    cases a with
    | some c => exact .ok _
    | none =>
      rw [cursorAt_skip]
      exact fail_placed fault hi (Nat.le_add_right i n)
  unfold readEscape
  split
  · exact fail_placed _ hi (Nat.le_refl i)
  · exact hescape _ _ _
  · exact hescape _ _ _
  · exact hescape _ _ _

theorem exists_cursorAt_of_readEscape {c : Char} (h : readEscape (cursorAt cs i) = .ok (c, last)) :
    ∃ j, i ≤ j ∧ last = cursorAt cs j := by
  rcases readEscape_cases h with ⟨_, _, _, rfl⟩ | ⟨_, _, _, _, rfl⟩ | ⟨_, _, _, _, _, rfl⟩ <;>
    exact ⟨_, Nat.le_add_right i _, cursorAt_skip _⟩

/-- A text in quotes is opened at one cursor and read from a later one on. -/
theorem readString_placed {quote : Char} (hi : Anchored cs i) (hij : i ≤ j) :
    FailsWith (PlacedIn cs) (readString quote (cursorAt cs i).position (cursorAt cs j)) := by
  generalize hstart : (cursorAt cs i).position = start
  generalize hcur : cursorAt cs j = cur
  fun_induction readString quote start cur generalizing j with
  | case1 =>
    subst hstart hcur
    exact fail_placed _ hi hij
  | case2 => exact .ok _
  | case3 cur cs' e hesc hrest hquote =>
    subst hcur
    rw [cursorAt_skip] at hesc
    exact .error (readEscape_placed (.behind hrest (by decide)) e hesc)
  | case4 cur cs' c next hesc hrest hquote ih =>
    subst hcur
    rw [cursorAt_skip] at hesc
    obtain ⟨k, hk, hnext⟩ := exists_cursorAt_of_readEscape hesc
    exact (ih (by omega) hnext.symm).map _
  | case5 cur c cs' hrest hquote hback ih =>
    subst hcur
    exact (ih (Nat.le_add_right_of_le hij) (cursorAt_skip 1).symm).map _

/-- Code is copied from a cursor on, behind the start of the literal. -/
theorem copyCode_placed {frames : List CodeFrame} (hi : Anchored cs i) (hij : i ≤ j) :
    FailsWith (PlacedIn cs) (copyCode (cursorAt cs i).position frames (cursorAt cs j).position
      (cursorAt cs j).rest) := by
  generalize hrest : (cursorAt cs j).rest = ds
  induction ds generalizing frames j with
  | nil => exact .error ⟨i, j, hij, hi, rfl⟩
  | cons c ds ih =>
    have hskip : (cursorAt cs j).skip 1 = cursorAt cs (j + 1) := cursorAt_skip 1
    have hposition : (cursorAt cs j).position.advance c = (cursorAt cs (j + 1)).position := by
      rw [← hskip, Cursor.skip, hrest]
      rfl
    have hds : (cursorAt cs (j + 1)).rest = ds := by rw [← hskip, rest_skip_one hrest]
    rw [copyCode]
    split
    · exact .ok _
    · split
      · rw [hposition]
        exact .error ⟨i, j + 1, Nat.le_add_right_of_le hij, hi, rfl⟩
      · rw [hposition]
        exact (ih (Nat.le_add_right_of_le hij) hds).map _

theorem exists_cursorAt_of_copyCode {start : Position} {copied : List Char}
    (h : copyCode start [.braces 0] (cursorAt cs i).position (cursorAt cs i).rest =
      .ok (copied, last)) : ∃ j, i ≤ j ∧ last = cursorAt cs j := by
  obtain ⟨hcopied, hreads⟩ := copyCode_reads ⟨[], 0, rfl⟩ h
  have hrest : (cursorAt cs i).rest = copied ++ ['}'] ++ last.rest := by
    rw [hcopied, List.append_assoc, List.singleton_append]
  exact exists_cursorAt_of_append hrest ((hreads start).eq_of_eq_ok hrest h).2

theorem eq_rest_of_cons_cons {c d : Char} {ds : List Char}
    (h : (cursorAt cs i).rest = c :: d :: ds) : ds = (cursorAt cs (i + 2)).rest := by
  rw [← cursorAt_skip, Cursor.skip, h]
  rfl

theorem readTemplate_placed (hi : Anchored cs i) (hij : i ≤ j) :
    FailsWith (PlacedIn cs) (readTemplate (cursorAt cs i).position (cursorAt cs j)) := by
  generalize hstart : (cursorAt cs i).position = start
  generalize hcur : cursorAt cs j = cur
  fun_induction readTemplate start cur generalizing j with
  | case1 =>
    subst hstart hcur
    exact fail_placed _ hi hij
  | case2 => exact .ok _
  | case3 cur cs' hrest e hesc =>
    subst hcur
    rw [cursorAt_skip] at hesc
    exact .error (readEscape_placed (.behind hrest (by decide)) e hesc)
  | case4 cur cs' hrest c next hesc ih =>
    subst hcur
    rw [cursorAt_skip] at hesc
    obtain ⟨k, hk, hnext⟩ := exists_cursorAt_of_readEscape hesc
    exact (ih (by omega) hnext.symm).map _
  | case5 cur cs' hrest e hcopy =>
    subst hstart hcur
    rw [cursorAt_skip, eq_rest_of_cons_cons hrest] at hcopy
    exact .error (copyCode_placed hi (Nat.le_add_right_of_le hij) e hcopy)
  | case6 cur cs' hrest copied next hcopy ih =>
    subst hcur
    rw [cursorAt_skip, eq_rest_of_cons_cons hrest] at hcopy
    obtain ⟨k, hk, hnext⟩ := exists_cursorAt_of_copyCode hcopy
    exact (ih (by omega) hnext.symm).map _
  | case7 cur c cs' hback hesc hcode hrest ih =>
    subst hcur
    exact (ih (Nat.le_add_right_of_le hij) (cursorAt_skip 1).symm).map _

theorem numberToken_placed {text : List Char} (hi : Anchored cs i) (hij : i ≤ j) :
    FailsWith (PlacedIn cs) (numberToken text (cursorAt cs i).position (cursorAt cs j)) := by
  unfold numberToken
  split
  · exact fail_placed _ hi hij
  · split
    · exact .ok _
    · exact fail_placed _ hi hij

theorem readNumber_placed {front : List Char} (hi : Anchored cs i) (hij : i ≤ j) :
    FailsWith (PlacedIn cs) (readNumber front (cursorAt cs i).position (cursorAt cs j)) := by
  obtain ⟨k, hk, hbody⟩ := exists_cursorAt_skipWhile cs j isNumberBody
  unfold readNumber
  dsimp only
  rw [hbody, cursorAt_skip]
  exact numberToken_placed hi (by omega)

theorem readToken_placed (c : Char) (hi : Anchored cs i) :
    FailsWith (PlacedIn cs) (readToken c (cursorAt cs i)) := by
  have hone : i ≤ i + 1 := Nat.le_add_right i 1
  unfold readToken
  rw [cursorAt_skip]
  split
  · exact (readString_placed hi hone).map _
  · split
    · exact (readTemplate_placed hi hone).map _
    · split
      · exact readNumber_placed hi (Nat.le_refl i)
      · split
        · exact readNumber_placed hi hone
        · split
          · exact .ok _
          · split
            · exact .ok _
            · exact fail_placed _ hi hone

theorem exists_cursorAt_of_readToken {c : Char} {cs' : List Char} {token : Token}
    (hrest : (cursorAt cs i).rest = c :: cs')
    (h : readToken c (cursorAt cs i) = .ok (token, last)) : ∃ j, i ≤ j ∧ last = cursorAt cs j := by
  have hcur : cursorAt cs i = ⟨(cursorAt cs i).position, c :: cs'⟩ := by rw [← hrest]
  rw [hcur] at h
  obtain ⟨used, -, rfl, hlast, -⟩ := readToken_alone h
  exact exists_cursorAt_of_append hrest hlast

theorem readTokens_placed : FailsWith (PlacedIn cs) (readTokens (cursorAt cs i)) := by
  generalize hcur : cursorAt cs i = cur
  fun_induction readTokens cur generalizing i with
  | case1 => exact .ok _
  | case2 cur c cs' hrest hsep ih =>
    subst hcur
    exact ih (cursorAt_skip 1).symm
  | case3 cur c cs' hrest hsep e hread =>
    subst hcur
    exact .error (readToken_placed c (.of_head hrest (Bool.eq_false_iff.2 hsep)) e hread)
  | case4 cur c cs' hrest hsep token next hread ih =>
    subst hcur
    obtain ⟨j, -, hnext⟩ := exists_cursorAt_of_readToken hrest hread
    exact (ih hnext.symm).map _

theorem PlacedIn.spot {e : LexicalError} (h : PlacedIn cs e) : Spot cs e.span := by
  obtain ⟨i, j, hij, hanchored, hspan⟩ := h
  refine ⟨min i cs.length, min j cs.length, by omega, Nat.min_le_right _ _, ?_, ?_⟩
  · by_cases hi : i ≤ cs.length
    · rwa [Nat.min_eq_left hi]
    · have hle := Nat.le_of_lt (Nat.lt_of_not_le hi)
      rw [Anchored, List.drop_eq_nil_of_le hle, List.take_of_length_le hle] at hanchored
      rw [Nat.min_eq_right hle, Anchored, List.drop_length, List.take_length]
      exact hanchored
  · rw [hspan, Span.slice, Span.slice, ← List.take_eq_take_min, ← List.take_eq_take_min]

end Lexer

/-- What makes a text no tokens has a place in it. -/
theorem spot_of_tokenize {source : String} {e : LexicalError} (h : tokenize source = .error e) :
    Spot source.toList e.span :=
  (Lexer.readTokens_placed (i := 0) e h).spot

end JsonStencil
