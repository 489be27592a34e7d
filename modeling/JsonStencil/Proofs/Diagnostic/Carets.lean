import JsonStencil.Proofs.Diagnostic.Lines
import JsonStencil.Proofs.Grammar.Refusals
import JsonStencil.Proofs.Text.Places

/-!
# Carets below the quoted line

The place of an error is in a line of the source, which is quoted, and the carets start below the
character at that place. They stay below the line if the range of the error ends in it. A range that
goes on behind the line gets a caret for each character of it all the same.
-/

namespace JsonStencil

namespace Diagnostic

variable {cs front back : List Char} {n w : Nat}

def blanks (n : Nat) : String := .ofList (List.replicate n ' ')

theorem blank_append_blanks (n : Nat) : " " ++ blanks n = blanks (n + 1) := by
  apply String.toList_inj.1
  simp [blanks, List.replicate_succ]

theorem width_append (cs ds : List Char) : width (cs ++ ds) = width cs + width ds := by
  rw [width, width, width, List.length_append, List.count_append]
  omega

theorem length_le_width (cs : List Char) : cs.length ≤ width cs := Nat.le_add_right _ _

/-- The carets end where the line ends, or one of them stands behind its end. -/
def Fits (front back : List Char) (carets : Nat) : Prop :=
  width front + carets ≤ width (front ++ back) ∨ carets = 1 ∧ back = []

theorem fits_one : Fits front back 1 := by
  cases back with
  | nil => exact .inr ⟨rfl, rfl⟩
  | cons c back =>
    have hwidth := length_le_width (c :: back)
    rw [List.length_cons] at hwidth
    refine .inl ?_
    rw [width_append]
    omega

/-- Carets below the characters of a part of the line that starts where they start. -/
theorem fits_of_prefix {text : List Char} (h : text <+: back) :
    Fits front back (max text.length 1) := by
  rcases Nat.lt_or_ge 1 text.length with hlength | hlength
  · have hwidth := length_le_width back
    have hle := h.length_le
    refine .inl ?_
    rw [width_append, Nat.max_eq_left (Nat.le_of_lt hlength)]
    omega
  · rw [Nat.max_eq_right hlength]
    exact fits_one

/-- The rendered error quotes a line of the source with its number, and below it as many carets from
the character behind `front` on. -/
def Shows (source : String) (e : SyntaxError) (span : Span) (front back : List Char)
    (carets : Nat) :
    Prop :=
  ∃ margin label, label ∈ ["lexical error", "parse error"] ∧
    e.render source =
      "error: " ++ e.message ++ "\n" ++
      "  --> line " ++ toString span.line ++ ":" ++ toString span.column ++ "\n   |\n" ++
      (blanks margin ++ toString span.line ++ " | " ++ .ofList (front ++ back) ++ "\n" ++
        blanks (margin + (toString span.line).length) ++ " | " ++ blanks (width front) ++
        .ofList (List.replicate carets '^') ++ " " ++ label ++ "\n") ++ "   |\n"

theorem length_toString_le_succ (n : Nat) : (toString n).length ≤ (toString (n + 1)).length := by
  have hlt : n + 1 < 10 ^ (n + 1).repr.length :=
    (Nat.length_repr_le_iff Nat.length_repr_pos).1 (Nat.le_refl _)
  exact (Nat.length_repr_le_iff Nat.length_repr_pos).2 (Nat.lt_of_succ_lt hlt)

theorem row_eq (w : Nat) (number text : String) :
    row w number text = blanks (w - number.length + 1) ++ number ++ " | " ++ text ++ "\n" := by
  rw [← blank_append_blanks]
  rfl

theorem shows_of_line {source : String} {e : SyntaxError} {span : Span}
    (hspan : e.span? = some span)
    (hzero : span.line ≠ 0) (hline : (lines source.toList)[span.line - 1]? = some (front ++ back))
    (hcolumn : span.column - 1 = front.length) :
    Shows source e span front back (caretCount source.toList span) := by
  obtain ⟨label, hlabel, hrender⟩ : ∃ label ∈ ["lexical error", "parse error"],
      e.render source = render source ⟨e.message, label, e.span?⟩ := by
    cases e with
    | lexical => exact ⟨"lexical error", by simp, rfl⟩
    | _ => exact ⟨"parse error", by simp, rfl⟩
  have hle : (toString span.line).length ≤ max 2 (toString (span.line + 1)).length :=
    Nat.le_trans (length_toString_le_succ _) (Nat.le_max_right _ _)
  refine ⟨max 2 (toString (span.line + 1)).length - (toString span.line).length + 1, label, hlabel,
    ?_⟩
  have hmargin : max 2 (toString (span.line + 1)).length - (toString span.line).length + 1 +
      (toString span.line).length = max 2 (toString (span.line + 1)).length - "".length + 1 := by
    rw [Nat.add_right_comm, Nat.sub_add_cancel hle]
    rfl
  rw [hrender, hspan, render]
  dsimp only
  unfold quotation
  rw [if_neg hzero, hline]
  dsimp only
  rw [hcolumn, List.take_left, row_eq, row_eq, hmargin, headline]
  simp only [blanks, String.ofList_append, String.append_assoc, String.append_empty]

/-- The line of a place is shown for a span with the line and the column of the place. -/
theorem exists_shows {source : String} {e : SyntaxError} {span : Span} {before rest : List Char}
    (hspan : e.span? = some span) (hsource : source.toList = before ++ rest)
    (hline : span.line = (Span.behind before []).line)
    (hcolumn : span.column = (Span.behind before []).column)
    (hrest : rest = [] → ∃ c ∈ before.getLast?, c ≠ '\n')
    (hend : ['\n'] <+: rest → before.getLast? ≠ some '\r') :
    ∃ above front back below, before = above ++ front ∧ rest = back ++ below ∧
      InLine source.toList above front back below ∧
      Shows source e span front back (caretCount source.toList span) := by
  obtain ⟨above, front, back, below, hbefore, hback, hinside, hquoted, hwidth⟩ :=
    exists_inLine hrest hend
  rw [← hsource] at hinside hquoted
  refine ⟨above, front, back, below, hbefore, hback, hinside, shows_of_line hspan ?_ ?_ ?_⟩
  · rw [hline]
    exact Nat.ne_of_gt (Nat.lt_of_lt_of_le Nat.zero_lt_one (Nat.le_add_right 1 _))
  · rw [hline, Span.behind, Nat.add_sub_cancel_left]
    exact hquoted
  · rw [hcolumn, Span.behind, Nat.add_sub_cancel_left]
    exact hwidth

theorem caretCount_behind (before text behind : List Char) :
    caretCount (before ++ text ++ behind) (.behind before text) = max text.length 1 := by
  rw [caretCount, Span.behind, byteRange?_append]
  rfl

theorem length_le_byteLength (cs : List Char) : cs.length ≤ byteLength cs := by
  induction cs with
  | nil => exact Nat.le_refl _
  | cons c cs ih =>
    have hpos := c.utf8Size_pos
    rw [List.length_cons, byteLength_cons]
    omega

/-- The one byte at the start of a source gets one caret, though it be a part of a character. -/
theorem caretCount_single (c : Char) (cs : List Char) :
    caretCount (c :: cs) (.single 1 1 0) = 1 := by
  have hpos := c.utf8Size_pos
  by_cases hone : c.utf8Size = 1
  · have hbehind : Span.single 1 1 0 = .behind [] [c] := by
      simp [Span.single, Span.behind, byteLength, hone]
    rw [hbehind]
    exact caretCount_behind [] [c] cs
  · have hsplit : splitBytes? 1 (c :: cs) = none := by
      rw [splitBytes?, if_neg Nat.one_ne_zero, if_pos (by omega)]
    have hrange : byteRange? 0 1 (c :: cs) = none := by
      rw [byteRange?, if_neg (Nat.not_lt_zero 1)]
      show Option.map Prod.fst (splitBytes? 1 (c :: cs)) = none
      rw [hsplit]
      rfl
    show (Option.map _ (byteRange? 0 1 (c :: cs))).getD 1 = 1
    rw [hrange]
    rfl

/-- Two fronts of one text are compared by their bytes. -/
theorem prefix_of_byteLength_le {front text : List Char} (hfront : front <+: cs)
    (htext : text <+: cs) (hle : byteLength text ≤ byteLength front) : text <+: front := by
  rcases List.prefix_or_prefix_of_prefix htext hfront with h | ⟨more, rfl⟩
  · exact h
  · rw [byteLength_append] at hle
    rw [eq_nil_of_byteLength (by omega : byteLength more = 0), List.append_nil]

theorem eq_of_byteLength_eq {front text behind : List Char} (h : front ++ back = text ++ behind)
    (hbytes : byteLength front = byteLength text) : front = text := by
  have hsplit := splitBytes?_append front back
  rw [h, hbytes, splitBytes?_append] at hsplit
  exact (congrArg Prod.fst (Option.some.inj hsplit)).symm

end Diagnostic

open Diagnostic

theorem Anchored.exists_last {cs : List Char} {i : Nat} (h : Anchored cs i)
    (hnil : cs.drop i = []) :
    ∃ c ∈ (cs.take i).getLast?, c ≠ '\n' := by
  rcases h with ⟨c, hc, -⟩ | ⟨c, hc, hfeed, -⟩
  · rw [hnil] at hc
    cases hc
  · exact ⟨c, hc, hfeed⟩

theorem Anchored.last_ne_return {cs : List Char} {i : Nat} (h : Anchored cs i)
    (hfeed : ['\n'] <+: cs.drop i) : (cs.take i).getLast? ≠ some '\r' := by
  rcases h with ⟨c, hc, hsep⟩ | ⟨c, hc, -, hreturn⟩
  · obtain ⟨rest, hrest⟩ := hfeed
    rw [← hrest] at hc
    obtain rfl := Option.some.inj hc
    cases hsep
  · intro hlast
    rw [hc] at hlast
    exact hreturn (Option.some.inj hlast)

/-- A span at an anchored place is shown with a caret for each of its characters. -/
theorem Spot.exists_shows {source : String} {e : SyntaxError} {span : Span}
    (h : Spot source.toList span) (hspan : e.span? = some span) :
    ∃ above front back below text behind, InLine source.toList above front back below ∧
      back ++ below = text ++ behind ∧ span = .behind (above ++ front) text ∧
      Shows source e span front back (max text.length 1) := by
  obtain ⟨i, j, hij, -, hanchored, rfl⟩ := h
  obtain ⟨before, rest, hbefore, hrest⟩ :
      ∃ before rest, before = source.toList.take i ∧ rest = source.toList.drop i := ⟨_, _, rfl, rfl⟩
  have hsource : source.toList = before ++ rest := by
    rw [hbefore, hrest, List.take_append_drop]
  obtain ⟨text, behind, htext, hslice⟩ : ∃ text behind, rest = text ++ behind ∧
      Span.slice source.toList i j = .behind before text := by
    refine ⟨(source.toList.take j).drop i, source.toList.drop j, ?_, ?_⟩
    · have hwhole : before ++ rest =
          before ++ ((source.toList.take j).drop i ++ source.toList.drop j) := by
        rw [← hsource, ← List.append_assoc, hbefore, ← Span.take_eq_append hij,
          List.take_append_drop]
      exact List.append_cancel_left hwhole
    · rw [hbefore, Span.slice_eq_behind hij]
  rw [hslice] at hspan ⊢
  obtain ⟨above, front, back, below, rfl, hback, hline, hshows⟩ :=
    Diagnostic.exists_shows hspan hsource rfl rfl
      (fun hnil => hbefore ▸ hanchored.exists_last (hrest ▸ hnil))
      (fun hfeed => hbefore ▸ hanchored.last_ne_return (hrest ▸ hfeed))
  have hcarets : caretCount source.toList (.behind (above ++ front) text) = max text.length 1 := by
    rw [hsource, htext, ← List.append_assoc, caretCount_behind]
  rw [hcarets] at hshows
  exact ⟨above, front, back, below, text, behind, hline, hback ▸ htext, rfl, hshows⟩

/-- A rendered error quotes the line that the first byte of its place is in, and the carets start
below the character there, one for each character of the range and at least one. They end where the
line ends at the latest, or one of them stands behind it, if the range ends in the line or has one
character. -/
theorem Expr.parse_error_carets (source : String) (e : SyntaxError) (span : Span)
    (h : parse source = .error e) (hspan : e.span? = some span) :
    ∃ above front back below carets, InLine source.toList above front back below ∧
      span.start = byteLength (above ++ front) ∧ Shows source e span front back carets ∧
      (∀ text behind, back ++ below = text ++ behind →
        span.stop = span.start + byteLength text → carets = max text.length 1) ∧
      (span.stop ≤ byteLength (above ++ front ++ back) ∨ carets = 1 → Fits front back carets) := by
  rcases refusal_of_parse h with rfl | hplaced
  · cases hspan
    obtain ⟨c, rest, hsource⟩ := List.exists_cons_of_ne_nil (toList_ne_nil_of_tooDeepAtEnd h)
    obtain ⟨above, front, back, below, hnil, -, hline, hshows⟩ :=
      exists_shows (e := Grammar.tooDeepAtEnd) rfl (hsource.trans (List.nil_append _).symm) rfl rfl
        nofun nofun
    rw [hsource, caretCount_single] at hshows
    refine ⟨above, front, back, below, 1, hline, ?_, hshows, fun text behind _ hstop => ?_,
      fun _ => fits_one⟩
    · rw [← hnil]
      rfl
    · have hone : 1 = 0 + byteLength text := hstop
      have hle := length_le_byteLength text
      exact (Nat.max_eq_right (by omega)).symm
  · obtain ⟨above, front, back, below, text, behind, hline, hback, rfl, hshows⟩ :=
      (hplaced span hspan).exists_shows hspan
    refine ⟨above, front, back, below, _, hline, rfl, hshows, ?_, ?_⟩
    · intro text' behind' hback' hstop
      rw [eq_of_byteLength_eq (hback.symm.trans hback') (Nat.add_left_cancel hstop)]
    · rintro (hstop | hone)
      · refine fits_of_prefix (prefix_of_byteLength_le (List.prefix_append back below)
          ⟨behind, hback.symm⟩ ?_)
        rw [Span.behind, byteLength_append (above ++ front)] at hstop
        exact Nat.le_of_add_le_add_left hstop
      · rw [hone]
        exact fits_one

namespace Expr

theorem parse_error_carets_tabbed :
    let source := "é\n+\t\x60ß$\x7b '\\z' \x7d\x60"
    let span : Span := ⟨2, 10, 13, 14⟩
    let e : SyntaxError := .lexical ⟨.invalidEscape 'z', span⟩
    parse source = .error e ∧
      ∃ above front back below carets, InLine source.toList above front back below ∧
        span.start = byteLength (above ++ front) ∧ Shows source e span front back carets ∧
        (span.stop ≤ byteLength (above ++ front ++ back) ∨ carets = 1 →
          Fits front back carets) := by
  intro source span e
  have h : parse source = .error e := failure?_eq_some_iff.1 (by decide +kernel)
  obtain ⟨above, front, back, below, carets, hline, hstart, hshows, -, hfits⟩ :=
    parse_error_carets source e span h rfl
  exact ⟨h, above, front, back, below, carets, hline, hstart, hshows, hfits⟩

/-- Not all carets stay below the quoted line. -/
theorem not_parse_error_carets :
    ¬ ∀ (source : String) (e : SyntaxError) (span : Span), parse source = .error e →
      e.span? = some span → ∃ above front back below carets,
        InLine source.toList above front back below ∧ span.start = byteLength (above ++ front) ∧
        Shows source e span front back carets ∧ Fits front back carets := by
  intro h
  let source := "\x60a\nbcd"
  let e : SyntaxError := .lexical ⟨.unterminatedTemplate, ⟨1, 1, 0, 6⟩⟩
  have herror : parse source = .error e := failure?_eq_some_iff.1 (by decide +kernel)
  obtain ⟨above, front, back, below, carets, hline, hstart, ⟨margin, label, hlabel, hrender⟩,
    hfits⟩ :=
    h source e _ herror rfl
  have hnil := eq_nil_of_byteLength hstart.symm
  obtain ⟨rfl, rfl⟩ := List.append_eq_nil_iff.1 hnil
  -- the quoted line is no longer than the text in front of the line feed
  have htext : back ++ below = ['\x60', 'a'] ++ ['\n', 'b', 'c', 'd'] :=
    hline.text_eq.symm.trans (by decide)
  have hback : back <+: ['\x60', 'a'] := by
    rcases List.prefix_or_prefix_of_prefix ⟨below, htext⟩ (List.prefix_append _ _) with
      hprefix | ⟨more, rfl⟩
    · exact hprefix
    · cases more with
      | nil => exact List.prefix_refl _
      | cons c more =>
        have hmem := hline.not_mem
        rw [List.append_assoc] at htext
        obtain ⟨rfl, -⟩ := List.cons.inj (List.append_cancel_left htext)
        exact absurd (by simp) hmem
  have hwidth : width back ≤ 2 := by
    obtain ⟨more, hmore⟩ := hback
    have hsum := width_append back more
    rw [hmore, show width ['\x60', 'a'] = 2 from rfl] at hsum
    omega
  have hquoted : back.count '^' = 0 := Nat.le_zero.1 (hback.sublist.count_le '^')
  have hcarets : carets = 6 := by
    have hcount : (e.render source).toList.count '^' = 6 := by decide +kernel
    have hmessage : e.message.toList.count '^' = 0 := by decide
    have hone : (Nat.toDigits 10 1).count '^' = 0 := by decide
    have hlabel' : label.toList.count '^' = 0 := by
      rcases List.mem_pair.1 hlabel with rfl | rfl <;> decide
    rw [hrender] at hcount
    simpa [blanks, List.count_replicate, hmessage, hone, hlabel', hquoted] using hcount
  subst hcarets
  rcases hfits with hle | ⟨hone, -⟩
  · rw [List.nil_append, show width [] = 0 from rfl] at hle
    omega
  · cases hone

end Expr

end JsonStencil
