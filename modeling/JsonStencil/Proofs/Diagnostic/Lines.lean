import JsonStencil.Diagnostic
import JsonStencil.Proofs.Text.Search

/-!
# The line of a place

Whole lines in front of a text come before its own lines. So the number of line feeds before a place
tells which line of the text the place is in, if it is in one: not behind the last line feed where
the text ends, and not between the two characters of a line end.
-/

namespace JsonStencil.Diagnostic

variable {above before front line rest : List Char}

/-- A line without the carriage return before its line feed. -/
def dropReturn (line : List Char) : List Char :=
  if line.getLast? = some '\r' then line.dropLast else line

/-- Lines with their line feeds. -/
inductive WholeLines : List Char → Prop
  | nil : WholeLines []
  | cons {line rest : List Char} : '\n' ∉ line → WholeLines rest → WholeLines (line ++ '\n' :: rest)

theorem cut?_newline (h : '\n' ∉ line) (rest : List Char) :
    cut? ['\n'] (line ++ '\n' :: rest) = some (line, rest) := by
  induction line with
  | nil => rfl
  | cons c line ih =>
    obtain ⟨hc, hline⟩ := not_or.1 (mt List.mem_cons.2 h)
    simp [cut?, dropFront?, hc, ih hline]

theorem lines_cons (h : '\n' ∉ line) (rest : List Char) :
    lines (line ++ '\n' :: rest) = dropReturn line :: lines rest := by
  have hcut : splitOn ['\n'] (line ++ '\n' :: rest) = line :: splitOn ['\n'] rest :=
    splitOn_of_cut? (List.cons_ne_nil _ _) (cut?_newline h rest)
  have hnil := splitOn_ne_nil ['\n'] rest
  unfold lines
  dsimp only
  rw [hcut, List.dropLast_cons_of_ne_nil hnil, List.getLast?_cons_of_ne_nil hnil, List.map_cons]
  split <;> rfl

theorem lines_of_not_mem (h : '\n' ∉ line) (hline : line ≠ []) : lines line = [line] := by
  have hcut : splitOn ['\n'] line = [line] :=
    splitOn_of_cut?_eq_none
      (cut?_eq_none_iff.2 fun hinfix => h ((List.singleton_infix_iff _ _).1 hinfix))
  unfold lines
  rw [hcut]
  simp [hline]

theorem lines_nil : lines [] = [] := by
  unfold lines
  rw [splitOn_of_cut?_eq_none rfl]
  rfl

theorem lines_append (h : WholeLines above) (cs : List Char) :
    lines (above ++ cs) = lines above ++ lines cs := by
  induction h with
  | nil => rw [lines_nil, List.nil_append, List.nil_append]
  | cons hline _ ih =>
    rw [List.append_assoc, List.cons_append, lines_cons hline, lines_cons hline, ih]
    rfl

theorem length_lines (h : WholeLines above) : (lines above).length = above.count '\n' := by
  induction h with
  | nil => rw [lines_nil, List.length_nil, List.count_nil]
  | cons hline _ ih =>
    rw [lines_cons hline, List.length_cons, ih, List.count_append, List.count_eq_zero.2 hline,
      List.count_cons_self, Nat.zero_add]

theorem WholeLines.getLast? (h : WholeLines above) : above = [] ∨ above.getLast? = some '\n' := by
  induction h with
  | nil => exact .inl rfl
  | @cons line rest _ _ ih =>
    refine .inr ?_
    rcases ih with rfl | hlast
    · exact List.getLast?_concat
    · rw [List.getLast?_append, List.getLast?_cons, hlast]
      rfl

/-- The line feeds of a text cut it into whole lines and the start of one more. -/
theorem exists_wholeLines (before : List Char) :
    ∃ above front, before = above ++ front ∧ WholeLines above ∧ '\n' ∉ front := by
  induction before with
  | nil => exact ⟨[], [], rfl, .nil, List.not_mem_nil⟩
  | cons c before ih =>
    obtain ⟨above, front, rfl, habove, hfront⟩ := ih
    by_cases hc : c = '\n'
    · subst hc
      exact ⟨'\n' :: above, front, rfl, @WholeLines.cons [] _ List.not_mem_nil habove, hfront⟩
    · cases habove with
      | nil => exact ⟨[], c :: front, rfl, .nil, by simp [Ne.symm hc, hfront]⟩
      | @cons line rest hline hrest =>
        refine ⟨c :: line ++ '\n' :: rest, front, rfl, .cons ?_ hrest, hfront⟩
        simp [Ne.symm hc, hline]

/-- The place between `front` and `back` is in a line of the text, whose end starts `below`. -/
structure InLine (cs above front back below : List Char) : Prop where
  text_eq : cs = above ++ front ++ back ++ below
  above_ended : above = [] ∨ above.getLast? = some '\n'
  not_mem : '\n' ∉ front ++ back
  below_end : below = [] ∨ ['\n'] <+: below ∧ (front ++ back).getLast? ≠ some '\r' ∨
    ['\r', '\n'] <+: below

/-- The rest of the line that starts with `front`. -/
theorem exists_line_back (hfront : '\n' ∉ front) (hrest : rest = [] → front ≠ [])
    (hend : ['\n'] <+: rest → front.getLast? ≠ some '\r') :
    ∃ back below, rest = back ++ below ∧ InLine (front ++ rest) [] front back below ∧
      (lines (front ++ rest)).head? = some (front ++ back) := by
  by_cases hmem : '\n' ∈ rest
  · obtain ⟨back, below, rfl, hback⟩ := List.eq_append_cons_of_mem hmem
    have hline : '\n' ∉ front ++ back := by simp [hfront, hback]
    have hhead : (lines (front ++ (back ++ '\n' :: below))).head? =
        some (dropReturn (front ++ back)) := by
      rw [← List.append_assoc, lines_cons hline, List.head?_cons]
    by_cases hreturn : (front ++ back).getLast? = some '\r'
    · -- the carriage return is one of `back`, since the place is not between it and the line feed
      rcases List.eq_nil_or_concat' back with rfl | ⟨back', c, rfl⟩
      · rw [List.append_nil] at hreturn
        exact absurd hreturn (hend ⟨below, rfl⟩)
      · rw [← List.append_assoc] at hreturn hline
        obtain rfl : c = '\r' := by simpa using hreturn
        refine ⟨back', '\r' :: '\n' :: below, by simp, ⟨by simp, .inl rfl, ?_, ?_⟩, ?_⟩
        · exact fun hmem => hline (List.mem_append_left _ hmem)
        · exact .inr (.inr ⟨below, rfl⟩)
        · rw [hhead, dropReturn, ← List.append_assoc, if_pos hreturn, List.dropLast_concat]
    · refine ⟨back, '\n' :: below, rfl, ⟨by simp, .inl rfl, hline, ?_⟩, ?_⟩
      · exact .inr (.inl ⟨⟨below, rfl⟩, hreturn⟩)
      · rw [hhead, dropReturn, if_neg hreturn]
  · have hline : '\n' ∉ front ++ rest := by simp [hfront, hmem]
    refine ⟨rest, [], by simp, ⟨by simp, .inl rfl, hline, .inl rfl⟩, ?_⟩
    rw [lines_of_not_mem hline, List.head?_cons]
    intro hnil
    obtain ⟨hnil, hnil'⟩ := List.append_eq_nil_iff.1 hnil
    exact hrest hnil' hnil

theorem InLine.append {back below cs : List Char} (h : InLine cs [] front back below)
    (habove : WholeLines above) : InLine (above ++ cs) above front back below where
  text_eq := by
    rw [h.text_eq]
    simp only [List.nil_append, List.append_assoc]
  above_ended := habove.getLast?
  not_mem := h.not_mem
  below_end := h.below_end

/-- A place is in the line that the number of line feeds before it tells, behind as many characters
of it as stand behind the last line feed. -/
theorem exists_inLine (hrest : rest = [] → ∃ c ∈ before.getLast?, c ≠ '\n')
    (hend : ['\n'] <+: rest → before.getLast? ≠ some '\r') :
    ∃ above front back below, before = above ++ front ∧ rest = back ++ below ∧
      InLine (before ++ rest) above front back below ∧
      (lines (before ++ rest))[before.count '\n']? = some (front ++ back) ∧
      (before.reverse.takeWhile (· ≠ '\n')).length = front.length := by
  obtain ⟨above, front, rfl, habove, hfront⟩ := exists_wholeLines before
  have hcount : (above ++ front).count '\n' = (lines above).length := by
    rw [List.count_append, List.count_eq_zero.2 hfront, length_lines habove, Nat.add_zero]
  have hrest' : rest = [] → front ≠ [] := by
    rintro hnil rfl
    obtain ⟨c, hc, hne⟩ := hrest hnil
    rw [List.append_nil, Option.mem_def] at hc
    rcases habove.getLast? with rfl | hlast
    · cases hc
    · rw [hc] at hlast
      exact hne (Option.some.inj hlast)
  have hend' : ['\n'] <+: rest → front.getLast? ≠ some '\r' := by
    intro hfeed hlast
    exact hend hfeed (by rw [List.getLast?_append, hlast]; rfl)
  obtain ⟨back, below, rfl, hline, hhead⟩ := exists_line_back hfront hrest' hend'
  refine ⟨above, front, back, below, rfl, rfl, ?_, ?_, ?_⟩
  · rw [List.append_assoc]
    exact hline.append habove
  · rw [List.append_assoc, lines_append habove, hcount, List.getElem?_append_right (Nat.le_refl _),
      Nat.sub_self, ← List.head?_eq_getElem?, hhead]
  · have hall : ∀ c ∈ front.reverse, decide (c ≠ '\n') := by
      intro c hc
      exact decide_eq_true fun heq => hfront (heq ▸ List.mem_reverse.1 hc)
    rw [List.reverse_append, List.takeWhile_append_of_pos hall, List.length_append,
      List.length_reverse]
    rcases habove.getLast? with rfl | hlast
    · rfl
    · rw [← List.head?_reverse] at hlast
      cases hreverse : above.reverse with
      | nil => rfl
      | cons d ds =>
        rw [hreverse] at hlast
        obtain rfl := Option.some.inj hlast
        rfl

end JsonStencil.Diagnostic
