import JsonStencil.Proofs.Token.Faults

/-!
# The places of tokens

The tokens of a text start at anchored places, and so does the code of template literals. In a part
of a text these are places of the whole text.
-/

namespace JsonStencil

variable {cs before text : List Char} {l : Lexeme} {ls : List Lexeme} {a b i j : Nat}

/-- The code is that of the text at an anchored place. -/
def CodeText.Stands (cs : List Char) (code : CodeText) : Prop :=
  ∃ a b, a ≤ b ∧ b ≤ cs.length ∧ Anchored cs a ∧ code.span = .slice cs a b ∧
    code.source.toList = (cs.drop a).take (b - a)

/-- The token stands in the text, and so does its code. -/
structure Lexeme.Stands (cs : List Char) (l : Lexeme) : Prop where
  spot : Spot cs l.span
  holes : ∀ chunks code, l.token = .template chunks → .hole code ∈ chunks → code.Stands cs

theorem length_take_drop (hb : b ≤ cs.length) : ((cs.drop a).take (b - a)).length = b - a := by
  rw [List.length_take, List.length_drop]
  omega

theorem Anchored.of_part (h : Anchored ((cs.drop a).take (b - a)) i) (hi : i ≤ b - a) :
    Anchored cs (a + i) := by
  rcases h with ⟨c, hc, hsep⟩ | ⟨c, hc, hend⟩
  · refine .inl ⟨c, ?_, hsep⟩
    rw [List.drop_take, List.drop_drop, List.head?_take] at hc
    split at hc
    · cases hc
    · exact hc
  · refine .inr ⟨c, ?_, hend⟩
    rw [List.take_take, Nat.min_eq_left hi, Option.mem_def] at hc
    rw [List.take_add, Option.mem_def, List.getLast?_append, hc]
    rfl

theorem Spot.of_part {span : Span} (h : Spot ((cs.drop a).take (b - a)) span) (hab : a ≤ b)
    (hb : b ≤ cs.length) : Spot cs (span.relocate (.slice cs a b)) := by
  obtain ⟨i, j, hij, hj, hanchored, rfl⟩ := h
  rw [length_take_drop hb] at hj
  refine ⟨a + i, a + j, by omega, by omega, hanchored.of_part (by omega), ?_⟩
  rw [Span.relocate_slice (by omega) hj]

theorem CodeText.Stands.of_part {code : CodeText} (h : code.Stands ((cs.drop a).take (b - a)))
    (hab : a ≤ b) (hb : b ≤ cs.length) : (code.relocate (.slice cs a b)).Stands cs := by
  obtain ⟨i, j, hij, hj, hanchored, hspan, hsource⟩ := h
  rw [length_take_drop hb] at hj
  refine ⟨a + i, a + j, by omega, by omega, hanchored.of_part (by omega), ?_, ?_⟩
  · show code.span.relocate _ = _
    rw [hspan, Span.relocate_slice (by omega) hj]
  · show code.source.toList = _
    rw [hsource, List.drop_take, List.take_take, List.drop_drop, Nat.add_sub_add_left,
      Nat.min_eq_left (by omega)]

theorem Lexeme.Stands.of_part (h : l.Stands ((cs.drop a).take (b - a))) (hab : a ≤ b)
    (hb : b ≤ cs.length) : (l.relocate (.slice cs a b)).Stands cs := by
  refine ⟨h.spot.of_part hab hb, fun chunks code htoken hcode => ?_⟩
  obtain ⟨chunks', code', htoken', hcode', rfl⟩ := exists_of_hole_mem_relocate htoken hcode
  exact (h.holes chunks' code' htoken' hcode').of_part hab hb

/-- A token starts with no blank: one in front would move it. -/
theorem Lexeme.Covers.head_not_separator (h : l.Covers before text) :
    ∃ c ds, text = c :: ds ∧ Lexer.isSeparator c = false := by
  obtain ⟨c, ds, rfl⟩ := List.exists_cons_of_ne_nil h.ne_nil
  refine ⟨c, ds, rfl, Bool.eq_false_iff.2 fun hsep => ?_⟩
  obtain ⟨m, hm, hl⟩ := h.alone
  have hskip : Lexer.readTokens ⟨Position.start.after [c], ds⟩ = .ok [m] := by
    rw [tokenize, String.toList_ofList, Lexer.readTokens_cons rfl, if_pos hsep] at hm
    exact hm
  have hle := (Lexer.readTokens_tiles hskip rfl).le_start List.mem_cons_self
  have hstart : l.span.start + m.span.start = l.span.start := congrArg (·.span.start) hl
  have hpos := c.utf8Size_pos
  rw [byteLength_cons] at hle
  omega

theorem CodeText.stands_of_behind {code : CodeText} {front back : List Char}
    (hanchored : Anchored (front ++ code.source.toList ++ back) front.length)
    (hspan : code.span = .behind front code.source.toList) :
    code.Stands (front ++ code.source.toList ++ back) := by
  refine ⟨front.length, front.length + code.source.toList.length, Nat.le_add_right _ _, ?_,
    hanchored, ?_, ?_⟩
  · rw [List.length_append, List.length_append]
    exact Nat.le_add_right _ _
  · rw [hspan, Span.behind_eq_slice]
  · rw [Nat.add_sub_cancel_left, List.append_assoc, List.drop_left, List.take_left]

theorem Lexeme.Covers.stands (h : l.Covers before text) (back : List Char) :
    l.Stands (before ++ text ++ back) := by
  refine ⟨?_, fun chunks code htoken hcode => ?_⟩
  · obtain ⟨c, ds, rfl, hc⟩ := h.head_not_separator
    refine ⟨before.length, before.length + (c :: ds).length, Nat.le_add_right _ _, ?_, ?_, ?_⟩
    · rw [List.length_append, List.length_append]
      exact Nat.le_add_right _ _
    · have hdrop : (before ++ c :: ds ++ back).drop before.length = c :: (ds ++ back) := by
        rw [List.append_assoc, List.drop_left, List.cons_append]
      exact .of_head hdrop hc
    · rw [h.span_eq, Span.behind_eq_slice]
  · obtain ⟨front, back', rfl, hspan⟩ := h.holes chunks code htoken hcode
    have hwhole : before ++ (front ++ '$' :: '{' :: (code.source.toList ++ '}' :: back')) ++ back =
        before ++ front ++ ['$', '{'] ++ code.source.toList ++ ('}' :: back' ++ back) := by simp
    rw [hwhole]
    refine CodeText.stands_of_behind (.inr ⟨'{', ?_, by decide⟩) hspan
    rw [List.append_assoc _ code.source.toList, List.take_left]
    simp

/-- The tokens of a text stand in it. -/
theorem stands_of_tokenize {source : String} (h : tokenize source = .ok ls) :
    ∀ l ∈ ls, l.Stands source.toList := by
  intro l hl
  obtain ⟨front, text, behind, hsource, hcovers⟩ := (tiles_of_tokenize h).exists_covers hl
  exact hsource ▸ hcovers.stands behind

namespace CodeText.Stands

variable {code : CodeText}

theorem spot (h : code.Stands cs) : Spot cs code.span := by
  obtain ⟨a, b, hab, hb, hanchored, hspan, -⟩ := h
  exact ⟨a, b, hab, hb, hanchored, hspan⟩

/-- What makes code no tokens stands where its span tells. -/
theorem fault (h : code.Stands cs) {e : LexicalError} (he : tokenize code.source = .error e) :
    Spot cs (e.span.relocate code.span) := by
  obtain ⟨a, b, hab, hb, -, hspan, hsource⟩ := h
  have hspot := spot_of_tokenize he
  rw [hsource] at hspot
  rw [hspan]
  exact hspot.of_part hab hb

theorem tokens (h : code.Stands cs) (hls : tokenize code.source = .ok ls) :
    ∀ l ∈ ls.map (·.relocate code.span), l.Stands cs := by
  obtain ⟨a, b, hab, hb, -, hspan, hsource⟩ := h
  intro l hl
  obtain ⟨m, hm, rfl⟩ := List.mem_map.1 hl
  have hstands := stands_of_tokenize hls m hm
  rw [hsource] at hstands
  rw [hspan]
  exact hstands.of_part hab hb

end CodeText.Stands

end JsonStencil
