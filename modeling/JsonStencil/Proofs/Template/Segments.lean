import JsonStencil.Template.Segment

/-!
# Texts and their placeholders

No character of a text is lost without a piece in its place, so a text of which a placeholder is the
only piece is that placeholder from its start to its end.
-/

namespace JsonStencil

theorem ne_nil_of_splitRun {unit cs rest : List Char} {n : Nat}
    (h : splitRun unit cs = (n + 1, rest)) : unit ≠ [] := by
  rintro rfl
  simp [splitRun] at h

theorem splitRun_of_none {unit cs : List Char} (h : dropFront? unit cs = none) :
    splitRun unit cs = (0, cs) := by
  fun_cases splitRun unit cs with
  | case1 | case2 => rfl
  | case3 _ rest hrest => cases h.symm.trans hrest

theorem splitRun_of_some {unit cs rest : List Char} (hunit : unit ≠ [])
    (h : dropFront? unit cs = some rest) :
    splitRun unit cs = ((splitRun unit rest).1 + 1, (splitRun unit rest).2) := by
  fun_cases splitRun unit cs with
  | case1 hnil => exact (hunit hnil).elim
  | case2 _ hnone => cases h.symm.trans hnone
  | case3 _ rest' hrest =>
    cases h.symm.trans hrest
    rfl

theorem splitRun_replicate {e : Char} {cs : List Char} (n : Nat) (h : cs.head? ≠ some e) :
    splitRun [e] (List.replicate n e ++ cs) = (n, cs) := by
  induction n with
  | zero =>
    refine splitRun_of_none ?_
    cases cs with
    | nil => rfl
    | cons c cs =>
      have hne : e ≠ c := fun heq => h (by rw [heq, List.head?_cons])
      exact if_neg hne
  | succ n ih =>
    have hfirst : dropFront? [e] (List.replicate (n + 1) e ++ cs) =
        some (List.replicate n e ++ cs) := if_pos rfl
    rw [splitRun_of_some (by simp) hfirst, ih]

theorem byteLength_replicate (n : Nat) (e : Char) :
    byteLength (List.replicate n e) = n * byteLength [e] := by
  induction n with
  | zero => exact (Nat.zero_mul _).symm
  | succ n ih =>
    rw [List.replicate_succ, byteLength_cons, ih, Nat.succ_mul, Nat.add_comm]
    rfl

namespace Part

variable {α : Type}

def pieces : Part α → List (Char ⊕ α)
  | .text s => s.toList.map .inl
  | .hole a => [.inr a]

theorem flatMap_pieces_gather (ps : List (Char ⊕ α)) : (gather [] ps).flatMap pieces = ps := by
  have htext (s : String) : (Part.text s : Part α).pieces = s.toList.flatMap fun c => [.inl c] :=
    List.map_eq_flatMap
  rw [flatMap_gather htext, List.reverse_nil, List.flatMap_nil, List.nil_append]
  induction ps with
  | nil => rfl
  | cons p ps ih => cases p <;> simpa [pieces] using ih

end Part

namespace Placeholder

variable {left right escape : List Char} {hl : left ≠ []}

section Steps

variable {start n : Nat} {cs rest opened : List Char}

theorem pieces_cons (c : Char) (tail : List Char) :
    pieces left right escape hl start (c :: tail) =
      match splitRun escape (c :: tail) with
      | (n + 1, rest) =>
        let behind := start + (n + 1) * byteLength escape
        match dropFront? left rest with
        | none => (List.replicate (n + 1) escape).flatten.map .inl ++
            pieces left right escape hl behind rest
        | some opened =>
          let escapes := (List.replicate ((n + 1) / 2) escape).flatten.map .inl
          if (n + 1) % 2 = 1 then
            escapes ++ left.map .inl ++
              pieces left right escape hl (behind + byteLength left) opened
          else escapes ++ pieces left right escape hl behind rest
      | (0, _) =>
        match dropFront? left (c :: tail) with
        | none => .inl c :: pieces left right escape hl (start + c.utf8Size) tail
        | some opened =>
          match cut? right opened with
          | none => (c :: tail).map .inl
          | some (capture, after) =>
            let stop := start + byteLength left + byteLength capture + byteLength right
            .inr ⟨.ofList capture, start, stop⟩ :: pieces left right escape hl stop after := by
  rw [pieces]
  split
  next hrun =>
    rw [hrun]
    dsimp only
    split
    next hclosed => rw [hclosed]
    next hopened => rw [hopened]
  next hrun =>
    rw [hrun]
    dsimp only
    split
    next hclosed => rw [hclosed]
    next hopened =>
      rw [hopened]
      dsimp only
      split
      next hcut => rw [hcut]
      next hcut => rw [hcut]

theorem exists_cons_of_splitRun (h : splitRun escape cs = (n + 1, rest)) :
    ∃ c tail, cs = c :: tail :=
  List.exists_cons_of_ne_nil (List.length_pos_iff.1 (Nat.zero_lt_of_lt (length_lt_of_splitRun h)))

theorem exists_cons_of_opened (hl : left ≠ []) (h : dropFront? left cs = some opened) :
    ∃ c tail, cs = c :: tail := by
  refine List.exists_cons_of_ne_nil fun hnil => hl ?_
  rw [dropFront?_eq_some_iff.1 h] at hnil
  exact (List.append_eq_nil_iff.1 hnil).1

theorem pieces_run (hrun : splitRun escape cs = (n + 1, rest))
    (hclosed : dropFront? left rest = none) :
    pieces left right escape hl start cs = (List.replicate (n + 1) escape).flatten.map .inl ++
      pieces left right escape hl (start + (n + 1) * byteLength escape) rest := by
  obtain ⟨c, tail, rfl⟩ := exists_cons_of_splitRun hrun
  rw [pieces_cons, hrun]
  dsimp only
  rw [hclosed]

/-- An odd number of escapes makes the left delimiter behind them text. -/
theorem pieces_run_odd (hrun : splitRun escape cs = (2 * n + 1, rest))
    (hopened : dropFront? left rest = some opened) :
    pieces left right escape hl start cs =
      (List.replicate n escape).flatten.map .inl ++ left.map .inl ++
        pieces left right escape hl
          (start + (2 * n + 1) * byteLength escape + byteLength left) opened := by
  obtain ⟨c, tail, rfl⟩ := exists_cons_of_splitRun hrun
  have hhalf : (2 * n + 1) / 2 = n := by omega
  rw [pieces_cons, hrun]
  dsimp only
  rw [hopened]
  dsimp only
  rw [if_pos (by omega), hhalf]

/-- An even number of escapes leaves the left delimiter behind them as it is. -/
theorem pieces_run_even (hrun : splitRun escape cs = (2 * n + 2, rest))
    (hopened : dropFront? left rest = some opened) :
    pieces left right escape hl start cs = (List.replicate (n + 1) escape).flatten.map .inl ++
      pieces left right escape hl (start + (2 * n + 2) * byteLength escape) rest := by
  obtain ⟨c, tail, rfl⟩ := exists_cons_of_splitRun hrun
  have hhalf : (2 * n + 1 + 1) / 2 = n + 1 := by omega
  rw [pieces_cons, hrun]
  dsimp only
  rw [hopened]
  dsimp only
  rw [if_neg (by omega), hhalf]

theorem pieces_char {c : Char} {tail : List Char} (hrun : splitRun escape (c :: tail) = (0, rest))
    (hclosed : dropFront? left (c :: tail) = none) :
    pieces left right escape hl start (c :: tail) =
      .inl c :: pieces left right escape hl (start + c.utf8Size) tail := by
  rw [pieces_cons, hrun]
  dsimp only
  rw [hclosed]

/-- A left delimiter that no right one follows is text, with all behind it. -/
theorem pieces_unclosed (hrun : splitRun escape cs = (0, rest))
    (hopened : dropFront? left cs = some opened) (hcut : cut? right opened = none) :
    pieces left right escape hl start cs = cs.map .inl := by
  obtain ⟨c, tail, rfl⟩ := exists_cons_of_opened hl hopened
  rw [pieces_cons, hrun]
  dsimp only
  rw [hopened]
  dsimp only
  rw [hcut]

theorem pieces_hole {capture after : List Char} (hrun : splitRun escape cs = (0, rest))
    (hopened : dropFront? left cs = some opened)
    (hcut : cut? right opened = some (capture, after)) :
    pieces left right escape hl start cs =
      .inr ⟨.ofList capture, start,
          start + byteLength left + byteLength capture + byteLength right⟩ ::
        pieces left right escape hl
          (start + byteLength left + byteLength capture + byteLength right) after := by
  obtain ⟨c, tail, rfl⟩ := exists_cons_of_opened hl hopened
  rw [pieces_cons, hrun]
  dsimp only
  rw [hopened]
  dsimp only
  rw [hcut]

theorem pieces_replicate {e : Char} (n start : Nat) (h : cs.head? ≠ some e)
    (hclosed : dropFront? left cs = none) :
    pieces left right [e] hl start (List.replicate n e ++ cs) =
      (List.replicate n e).map .inl ++
        pieces left right [e] hl (start + byteLength (List.replicate n e)) cs := by
  cases n with
  | zero => rfl
  | succ n =>
    rw [pieces_run (splitRun_replicate (n + 1) h) hclosed, List.flatten_replicate_singleton,
      byteLength_replicate]

end Steps

theorem pieces_ne_nil {start : Nat} {cs : List Char} (hcs : cs ≠ []) :
    pieces left right escape hl start cs ≠ [] := by
  fun_cases pieces left right escape hl start cs with
  | case1 => exact absurd rfl hcs
  | case2 c tail n rest hrun => simp [ne_nil_of_splitRun hrun]
  | case3 => simp [hl]
  | case4 c tail n rest hrun behind opened hopened escapes hodd =>
    have hn : n ≠ 0 := by omega
    simp [escapes, ne_nil_of_splitRun hrun, hn]
  | case5 => simp
  | case6 => simp
  | case7 => simp

theorem span_of_pieces_eq {start : Nat} {cs : List Char} {p : Placeholder}
    (h : pieces left right escape hl start cs = [.inr p]) :
    p.start = start ∧ p.stop = start + byteLength cs := by
  have hchars {ds : List Char} {rest : List (Char ⊕ Placeholder)} (hds : ds ≠ [])
      (h : ds.map .inl ++ rest = [.inr p]) : False := by
    cases ds with
    | nil => exact hds rfl
    | cons d ds => cases h
  have hescapes {n m : Nat} {rest : List Char} (hrun : splitRun escape cs = (n + 1, rest))
      (hm : 0 < m) : (List.replicate m escape).flatten ≠ [] := by
    simp [ne_nil_of_splitRun hrun, Nat.ne_of_gt hm]
  revert h
  fun_cases pieces left right escape hl start cs with
  | case1 => intro h; cases h
  | case2 c tail n rest hrun => exact fun h => (hchars (hescapes hrun (Nat.succ_pos n)) h).elim
  | case3 c tail n rest hrun behind opened hopened escapes hodd =>
    have hleft : escapes ++ left.map .inl =
        ((List.replicate ((n + 1) / 2) escape).flatten ++ left).map .inl := List.map_append.symm
    rw [hleft]
    exact fun h => (hchars (by simp [hl]) h).elim
  | case4 c tail n rest hrun behind opened hopened escapes hodd =>
    exact fun h => (hchars (hescapes hrun (by omega)) h).elim
  | case5 => intro h; cases h
  | case6 => intro h; cases h
  | case7 c tail _ _ opened hopened capture after hcut stop =>
    intro h
    simp only [List.cons.injEq, Sum.inr.injEq] at h
    obtain ⟨rfl, hafter⟩ := h
    have hnil : after = [] := by
      cases after with
      | nil => rfl
      | cons d ds => exact absurd hafter (pieces_ne_nil (by simp))
    refine ⟨rfl, ?_⟩
    rw [dropFront?_eq_some_iff.1 hopened, eq_append_of_cut? hcut, hnil]
    simp only [stop, byteLength_append, byteLength]
    omega

end Placeholder

/-- A text that is one placeholder is that placeholder from end to end. -/
theorem spansWhole_of_segments_eq {o : TemplateOptions} {s : String} {p : Placeholder}
    (h : segments o s = [.hole p]) : p.spansWhole s := by
  unfold segments at h
  split at h
  next hd =>
    have hpieces := congrArg (List.flatMap Part.pieces) h
    rw [Part.flatMap_pieces_gather] at hpieces
    obtain ⟨hstart, hstop⟩ := Placeholder.span_of_pieces_eq hpieces
    simp [Placeholder.spansWhole, hstart, hstop]
  next =>
    have hpieces := congrArg (List.flatMap Part.pieces) h
    rw [Part.flatMap_pieces_gather] at hpieces
    cases hs : s.toList <;> rw [hs] at hpieces <;> cases hpieces

end JsonStencil
