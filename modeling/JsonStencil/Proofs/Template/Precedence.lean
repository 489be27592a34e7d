import JsonStencil.Proofs.Template.Verbatim
import JsonStencil.Proofs.Text.Search
import Mathlib.Algebra.Ring.Parity

/-!
# Escapes before delimiters

Delimiters and the escape may share characters. Where a text goes on with the escape and with the
left delimiter as well, it is the escape that is read. So a capture between delimiters is a
placeholder unless an escape can be read at the left one, and an escape that the left delimiter
starts with leaves no placeholder in any text.
-/

namespace JsonStencil

section Runs

variable {unit cs rest : List Char} {n : Nat}

theorem splitRun_eq_zero (h : unit = [] ∨ ¬ unit <+: cs) : splitRun unit cs = (0, cs) := by
  rcases h with rfl | h
  · simp [splitRun]
  · exact splitRun_of_none (dropFront?_eq_none_iff.2 h)

theorem exists_splitRun (hunit : unit ≠ []) (h : unit <+: cs) :
    ∃ n rest, splitRun unit cs = (n + 1, rest) := by
  obtain ⟨rest, rfl⟩ := h
  exact ⟨_, _, splitRun_of_some hunit (dropFront?_append unit rest)⟩

/-- A run leaves no unit behind it. -/
theorem not_prefix_of_splitRun (hunit : unit ≠ []) (h : splitRun unit cs = (n, rest)) :
    ¬ unit <+: rest := by
  fun_induction splitRun unit cs generalizing n with
  | case1 _ hnil => exact absurd hnil hunit
  | case2 cs _ hnone =>
    cases h
    exact dropFront?_eq_none_iff.1 hnone
  | case3 cs _ back _ ih =>
    cases h
    exact ih rfl

end Runs

namespace Part

variable {α : Type}

theorem gather_eq_hole_iff {ps : List (Char ⊕ α)} {a : α} :
    gather [] ps = [.hole a] ↔ ps = [.inr a] := by
  constructor
  · intro h
    have hpieces := congrArg (List.flatMap pieces) h
    rwa [flatMap_pieces_gather] at hpieces
  · rintro rfl
    rfl

end Part

namespace Placeholder

variable {left right escape cs : List Char} {hl : left ≠ []} {start : Nat}

/-- A text that starts with an escape starts with no placeholder. -/
theorem exists_inl_of_escape (hescape : escape ≠ []) (h : escape <+: cs) :
    ∃ c ps, pieces left right escape hl start cs = .inl c :: ps := by
  have hchars {ds : List Char} (hds : ds ≠ []) (ps : List (Char ⊕ Placeholder)) :
      ∃ c ps', ds.map .inl ++ ps = .inl c :: ps' := by
    obtain ⟨d, ds, rfl⟩ := List.exists_cons_of_ne_nil hds
    exact ⟨d, ds.map .inl ++ ps, rfl⟩
  obtain ⟨n, rest, hrun⟩ := exists_splitRun hescape h
  cases hleft : dropFront? left rest with
  | none =>
    rw [pieces_run hrun hleft]
    exact hchars (by simp [hescape]) _
  | some opened =>
    rcases Nat.even_or_odd' n with ⟨m, rfl | rfl⟩
    · rw [pieces_run_odd hrun hleft, ← List.map_append]
      exact hchars (by simp [hl]) _
    · rw [pieces_run_even hrun hleft]
      exact hchars (by simp [hescape]) _

theorem pieces_delimited (hl : left ≠ []) (start : Nat) {capture : List Char}
    (hclose : Closes right capture)
    (hescape : escape = [] ∨ ¬ escape <+: left ++ capture ++ right) :
    pieces left right escape hl start (left ++ capture ++ right) =
      [.inr ⟨.ofList capture, start, start + byteLength (left ++ capture ++ right)⟩] := by
  have hcut := hclose.cut?_eq []
  rw [List.append_nil] at hcut
  rw [List.append_assoc] at hescape ⊢
  rw [pieces_hole (splitRun_eq_zero hescape) (dropFront?_append _ _) hcut, pieces]
  simp [Nat.add_assoc]

/-- An escape that the left delimiter starts with is read at every left delimiter. -/
theorem pieces_of_escape_left (hescape : escape ≠ []) (hfront : escape <+: left) :
    pieces left right escape hl start cs = cs.map .inl := by
  have hclosed {ds : List Char} (h : ¬ escape <+: ds) {opened : List Char} :
      dropFront? left ds ≠ some opened := by
    intro hopened
    rw [dropFront?_eq_some_iff] at hopened
    exact h (hopened ▸ hfront.trans (List.prefix_append left opened))
  fun_induction pieces left right escape hl start cs with
  | case1 => rfl
  | case2 start c tail n rest hrun behind hleft ih =>
    have hsplit := eq_append_of_splitRun escape (c :: tail)
    rw [hrun] at hsplit
    rw [ih, hsplit, List.map_append]
  | case3 start c tail n rest hrun behind opened hleft =>
    exact absurd hleft (hclosed (not_prefix_of_splitRun hescape hrun))
  | case4 start c tail n rest hrun behind opened hleft =>
    exact absurd hleft (hclosed (not_prefix_of_splitRun hescape hrun))
  | case5 start c tail rest hrun hleft ih => rw [ih, List.map_cons]
  | case6 => rfl
  | case7 start c tail rest hrun opened hleft =>
    refine absurd hleft (hclosed fun hfront' => ?_)
    obtain ⟨n, rest', hrun'⟩ := exists_splitRun hescape hfront'
    cases hrun.symm.trans hrun'

end Placeholder

open Template

section Enclosed

variable {o : TemplateOptions} {s : String} {p : Placeholder}

theorem segments_of_ne (hleft : o.left.toList ≠ []) (hright : o.right.toList ≠ []) (s : String) :
    segments o s = Part.gather []
      (Placeholder.pieces o.left.toList o.right.toList o.escape.toList hleft 0 s.toList) :=
  dif_pos ⟨hleft, hright⟩

/-- A text that is one placeholder compiles to the expression of it. -/
theorem templateSource_of_segments_eq (h : segments o s = [.hole p]) :
    Value.templateSource o (.string s) = .ok p.source := by
  have htext : textSource o s = .computed p.source.toList := by
    rw [textSource, h]
    exact if_pos (spansWhole_of_segments_eq h)
  have hsource : source o [] 0 (.string s) = .ok p.source.toList :=
    source_string.2 ⟨Nat.zero_le _, by rw [htext, TextSource.chars]⟩
  rw [Value.templateSource, hsource, Except.map, String.ofList_toList]

end Enclosed

/-- A capture between delimiters is one placeholder from end to end exactly when no escape is read
at the left one, and then it compiles to the expression in it. An escape that the left delimiter
starts with is always read there, and all is text. -/
theorem segments_enclosed (o : TemplateOptions) (c : String) (hleft : o.left ≠ "")
    (hright : o.right ≠ "") (hclose : Closes o.right.toList c.toList) :
    let s := o.left ++ c ++ o.right
    let p : Placeholder := ⟨c, 0, byteLength s.toList⟩
    (segments o s = [.hole p] ↔ o.escape = "" ∨ ¬ o.escape.toList <+: s.toList) ∧
      (segments o s = [.hole p] →
        p.spansWhole s ∧ Value.templateSource o (.string s) = .ok (trimText c)) ∧
      (o.escape ≠ "" → o.escape.toList <+: o.left.toList → segments o s = verbatim s) := by
  intro s p
  have hleft' : o.left.toList ≠ [] := fun h => hleft (String.toList_eq_nil_iff.1 h)
  have hright' : o.right.toList ≠ [] := fun h => hright (String.toList_eq_nil_iff.1 h)
  have hescape : o.escape = "" ↔ o.escape.toList = [] := String.toList_eq_nil_iff.symm
  have hs : s.toList = o.left.toList ++ c.toList ++ o.right.toList := by simp [s]
  have hsegments := segments_of_ne hleft' hright' s
  refine ⟨?_, fun h => ?_, ?_⟩
  · rw [hsegments, Part.gather_eq_hole_iff, hescape]
    constructor
    · intro h
      by_contra hread
      obtain ⟨hne, hfront⟩ := not_or.1 hread
      obtain ⟨d, ps, hd⟩ := Placeholder.exists_inl_of_escape hne (not_not.1 hfront)
      cases h.symm.trans hd
    · intro h
      rw [hs] at h
      have hpieces := Placeholder.pieces_delimited hleft' 0 hclose h
      rw [← hs] at hpieces
      rw [hpieces, Nat.zero_add, String.ofList_toList]
  · have hsource := templateSource_of_segments_eq h
    exact ⟨spansWhole_of_segments_eq h, hsource⟩
  · intro hne hfront
    rw [hsegments, Placeholder.pieces_of_escape_left (mt hescape.2 hne) hfront, verbatim]

/-- The escape starts like the left delimiter, but the capture does not go on like the escape. -/
theorem segments_enclosed_overlapping :
    let o : TemplateOptions := ⟨"<", ">", "<<", "$"⟩
    let s := "< é >"
    Closes o.right.toList " é ".toList ∧ ¬ o.escape.toList <+: s.toList ∧
      segments o s = [.hole ⟨" é ", 0, 6⟩] ∧ Value.templateSource o (.string s) = .ok "é" := by
  intro o s
  have hclose : Closes o.right.toList " é ".toList := by decide
  have hescape : ¬ o.escape.toList <+: s.toList := by decide
  obtain ⟨hiff, hsource, -⟩ := segments_enclosed o " é " (by decide) (by decide) hclose
  have hsegments := hiff.2 (.inr hescape)
  exact ⟨hclose, hescape, hsegments.trans (by decide), (hsource hsegments).2.trans (by decide)⟩

/-- Not every capture between delimiters is a placeholder. -/
theorem not_segments_enclosed :
    ¬ ∀ (o : TemplateOptions) (c : String), o.left ≠ "" → o.right ≠ "" →
      Closes o.right.toList c.toList →
      segments o (o.left ++ c ++ o.right) =
        [.hole ⟨c, 0, byteLength (o.left ++ c ++ o.right).toList⟩] := by
  intro h
  have hlive := h ⟨"\x7b\x7b", "\x7d\x7d", "\x7b", "$"⟩ "a" (by decide) (by decide) (by decide)
  exact absurd hlive (by decide +kernel)

end JsonStencil
