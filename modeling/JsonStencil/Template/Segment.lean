import JsonStencil.Template.Options
import JsonStencil.Text.CharClass
import JsonStencil.Text.Part
import JsonStencil.Text.Search

/-!
# Placeholders in texts

A placeholder runs from a left delimiter to the first right delimiter behind it. A run of escapes
directly before a left delimiter stands for half as many escapes, and one left over makes the
delimiter text. A left delimiter without a right one is text with all that follows.
-/

namespace JsonStencil

/-- A placeholder with its byte range in the text. The capture is what its delimiters enclose. -/
structure Placeholder where
  capture : String
  start : Nat
  stop : Nat
  deriving DecidableEq, Repr

namespace Placeholder

def source (p : Placeholder) : String := trimText p.capture

def spansWhole (p : Placeholder) (input : String) : Bool :=
  p.start = 0 && p.stop = byteLength input.toList

end Placeholder

/-- How often a text repeats a unit at its start, and what follows. -/
def splitRun (unit cs : List Char) : Nat × List Char :=
  if _ : unit = [] then (0, cs)
  else match _ : dropFront? unit cs with
    | none => (0, cs)
    | some rest => ((splitRun unit rest).1 + 1, (splitRun unit rest).2)
termination_by cs.length
decreasing_by
  all_goals
    have := List.length_pos_iff.2 ‹unit ≠ []›
    have := congrArg List.length (dropFront?_eq_some_iff.1 ‹dropFront? unit cs = some rest›)
    simp only [List.length_append] at this
    omega

theorem eq_append_of_splitRun (unit cs : List Char) :
    cs = (List.replicate (splitRun unit cs).1 unit).flatten ++ (splitRun unit cs).2 := by
  fun_induction splitRun unit cs with
  | case1 => simp
  | case2 => simp
  | case3 cs _ rest h ih =>
    conv => lhs; rw [dropFront?_eq_some_iff.1 h, ih]
    simp [List.replicate_succ]

theorem length_lt_of_splitRun {unit cs rest : List Char} {n : Nat}
    (h : splitRun unit cs = (n + 1, rest)) : rest.length < cs.length := by
  have hu : unit ≠ [] := by
    rintro rfl
    simp [splitRun] at h
  have := List.length_pos_iff.2 hu
  have := congrArg List.length (eq_append_of_splitRun unit cs)
  simp only [h, List.replicate_succ, List.flatten_cons, List.length_append] at this
  omega

namespace Placeholder

/-- The characters and placeholders of a text that starts at a byte offset. -/
def pieces (left right escape : List Char) (hl : left ≠ []) (start : Nat) (cs : List Char) :
    List (Char ⊕ Placeholder) :=
  match cs with
  | [] => []
  | c :: tail =>
    match _ : splitRun escape (c :: tail) with
    | (n + 1, rest) =>
      let behind := start + (n + 1) * byteLength escape
      match _ : dropFront? left rest with
      | none =>
        (List.replicate (n + 1) escape).flatten.map .inl ++ pieces left right escape hl behind rest
      | some opened =>
        let escapes := (List.replicate ((n + 1) / 2) escape).flatten.map .inl
        if (n + 1) % 2 = 1 then
          escapes ++ left.map .inl ++
            pieces left right escape hl (behind + byteLength left) opened
        else escapes ++ pieces left right escape hl behind rest
    | (0, _) =>
      match _ : dropFront? left (c :: tail) with
      | none => .inl c :: pieces left right escape hl (start + c.utf8Size) tail
      | some opened =>
        match _ : cut? right opened with
        | none => (c :: tail).map .inl
        | some (capture, after) =>
          let stop := start + byteLength left + byteLength capture + byteLength right
          .inr ⟨.ofList capture, start, stop⟩ :: pieces left right escape hl stop after
termination_by cs.length
decreasing_by
  · exact length_lt_of_splitRun ‹_›
  · have := length_lt_of_splitRun ‹_›
    have := congrArg List.length (dropFront?_eq_some_iff.1 ‹dropFront? left rest = some opened›)
    simp only [List.length_append] at this
    omega
  · exact length_lt_of_splitRun ‹_›
  · simp
  · have := congrArg List.length
      (dropFront?_eq_some_iff.1 ‹dropFront? left (c :: tail) = some opened›)
    have := congrArg List.length (eq_append_of_cut? ‹cut? right opened = some (capture, after)›)
    have := List.length_pos_iff.2 hl
    simp only [List.length_append] at *
    omega

end Placeholder

/-- The texts and placeholders of a text. Without a left or right delimiter all of it is text. -/
def segments (o : TemplateOptions) (input : String) : List (Part Placeholder) :=
  if h : o.left.toList ≠ [] ∧ o.right.toList ≠ [] then
    Part.gather []
      (Placeholder.pieces o.left.toList o.right.toList o.escape.toList h.1 0 input.toList)
  else Part.gather [] (input.toList.map .inl)

/-- Puts a text in the place of every placeholder. -/
def interpolate (o : TemplateOptions) (input : String) (f : Placeholder → String) : String :=
  Part.fill f (segments o input)

end JsonStencil
