import JsonStencil.Span
import Mathlib.Data.List.Induction
import Mathlib.Data.List.TakeWhile

/-!
# Places in a text

The position behind a text tells its lines, the characters of its last line and its bytes. A span
made inside a part of a text is moved to where the part stands.
-/

namespace JsonStencil

namespace Position

variable (p : Position) (cs : List Char) (c : Char)

theorem after_concat : p.after (cs ++ [c]) = (p.after cs).advance c := after_append p cs [c]

theorem line_after : (p.after cs).line = p.line + cs.count '\n' := by
  induction cs using List.reverseRecOn with
  | nil => rfl
  | append_singleton cs c ih =>
    rw [after_concat, advance, List.count_append, List.count_singleton]
    by_cases hc : c = '\n' <;> simp [hc, ih, Nat.add_assoc]

theorem column_after : (p.after cs).column =
    if '\n' ∈ cs then 1 + (cs.reverse.takeWhile (· ≠ '\n')).length else p.column + cs.length := by
  induction cs using List.reverseRecOn with
  | nil => rfl
  | append_singleton cs c ih =>
    rw [after_concat, advance, List.reverse_append, List.reverse_singleton, List.singleton_append]
    by_cases hc : c = '\n'
    · simp [hc]
    · have hmem : '\n' ∈ cs ++ [c] ↔ '\n' ∈ cs := by simp [Ne.symm hc]
      rw [if_neg hc, ih]
      simp only [hmem, List.takeWhile_cons, hc, ne_eq, not_false_eq_true, decide_true, if_true,
        List.length_cons, List.length_append, List.length_nil]
      split <;> omega

/-- A longer text ends no earlier. -/
theorem after_le_append (cs ds : List Char) :
    (p.after cs).line ≤ (p.after (cs ++ ds)).line ∧
      ((p.after cs).line = (p.after (cs ++ ds)).line →
        (p.after cs).column ≤ (p.after (cs ++ ds)).column) ∧
      (p.after cs).offset ≤ (p.after (cs ++ ds)).offset := by
  rw [after_append, line_after _ ds, column_after _ ds, offset_after _ ds]
  refine ⟨Nat.le_add_right _ _, fun hline => ?_, Nat.le_add_right _ _⟩
  have hmem : '\n' ∉ ds := List.count_eq_zero.1 (by omega)
  rw [if_neg hmem]
  exact Nat.le_add_right _ _

theorem column_after_start :
    (start.after cs).column = 1 + (cs.reverse.takeWhile (· ≠ '\n')).length := by
  rw [column_after]
  split
  next => rfl
  next hmem =>
    have hall : cs.reverse.takeWhile (· ≠ '\n') = cs.reverse := by
      refine List.takeWhile_eq_self_iff.2 fun c hc => decide_eq_true fun heq => ?_
      exact hmem (heq ▸ List.mem_reverse.1 hc)
    rw [hall, List.length_reverse]
    rfl

end Position

namespace Span

/-- The span of a text that stands behind another one. -/
def behind (before text : List Char) : Span where
  line := 1 + before.count '\n'
  column := 1 + (before.reverse.takeWhile (· ≠ '\n')).length
  start := byteLength before
  stop := byteLength before + byteLength text

theorem span_after (before text : List Char) :
    (Position.start.after before).span (Position.start.after (before ++ text)) =
      behind before text := by
  rw [Position.span, behind, Position.line_after, Position.column_after_start,
    Position.offset_after, Position.offset_after, byteLength_append]
  simp only [Position.start, Nat.zero_add]

/-- A span inside a part of a text comes to where the part stands. -/
theorem relocate_span (p q : Position) (before text : List Char) :
    ((Position.start.after before).span (Position.start.after text)).relocate (p.span q) =
      (p.after before).span (p.after text) := by
  have hline : (Position.start.after before).line = 1 + before.count '\n' :=
    Position.line_after _ _
  have hone : (Position.start.after before).line = 1 ↔ '\n' ∉ before := by
    rw [hline, ← List.count_eq_zero]
    omega
  simp only [relocate, Position.span, hone, Position.offset_after, Span.mk.injEq]
  refine ⟨?_, ?_, ?_, ?_⟩
  · rw [hline, Position.line_after]
    omega
  · rw [Position.column_after, Position.column_after]
    by_cases hmem : '\n' ∈ before
    · simp only [hmem, not_true, if_true, if_false]
    · simp only [hmem, not_false_eq_true, if_true, if_false, Position.start]
      omega
  · simp only [Position.start, Nat.zero_add]
  · simp only [Position.start, Nat.zero_add]

/-- The span of the characters of a text between two of its places. -/
def slice (cs : List Char) (i j : Nat) : Span :=
  (Position.start.after (cs.take i)).span (Position.start.after (cs.take j))

variable {cs : List Char} {i j k l : Nat}

theorem take_eq_append (h : i ≤ j) (cs : List Char) :
    cs.take j = cs.take i ++ (cs.take j).drop i := by
  have hsplit := List.take_append_drop i (cs.take j)
  rw [List.take_take, Nat.min_eq_left h] at hsplit
  exact hsplit.symm

theorem slice_eq_behind (h : i ≤ j) (cs : List Char) :
    slice cs i j = behind (cs.take i) ((cs.take j).drop i) := by
  rw [← span_after, ← take_eq_append h]
  rfl

theorem exists_slice_eq_behind (h : i ≤ j) (cs : List Char) :
    ∃ before text back, cs = before ++ text ++ back ∧ slice cs i j = behind before text := by
  refine ⟨cs.take i, (cs.take j).drop i, cs.drop j, ?_, slice_eq_behind h cs⟩
  rw [← take_eq_append h, List.take_append_drop]

theorem behind_eq_slice (before text back : List Char) :
    behind before text =
      slice (before ++ text ++ back) before.length (before.length + text.length) := by
  have htext : (before ++ text ++ back).take (before.length + text.length) = before ++ text := by
    rw [← List.length_append, List.take_left]
  have hbefore : (before ++ text ++ back).take before.length = before := by
    rw [List.append_assoc, List.take_left]
  rw [slice, htext, hbefore, span_after]

theorem merge_slice (hik : i ≤ k) (hjl : j ≤ l) (cs : List Char) :
    (slice cs i j).merge (slice cs k l) = slice cs i l := by
  have hstart := Position.after_le_append .start (cs.take i) ((cs.take k).drop i)
  have hstop := Position.after_le_append .start (cs.take j) ((cs.take l).drop j)
  rw [← take_eq_append hik] at hstart
  rw [← take_eq_append hjl] at hstop
  obtain ⟨hline, hcolumn, hoffset⟩ := hstart
  simp only [merge, slice, Position.span, Nat.min_eq_left hline, Nat.min_eq_left hoffset,
    Nat.max_eq_right hstop.2.2, Span.mk.injEq, true_and, and_true]
  exact ite_eq_right_iff.2 fun heq => Nat.min_eq_left (hcolumn heq)

theorem slice_le (hij : i ≤ j) (hkl : k ≤ l) (cs : List Char) :
    (slice cs i l).start ≤ (slice cs j k).start ∧ (slice cs j k).stop ≤ (slice cs i l).stop := by
  have hstart := Position.after_le_append .start (cs.take i) ((cs.take j).drop i)
  have hstop := Position.after_le_append .start (cs.take k) ((cs.take l).drop k)
  rw [← take_eq_append hij] at hstart
  rw [← take_eq_append hkl] at hstop
  exact ⟨hstart.2.2, hstop.2.2⟩

theorem slice_start_lt_stop (hij : i < j) (hj : j ≤ cs.length) :
    (slice cs i j).start < (slice cs i j).stop := by
  rw [slice_eq_behind (Nat.le_of_lt hij)]
  cases htext : (cs.take j).drop i with
  | nil =>
    have hlen := congrArg List.length htext
    rw [List.length_drop, List.length_take, List.length_nil] at hlen
    omega
  | cons c rest =>
    have hpos := c.utf8Size_pos
    simp only [behind, byteLength_cons]
    omega

/-- Places in a part of a text count from the start of the part. -/
theorem relocate_slice {a b : Nat} (hi : i ≤ b - a) (hj : j ≤ b - a) (cs : List Char) :
    (slice ((cs.drop a).take (b - a)) i j).relocate (slice cs a b) = slice cs (a + i) (a + j) := by
  rw [slice, slice, relocate_span, slice, List.take_take, List.take_take, Nat.min_eq_left hi,
    Nat.min_eq_left hj, List.take_add, List.take_add, Position.after_append, Position.after_append]

end Span

end JsonStencil
