import JsonStencil.Proofs.Template.Runs
import JsonStencil.Proofs.Template.Verbatim
import Mathlib.Algebra.Ring.Parity

/-!
# Texts without a right delimiter

A text in which no right delimiter occurs has no placeholders. The runs of escapes in front of its
left delimiters are halved, up to the first left delimiter that no escape makes text. This one ends
the scan, so the runs behind it stay as they are.
-/

namespace JsonStencil

namespace Delimiters

section Halved

/-- Every run of escapes in front of a left delimiter is halved. -/
def halved (d : Delimiters) (cs : List Char) : List Char := d.changeRuns (· / 2) id cs

variable {d : Delimiters} {c : Char} {cs rest : List Char}

theorem halved_left (n : Nat) (rest : List Char) :
    d.halved (d.run n ++ (d.left.toList ++ rest)) =
      d.run (n / 2) ++ (d.left.toList ++ d.halved rest) :=
  changeRuns_left n rest

theorem halved_char (n : Nat) (hc : c ≠ d.escape) (hleft : ¬ d.left.toList <+: c :: rest) :
    d.halved (d.run n ++ c :: rest) = d.run n ++ c :: d.halved rest :=
  changeRuns_char n hc hleft

theorem halved_last (n : Nat) : d.halved (d.run n) = d.run n := changeRuns_last n

theorem halved_nil : d.halved [] = [] := halved_last 0

theorem halved_run_left (n : Nat) :
    d.halved (d.run n ++ d.left.toList) = d.run (n / 2) ++ d.left.toList := by
  have h := halved_left (d := d) n []
  rwa [halved_nil, List.append_nil] at h

theorem length_halved_le (cs : List Char) : (d.halved cs).length ≤ cs.length := by
  induction cs using d.induction with
  | left n rest ih =>
    have hrun : n / 2 ≤ n := Nat.div_le_self n 2
    rw [halved_left]
    simp only [run, List.length_append, List.length_replicate]
    omega
  | char n c rest hc hleft ih =>
    rw [halved_char n hc hleft]
    simpa using ih
  | last n => rw [halved_last]

theorem escaped_infix_append {u : List Char} (hu : d.escape ∉ u) (rest : List Char) :
    d.escape :: d.left.toList <:+: u ++ rest ↔ d.escape :: d.left.toList <:+: rest := by
  induction u with
  | nil => rfl
  | cons c u ih =>
    obtain ⟨hc, hu⟩ := not_or.1 (mt List.mem_cons.2 hu)
    rw [List.cons_append, List.infix_cons_iff, ih hu, List.cons_prefix_cons]
    exact or_iff_right fun h => hc h.1

theorem escaped_infix_run (n : Nat) (rest : List Char) :
    d.escape :: d.left.toList <:+: d.run n ++ rest ↔
      0 < n ∧ d.left.toList <+: rest ∨ d.escape :: d.left.toList <:+: rest := by
  induction n with
  | zero => simp [run]
  | succ n ih =>
    -- of a run only the last escape stands directly before what follows
    have hprefix : d.left.toList <+: d.run n ++ rest ↔ n = 0 ∧ d.left.toList <+: rest := by
      cases n with
      | zero => simp [run]
      | succ n =>
        have hne (h : d.left.toList <+: d.run (n + 1) ++ rest) : False :=
          d.left_ne_nil (eq_nil_of_prefix_run d.escape_not_mem (Nat.succ_pos n) h)
        simpa using hne
    rw [run_succ, List.cons_append, List.infix_cons_iff, List.cons_prefix_cons, ih, hprefix]
    by_cases hn : n = 0
    · simp [hn]
    · simp [hn, Nat.pos_of_ne_zero hn]

/-- Halving changes a text only where an escape stands in front of a left delimiter. -/
theorem halved_eq_self_iff (cs : List Char) :
    d.halved cs = cs ↔ ¬ d.escape :: d.left.toList <:+: cs := by
  induction cs using d.induction with
  | left n rest ih =>
    rw [halved_left, escaped_infix_run, escaped_infix_append d.escape_not_mem, not_or, ← ih]
    constructor
    · intro h
      have hlength := congrArg List.length h
      have hle := length_halved_le (d := d) rest
      simp only [run, List.length_append, List.length_replicate] at hlength
      have hn : n = 0 := by omega
      subst hn
      exact ⟨fun hpos => absurd hpos.1 (Nat.lt_irrefl 0), List.append_cancel_left h⟩
    · rintro ⟨hn, hrest⟩
      have hzero : n = 0 := by
        by_contra hne
        exact hn ⟨Nat.pos_of_ne_zero hne, List.prefix_append _ _⟩
      rw [hzero, hrest]
  | char n c rest hc hleft ih =>
    have hrest := escaped_infix_append (d := d) (u := [c]) (by simpa using Ne.symm hc) rest
    rw [List.singleton_append] at hrest
    rw [halved_char n hc hleft, escaped_infix_run, hrest]
    simp [hleft, ih]
  | last n =>
    have hinfix := escaped_infix_run (d := d) n []
    rw [List.append_nil] at hinfix
    simp [halved_last, hinfix, d.left_ne]

end Halved

section Split

variable (d : Delimiters)

/-- The text up to the first left delimiter that is not escaped, and what is behind it. -/
def splitLive : List Char → List Char × List Char :=
  d.foldRuns
    (fun n rest split =>
      if n % 2 = 0 then (d.run n ++ d.left.toList, rest)
      else (d.run n ++ (d.left.toList ++ split.1), split.2))
    (fun n c split => (d.run n ++ c :: split.1, split.2)) fun n => (d.run n, [])

variable {d} {c : Char} {rest : List Char}

theorem splitLive_even (n : Nat) (rest : List Char) :
    d.splitLive (d.run (2 * n) ++ (d.left.toList ++ rest)) =
      (d.run (2 * n) ++ d.left.toList, rest) :=
  (foldRuns_left _ rest).trans (if_pos (by omega))

theorem splitLive_odd (n : Nat) (rest : List Char) :
    d.splitLive (d.run (2 * n + 1) ++ (d.left.toList ++ rest)) =
      (d.run (2 * n + 1) ++ (d.left.toList ++ (d.splitLive rest).1), (d.splitLive rest).2) :=
  (foldRuns_left _ rest).trans (if_neg (by omega))

theorem splitLive_char (n : Nat) (hc : c ≠ d.escape) (hleft : ¬ d.left.toList <+: c :: rest) :
    d.splitLive (d.run n ++ c :: rest) =
      (d.run n ++ c :: (d.splitLive rest).1, (d.splitLive rest).2) :=
  foldRuns_char n hc hleft

theorem splitLive_last (n : Nat) : d.splitLive (d.run n) = (d.run n, []) := foldRuns_last n

theorem splitLive_append (cs : List Char) : (d.splitLive cs).1 ++ (d.splitLive cs).2 = cs := by
  induction cs using d.induction with
  | left n rest ih =>
    rcases Nat.even_or_odd' n with ⟨m, rfl | rfl⟩
    · rw [splitLive_even, List.append_assoc]
    · rw [splitLive_odd, List.append_assoc, List.append_assoc, ih]
  | char n c rest hc hleft ih =>
    rw [splitLive_char n hc hleft, List.append_assoc, List.cons_append, ih]
  | last n => rw [splitLive_last, List.append_nil]

theorem not_prefix_splitLive (hleft : ¬ d.left.toList <+: c :: rest) :
    ¬ d.left.toList <+: c :: (d.splitLive rest).1 := by
  intro h
  rw [← splitLive_append rest] at hleft
  exact hleft (h.trans (List.prefix_append (c :: (d.splitLive rest).1) _))

theorem halved_splitLive (cs : List Char) :
    d.halved (d.splitLive cs).1 ++ d.halved (d.splitLive cs).2 = d.halved cs := by
  induction cs using d.induction with
  | left n rest ih =>
    rcases Nat.even_or_odd' n with ⟨m, rfl | rfl⟩
    · rw [splitLive_even, halved_run_left, halved_left, List.append_assoc]
    · rw [splitLive_odd, halved_left, halved_left, List.append_assoc, List.append_assoc, ih]
  | char n c rest hc hleft ih =>
    rw [splitLive_char n hc hleft, halved_char n hc hleft,
      halved_char n hc (not_prefix_splitLive hleft), List.append_assoc, List.cons_append, ih]
  | last n => rw [splitLive_last, halved_nil, List.append_nil]

end Split

section Pieces

variable {d : Delimiters}

/-- A left delimiter without a right one ends the scan. -/
theorem pieces_open {rest : List Char} (h : ¬ d.right.toList <:+: rest) (start : Nat) :
    d.pieces start (d.left.toList ++ rest) = (d.left.toList ++ rest).map .inl := by
  have hrun : splitRun [d.escape] (d.left.toList ++ rest) = (0, _) :=
    splitRun_replicate 0 (head?_left rest)
  exact Placeholder.pieces_unclosed hrun (dropFront?_append _ _) (cut?_eq_none_iff.2 h)

theorem pieces_of_unclosed {cs : List Char} (h : ¬ d.right.toList <:+: cs) (start : Nat) :
    d.pieces start cs = (d.halved (d.splitLive cs).1 ++ (d.splitLive cs).2).map .inl := by
  induction cs using d.induction generalizing start with
  | left n rest ih =>
    have hsuffix : rest <:+ d.run n ++ (d.left.toList ++ rest) := by simp [← List.append_assoc]
    have hrest : ¬ d.right.toList <:+: rest := fun hi => h (hi.trans hsuffix.isInfix)
    rcases Nat.even_or_odd' n with ⟨m, rfl | rfl⟩
    · rw [pieces_even, pieces_open hrest, splitLive_even, halved_run_left,
        Nat.mul_div_cancel_left m Nat.two_pos]
      simp
    · have hhalf : (2 * m + 1) / 2 = m := by omega
      rw [pieces_odd, ih hrest, splitLive_odd, halved_left, hhalf]
      simp
  | char n c rest hc hleft ih =>
    have hsuffix : rest <:+ d.run n ++ c :: rest :=
      (List.suffix_cons c rest).trans (List.suffix_append _ _)
    have hrest : ¬ d.right.toList <:+: rest := fun hi => h (hi.trans hsuffix.isInfix)
    rw [pieces_char n start hc hleft, ih hrest, splitLive_char n hc hleft,
      halved_char n hc (not_prefix_splitLive hleft)]
    simp
  | last n => rw [pieces_last, splitLive_last, halved_last, List.append_nil]

end Pieces

end Delimiters

open Template

namespace Delimiters

/-- Without a right delimiter all is text. The escapes are halved up to the first live left
delimiter, so all are halved only when none behind it stands in front of a left delimiter. -/
theorem segments_unclosed (d : Delimiters) (sigil : String) {s : String}
    (h : ¬ d.right.toList <:+: s.toList) :
    segments (d.options sigil) s =
        verbatim (.ofList (d.halved (d.splitLive s.toList).1 ++ (d.splitLive s.toList).2)) ∧
      (segments (d.options sigil) s = verbatim (.ofList (d.halved s.toList)) ↔
        ¬ d.escape :: d.left.toList <:+: (d.splitLive s.toList).2) := by
  have hsegments : segments (d.options sigil) s =
      verbatim (.ofList (d.halved (d.splitLive s.toList).1 ++ (d.splitLive s.toList).2)) := by
    rw [segments_options, pieces_of_unclosed h, verbatim, String.toList_ofList]
  refine ⟨hsegments, ?_⟩
  rw [hsegments, verbatim_inj, String.ofList_inj, ← halved_splitLive s.toList,
    List.append_right_inj, eq_comm]
  exact halved_eq_self_iff _

theorem segments_unclosed_escaped :
    let s := "\\\x7b\x7b \\\\\x7b\x7b \\\x7b\x7b"
    ¬ standard.right.toList <:+: s.toList ∧
      standard.splitLive s.toList =
        ("\\\x7b\x7b \\\\\x7b\x7b".toList, " \\\x7b\x7b".toList) ∧
      segments .standard s = [.text "\x7b\x7b \\\x7b\x7b \\\x7b\x7b"] := by
  intro s
  have h : ¬ standard.right.toList <:+: s.toList := by decide
  refine ⟨h, by decide +kernel, ?_⟩
  exact (segments_unclosed standard "$" h).1.trans (by decide +kernel)

/-- Not every run of escapes in front of a left delimiter is halved. -/
theorem not_segments_halved :
    ¬ ∀ s : String, ¬ standard.right.toList <:+: s.toList →
      segments .standard s = verbatim (.ofList (standard.halved s.toList)) := by
  intro h
  have hlive := h "\x7b\x7b \\\x7b\x7b" (by decide)
  exact absurd hlive (by decide +kernel)

end Delimiters

end JsonStencil
