import JsonStencil.Proofs.Template.Segments
import JsonStencil.Proofs.Text.Search

/-!
# Runs of escapes

A text is read as runs of escapes, each in front of a left delimiter, of another character or of the
end. The delimiters have an escape of one character that is not in the left one, so that no run
reaches into a delimiter and none goes on behind it.
-/

namespace JsonStencil

structure Delimiters where
  left : String
  right : String
  escape : Char
  left_ne : left ≠ ""
  right_ne : right ≠ ""
  escape_not_mem : escape ∉ left.toList

namespace Delimiters

def options (d : Delimiters) (sigil : String) : TemplateOptions :=
  ⟨d.left, d.right, .singleton d.escape, sigil⟩

def standard : Delimiters where
  left := "\x7b\x7b"
  right := "\x7d\x7d"
  escape := '\\'
  left_ne := by decide
  right_ne := by decide
  escape_not_mem := by decide

theorem options_standard : standard.options "$" = .standard := rfl

variable (d : Delimiters)

theorem left_ne_nil : d.left.toList ≠ [] := fun h => d.left_ne (String.toList_eq_nil_iff.1 h)

theorem right_ne_nil : d.right.toList ≠ [] := fun h => d.right_ne (String.toList_eq_nil_iff.1 h)

def run (n : Nat) : List Char := List.replicate n d.escape

theorem run_succ (n : Nat) : d.run (n + 1) = d.escape :: d.run n := rfl

variable {d} {n : Nat} {cs rest : List Char} {c : Char}

theorem head?_left (rest : List Char) : (d.left.toList ++ rest).head? ≠ some d.escape := by
  have hmem := d.escape_not_mem
  cases hleft : d.left.toList with
  | nil => exact absurd hleft d.left_ne_nil
  | cons c cs =>
    intro hhead
    rw [hleft, ← Option.some.inj hhead] at hmem
    exact hmem List.mem_cons_self

theorem eq_nil_of_prefix_run {u : List Char} (hu : d.escape ∉ u) (hn : 0 < n)
    (h : u <+: d.run n ++ rest) : u = [] := by
  cases u with
  | nil => rfl
  | cons c u =>
    obtain ⟨m, rfl⟩ := Nat.exists_eq_add_of_lt hn
    rw [Nat.zero_add, run_succ, List.cons_append, List.cons_prefix_cons] at h
    exact absurd (h.1 ▸ List.mem_cons_self) hu

theorem splitRun_run (n : Nat) : splitRun [d.escape] (d.run n) = (n, []) := by
  have h : splitRun [d.escape] (d.run n ++ []) = (n, []) := splitRun_replicate n (by simp)
  rwa [List.append_nil] at h

end Delimiters

/-- A run of escapes with what it stands in front of and the rest of the text. -/
inductive Run where
  | left (n : Nat) (rest : List Char)
  | char (n : Nat) (c : Char) (rest : List Char)
  | last (n : Nat)

namespace Delimiters

variable (d : Delimiters)

def firstRun (cs : List Char) : Run :=
  match splitRun [d.escape] cs with
  | (n, rest) =>
    match dropFront? d.left.toList rest, rest with
    | some opened, _ => .left n opened
    | none, [] => .last n
    | none, c :: tail => .char n c tail

variable {d} {n : Nat} {c : Char} {cs rest : List Char}

theorem firstRun_left (n : Nat) (rest : List Char) :
    d.firstRun (d.run n ++ (d.left.toList ++ rest)) = .left n rest := by
  rw [firstRun, run, splitRun_replicate n (head?_left rest)]
  dsimp only
  rw [dropFront?_append]

theorem firstRun_char (n : Nat) (hc : c ≠ d.escape) (hleft : ¬ d.left.toList <+: c :: rest) :
    d.firstRun (d.run n ++ c :: rest) = .char n c rest := by
  rw [firstRun, run, splitRun_replicate n (by simpa using hc)]
  dsimp only
  rw [dropFront?_eq_none_iff.2 hleft]

theorem firstRun_last (n : Nat) : d.firstRun (d.run n) = .last n := by
  rw [firstRun, splitRun_run]
  dsimp only
  rw [dropFront?_eq_none_iff.2 fun h => d.left_ne_nil (List.prefix_nil.1 h)]

/-- Every text is a run of escapes and what this stands in front of. -/
theorem exists_run (d : Delimiters) (cs : List Char) :
    (∃ n rest, cs = d.run n ++ (d.left.toList ++ rest)) ∨
      (∃ n c rest, cs = d.run n ++ c :: rest ∧ c ≠ d.escape ∧ ¬ d.left.toList <+: c :: rest) ∨
        ∃ n, cs = d.run n := by
  induction cs with
  | nil => exact .inr (.inr ⟨0, rfl⟩)
  | cons c cs ih =>
    by_cases hc : c = d.escape
    · subst hc
      rcases ih with ⟨n, rest, rfl⟩ | ⟨n, c, rest, rfl, hc, hleft⟩ | ⟨n, rfl⟩
      · exact .inl ⟨n + 1, rest, rfl⟩
      · exact .inr (.inl ⟨n + 1, c, rest, rfl, hc, hleft⟩)
      · exact .inr (.inr ⟨n + 1, rfl⟩)
    · by_cases hleft : d.left.toList <+: c :: cs
      · obtain ⟨rest, hrest⟩ := hleft
        exact .inl ⟨0, rest, hrest.symm⟩
      · exact .inr (.inl ⟨0, c, cs, rfl, hc, hleft⟩)

/-- The text that starts with a run. -/
def runText (d : Delimiters) : Run → List Char
  | .left n rest => d.run n ++ (d.left.toList ++ rest)
  | .char n c rest => d.run n ++ c :: rest
  | .last n => d.run n

theorem runText_firstRun (cs : List Char) : d.runText (d.firstRun cs) = cs := by
  rcases d.exists_run cs with ⟨n, rest, rfl⟩ | ⟨n, c, rest, rfl, hc, hleft⟩ | ⟨n, rfl⟩
  · rw [firstRun_left, runText]
  · rw [firstRun_char n hc hleft, runText]
  · rw [firstRun_last, runText]

theorem length_lt_of_left (n : Nat) (rest : List Char) :
    rest.length < (d.run n ++ (d.left.toList ++ rest)).length := by
  have hpos := List.length_pos_iff.2 d.left_ne_nil
  simp only [List.length_append]
  omega

theorem length_lt_of_char (n : Nat) (c : Char) (rest : List Char) :
    rest.length < (d.run n ++ c :: rest).length := by
  simp only [List.length_append, List.length_cons]
  omega

/-- The cases of an induction over the runs of a text. -/
theorem induction (d : Delimiters) {motive : List Char → Prop}
    (left : ∀ n rest, motive rest → motive (d.run n ++ (d.left.toList ++ rest)))
    (char : ∀ n c rest, c ≠ d.escape → ¬ d.left.toList <+: c :: rest → motive rest →
      motive (d.run n ++ c :: rest))
    (last : ∀ n, motive (d.run n)) (cs : List Char) : motive cs := by
  induction hlength : cs.length using Nat.strongRecOn generalizing cs with
  | ind length ih =>
    subst hlength
    rcases d.exists_run cs with ⟨n, rest, rfl⟩ | ⟨n, c, rest, rfl, hc, hleft⟩ | ⟨n, rfl⟩
    · exact left n rest (ih _ (length_lt_of_left n rest) rest rfl)
    · exact char n c rest hc hleft (ih _ (length_lt_of_char n c rest) rest rfl)
    · exact last n

section Fold

variable {α : Type}

/-- A recursion over the runs of a text, which also reads what is left behind a left delimiter. -/
def foldRuns (d : Delimiters) (left : Nat → List Char → α → α) (char : Nat → Char → α → α)
    (last : Nat → α) (cs : List Char) : α :=
  match _ : d.firstRun cs with
  | .left n rest => left n rest (foldRuns d left char last rest)
  | .char n c rest => char n c (foldRuns d left char last rest)
  | .last n => last n
termination_by cs.length
decreasing_by
  · rw [← runText_firstRun cs, ‹d.firstRun cs = .left n rest›]
    exact length_lt_of_left n rest
  · rw [← runText_firstRun cs, ‹d.firstRun cs = .char n c rest›]
    exact length_lt_of_char n c rest

variable {left : Nat → List Char → α → α} {char : Nat → Char → α → α} {last : Nat → α}

theorem foldRuns_eq (cs : List Char) :
    d.foldRuns left char last cs = match d.firstRun cs with
      | .left n rest => left n rest (d.foldRuns left char last rest)
      | .char n c rest => char n c (d.foldRuns left char last rest)
      | .last n => last n := by
  rw [foldRuns]
  split
  next h => rw [h]
  next h => rw [h]
  next h => rw [h]

theorem foldRuns_left (n : Nat) (rest : List Char) :
    d.foldRuns left char last (d.run n ++ (d.left.toList ++ rest)) =
      left n rest (d.foldRuns left char last rest) := by
  rw [foldRuns_eq, firstRun_left]

theorem foldRuns_char (n : Nat) (hc : c ≠ d.escape) (hleft : ¬ d.left.toList <+: c :: rest) :
    d.foldRuns left char last (d.run n ++ c :: rest) =
      char n c (d.foldRuns left char last rest) := by
  rw [foldRuns_eq, firstRun_char n hc hleft]

theorem foldRuns_last (n : Nat) : d.foldRuns left char last (d.run n) = last n := by
  rw [foldRuns_eq, firstRun_last]

end Fold

/-- Changes the runs in front of left delimiters, and the run at the end of the text. -/
def changeRuns (d : Delimiters) (before last : Nat → Nat) : List Char → List Char :=
  d.foldRuns (fun n _ changed => d.run (before n) ++ (d.left.toList ++ changed))
    (fun n c changed => d.run n ++ c :: changed) fun n => d.run (last n)

section ChangeRuns

variable {before last : Nat → Nat}

theorem changeRuns_left (n : Nat) (rest : List Char) :
    d.changeRuns before last (d.run n ++ (d.left.toList ++ rest)) =
      d.run (before n) ++ (d.left.toList ++ d.changeRuns before last rest) :=
  foldRuns_left n rest

theorem changeRuns_char (n : Nat) (hc : c ≠ d.escape) (hleft : ¬ d.left.toList <+: c :: rest) :
    d.changeRuns before last (d.run n ++ c :: rest) =
      d.run n ++ c :: d.changeRuns before last rest :=
  foldRuns_char n hc hleft

theorem changeRuns_last (n : Nat) : d.changeRuns before last (d.run n) = d.run (last n) :=
  foldRuns_last n

end ChangeRuns

section Pieces

variable (d : Delimiters)

abbrev pieces (start : Nat) (cs : List Char) : List (Char ⊕ Placeholder) :=
  Placeholder.pieces d.left.toList d.right.toList [d.escape] d.left_ne_nil start cs

theorem segments_options (sigil s : String) :
    segments (d.options sigil) s = Part.gather [] (d.pieces 0 s.toList) := by
  have hescape : (String.singleton d.escape).toList = [d.escape] := String.toList_singleton _
  rw [segments, dif_pos ⟨d.left_ne_nil, d.right_ne_nil⟩]
  simp only [options, hescape]

variable {d}

theorem pieces_nil (start : Nat) : d.pieces start [] = [] := by
  rw [pieces, Placeholder.pieces]

theorem pieces_odd (n start : Nat) (rest : List Char) :
    d.pieces start (d.run (2 * n + 1) ++ (d.left.toList ++ rest)) =
      (d.run n ++ d.left.toList).map .inl ++
        d.pieces (start + byteLength (d.run (2 * n + 1) ++ d.left.toList)) rest := by
  have hrun := splitRun_replicate (e := d.escape) (2 * n + 1) (head?_left (d := d) rest)
  rw [pieces, run, Placeholder.pieces_run_odd hrun (dropFront?_append _ rest),
    List.flatten_replicate_singleton, byteLength_append, byteLength_replicate, List.map_append,
    Nat.add_assoc start]
  rfl

theorem pieces_even (n start : Nat) (rest : List Char) :
    d.pieces start (d.run (2 * n) ++ (d.left.toList ++ rest)) = (d.run n).map .inl ++
      d.pieces (start + byteLength (d.run (2 * n))) (d.left.toList ++ rest) := by
  cases n with
  | zero => rfl
  | succ n =>
    have hrun := splitRun_replicate (e := d.escape) (2 * n + 2) (head?_left (d := d) rest)
    rw [pieces, run, Nat.mul_succ, Placeholder.pieces_run_even hrun (dropFront?_append _ rest),
      List.flatten_replicate_singleton, byteLength_replicate]
    rfl

theorem pieces_char (n start : Nat) (hc : c ≠ d.escape) (hleft : ¬ d.left.toList <+: c :: rest) :
    d.pieces start (d.run n ++ c :: rest) = (d.run n ++ [c]).map .inl ++
      d.pieces (start + byteLength (d.run n ++ [c])) rest := by
  have hhead : (c :: rest).head? ≠ some d.escape := by simpa using hc
  have hclosed := dropFront?_eq_none_iff.2 hleft
  have hrun := splitRun_replicate (e := d.escape) 0 hhead
  rw [pieces, run, Placeholder.pieces_replicate n start hhead hclosed,
    Placeholder.pieces_char hrun hclosed, List.map_append, byteLength_append, List.append_assoc,
    Nat.add_assoc start]
  rfl

theorem pieces_last (n start : Nat) : d.pieces start (d.run n) = (d.run n).map .inl := by
  have hclosed : dropFront? d.left.toList [] = none :=
    dropFront?_eq_none_iff.2 fun h => d.left_ne_nil (List.prefix_nil.1 h)
  have h : d.pieces start (d.run n ++ []) = (d.run n).map .inl ++ d.pieces _ [] :=
    Placeholder.pieces_replicate n start (by simp) hclosed
  rwa [pieces_nil, List.append_nil, List.append_nil] at h

end Pieces

end Delimiters

end JsonStencil
