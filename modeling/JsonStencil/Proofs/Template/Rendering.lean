import JsonStencil.Proofs.Template.Runs
import JsonStencil.Proofs.Template.Scanning

/-!
# Writing texts and placeholders

Texts and placeholders are written as one text by putting the placeholders between their delimiters
and one more than twice as many escapes in front of every left delimiter of a text. Where a
placeholder follows a text, the escapes at its end are doubled. A scan takes what is written apart
again, as long as no text ends in a part of a delimiter that the placeholder behind it completes.
-/

namespace JsonStencil

/-- The text does not end in a front of the delimiter, but for the whole and the empty one. -/
def EndsApart (delimiter cs : List Char) : Prop :=
  ∀ n < delimiter.length, 0 < n → ¬ delimiter.take n <:+ cs

instance (delimiter cs : List Char) : Decidable (EndsApart delimiter cs) :=
  inferInstanceAs (Decidable (∀ n < delimiter.length, 0 < n → ¬ delimiter.take n <:+ cs))

theorem EndsApart.of_suffix {delimiter cs ds : List Char} (h : EndsApart delimiter cs)
    (hds : ds <:+ cs) : EndsApart delimiter ds :=
  fun n hn hpos hsuffix => h n hn hpos (hsuffix.trans hds)

namespace Delimiters

section Texts

variable {d : Delimiters} {before last : Nat → Nat} {u next : List Char}

/-- Escapes are all that is put into a text, so a front without them was there before, unless it
goes on behind the text. -/
theorem prefix_of_changeRuns (hbefore : ∀ n, 0 < before n) (hlast : ∀ n, last n = 0 ↔ n = 0)
    (cs : List Char) (hu : d.escape ∉ u) (h : u <+: d.changeRuns before last cs ++ next) :
    u <+: cs ∨ ∃ v, u = cs ++ v ∧ v <+: next := by
  induction cs using d.induction generalizing u with
  | left n rest _ =>
    rw [changeRuns_left, List.append_assoc] at h
    rw [eq_nil_of_prefix_run hu (hbefore n) h]
    exact .inl List.nil_prefix
  | char n c rest hc hleft ih =>
    rw [changeRuns_char n hc hleft, List.append_assoc] at h
    cases n with
    | succ n =>
      rw [eq_nil_of_prefix_run hu (Nat.succ_pos n) h]
      exact .inl List.nil_prefix
    | zero =>
      cases u with
      | nil => exact .inl List.nil_prefix
      | cons x u =>
        obtain ⟨hx, hprefix⟩ := List.cons_prefix_cons.1 h
        subst hx
        rcases ih (fun hmem => hu (List.mem_cons_of_mem _ hmem)) hprefix with hrest | ⟨v, rfl, hv⟩
        · exact .inl (List.cons_prefix_cons.2 ⟨rfl, hrest⟩)
        · exact .inr ⟨v, rfl, hv⟩
  | last n =>
    rw [changeRuns_last] at h
    by_cases hn : n = 0
    · rw [(hlast n).2 hn] at h
      subst hn
      exact .inr ⟨u, rfl, h⟩
    · have hpos : 0 < last n := Nat.pos_of_ne_zero fun hzero => hn ((hlast n).1 hzero)
      rw [eq_nil_of_prefix_run hu hpos h]
      exact .inl List.nil_prefix

/-- No left delimiter comes about where none was. -/
theorem not_prefix_changeRuns (hbefore : ∀ n, 0 < before n) (hlast : ∀ n, last n = 0 ↔ n = 0)
    {c : Char} {rest : List Char} (hc : c ≠ d.escape) (hleft : ¬ d.left.toList <+: c :: rest)
    (hnext : next = [] ∨ EndsApart d.left.toList (c :: rest)) :
    ¬ d.left.toList <+: c :: (d.changeRuns before last rest ++ next) := by
  intro h
  have hchange : d.changeRuns before last (d.run 0 ++ c :: rest) = d.run 0 ++ _ :=
    changeRuns_char 0 hc hleft
  have hprefix : d.left.toList <+: d.changeRuns before last (c :: rest) ++ next := by
    rw [show c :: rest = d.run 0 ++ c :: rest from rfl, hchange]
    exact h
  rcases prefix_of_changeRuns hbefore hlast (c :: rest) d.escape_not_mem hprefix with
    hfront | ⟨v, hsplit, hv⟩
  · exact hleft hfront
  · -- the delimiter goes on behind the text, so the text is a front of it
    have hv_ne : v ≠ [] := by
      rintro rfl
      rw [List.append_nil] at hsplit
      exact hleft (hsplit ▸ List.prefix_refl _)
    rcases hnext with rfl | hapart
    · exact hv_ne (List.prefix_nil.1 hv)
    · have hpos := List.length_pos_iff.2 hv_ne
      apply hapart (c :: rest).length
      · rw [hsplit, List.length_append]
        omega
      · exact Nat.succ_pos _
      · rw [hsplit, List.take_left]

/-- What is written for a text is taken apart into the text, up to what stands behind it. -/
theorem pieces_changeRuns (hlast : ∀ n, last n = 0 ↔ n = 0)
    (hend : ∀ n start, d.pieces start (d.run (last n) ++ next) =
      (d.run n).map .inl ++ d.pieces (start + byteLength (d.run (last n))) next)
    (cs : List Char) (hnext : next = [] ∨ EndsApart d.left.toList cs) (start : Nat) :
    d.pieces start (d.changeRuns (fun n => 2 * n + 1) last cs ++ next) = cs.map .inl ++
      d.pieces (start + byteLength (d.changeRuns (fun n => 2 * n + 1) last cs)) next := by
  have hbefore (n : Nat) : 0 < 2 * n + 1 := Nat.succ_pos _
  induction cs using d.induction generalizing start with
  | left n rest ih =>
    have hrest := ih (hnext.imp_right fun h => h.of_suffix (by simp [← List.append_assoc]))
    rw [changeRuns_left, List.append_assoc, List.append_assoc, pieces_odd, hrest]
    simp [Nat.add_assoc]
  | char n c rest hc hleft ih =>
    have hrest := ih (hnext.imp_right fun h =>
      h.of_suffix ((List.suffix_cons c rest).trans (List.suffix_append _ _)))
    have hclosed := not_prefix_changeRuns hbefore hlast hc hleft
      (hnext.imp_right fun h => h.of_suffix (List.suffix_append _ _))
    rw [changeRuns_char n hc hleft, List.append_assoc, List.cons_append, pieces_char n _ hc hclosed,
      hrest]
    simp [byteLength, Nat.add_assoc]
  | last n =>
    rw [changeRuns_last]
    exact hend n start

/-- At the end of the whole the escapes at the end of a text may stay as they are. -/
theorem pieces_changeRuns_id (cs : List Char) (start : Nat) :
    d.pieces start (d.changeRuns (fun n => 2 * n + 1) id cs) = cs.map .inl := by
  have h := pieces_changeRuns (d := d) (fun _ => Iff.rfl) (fun n start => ?_) cs (.inl rfl) start
  · rwa [List.append_nil, pieces_nil, List.append_nil] at h
  · rw [List.append_nil, pieces_nil, List.append_nil]
    exact pieces_last n start

end Texts

section Rendered

/-- The escapes at the end of a text are doubled in front of a placeholder. -/
def endRun (behind : List (Part String)) (n : Nat) : Nat :=
  match behind with
  | .hole _ :: _ => 2 * n
  | _ => n

variable (d : Delimiters)

def escaped (behind : List (Part String)) (s : String) : List Char :=
  d.changeRuns (fun n => 2 * n + 1) (endRun behind) s.toList

def delimited (capture : String) : List Char :=
  d.left.toList ++ capture.toList ++ d.right.toList

def rendered : List (Part String) → List Char
  | [] => []
  | .text s :: parts => d.escaped parts s ++ rendered parts
  | .hole capture :: parts => d.delimited capture ++ rendered parts

/-- The placeholders with the byte ranges at which they are written. -/
def placed (start : Nat) : List (Part String) → List (Part Placeholder)
  | [] => []
  | .text s :: parts => .text s :: placed (start + byteLength (d.escaped parts s)) parts
  | .hole capture :: parts =>
    let stop := start + byteLength (d.delimited capture)
    .hole ⟨capture, start, stop⟩ :: placed stop parts

/-- What can be told apart once it is written. -/
structure Renderable (parts : List (Part String)) : Prop where
  gathered : Part.Gathered parts
  apart : parts.IsChain fun p q =>
    ∀ s capture, p = .text s → q = .hole capture → EndsApart d.left.toList s.toList
  closes : ∀ capture, .hole capture ∈ parts → Closes d.right.toList capture.toList

variable {d} {parts : List (Part String)}

theorem Renderable.tail {p : Part String} (h : d.Renderable (p :: parts)) : d.Renderable parts :=
  ⟨h.gathered.tail, h.apart.tail, fun c hc => h.closes c (List.mem_cons_of_mem _ hc)⟩

theorem endRun_eq_zero (behind : List (Part String)) (n : Nat) :
    endRun behind n = 0 ↔ n = 0 := by
  unfold endRun
  split
  · omega
  · rfl

theorem pieces_delimited {capture : String} (h : Closes d.right.toList capture.toList) (start : Nat)
    (rest : List Char) :
    d.pieces start (d.delimited capture ++ rest) =
      .inr ⟨capture, start, start + byteLength (d.delimited capture)⟩ ::
        d.pieces (start + byteLength (d.delimited capture)) rest := by
  have happend : d.delimited capture ++ rest =
      d.left.toList ++ (capture.toList ++ d.right.toList ++ rest) := by simp [delimited]
  have hrun : splitRun [d.escape] (d.left.toList ++ (capture.toList ++ d.right.toList ++ rest)) =
      (0, _) := splitRun_replicate 0 (head?_left _)
  rw [happend, pieces, Placeholder.pieces_hole hrun (dropFront?_append _ _) (h.cut?_eq rest)]
  simp [delimited, Nat.add_assoc]

/-- A text comes back from in front of whatever may follow it. -/
theorem pieces_escaped {s : String} (h : d.Renderable (.text s :: parts)) (start : Nat) :
    d.pieces start (d.escaped parts s ++ d.rendered parts) = s.toList.map .inl ++
      d.pieces (start + byteLength (d.escaped parts s)) (d.rendered parts) := by
  apply pieces_changeRuns (endRun_eq_zero parts)
  · intro n start
    match parts with
    | [] =>
      rw [rendered, pieces_nil, List.append_nil, List.append_nil]
      exact pieces_last n start
    | .text _ :: _ => exact h.gathered.not_text_text.elim
    | .hole capture :: parts =>
      rw [rendered, delimited, List.append_assoc, List.append_assoc]
      exact pieces_even n start _
  · match parts with
    | [] => exact .inl rfl
    | .text _ :: _ => exact h.gathered.not_text_text.elim
    | .hole capture :: parts =>
      exact .inr ((List.isChain_cons_cons.1 h.apart).1 s capture rfl rfl)

theorem pieces_rendered (h : d.Renderable parts) (start : Nat) :
    d.pieces start (d.rendered parts) = (d.placed start parts).flatMap Part.pieces := by
  induction parts generalizing start with
  | nil => rw [rendered, pieces_nil, placed, List.flatMap_nil]
  | cons p parts ih =>
    cases p with
    | text s =>
      rw [rendered, pieces_escaped h, ih h.tail, placed, List.flatMap_cons]
      rfl
    | hole capture =>
      rw [rendered, pieces_delimited (h.closes capture List.mem_cons_self), ih h.tail, placed,
        List.flatMap_cons]
      rfl

theorem map_capture_placed (start : Nat) (parts : List (Part String)) :
    (d.placed start parts).map (Part.map Placeholder.capture) = parts := by
  induction parts generalizing start with
  | nil => rfl
  | cons p parts ih => cases p <;> exact congrArg (_ :: ·) (ih _)

theorem gathered_placed (h : Part.Gathered parts) (start : Nat) :
    Part.Gathered (d.placed start parts) := by
  induction parts generalizing start with
  | nil => exact .nil
  | cons p parts ih =>
    cases p with
    | hole capture => exact (ih h.tail _).hole _
    | text s =>
      refine (ih h.tail _).text (h.ne_empty s List.mem_cons_self) ?_
      match parts with
      | [] => simp [placed]
      | .text _ :: _ => exact h.not_text_text.elim
      | .hole _ :: _ => simp [placed, Part.isText]

end Rendered

/-- Texts and captures that are written come back from a scan, each placeholder with the range at
which it was written. -/
theorem segments_rendered (d : Delimiters) (sigil : String) {parts : List (Part String)}
    (h : d.Renderable parts) :
    segments (d.options sigil) (.ofList (d.rendered parts)) = d.placed 0 parts ∧
      (d.placed 0 parts).map (Part.map Placeholder.capture) = parts := by
  refine ⟨?_, map_capture_placed 0 parts⟩
  rw [segments_options, String.toList_ofList, pieces_rendered h]
  exact (gathered_placed h.gathered 0).gather_eq

theorem segments_rendered_neighbours :
    let parts : List (Part String) :=
      [.text "\\\x7b\x7b \x7b\x7b\x7b\\", .hole " b ", .hole "", .text "é\\"]
    standard.Renderable parts ∧
      standard.rendered parts =
        "\\\\\\\x7b\x7b \\\x7b\x7b\x7b\\\\\x7b\x7b b \x7d\x7d\x7b\x7b\x7d\x7dé\\".toList ∧
      segments .standard (.ofList (standard.rendered parts)) =
        [.text "\\\x7b\x7b \x7b\x7b\x7b\\", .hole ⟨" b ", 12, 19⟩, .hole ⟨"", 19, 23⟩,
          .text "é\\"] := by
  intro parts
  have hgathered : Part.Gathered parts :=
    ((((Part.Gathered.nil.text (by decide) (by simp)).hole _).hole _).text (by decide)
      (by simp [Part.isText]))
  have hapart : EndsApart standard.left.toList "\\\x7b\x7b \x7b\x7b\x7b\\".toList := by decide
  have hcloses (capture : String) (h : .hole capture ∈ parts) :
      Closes standard.right.toList capture.toList := by
    have hcapture : capture = " b " ∨ capture = "" := by simpa [parts] using h
    rcases hcapture with rfl | rfl <;> decide
  have h : standard.Renderable parts := ⟨hgathered, by simpa [parts] using hapart, hcloses⟩
  refine ⟨h, by decide +kernel, ?_⟩
  exact (segments_rendered standard "$" h).1.trans (by decide +kernel)

end Delimiters

end JsonStencil
