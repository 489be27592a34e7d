import JsonStencil.Proofs.Template.Form
import JsonStencil.Proofs.Text.Search
import Mathlib.Data.List.Chain

/-!
# What a scan keeps of a text

A scan takes a text apart from front to back. Each step takes some of its characters, for which it
gives these characters again or a placeholder; only escapes in front of a left delimiter are lost.
So the placeholders stand in the text in order, and where no escape does anything the text can be
put together again.
-/

namespace JsonStencil

namespace Part

variable {α : Type} {parts : List (Part α)}

def isText : Part α → Bool
  | .text _ => true
  | .hole _ => false

/-- No text is empty and no two texts are next to each other. -/
structure Gathered (parts : List (Part α)) : Prop where
  ne_empty : ∀ s, .text s ∈ parts → s ≠ ""
  apart : parts.IsChain fun p q => ¬ (p.isText ∧ q.isText)

namespace Gathered

theorem nil : Gathered ([] : List (Part α)) := ⟨nofun, .nil⟩

theorem tail {p : Part α} (h : Gathered (p :: parts)) : Gathered parts :=
  ⟨fun s hs => h.ne_empty s (List.mem_cons_of_mem _ hs), h.apart.tail⟩

theorem hole (h : Gathered parts) (a : α) : Gathered (.hole a :: parts) := by
  refine ⟨fun s hs => ?_, List.isChain_cons.2 ⟨fun q _ hpq => ?_, h.apart⟩⟩
  · cases hs with
    | tail _ hs => exact h.ne_empty s hs
  · cases hpq.1

theorem text (h : Gathered parts) {s : String} (hs : s ≠ "")
    (hhead : ∀ p ∈ parts.head?, ¬ p.isText) : Gathered (.text s :: parts) := by
  refine ⟨fun t ht => ?_, List.isChain_cons.2 ⟨fun q hq hpq => hhead q hq hpq.2, h.apart⟩⟩
  cases ht with
  | head => exact hs
  | tail _ ht => exact h.ne_empty t ht

theorem not_text_text {s t : String} (h : Gathered (.text s :: .text t :: parts)) : False :=
  (List.isChain_cons_cons.1 h.apart).1 ⟨rfl, rfl⟩

end Gathered

theorem gathered_gather (reversed : List Char) (ps : List (Char ⊕ α)) :
    Gathered (gather reversed ps) := by
  have hreversed {rest : List (Part α)} (h : Gathered rest) (hhead : ∀ p ∈ rest.head?, ¬ p.isText)
      (cs : List Char) : Gathered (ofReversed cs ++ rest) := by
    unfold ofReversed
    by_cases hcs : cs.isEmpty
    · rwa [if_pos hcs]
    · rw [if_neg hcs]
      apply h.text _ hhead
      simpa using hcs
  induction ps generalizing reversed with
  | nil =>
    have h := hreversed (.nil : Gathered ([] : List (Part α))) (by simp) reversed
    rwa [List.append_nil] at h
  | cons p ps ih =>
    cases p with
    | inl c => exact ih _
    | inr a => exact hreversed ((ih []).hole a) (by simp [isText]) reversed

/-- Parts that are gathered are those of their pieces. -/
theorem Gathered.gather_eq (h : Gathered parts) : gather [] (parts.flatMap pieces) = parts := by
  induction parts with
  | nil => rfl
  | cons p parts ih =>
    have ih := ih h.tail
    cases p with
    | hole a => exact congrArg (Part.hole a :: ·) ih
    | text s =>
      have hs := ofReversed_reverse (α := α) (h.ne_empty s List.mem_cons_self)
      rw [List.flatMap_cons, pieces, gather_chars, List.append_nil]
      cases parts with
      | nil => exact hs
      | cons q parts =>
        cases q with
        | text t => exact h.not_text_text.elim
        | hole a =>
          show ofReversed _ ++ gather [] ((Part.hole a :: parts).flatMap pieces) = _
          rw [hs, ih]
          rfl

theorem toList_fill (f : α → String) (parts : List (Part α)) :
    (fill f parts).toList = parts.flatMap fun
      | .text s => s.toList
      | .hole a => (f a).toList := by
  induction parts with
  | nil => rfl
  | cons p parts ih => cases p <;> simp [fill, ih]

end Part

theorem Template.holes_gather (reversed : List Char) (ps : List (Char ⊕ Placeholder)) :
    holes (Part.gather reversed ps) = ps.filterMap Sum.getRight? := by
  have hreversed (cs : List Char) : holes (Part.ofReversed cs) = [] := by
    unfold Part.ofReversed
    split <;> rfl
  induction ps generalizing reversed with
  | nil => exact hreversed reversed
  | cons p ps ih =>
    cases p with
    | inl c => exact ih _
    | inr a =>
      rw [Part.gather, holes, List.filterMap_append]
      show holes (Part.ofReversed reversed) ++ a :: holes (Part.gather [] ps) = _
      rw [hreversed, ih]
      rfl

namespace Placeholder

/-- Where a placeholder stands in a text from a byte offset on. -/
def Stands (left right : List Char) (start : Nat) (cs : List Char) (p : Placeholder) : Prop :=
  ∃ before after, cs = before ++ (left ++ p.capture.toList ++ right) ++ after ∧
    p.start = start + byteLength before ∧
    p.stop = p.start + byteLength (left ++ p.capture.toList ++ right)

/-- Somewhere in the text an escape stands directly before a left delimiter. -/
def Escapes (left right escape cs : List Char) : Prop :=
  left ≠ [] ∧ right ≠ [] ∧ escape ≠ [] ∧ escape ++ left <:+: cs

theorem Escapes.append {left right escape rest : List Char} (h : Escapes left right escape rest)
    (used : List Char) : Escapes left right escape (used ++ rest) := by
  obtain ⟨hl, hr, he, hinfix⟩ := h
  exact ⟨hl, hr, he, hinfix.trans (List.suffix_append used rest).isInfix⟩

/-- How a text from a byte offset on is scanned, step by step. -/
inductive Scans (left right escape : List Char) :
    Nat → List Char → List (Char ⊕ Placeholder) → Prop
  | nil (start : Nat) : Scans left right escape start [] []
  | text {start : Nat} {used shown rest : List Char} {ps : List (Char ⊕ Placeholder)} :
      used ≠ [] → shown ≠ [] →
      shown = used ∨ Escapes left right escape (used ++ rest) →
      Scans left right escape (start + byteLength used) rest ps →
      Scans left right escape start (used ++ rest) (shown.map .inl ++ ps)
  | hole {start : Nat} {capture rest : List Char} {ps : List (Char ⊕ Placeholder)} :
      left ≠ [] → Closes right capture →
      Scans left right escape (start + byteLength (left ++ capture ++ right)) rest ps →
      Scans left right escape start (left ++ capture ++ right ++ rest)
        (.inr ⟨.ofList capture, start, start + byteLength (left ++ capture ++ right)⟩ :: ps)

namespace Scans

variable {left right escape cs : List Char} {start : Nat} {ps : List (Char ⊕ Placeholder)}

theorem verbatim (start : Nat) (cs : List Char) :
    Scans left right escape start cs (cs.map .inl) := by
  by_cases hcs : cs = []
  · subst hcs
    exact .nil start
  · have h : Scans left right escape start (cs ++ []) (cs.map .inl ++ []) :=
      .text hcs hcs (.inl rfl) (.nil _)
    simpa using h

theorem pieces (hl : left ≠ []) (hr : right ≠ []) (start : Nat) (cs : List Char) :
    Scans left right escape start cs (pieces left right escape hl start cs) := by
  have hbytes (n : Nat) : byteLength (List.replicate n escape).flatten = n * byteLength escape := by
    induction n with
    | zero => simp [byteLength]
    | succ n ih => simp [List.replicate_succ, ih, Nat.succ_mul, Nat.add_comm]
  have hrun_ne {n : Nat} {cs rest : List Char} (hrun : splitRun escape cs = (n + 1, rest)) {m : Nat}
      (hm : 0 < m) : (List.replicate m escape).flatten ≠ [] := by
    simp [ne_nil_of_splitRun hrun, Nat.ne_of_gt hm]
  -- the last escape of a run stands directly before what follows the run
  have hlast (n : Nat) (front back : List Char) :
      escape ++ front <:+: (List.replicate (n + 1) escape).flatten ++ (front ++ back) := by
    refine ⟨(List.replicate n escape).flatten, back, ?_⟩
    simp [List.replicate_succ']
  fun_induction Placeholder.pieces left right escape hl start cs with
  | case1 start => exact .nil start
  | case2 start c tail n rest hrun behind hclosed ih =>
    have hcs := eq_append_of_splitRun escape (c :: tail)
    rw [hrun] at hcs
    have hne := hrun_ne hrun (Nat.succ_pos n)
    rw [hcs]
    refine .text hne hne (.inl rfl) ?_
    rwa [hbytes]
  | case3 start c tail n rest hrun behind opened hopened escapes hodd ih =>
    have hcs := eq_append_of_splitRun escape (c :: tail)
    rw [hrun, dropFront?_eq_some_iff.1 hopened, ← List.append_assoc] at hcs
    have hshown : escapes ++ left.map .inl =
        ((List.replicate ((n + 1) / 2) escape).flatten ++ left).map .inl := List.map_append.symm
    rw [hcs, hshown]
    refine .text (by simp [hl]) (by simp [hl]) (.inr ⟨hl, hr, ne_nil_of_splitRun hrun, ?_⟩) ?_
    · rw [List.append_assoc]
      exact hlast n left opened
    · rwa [byteLength_append, hbytes, ← Nat.add_assoc]
  | case4 start c tail n rest hrun behind opened hopened escapes heven ih =>
    have hcs := eq_append_of_splitRun escape (c :: tail)
    rw [hrun] at hcs
    rw [hcs]
    refine .text (hrun_ne hrun (Nat.succ_pos n)) (hrun_ne hrun (by omega))
      (.inr ⟨hl, hr, ne_nil_of_splitRun hrun, ?_⟩) ?_
    · rw [dropFront?_eq_some_iff.1 hopened]
      exact hlast n left opened
    · rwa [hbytes]
  | case5 start c tail _ _ hclosed ih =>
    have hstep : Scans left right escape start ([c] ++ tail) ([c].map .inl ++ _) :=
      .text (by simp) (by simp) (.inl rfl) ih
    exact hstep
  | case6 => exact verbatim _ _
  | case7 start c tail _ _ opened hopened capture after hcut stop ih =>
    have hcs := dropFront?_eq_some_iff.1 hopened
    rw [eq_append_of_cut? hcut] at hcs
    have hstop : stop = start + byteLength (left ++ capture ++ right) := by
      simp only [stop, byteLength_append, Nat.add_assoc]
    have hwhole : c :: tail = left ++ capture ++ right ++ after := by rw [hcs]; simp
    rw [hwhole, hstop]
    rw [hstop] at ih
    exact .hole hl (closes_of_cut? hcut) ih

theorem stands (h : Scans left right escape start cs ps) {p : Placeholder} (hp : .inr p ∈ ps) :
    p.Stands left right start cs ∧ left ≠ [] ∧ Closes right p.capture.toList := by
  induction h with
  | nil => cases hp
  | @text start used shown rest ps _ _ _ _ ih =>
    have hps : .inr p ∈ ps := by simpa using hp
    obtain ⟨⟨before, after, rfl, hstart, hstop⟩, hclosed⟩ := ih hps
    refine ⟨⟨used ++ before, after, by simp, ?_, hstop⟩, hclosed⟩
    rw [hstart, byteLength_append, Nat.add_assoc]
  | @hole start capture rest ps hl hcloses _ ih =>
    rcases List.mem_cons.1 hp with heq | hps
    · cases heq
      refine ⟨⟨[], rest, ?_, rfl, ?_⟩, hl, ?_⟩
      · simp
      · rw [String.toList_ofList]
      · rwa [String.toList_ofList]
    · obtain ⟨⟨before, after, rfl, hstart, hstop⟩, hclosed⟩ := ih hps
      refine ⟨⟨left ++ capture ++ right ++ before, after, by simp, ?_, hstop⟩, hclosed⟩
      rw [hstart, byteLength_append _ before, Nat.add_assoc]

theorem le_start (h : Scans left right escape start cs ps) {p : Placeholder} (hp : .inr p ∈ ps) :
    start ≤ p.start := by
  obtain ⟨⟨before, after, -, hstart, -⟩, -⟩ := h.stands hp
  omega

/-- Every placeholder ends before the next one starts. -/
theorem pairwise (h : Scans left right escape start cs ps) :
    (ps.filterMap Sum.getRight?).Pairwise fun p q => p.stop ≤ q.start := by
  induction h with
  | nil => exact .nil
  | @text start used shown rest ps _ _ _ _ ih =>
    have hshown : (shown.map (.inl : Char → Char ⊕ Placeholder)).filterMap Sum.getRight? = [] := by
      simp
    rwa [List.filterMap_append, hshown, List.nil_append]
  | @hole start capture rest ps _ _ hrest ih =>
    refine List.pairwise_cons.2 ⟨fun q hq => ?_, ih⟩
    obtain ⟨piece, hmem, hpiece⟩ := List.mem_filterMap.1 hq
    cases piece with
    | inl c => cases hpiece
    | inr p =>
      cases hpiece
      exact hrest.le_start hmem

theorem eq_nil (h : Scans left right escape start [] ps) : ps = [] := by
  generalize hcs : ([] : List Char) = cs at h
  cases h with
  | nil => rfl
  | text hused _ _ _ => exact absurd (List.append_eq_nil_iff.1 hcs.symm).1 hused
  | hole hl _ _ => simp [hl] at hcs

/-- A placeholder from one end of the text to the other is all that there is. -/
theorem eq_singleton (h : Scans left right escape start cs ps) {p : Placeholder} (hp : .inr p ∈ ps)
    (hstart : p.start = start) (hstop : p.stop = start + byteLength cs) : ps = [.inr p] := by
  cases h with
  | nil => cases hp
  | @text _ used shown rest ps hused _ _ hrest =>
    have hps : .inr p ∈ ps := by simpa using hp
    have hle := hrest.le_start hps
    have hzero : byteLength used = 0 := by omega
    exact absurd (eq_nil_of_byteLength hzero) hused
  | @hole _ capture rest ps hl _ hrest =>
    have hpos : 0 < byteLength (left ++ capture ++ right) := by
      refine Nat.pos_of_ne_zero fun hzero => ?_
      have hnil := eq_nil_of_byteLength hzero
      simp [hl] at hnil
    rcases List.mem_cons.1 hp with heq | hps
    · cases heq
      rw [byteLength_append _ rest] at hstop
      dsimp only at hstop
      have hnil : rest = [] := eq_nil_of_byteLength (by omega)
      subst hnil
      rw [hrest.eq_nil]
    · have hle := hrest.le_start hps
      omega

/-- The pieces with their delimiters are the text, where no escape stands before a left one. -/
theorem restored (h : Scans left right escape start cs ps)
    (hescapes : ¬ Escapes left right escape cs) :
    (ps.flatMap (Sum.elim (fun c => [c]) fun p => left ++ p.capture.toList ++ right)) = cs := by
  induction h with
  | nil => rfl
  | @text start used shown rest ps _ _ hshown _ ih =>
    have heq : shown = used := hshown.resolve_right hescapes
    have hrest := ih fun h => hescapes (h.append used)
    rw [List.flatMap_append, hrest, heq]
    simp [List.flatMap_map]
  | @hole start capture rest ps _ _ _ ih =>
    have hrest := ih fun h => hescapes (h.append _)
    rw [List.flatMap_cons, hrest]
    simp

end Scans

theorem spansWhole_eq_true {s : String} {p : Placeholder} :
    p.spansWhole s = true ↔ p.start = 0 ∧ p.stop = byteLength s.toList := by
  simp [spansWhole]

section Stands

variable {left right cs : List Char} {p : Placeholder}

theorem Stands.start_lt_stop {start : Nat} (h : p.Stands left right start cs) (hl : left ≠ []) :
    p.start < p.stop := by
  obtain ⟨before, after, -, -, hstop⟩ := h
  rw [hstop, byteLength_append, byteLength_append]
  have hne : byteLength left ≠ 0 := fun hzero => hl (eq_nil_of_byteLength hzero)
  omega

/-- A placeholder goes from end to end when it is as long as the text. -/
theorem Stands.spansWhole_iff {s : String} (h : p.Stands left right 0 s.toList) :
    p.spansWhole s ↔
      byteLength (left ++ p.capture.toList ++ right) = byteLength s.toList := by
  obtain ⟨before, after, hs, hstart, hstop⟩ := h
  have htotal := congrArg byteLength hs
  rw [byteLength_append _ after, byteLength_append before] at htotal
  rw [spansWhole_eq_true]
  omega

theorem Stands.byteRange?_eq (h : p.Stands left right 0 cs) :
    byteRange? p.start p.stop cs = some (left ++ p.capture.toList ++ right) := by
  obtain ⟨before, after, rfl, hstart, hstop⟩ := h
  rw [hstop, hstart, Nat.zero_add]
  exact byteRange?_append _ _ _

end Stands

/-- The text that a placeholder was found as. -/
def original (s : String) (p : Placeholder) : String :=
  .ofList ((byteRange? p.start p.stop s.toList).getD [])

end Placeholder

open Template

theorem exists_scans (o : TemplateOptions) (s : String) :
    ∃ ps, segments o s = Part.gather [] ps ∧
      Placeholder.Scans o.left.toList o.right.toList o.escape.toList 0 s.toList ps := by
  unfold segments
  by_cases hd : o.left.toList ≠ [] ∧ o.right.toList ≠ []
  · rw [dif_pos hd]
    exact ⟨_, rfl, Placeholder.Scans.pieces hd.1 hd.2 0 s.toList⟩
  · rw [dif_neg hd]
    exact ⟨_, rfl, Placeholder.Scans.verbatim 0 s.toList⟩

theorem mem_holes_gather {ps : List (Char ⊕ Placeholder)} {p : Placeholder} :
    p ∈ holes (Part.gather [] ps) ↔ .inr p ∈ ps := by
  rw [mem_holes, Part.hole_mem_gather]

/-- Placeholders put back as they were found give the text again, unless an escape is lost. -/
theorem interpolate_original {o : TemplateOptions} {s : String}
    (h : ¬ Placeholder.Escapes o.left.toList o.right.toList o.escape.toList s.toList) :
    interpolate o s (Placeholder.original s) = s := by
  obtain ⟨ps, hps, hscans⟩ := exists_scans o s
  have hrestored := hscans.restored h
  rw [← String.toList_inj, interpolate, hps, Part.toList_fill,
    Part.flatMap_gather (g := fun c => [c]) (fun s => by simp)]
  refine Eq.trans (List.flatMap_congr fun piece hpiece => ?_) hrestored
  cases piece with
  | inl c => rfl
  | inr p =>
    have hrange := (hscans.stands hpiece).1.byteRange?_eq
    simp [Placeholder.original, hrange]

/-- What a scan finds stands in the text: the texts are not empty and not next to each other, the
placeholders are in order and where their ranges say, each ends at the first right delimiter, and
one that is all there is goes from end to end. Nothing but escapes is lost. -/
theorem segments_lossless (o : TemplateOptions) (s : String) :
    Part.Gathered (segments o s) ∧
      (holes (segments o s)).Pairwise (fun p q => p.stop ≤ q.start) ∧
      (∀ p ∈ holes (segments o s), p.start < p.stop ∧
        byteRange? p.start p.stop s.toList =
          some (o.left.toList ++ p.capture.toList ++ o.right.toList) ∧
        Closes o.right.toList p.capture.toList ∧
        (segments o s = [.hole p] ↔ p.spansWhole s) ∧
        (p.spansWhole s ↔ byteLength (o.left.toList ++ p.capture.toList ++ o.right.toList) =
          byteLength s.toList)) ∧
      (o.left = "" ∨ o.right = "" ∨ o.escape = "" ∨
          ¬ o.escape.toList ++ o.left.toList <:+: s.toList →
        interpolate o s (Placeholder.original s) = s) := by
  obtain ⟨ps, hps, hscans⟩ := exists_scans o s
  refine ⟨?_, ?_, fun p hp => ?_, fun h => interpolate_original ?_⟩
  · rw [hps]
    exact Part.gathered_gather [] ps
  · rw [hps, holes_gather]
    exact hscans.pairwise
  · rw [hps, mem_holes_gather] at hp
    obtain ⟨hstands, hl, hcloses⟩ := hscans.stands hp
    have hpos := hstands.start_lt_stop hl
    have hwhole := hstands.spansWhole_iff
    refine ⟨hpos, hstands.byteRange?_eq, hcloses, ⟨spansWhole_of_segments_eq, fun h => ?_⟩, hwhole⟩
    obtain ⟨hstart, hstop⟩ := p.spansWhole_eq_true.1 h
    have hsole := hscans.eq_singleton hp hstart (by rw [hstop, Nat.zero_add])
    rw [hps, hsole]
    rfl
  · rintro ⟨hl, hr, he, hinfix⟩
    rcases h with h | h | h | h
    · exact hl (String.toList_eq_nil_iff.2 h)
    · exact hr (String.toList_eq_nil_iff.2 h)
    · exact he (String.toList_eq_nil_iff.2 h)
    · exact h hinfix

theorem segments_lossless_neighbours :
    let s := "é\\ \x7b\x7b b \x7d\x7d\x7b\x7bc\x7d\x7d \x7b\x7b"
    let p : Placeholder := ⟨" b ", 4, 11⟩
    p ∈ holes (segments .standard s) ∧
      byteRange? p.start p.stop s.toList = some "\x7b\x7b b \x7d\x7d".toList ∧
      (segments .standard s = [.hole p] ↔ p.spansWhole s) ∧
      interpolate .standard s (Placeholder.original s) = s := by
  intro s p
  have hp : p ∈ holes (segments .standard s) := by decide +kernel
  obtain ⟨-, -, hholes, hrestored⟩ := segments_lossless .standard s
  obtain ⟨-, hrange, -, hwhole, -⟩ := hholes p hp
  refine ⟨hp, hrange.trans ?_, hwhole, hrestored (.inr (.inr (.inr ?_)))⟩
  · decide
  · decide

end JsonStencil
