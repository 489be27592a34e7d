import JsonStencil.Proofs.Token.Walk

/-!
# Written template literals

A template literal that is written for the parts of a text is read as one token with the same parts.
Escapes stand for themselves in its text, and its code is that of the placeholders.
-/

namespace JsonStencil

open Lexer

def Placeholder.code (p : Placeholder) : CodeText := ⟨p.source, .blank⟩

namespace Template

def pieceSource : Char ⊕ Placeholder → List Char :=
  Sum.elim escapeTemplate fun p => partSource (.hole p)

theorem flatMap_partSource (ps : List (Char ⊕ Placeholder)) :
    (Part.gather [] ps).flatMap partSource = ps.flatMap pieceSource := by
  have h (s : String) : partSource (.text s) = s.toList.flatMap escapeTemplate := rfl
  rw [Part.flatMap_gather h, List.reverse_nil, List.flatMap_nil, List.nil_append]
  rfl

theorem readTemplate_escape {c : Char} (hc : c = '\\' ∨ c = '\x60' ∨ c = '$') (start q : Position)
    (cs : List Char) : ∃ q', readTemplate start ⟨q, '\\' :: c :: cs⟩ =
      (readTemplate start ⟨q', cs⟩).map fun (ps, last) => (.inl c :: ps, last) := by
  have hread : readEscape (Cursor.skip 1 ⟨q, '\\' :: c :: cs⟩) =
      .ok (c, Cursor.skip 1 (Cursor.skip 1 ⟨q, '\\' :: c :: cs⟩)) := by
    rcases hc with rfl | rfl | rfl <;> rfl
  refine ⟨(q.advance '\\').advance c, ?_⟩
  rw [Lexer.readTemplate_escape rfl, hread]
  rfl

theorem readTemplate_escapeTemplate (c : Char) (start q : Position) (cs : List Char) :
    ∃ q', readTemplate start ⟨q, escapeTemplate c ++ cs⟩ =
      (readTemplate start ⟨q', cs⟩).map fun (ps, last) => (.inl c :: ps, last) := by
  unfold escapeTemplate
  split
  next hc => exact readTemplate_escape hc start q cs
  next hc =>
    simp only [not_or] at hc
    exact ⟨q.advance c, readTemplate_char rfl hc.2.1 hc.1 fun _ hdollar => absurd hdollar hc.2.2⟩

/-- The pieces that are written come back one by one. -/
theorem readTemplate_pieces (start : Position) (back : List Char) {ps : List (Char ⊕ Placeholder)}
    (h : ∀ p, .inr p ∈ ps → Phrases.IsCode maxNesting p.source) (q : Position) :
    ∃ q' ps', readTemplate start ⟨q, ps.flatMap pieceSource ++ '\x60' :: back⟩ =
        .ok (ps', ⟨q', back⟩) ∧
      erasePieces ps' = ps.map (Sum.map id Placeholder.code) := by
  induction ps generalizing q with
  | nil => exact ⟨_, [], readTemplate_backtick rfl, rfl⟩
  | cons p ps ih =>
    have ih := ih fun p hp => h p (List.mem_cons_of_mem _ hp)
    rw [List.flatMap_cons, List.append_assoc]
    cases p with
    | inl c =>
      obtain ⟨q', hq'⟩ :=
        readTemplate_escapeTemplate c start q (ps.flatMap pieceSource ++ '\x60' :: back)
      obtain ⟨q'', ps', hps', herase⟩ := ih q'
      refine ⟨q'', .inl c :: ps', ?_, congrArg (_ :: ·) herase⟩
      exact hq'.trans (map_eq_ok_iff.2 ⟨_, hps', rfl⟩)
    | inr p =>
      have hsource : pieceSource (.inr p) ++ (ps.flatMap pieceSource ++ '\x60' :: back) =
          '$' :: '{' :: (p.source.toList ++ '}' :: (ps.flatMap pieceSource ++ '\x60' :: back)) := by
        simp [pieceSource, partSource]
      rw [hsource, readTemplate_code rfl]
      obtain ⟨q', hcopy⟩ := copyCode_of_isCode (h p List.mem_cons_self) start
        (Cursor.skip 2 ⟨q, '$' :: '{' ::
          (p.source.toList ++ '}' :: (ps.flatMap pieceSource ++ '\x60' :: back))⟩).position
        (ps.flatMap pieceSource ++ '\x60' :: back)
      obtain ⟨q'', ps', hps', herase⟩ := ih q'
      rw [hcopy, ok_bind]
      refine ⟨q'', .inr (codeAt _ p.source.toList) :: ps', map_eq_ok_iff.2 ⟨_, hps', rfl⟩, ?_⟩
      show Sum.inr _ :: erasePieces ps' = _
      rw [herase]
      simp [Placeholder.code, CodeText.erase, codeAt]

end Template

theorem LexesAlone.template {ps : List (Char ⊕ Placeholder)}
    (h : ∀ p, .inr p ∈ ps → Phrases.IsCode maxNesting p.source) :
    LexesAlone (Template.templateLiteral (Part.gather [] ps))
      (.template ((Part.gather [] ps).map (Part.map Placeholder.code))) := by
  refine ⟨'\x60', _, rfl, rfl, fun q back => ?_⟩
  obtain ⟨q', ps', hps', herase⟩ := Template.readTemplate_pieces q back h (q.advance '\x60')
  refine ⟨.template (Part.gather [] ps'), ⟨q', back⟩, ?_, ?_, rfl⟩
  · have hskip : Cursor.skip 1 ⟨q, Template.templateLiteral (Part.gather [] ps) ++ back⟩ =
        ⟨q.advance '\x60', ps.flatMap Template.pieceSource ++ '\x60' :: back⟩ := by
      simp [Cursor.skip, Template.templateLiteral, Position.after, Template.flatMap_partSource]
    rw [readToken_backtick, hskip]
    exact map_eq_ok_iff.2 ⟨_, hps', rfl⟩
  · rw [erase_template, herase, Part.map_gather]

end JsonStencil
