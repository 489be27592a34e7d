import JsonStencil.Proofs.Template.Literal
import JsonStencil.Proofs.Token.Copying

/-!
# Sources in template literals

A source is put into a template literal between two texts. The literal is one token, and what it
holds is the source and the texts.
-/

namespace JsonStencil

open Lexer

/-- The part of a text alone. -/
def Part.single {α : Type} (s : String) : List (Part α) := if s = "" then [] else [.text s]

theorem Part.gather_around {α : Type} (s t : String) (a : α) :
    gather [] (s.toList.map .inl ++ .inr a :: t.toList.map .inl) =
      single s ++ .hole a :: single t := by
  have hsingle (s : String) : (ofReversed s.toList.reverse : List (Part α)) = single s := by
    unfold single
    split
    next hs => rw [hs]; rfl
    next hs => exact ofReversed_reverse hs
  have hlast := gather_chars (α := α) t.toList [] []
  rw [List.append_nil, List.append_nil] at hlast
  rw [gather_chars, gather, hlast, gather, List.append_nil, hsingle, hsingle]

namespace Template

/-- The template literal with code between two texts. -/
def embedded (t source t' : String) : List Char :=
  '\x60' :: (t.toList.flatMap escapeTemplate ++ '$' :: '{' :: (source.toList ++ '}' ::
    (t'.toList.flatMap escapeTemplate ++ ['\x60'])))

theorem readTemplate_escaped (start q : Position) (cs rest : List Char) :
    ∃ q', readTemplate start ⟨q, cs.flatMap escapeTemplate ++ rest⟩ =
      (readTemplate start ⟨q', rest⟩).map fun (ps, last) => (cs.map .inl ++ ps, last) := by
  induction cs generalizing q with
  | nil =>
    refine ⟨q, ?_⟩
    rw [List.flatMap_nil, List.nil_append]
    cases readTemplate start ⟨q, rest⟩ <;> rfl
  | cons c cs ih =>
    obtain ⟨q', hq'⟩ := readTemplate_escapeTemplate c start q (cs.flatMap escapeTemplate ++ rest)
    obtain ⟨q'', hq''⟩ := ih q'
    refine ⟨q'', ?_⟩
    rw [List.flatMap_cons, List.append_assoc, hq', hq'']
    cases readTemplate start ⟨q'', rest⟩ <;> rfl

/-- The texts come back as their characters and the source as code. -/
theorem readTemplate_embedded {source : String} {ls : List Lexeme} (h : tokenize source = .ok ls)
    (hbraces : openBraces? 0 (spelling ls) = some 0)
    (hnesting : ∀ l ∈ ls, l.token.literalNesting < maxNesting) (t t' : String) :
    ∃ p last, readTemplate .start (.skip 1 (.ofText (embedded t source t'))) =
        .ok (t.toList.map .inl ++ .inr (codeAt p source.toList) :: t'.toList.map .inl, last) ∧
      last.rest = [] := by
  obtain ⟨q, htext⟩ := readTemplate_escaped .start (Position.start.advance '\x60') t.toList
    ('$' :: '{' :: (source.toList ++ '}' :: (t'.toList.flatMap escapeTemplate ++ ['\x60'])))
  obtain ⟨q', hcopy⟩ := copyCode_of_tokenize h hbraces hnesting .start
    ((q.advance '$').advance '{') (t'.toList.flatMap escapeTemplate ++ ['\x60'])
  obtain ⟨q'', htext'⟩ := readTemplate_escaped .start q' t'.toList ['\x60']
  refine ⟨(q.advance '$').advance '{', Cursor.skip 1 ⟨q'', ['\x60']⟩, ?_, rfl⟩
  refine htext.trans ?_
  rw [readTemplate_code rfl]
  show Except.map _ (copyCode .start [.braces 0] ((q.advance '$').advance '{') _ >>= _) = _
  rw [hcopy, ok_bind]
  dsimp only
  rw [htext', readTemplate_backtick rfl]
  simp [Except.map]
  rfl

end Template

open Template

/-- A source whose tokens have balanced braces is the code of the template literal that it is put
into, whatever texts are around it. -/
theorem tokenize_embedded {source : String} {ls : List Lexeme} (h : tokenize source = .ok ls)
    (hbraces : openBraces? 0 (spelling ls) = some 0)
    (hnesting : ∀ l ∈ ls, l.token.literalNesting < maxNesting) (t t' : String) :
    ∃ code span, tokenize (.ofList (embedded t source t')) =
        .ok [⟨.template (Part.single t ++ .hole code :: Part.single t'), span⟩] ∧
      code.source = source := by
  obtain ⟨p, last, hread, hlast⟩ := readTemplate_embedded h hbraces hnesting t t'
  have htoken : readToken '\x60' (.ofText (embedded t source t')) = .ok
      (.template (Part.single t ++ .hole (codeAt p source.toList) :: Part.single t'), last) := by
    rw [← Part.gather_around, readToken, if_neg (by decide), if_pos rfl]
    exact map_eq_ok_iff.2 ⟨_, hread, rfl⟩
  exact ⟨_, _, tokenize_of_readToken rfl htoken hlast, String.ofList_toList⟩

theorem tokenize_embedded_nested :
    let source := "\x7b k: \x60a$\x7b f('\x7d', \x60$\x7bb\x7d\x60) \x7d\x60 \x7d"
    let t := "\\ \x60 $\x7b"
    (tokenize source).toOption.map (fun ls => (openBraces? 0 (spelling ls),
        ls.map (·.token.literalNesting))) = some (some 0, [0, 0, 0, 2, 0]) ∧
      ∃ code span, tokenize (.ofList (embedded t source "")) =
          .ok [⟨.template [.text t, .hole code], span⟩] ∧
        code.source = source := by
  intro source t
  have hls : (tokenize source).toOption.map (fun ls => (openBraces? 0 (spelling ls),
      ls.map (·.token.literalNesting))) = some (some 0, [0, 0, 0, 2, 0]) := by decide +kernel
  refine ⟨hls, ?_⟩
  cases h : tokenize source with
  | error e =>
    rw [h] at hls
    cases hls
  | ok ls =>
    rw [h] at hls
    obtain ⟨hbraces, hnesting⟩ := Prod.mk.inj (Option.some.inj hls)
    have hsmall (l : Lexeme) (hl : l ∈ ls) : l.token.literalNesting < maxNesting := by
      have hall : ∀ n ∈ [0, 0, 0, 2, 0], n < maxNesting := by decide
      exact hall _ (hnesting ▸ List.mem_map_of_mem hl)
    exact tokenize_embedded h hbraces hsmall t ""

end JsonStencil
