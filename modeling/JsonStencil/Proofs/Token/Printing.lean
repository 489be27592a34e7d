import JsonStencil.Proofs.Template.Literal
import JsonStencil.Proofs.Token.Atoms
import JsonStencil.Proofs.Token.Tiling

/-!
# Printing tokens

A word is a token together with a way to write it. Words that are written with blanks between them
are read as the same tokens again, whatever is in their texts and whichever blanks these are.
-/

namespace JsonStencil

open Lexer

/-- A token as it is written. A template literal holds no code, and a number has no sign. -/
inductive Word where
  | keyword (k : Keyword)
  | symbol (s : Symbol)
  | identifier (name : String) (h : IsIdentifier name)
  | string (quote : Quote) (s : String)
  | template (s : String)
  | number (quanta : Nat) (h : Binary64.Representable quanta)

/-- What stands between two words. -/
structure Blanks where
  chars : List Char
  ne_nil : chars ≠ []
  mem : ∀ c ∈ chars, c ∈ [' ', '\t', '\r', '\n']

namespace Word

def token : Word → Token
  | .keyword k => .keyword k
  | .symbol s => .symbol s
  | .identifier name _ => .identifier name
  | .string _ s => .string s
  | .template s => .template (if s = "" then [] else [.text s])
  | .number quanta h => .number (.finite false quanta h)

def chars : Word → List Char
  | .string quote s => quote.write s
  | .template s => '\x60' :: s.toList.flatMap Template.escapeTemplate ++ ['\x60']
  | w => w.token.text.toList

end Word

/-- Words one behind the other, each with the blanks that are put behind it if one more follows. -/
def joinWords : List (Word × Blanks) → List Char
  | [] => []
  | [(w, _)] => w.chars
  | (w, blanks) :: next :: ws => w.chars ++ (blanks.chars ++ joinWords (next :: ws))

namespace Lexes

variable {cs : List Char} {ts : List Token}

theorem keyword (k : Keyword) : Lexes k.text.toList [.keyword k] := by
  cases k with
  | true => exact of_readToken (c := 't') rfl rfl rfl
  | false => exact of_readToken (c := 'f') rfl rfl rfl
  | null => exact of_readToken (c := 'n') rfl rfl rfl

theorem symbol (s : Symbol) : Lexes s.text.toList [.symbol s] := by
  have hhead : s.text.toList.head?.any isSeparator = false := by cases s <;> decide
  obtain ⟨c, cs, htext, hread⟩ := readToken_symbol s .start
  rw [htext] at hhead ⊢
  exact of_readToken hhead hread rfl

theorem template (s : String) : Lexes (Word.template s).chars [(Word.template s).token] := by
  let pieces : List (Char ⊕ Placeholder) := s.toList.map .inl
  have h := single (LexesAlone.template (show ∀ p, .inr p ∈ pieces → _ by simp [pieces]))
  have hgather : Part.gather [] pieces = if s = "" then [] else [.text s] := by
    have hchars := Part.gather_chars s.toList [] ([] : List (Char ⊕ Placeholder))
    rw [List.append_nil, List.append_nil, Part.gather] at hchars
    rw [hchars]
    split
    next hs => simp [Part.ofReversed, hs]
    next hs => exact Part.ofReversed_reverse hs
  rw [hgather] at h
  by_cases hs : s = ""
  · subst hs
    exact h
  · simpa [hs, Word.chars, Word.token, Template.templateLiteral, Template.partSource, Part.map]
      using h

theorem blanks (blanks : Blanks) (h : Lexes cs ts) : Lexes (blanks.chars ++ cs) ts := by
  have hmem := blanks.mem
  generalize blanks.chars = chars at hmem
  induction chars with
  | nil => exact h
  | cons c chars ih =>
    have hc := hmem c List.mem_cons_self
    refine blank ?_ (ih fun c hc => hmem c (List.mem_cons_of_mem _ hc))
    simpa [isSeparator, or_assoc] using hc

end Lexes

theorem Word.lexes (w : Word) : Lexes w.chars [w.token] := by
  cases w with
  | keyword k => exact .keyword k
  | symbol s => exact .symbol s
  | identifier name h => exact .word h
  | string quote s => exact .single (.string quote s)
  | template s => exact .template s
  | number quanta h =>
    have hchars : (Word.number quanta h).chars =
        (Binary64.shortest false quanta (.finite false quanta h)).positional :=
      String.toList_ofList
    rw [hchars]
    exact .magnitude false h

theorem Blanks.boundary (blanks : Blanks) (cs : List Char) : Boundary (blanks.chars ++ cs) := by
  obtain ⟨c, chars, hchars⟩ := List.exists_cons_of_ne_nil blanks.ne_nil
  have hc := blanks.mem c (by simp [hchars])
  rw [hchars, List.cons_append]
  exact boundary_cons (List.mem_append_left _ hc) _

theorem lexes_joinWords (ws : List (Word × Blanks)) :
    Lexes (joinWords ws) (ws.map fun w => w.1.token) := by
  fun_induction joinWords ws with
  | case1 => exact .nil
  | case2 w blanks => exact w.lexes
  | case3 w blanks next ws ih => exact w.lexes.append (ih.blanks blanks) (blanks.boundary _)

/-- Only code has a place of its own in a token. -/
theorem Token.eq_of_erase_eq {t u : Token} (h : t.erase = u)
    (hu : ∀ chunks code, u = .template chunks → .hole code ∉ chunks) : t = u := by
  cases t with
  | template chunks =>
    subst h
    have htexts : ∀ chunk ∈ chunks, chunk.map CodeText.erase = chunk := by
      intro chunk hchunk
      cases chunk with
      | text s => rfl
      | hole code => exact (hu _ code.erase rfl (List.mem_map_of_mem hchunk)).elim
    rw [erase, List.map_congr_left htexts, List.map_id']
  | _ => exact h

theorem Word.hole_notMem (w : Word) (chunks : List TemplateChunk) (code : CodeText)
    (h : w.token = .template chunks) : .hole code ∉ chunks := by
  cases w with
  | template s =>
    cases h
    split <;> simp
  | _ => cases h

/-- Words with blanks between them are the tokens of their text. -/
theorem tokenize_joinWords (ws : List (Word × Blanks)) :
    ∃ ls, tokenize (.ofList (joinWords ws)) = .ok ls ∧
      ls.map Lexeme.token = ws.map fun w => w.1.token := by
  obtain ⟨ls, hls, hspelling⟩ := (lexes_joinWords ws).tokenize_eq
  refine ⟨ls, hls, ?_⟩
  clear hls
  induction ls generalizing ws with
  | nil => exact hspelling
  | cons l ls ih =>
    cases ws with
    | nil => cases hspelling
    | cons w ws =>
      obtain ⟨hl, hls⟩ := List.cons.inj hspelling
      rw [List.map_cons, List.map_cons, ih ws hls, Token.eq_of_erase_eq hl w.1.hole_notMem]

end JsonStencil
