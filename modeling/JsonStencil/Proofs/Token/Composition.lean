import JsonStencil.Proofs.Token.Extension
import JsonStencil.Template.Source

/-!
# Texts put together

A text lexes to tokens when these come first wherever the text stands in front of a boundary. Texts
are put together from such texts with blanks between them, and with tokens that end by themselves:
symbols that no longer symbol starts with, and quoted texts.
-/

namespace JsonStencil

open Lexer

/-- The text has these tokens in front of every boundary. -/
def Lexes (cs : List Char) (ts : List Token) : Prop :=
  ∀ q rest, Boundary rest →
    ∃ q' ls, spelling ls = ts ∧ readTokens ⟨q, cs ++ rest⟩ = (readTokens ⟨q', rest⟩).map (ls ++ ·)

/-- A front that is read as one token whatever follows it. -/
def LexesAlone (front : List Char) (t : Token) : Prop :=
  ∃ c front', front = c :: front' ∧ isSeparator c = false ∧
    ∀ q back, ∃ token next, readToken c ⟨q, front ++ back⟩ = .ok (token, next) ∧
      token.erase = t ∧ next.rest = back

namespace Lexes

variable {cs ds : List Char} {ts us : List Token}

theorem nil : Lexes [] [] := by
  intro q rest _
  refine ⟨q, [], rfl, ?_⟩
  rw [List.nil_append]
  cases readTokens ⟨q, rest⟩ <;> rfl

theorem of_tokenize {source : String} {ls : List Lexeme} (h : tokenize source = .ok ls) :
    Lexes source.toList (spelling ls) := by
  intro q rest hrest
  have hcur : Extends rest (.ofText source.toList) ⟨q, source.toList ++ rest⟩ := rfl
  obtain ⟨q', ls', hls', heq⟩ := readTokens_extends h hcur hrest
  exact ⟨q', ls', hls', heq⟩

theorem tokenize_eq (h : Lexes cs ts) :
    ∃ ls, tokenize (.ofList cs) = .ok ls ∧ spelling ls = ts := by
  unfold tokenize Cursor.ofText
  rw [String.toList_ofList]
  obtain ⟨q', ls, hls, heq⟩ := h .start [] boundary_nil
  refine ⟨ls, ?_, hls⟩
  rw [List.append_nil] at heq
  rw [heq, readTokens_nil rfl]
  simp [Except.map]

theorem append (h : Lexes cs ts) (h' : Lexes ds us) (hds : Boundary ds) :
    Lexes (cs ++ ds) (ts ++ us) := by
  intro q rest hrest
  have hboundary : Boundary (ds ++ rest) := by
    cases ds with
    | nil => exact hrest
    | cons d ds => exact boundary_cons (hds d rfl) _
  obtain ⟨q', ls, hls, heq⟩ := h q (ds ++ rest) hboundary
  obtain ⟨q'', ms, hms, heq'⟩ := h' q' rest hrest
  refine ⟨q'', ls ++ ms, by rw [spelling_append, hls, hms], ?_⟩
  rw [List.append_assoc, heq, heq']
  cases readTokens ⟨q'', rest⟩ <;> simp [Except.map]

theorem blank {c : Char} (hc : isSeparator c) (h : Lexes cs ts) : Lexes (c :: cs) ts := by
  intro q rest hrest
  have hread : readTokens ⟨q, c :: cs ++ rest⟩ =
      readTokens (Cursor.skip 1 ⟨q, c :: (cs ++ rest)⟩) := by
    rw [List.cons_append, readTokens_cons rfl, if_pos hc]
  rw [hread]
  exact h _ rest hrest

theorem space (h : Lexes cs ts) : Lexes (' ' :: cs) ts := h.blank rfl

theorem cons {front : List Char} {t : Token} (hfront : LexesAlone front t) (h : Lexes cs ts) :
    Lexes (front ++ cs) (t :: ts) := by
  intro q rest hrest
  obtain ⟨c, front', rfl, hc, hread⟩ := hfront
  obtain ⟨token, ⟨q', back⟩, htoken, rfl, rfl⟩ := hread q (cs ++ rest)
  obtain ⟨q'', ls, rfl, heq⟩ := h q' rest hrest
  have hrest' : Cursor.rest ⟨q, c :: front' ++ cs ++ rest⟩ = c :: (front' ++ (cs ++ rest)) := by
    simp
  refine ⟨q'', ⟨token, q.span q'⟩ :: ls, rfl, ?_⟩
  rw [readTokens_cons hrest', hc, List.append_assoc, htoken]
  simp only [Bool.false_eq_true, if_false, ok_bind, heq]
  cases readTokens ⟨q'', rest⟩ <;> rfl

theorem single {front : List Char} {t : Token} (hfront : LexesAlone front t) :
    Lexes front [t] := by
  simpa using cons hfront nil

end Lexes

/-- What strings stand between. -/
inductive Quote where
  | single | double
  deriving DecidableEq, Repr

namespace Quote

def mark : Quote → Char
  | .single => '\''
  | .double => '"'

def escape (quote : Quote) (c : Char) : List Char :=
  if c = '\\' ∨ c = quote.mark then ['\\', c]
  else if c = '\n' then ['\\', 'n']
  else if c = '\r' then ['\\', 'r']
  else [c]

/-- A string as it is written between quotes. -/
def write (quote : Quote) (s : String) : List Char :=
  quote.mark :: s.toList.flatMap quote.escape ++ [quote.mark]

theorem backslash_ne_mark (quote : Quote) : '\\' ≠ quote.mark := by cases quote <;> decide

theorem escape_single (c : Char) : single.escape c = Template.escapeQuoted c := by
  unfold Template.escapeQuoted
  split <;> simp_all [escape, mark]

theorem write_single (s : String) : single.write s = Template.quote s := by
  rw [write, Template.quote, funext escape_single, mark]

end Quote

namespace LexesAlone

/-- The symbols that no longer symbol starts with. -/
def standalone : List Symbol :=
  [.leftBrace, .rightBrace, .leftBracket, .rightBracket, .leftParen, .rightParen, .comma, .colon,
   .minus]

theorem symbol {s : Symbol} (hs : s ∈ standalone) : LexesAlone s.text.toList (.symbol s) := by
  have hread : ∃ c, s.text.toList = [c] ∧ isSeparator c = false ∧
      ∀ q back, readToken c ⟨q, c :: back⟩ = .ok (.symbol s, Cursor.skip 1 ⟨q, c :: back⟩) := by
    simp only [standalone, List.mem_cons, List.not_mem_nil, or_false] at hs
    rcases hs with rfl | rfl | rfl | rfl | rfl | rfl | rfl | rfl | rfl <;>
      exact ⟨_, rfl, rfl, fun q back => rfl⟩
  obtain ⟨c, htext, hc, hsymbol⟩ := hread
  refine ⟨c, [], htext, hc, fun q back => ⟨.symbol s, Cursor.skip 1 ⟨q, c :: back⟩, ?_, rfl, rfl⟩⟩
  rw [htext]
  exact hsymbol q back

theorem readString_escape (quote : Quote) (start : Position) (cs back : List Char) (q : Position) :
    ∃ q', readString quote.mark start ⟨q, cs.flatMap quote.escape ++ quote.mark :: back⟩ =
      .ok (cs, ⟨q', back⟩) := by
  induction cs generalizing q with
  | nil =>
    refine ⟨q.advance quote.mark, ?_⟩
    rw [List.flatMap_nil, List.nil_append, readString_cons rfl, if_pos rfl]
    rfl
  | cons c cs ih =>
    have hescape {d : Char} {cur : Cursor} (hcur : cur.rest = '\\' :: d ::
          (cs.flatMap quote.escape ++ quote.mark :: back))
        (hd : readEscape (cur.skip 1) = .ok (c, (cur.skip 1).skip 1)) :
        ∃ q', readString quote.mark start cur = .ok (c :: cs, ⟨q', back⟩) := by
      obtain ⟨q', hq'⟩ := ih ((cur.skip 1).skip 1).position
      have hskip : (cur.skip 1).skip 1 = ⟨((cur.skip 1).skip 1).position,
          cs.flatMap quote.escape ++ quote.mark :: back⟩ := by
        simp [Cursor.skip, hcur]
      refine ⟨q', ?_⟩
      rw [readString_cons hcur, if_neg quote.backslash_ne_mark, if_pos rfl, hd, ok_bind, hskip]
      exact map_eq_ok_iff.2 ⟨_, hq', rfl⟩
    rw [List.flatMap_cons, List.append_assoc, Quote.escape]
    split
    next hc =>
      refine hescape rfl ?_
      rcases hc with rfl | rfl
      · rfl
      · cases quote <;> rfl
    next hc =>
      split
      next hnewline => exact hescape rfl (hnewline ▸ rfl)
      next =>
        split
        next hreturn => exact hescape rfl (hreturn ▸ rfl)
        next =>
          obtain ⟨hbackslash, hmark⟩ := not_or.1 hc
          obtain ⟨q', hq'⟩ := ih (q.advance c)
          refine ⟨q', ?_⟩
          rw [List.singleton_append, readString_cons rfl, if_neg hmark, if_neg hbackslash]
          exact map_eq_ok_iff.2 ⟨_, hq', rfl⟩

theorem string (quote : Quote) (s : String) : LexesAlone (quote.write s) (.string s) := by
  refine ⟨quote.mark, s.toList.flatMap quote.escape ++ [quote.mark], rfl, ?_, fun q back => ?_⟩
  · cases quote <;> rfl
  obtain ⟨q', hq'⟩ := readString_escape quote q s.toList back (q.advance quote.mark)
  refine ⟨.string s, ⟨q', back⟩, ?_, rfl, rfl⟩
  have hmark : quote.mark = '\'' ∨ quote.mark = '"' := by cases quote <;> simp [Quote.mark]
  have hskip : Cursor.skip 1 ⟨q, quote.write s ++ back⟩ =
      ⟨q.advance quote.mark, s.toList.flatMap quote.escape ++ quote.mark :: back⟩ := by
    simp [Cursor.skip, Quote.write, Position.after]
  rw [readToken_quote hmark, hskip]
  exact map_eq_ok_iff.2 ⟨_, hq', by simp⟩

theorem quote (s : String) : LexesAlone (Template.quote s) (.string s) :=
  Quote.write_single s ▸ string .single s

end LexesAlone

end JsonStencil
