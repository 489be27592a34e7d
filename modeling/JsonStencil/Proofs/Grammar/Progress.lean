import JsonStencil.Proofs.Grammar.Completeness
import JsonStencil.Proofs.Token.Layout

/-!
# Reading goes on

A reader that succeeds has taken tokens from the front. The code of a template literal, which is
read by a parser of its own, is shorter than the literal, at any depth of literals in code.
-/

namespace JsonStencil

namespace Grammar

open Phrases

variable {α β : Type}

/-- What the reader leaves are the tokens behind some that it takes, one at least. -/
def Consumes (reader : TokenReader α) : Prop :=
  ∀ ⦃ls : List Lexeme⦄ ⦃a : α⦄ ⦃rest : List Lexeme⦄, reader ls = .ok (a, rest) →
    ∃ used, used ≠ [] ∧ ls = used ++ rest

theorem Sound.consumes {view : α → β} {reader : TokenReader α} {L : Phrases β}
    (h : Sound view reader L) (ho : Opens L) : Consumes reader := by
  intro ls a rest hread
  obtain ⟨used, rfl, hL⟩ := h hread
  exact ⟨used, ho.ne_nil hL, rfl⟩

/-- Levels of operators above the prefix expressions of a budget, the loosest in front. -/
def stacked (joins : List Joiner) (budget : Nat) : TokenReader Expr :=
  joins.foldr (fun join? operand => level operand join?) (unary budget)

theorem binaryLevels_unary (budget : Nat) :
    binaryLevels (unary budget) = stacked joiners.reverse budget := by
  rw [stacked, List.foldr_reverse, binaryLevels]

section Consumption

variable (budget : Nat)

theorem consumes_expression : Consumes (expression budget) :=
  (expression_unary_sound budget).1.consumes (opens_expression budget)

theorem consumes_unary : Consumes (unary budget) :=
  (expression_unary_sound budget).2.consumes (opens_unary budget)

theorem consumes_conditional : Consumes (conditional (unary budget) (expression budget)) :=
  have hsound := expression_unary_sound budget
  (conditional_sound hsound.2 hsound.1).consumes (opens_conditional (opens_unary budget))

theorem consumes_accessed : Consumes (accessed (expression budget)) :=
  (accessed_sound (expression_unary_sound budget).1).consumes (opens_accessed _)

theorem consumes_primary : Consumes (primary (expression budget)) :=
  (primary_sound (expression_unary_sound budget).1).consumes (opens_primary _)

theorem consumes_entry : Consumes (entry (expression budget)) :=
  (entry_sound (expression_unary_sound budget).1).consumes (opens_entry _)

theorem consumes_listUntil {view : α → β} {item : TokenReader α} {L : Phrases β}
    (h : Sound view item L) (close : Symbol) (context : String) :
    Consumes (listUntil item close context) := by
  rintro ls ⟨as, span⟩ rest hread
  obtain ⟨used, rfl, -⟩ := (itemsRead_of_listUntil hread).sound h
  exact ⟨used ++ [⟨.symbol close, span⟩], by simp, by simp⟩

theorem LevelRead.consumes {operand : TokenReader Expr} {join? : Joiner} {ls rest : List Lexeme}
    {e : Expr} (h : LevelRead operand join? ls e rest) (hc : Consumes operand) :
    ∃ used, used ≠ [] ∧ ls = used ++ rest := by
  induction h with
  | operand h => exact hc h
  | @join _ _ l _ _ _ _ _ hright ih =>
    obtain ⟨used, hused, rfl⟩ := ih
    obtain ⟨more, -, rfl⟩ := hc hright
    exact ⟨used ++ l :: more, List.append_ne_nil_of_left_ne_nil hused _,
      (List.append_assoc used (l :: more) _).symm⟩

theorem consumes_level {operand : TokenReader Expr} (hc : Consumes operand) (join? : Joiner) :
    Consumes (level operand join?) :=
  fun _ _ _ h => (levelRead_of_level h).consumes hc

theorem consumes_stacked (joins : List Joiner) : Consumes (stacked joins budget) := by
  induction joins with
  | nil => exact consumes_unary budget
  | cons join? joins ih => exact consumes_level ih join?

end Consumption

end Grammar

section Code

variable {cs : List Char} {a b i j : Nat} {l : Lexeme} {ls : List Lexeme}

/-- The token is that of some characters of the text, more than any code in it has. -/
structure Lexeme.Encloses (cs : List Char) (i j : Nat) (l : Lexeme) : Prop extends l.At cs i j where
  le_length : j ≤ cs.length
  shorter : ∀ chunks code, l.token = .template chunks → .hole code ∈ chunks →
    code.source.length < j - i

theorem Lexeme.Covers.encloses {before text : List Char} (h : l.Covers before text)
    (back : List Char) :
    l.Encloses (before ++ text ++ back) before.length (before.length + text.length) where
  toAt := h.at back
  le_length := by simp
  shorter chunks code htoken hcode := by
    obtain ⟨front, back', rfl, -⟩ := h.holes chunks code htoken hcode
    simp only [List.length_append, List.length_cons, String.length_toList]
    omega

theorem encloses_of_tokenize {source : String} (h : tokenize source = .ok ls) (hl : l ∈ ls) :
    ∃ i j, l.Encloses source.toList i j := by
  obtain ⟨front, text, behind, hsource, hcovers⟩ := (tiles_of_tokenize h).exists_covers hl
  exact ⟨_, _, hsource ▸ hcovers.encloses behind⟩

/-- Moved to where the code stands, a token of code encloses what it did. -/
theorem Lexeme.Encloses.relocate (h : l.Encloses ((cs.drop a).take (b - a)) i j) (hab : a ≤ b)
    (hb : b ≤ cs.length) : (l.relocate (.slice cs a b)).Encloses cs (a + i) (a + j) := by
  have hj : j ≤ b - a := by
    have hle := h.le_length
    rw [List.length_take] at hle
    omega
  refine ⟨h.toAt.relocate hj, by omega, fun chunks code htoken hcode => ?_⟩
  obtain ⟨chunks', code', htoken', hcode', rfl⟩ := exists_of_hole_mem_relocate htoken hcode
  rw [Nat.add_sub_add_left]
  exact h.shorter chunks' code' htoken' hcode'

/-- The lists of tokens that parsers are started on for a source: its own tokens, and the tokens of
the code in a template literal of such a list, which stand where the code does. -/
inductive Started (source : String) : List Lexeme → Prop
  | source {ls : List Lexeme} : tokenize source = .ok ls → Started source ls
  | code {ls ts : List Lexeme} {chunks : List TemplateChunk} {span : Span} {code : CodeText} :
      Started source ls → ⟨.template chunks, span⟩ ∈ ls → .hole code ∈ chunks →
      tokenize code.source = .ok ts → Started source (ts.map (·.relocate code.span))

theorem Started.encloses {source : String} (h : Started source ls) :
    ∀ l ∈ ls, ∃ i j, l.Encloses source.toList i j := by
  induction h with
  | source htokens => exact fun l hl => encloses_of_tokenize htokens hl
  | code _ htemplate hcode htokens ih =>
    intro l hl
    obtain ⟨m, hm, rfl⟩ := List.mem_map.1 hl
    obtain ⟨i, j, hencloses⟩ := ih _ htemplate
    obtain ⟨a, b, -, hab, hbj, hspan, hsource⟩ := hencloses.holes _ _ rfl hcode
    obtain ⟨i', j', hm⟩ := encloses_of_tokenize htokens hm
    rw [hsource] at hm
    rw [hspan]
    exact ⟨_, _, hm.relocate hab (Nat.le_trans hbj hencloses.le_length)⟩

end Code

end JsonStencil
