import JsonStencil.Proofs.Grammar.Budget
import JsonStencil.Proofs.Grammar.Parentheses
import JsonStencil.Proofs.Grammar.Spans
import JsonStencil.Proofs.Token.Truncation

/-!
# The text of a node

The tokens that a reader takes for an expression are those of its span, but for parentheses: a span
leaves out those that are opened in front of its first token, and those that are closed behind its
last one. The tokens of a span are read as the expression if it leaves out none.
-/

namespace JsonStencil

/-- The one span starts and ends no later than the other. -/
def Span.Precedes (a b : Span) : Prop :=
  a.line ≤ b.line ∧ (a.line = b.line → a.column ≤ b.column) ∧ a.start ≤ b.start ∧ a.stop ≤ b.stop

theorem Span.precedes_slice {i j k l : Nat} (hik : i ≤ k) (hjl : j ≤ l) (cs : List Char) :
    (slice cs i j).Precedes (slice cs k l) := by
  have hstart := Position.after_le_append .start (cs.take i) ((cs.take k).drop i)
  have hstop := Position.after_le_append .start (cs.take j) ((cs.take l).drop j)
  rw [← take_eq_append hik] at hstart
  rw [← take_eq_append hjl] at hstop
  exact ⟨hstart.1, hstart.2.1, hstart.2.2, hstop.2.2⟩

theorem Span.merge_upTo {a b c d : Span} (h : a.Precedes c) (h' : b.Precedes d) :
    (a.upTo b).merge (c.upTo d) = a.upTo d := by
  obtain ⟨hline, hcolumn, hstart, -⟩ := h
  simp only [merge, upTo, Nat.min_eq_left hline, Nat.min_eq_left hstart,
    Nat.max_eq_right h'.2.2.2, Span.mk.injEq, true_and, and_true]
  exact ite_eq_right_iff.2 fun heq => Nat.min_eq_left (hcolumn heq)

namespace LaidOut

variable {cs : List Char} {lo hi : Nat} {ls rest : List Lexeme}

theorem exists_at (h : LaidOut cs hi lo ls) {l : Lexeme} (hl : l ∈ ls) :
    ∃ i j, lo ≤ i ∧ l.At cs i j := by
  induction h with
  | nil => cases hl
  | cons hlo hat _ ih =>
    rcases List.mem_cons.1 hl with rfl | hl
    · exact ⟨_, _, hlo, hat⟩
    · obtain ⟨i, j, hi, hat'⟩ := ih hl
      exact ⟨i, j, Nat.le_trans hlo (Nat.le_trans (Nat.le_of_lt hat.lt) hi), hat'⟩

theorem pairwise (h : LaidOut cs hi lo ls) : ls.Pairwise fun l m => l.span.Precedes m.span := by
  induction h with
  | nil => exact .nil
  | cons _ hat hls ih =>
    refine List.pairwise_cons.2 ⟨fun m hm => ?_, ih⟩
    obtain ⟨i, j, hle, hat'⟩ := hls.exists_at hm
    have hlt := hat.lt
    have hlt' := hat'.lt
    rw [hat.span_eq, hat'.span_eq]
    exact Span.precedes_slice (by omega) (by omega) cs

theorem of_append {used : List Lexeme} (h : LaidOut cs hi lo (used ++ rest)) :
    ∃ mid, LaidOut cs hi mid rest := by
  induction used generalizing lo with
  | nil => exact ⟨lo, h⟩
  | cons l used ih =>
    obtain ⟨i, j, -, -, h'⟩ := h.uncons
    exact ih h'

end LaidOut

/-- Tokens that stand in the text one behind the other, any of them in a row being those of the text
from the first to the last. -/
structure Legible (cs : List Char) (ls : List Lexeme) : Prop where
  laidOut : ∃ lo hi, hi ≤ cs.length ∧ LaidOut cs hi lo ls
  lexed : ∀ core span, core <:+: ls → Spans core span → Lexed cs span core

namespace Legible

variable {cs : List Char} {ls rest : List Lexeme}

theorem of_tokenize {source : String} (h : tokenize source = .ok ls) :
    Legible source.toList ls :=
  ⟨⟨_, _, Nat.le_refl _, LaidOut.of_tokenize h⟩, fun _ _ => lexed_of_tokenize h⟩

theorem of_suffix (h : Legible cs ls) (hrest : rest <:+ ls) : Legible cs rest := by
  obtain ⟨used, rfl⟩ := hrest
  obtain ⟨lo, hi, hle, hlaid⟩ := h.laidOut
  obtain ⟨mid, hlaid'⟩ := hlaid.of_append
  exact ⟨⟨mid, hi, hle, hlaid'⟩, fun core span hcore hspan =>
    h.lexed core span (hcore.trans (List.suffix_append used rest).isInfix) hspan⟩

theorem of_append {used : List Lexeme} (h : Legible cs (used ++ rest)) : Legible cs rest :=
  h.of_suffix (List.suffix_append used rest)

theorem pairwise (h : Legible cs ls) : ls.Pairwise fun l m => l.span.Precedes m.span := by
  obtain ⟨lo, hi, -, hlaid⟩ := h.laidOut
  exact hlaid.pairwise

theorem spans_of_relocate {base : Span} {core : List Lexeme} {span : Span}
    (h : Spans (core.map (·.relocate base)) span) :
    ∃ span', Spans core span' ∧ span = span'.relocate base := by
  obtain ⟨first, last, hfirst, hlast, rfl⟩ := h
  rw [List.head?_map] at hfirst
  rw [List.getLast?_map] at hlast
  obtain ⟨first', hfirst', rfl⟩ := Option.map_eq_some_iff.1 hfirst
  obtain ⟨last', hlast', rfl⟩ := Option.map_eq_some_iff.1 hlast
  exact ⟨_, ⟨first', last', hfirst', hlast', rfl⟩, rfl⟩

/-- The code of a template literal has its tokens in the text, too. -/
theorem code {l : Lexeme} {chunks : List TemplateChunk} {code : CodeText} {ms : List Lexeme}
    (h : Legible cs (l :: ls)) (hl : l.token = .template chunks) (hcode : .hole code ∈ chunks)
    (hms : tokenize code.source = .ok ms) : Legible cs (ms.map (·.relocate code.span)) := by
  obtain ⟨lo, hi, hhi, hlaid⟩ := h.laidOut
  obtain ⟨i, j, -, hat, hrest⟩ := hlaid.uncons
  obtain ⟨a, b, hia, hab, hbj, hspan, hsource⟩ := hat.holes chunks code hl hcode
  have hb : b ≤ cs.length := Nat.le_trans hbj (Nat.le_trans hrest.le hhi)
  refine ⟨⟨a, b, hb, LaidOut.of_code hab hspan hsource hms⟩, fun core span hcore hcorespan => ?_⟩
  obtain ⟨front, back, happend⟩ := hcore
  obtain ⟨front', back', rfl, hfront, rfl⟩ := List.map_eq_append_iff.1 happend.symm
  obtain ⟨front'', core', rfl, rfl, rfl⟩ := List.map_eq_append_iff.1 hfront
  obtain ⟨span', hcorespan', rfl⟩ := spans_of_relocate hcorespan
  have hlexed := lexed_of_tokenize hms ⟨front'', back', rfl⟩ hcorespan'
  rw [hsource] at hlexed
  rw [hspan]
  exact hlexed.relocate hab hb

end Legible

/-- The tokens are those of the span with opening parentheses in front and closing ones behind. -/
def Edged (used : List Lexeme) (span : Span) : Prop :=
  ∃ opening core closing, used = opening ++ core ++ closing ∧
    (∀ t ∈ spelling opening, t = .symbol .leftParen) ∧
    (∀ t ∈ spelling closing, t = .symbol .rightParen) ∧ Spans core span

namespace Edged

variable {used first mid last : List Lexeme} {span span' : Span}

theorem single (l : Lexeme) : Edged [l] l.span := by
  refine ⟨[], [l], [], rfl, fun t ht => ?_, fun t ht => ?_, l, l, rfl, rfl, rfl⟩
  · exact absurd ht List.not_mem_nil
  · exact absurd ht List.not_mem_nil

theorem round (h : Edged used span) (left right : Span) :
    Edged (⟨.symbol .leftParen, left⟩ :: (used ++ [⟨.symbol .rightParen, right⟩])) span := by
  obtain ⟨opening, core, closing, rfl, hopening, hclosing, hspan⟩ := h
  refine ⟨⟨.symbol .leftParen, left⟩ :: opening, core, closing ++ [⟨.symbol .rightParen, right⟩],
    by simp, ?_, ?_, hspan⟩
  · exact List.forall_mem_cons.2 ⟨rfl, hopening⟩
  · rw [spelling_append]
    exact List.forall_mem_append.2 ⟨hclosing, List.forall_mem_singleton.2 rfl⟩

end Edged

namespace Expr

/-- The text of the span of an expression has tokens that are read as the expression if their
parentheses match. -/
def Excerpt (cs : List Char) (e : Expr) : Prop :=
  ∃ core, Lexed cs e.span core ∧
    (ParensMatch (spelling core) → Phrases.Expression maxNesting (spelling core) e.erase)

/-- All expressions in a node are excerpts. -/
def Excerpted (cs : List Char) (n : Node) : Prop :=
  ∀ e : Expr, (Node.expr e).Within n → Excerpt cs e

theorem excerpted_expr {cs : List Char} {e : Expr} (h : Excerpt cs e)
    (hchildren : ∀ m ∈ (Node.expr e).children, Excerpted cs m) : Excerpted cs (.expr e) := by
  intro inner hinner
  cases hinner with
  | refl => exact h
  | child hm hinner => exact hchildren _ hm inner hinner

theorem excerpted_entry {cs : List Char} {x : ObjectEntry Expr}
    (hchildren : ∀ m ∈ (Node.entry x).children, Excerpted cs m) : Excerpted cs (.entry x) := by
  intro inner hinner
  cases hinner with
  | child hm hinner => exact hchildren _ hm inner hinner

end Expr

namespace Grammar

open Phrases (Included Chain Levels Conditional Separated Entry Primary Accessed Prefixed Expression
  Unary)
open JsonStencil.Expr (Node Excerpt Excerpted)

/-- The tokens spell the expression, and its nodes have the texts of their spans. -/
structure Taken (cs : List Char) (L : Phrases Expr) (used : List Lexeme) (e : Expr) : Prop where
  spelled : L (spelling used) e.erase
  edged : Edged used e.span
  excerpted : Excerpted cs (.expr e)

namespace Taken

variable {cs : List Char} {L M : Phrases Expr} {used first mid last rest : List Lexeme} {e : Expr}

theorem mono (h : Taken cs L used e) (hLM : Included L M) : Taken cs M used e :=
  ⟨hLM h.spelled, h.edged, h.excerpted⟩

/-- An expression of one token. -/
theorem of_token {l : Lexeme} (hls : Legible cs (l :: rest)) (hL : L (spelling [l]) e.erase)
    (hwhole : Included L (Expression maxNesting)) (hspan : e.span = l.span)
    (hchildren : ∀ m ∈ (Node.expr e).children, Excerpted cs m) : Taken cs L [l] e := by
  refine ⟨hL, hspan ▸ .single l, Expr.excerpted_expr ⟨[l], ?_, fun _ => hwhole hL⟩ hchildren⟩
  have hcore : [l] <:+: l :: rest := ⟨[], rest, rfl⟩
  exact hls.lexed [l] e.span hcore ⟨l, l, rfl, rfl, hspan⟩

/-- An expression from one part to another. -/
theorem of_merge {s t : Span} (hls : Legible cs (first ++ mid ++ last ++ rest))
    (hL : L (spelling (first ++ mid ++ last)) e.erase) (hwhole : Included L (Expression maxNesting))
    (hfirst : Edged first s) (hlast : Edged last t) (hmatch : ParensMatch (spelling first))
    (hspan : e.span = s.merge t) (hchildren : ∀ m ∈ (Node.expr e).children, Excerpted cs m) :
    Taken cs L (first ++ mid ++ last) e := by
  obtain ⟨opening, core, closing, rfl, hopening, hclosing, a, b, ha, hb, rfl⟩ := hfirst
  obtain ⟨opening', core', closing', rfl, hopening', hclosing', c, d, hc, hd, rfl⟩ := hlast
  have hac : a.span.Precedes c.span ∧ b.span.Precedes d.span := by
    obtain ⟨hpairs, -, -⟩ := List.pairwise_append.1 hls.pairwise
    obtain ⟨-, -, hpairs'⟩ := List.pairwise_append.1 hpairs
    have ha' := List.mem_of_head? ha
    have hb' := List.mem_of_getLast? hb
    have hc' := List.mem_of_head? hc
    have hd' := List.mem_of_getLast? hd
    exact ⟨hpairs' a (by simp [ha']) c (by simp [hc']), hpairs' b (by simp [hb']) d (by simp [hd'])⟩
  have hspan' : Spans (core ++ closing ++ mid ++ opening' ++ core') e.span := by
    refine ⟨a, d, ?_, ?_, ?_⟩
    · simp [ha]
    · simp [hd]
    · rw [hspan, Span.merge_upTo hac.1 hac.2]
  have hinfix : core ++ closing ++ mid ++ opening' ++ core' <:+:
      opening ++ core ++ closing ++ mid ++ (opening' ++ core' ++ closing') ++ rest :=
    ⟨opening, closing' ++ rest, by simp⟩
  have hedges : opening ++ core ++ closing ++ mid ++ (opening' ++ core' ++ closing') =
      opening ++ (core ++ closing ++ mid ++ opening' ++ core') ++ closing' := by simp
  refine ⟨hL, ⟨opening, _, closing', hedges, hopening, hclosing', hspan'⟩,
    Expr.excerpted_expr ⟨_, hls.lexed _ _ hinfix hspan', fun hpart => ?_⟩ hchildren⟩
  -- what is opened in front of the node is closed in its first part
  have hprefix : spelling (core ++ closing) <+:
      spelling (core ++ closing ++ mid ++ opening' ++ core') :=
    ⟨spelling (mid ++ opening' ++ core'), by simp⟩
  have hspelled := hwhole hL
  have hall := parensMatch_of_expression hspelled
  rw [hedges, spelling_append, spelling_append] at hall
  rw [List.append_assoc, spelling_append] at hmatch
  obtain ⟨hnil, hnil'⟩ := ParensMatch.eq_nil hopening hclosing' hmatch hprefix hall hpart
  rw [hedges, spelling_append, spelling_append, hnil, hnil', List.nil_append, List.append_nil]
    at hspelled
  exact hspelled

end Taken

end Grammar

end JsonStencil
