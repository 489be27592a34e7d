import JsonStencil.Executable
import JsonStencil.Proofs.Grammar.Budget
import JsonStencil.Proofs.Grammar.Shape
import JsonStencil.Proofs.Template.Form
import JsonStencil.Proofs.Template.Literal
import JsonStencil.Proofs.Token.Atoms
import Mathlib.Data.List.Forall2

/-!
# Sources put together

A text spells a member of a language when it lexes to tokens of that member. The source of a
template is put together from texts that spell their expressions, and spells the expression made of
these.
-/

namespace JsonStencil

open Phrases

/-- The text lexes to tokens that the language has for the member. -/
def Spells {α : Type} (L : Phrases α) (cs : List Char) (a : α) : Prop :=
  ∃ ts, Lexes cs ts ∧ L ts a

namespace Spells

variable {α : Type} {L M : Phrases α} {budget : Nat} {cs ds : List Char} {e : Expr}

theorem included (hL : Included L M) {a : α} (h : Spells L cs a) : Spells M cs a := by
  obtain ⟨ts, hts, ha⟩ := h
  exact ⟨ts, hts, hL ha⟩

theorem mono {budget' : Nat} (hle : budget ≤ budget') (h : Spells (Expression budget) cs e) :
    Spells (Expression budget') cs e :=
  h.included (expression_included hle)

theorem of_parse {source : String} {e : Expr} (h : Expr.parse source = .ok e) :
    Spells (Expression maxNesting) source.toList e.erase := by
  obtain ⟨ls, hls, he⟩ := Expr.tokenize_of_parse h
  exact ⟨spelling ls, .of_tokenize hls, he⟩

/-- What a text spells is what it is parsed as, unless it nests too deeply. -/
theorem parse_eq (h : Spells (Expression budget) cs e) :
    (∃ fault, Expr.parse (.ofList cs) = .error fault ∧ fault.IsNestingLimit) ∨
      ∃ a, Expr.parse (.ofList cs) = .ok a ∧ a.erase = e := by
  obtain ⟨ts, hts, he⟩ := h
  obtain ⟨ls, hls, rfl⟩ := hts.tokenize_eq
  unfold Expr.parse
  rw [hls]
  exact Expr.ofTokens_of_expression he

theorem parse_eq_ok (hle : budget ≤ maxNesting) (h : Spells (Expression budget) cs e) :
    ∃ a, Expr.parse (.ofList cs) = .ok a ∧ a.erase = e := by
  obtain ⟨ts, hts, he⟩ := h
  obtain ⟨ls, hls, rfl⟩ := hts.tokenize_eq
  unfold Expr.parse
  rw [hls]
  exact Expr.ofTokens_eq_ok_of_expression hle he

theorem bracketed {opening closing : Symbol} (ho : opening ∈ LexesAlone.standalone)
    (hc : closing ∈ LexesAlone.standalone) (hboundary : Lexer.Boundary closing.text.toList)
    {ts : List Token} (h : Lexes cs ts) :
    Lexes (opening.text.toList ++ (cs ++ closing.text.toList))
      (.symbol opening :: (ts ++ [.symbol closing])) :=
  .cons (.symbol ho) (h.append (.single (.symbol hc)) hboundary)

theorem primary {ts : List Token} (hts : Lexes cs ts) (h : Primary (Expression budget) ts e) :
    Spells (Expression (budget + 1)) cs e :=
  ⟨ts, hts, expression_of_primary h⟩

theorem quote (budget : Nat) (s : String) :
    Spells (Expression (budget + 1)) (Template.quote s) (.string s .blank) :=
  primary (.single (.quote s)) (.string s)

theorem null (budget : Nat) : Spells (Expression (budget + 1)) "null".toList (.null .blank) :=
  primary (Lexes.of_readToken (c := 'n') rfl rfl rfl) .null

theorem bool (budget : Nat) (b : Bool) :
    Spells (Expression (budget + 1)) (toString b).toList (.bool b .blank) := by
  cases b with
  | false => exact primary (Lexes.of_readToken (c := 'f') rfl rfl rfl) .false
  | true => exact primary (Lexes.of_readToken (c := 't') rfl rfl rfl) .true

end Spells

namespace Spells

variable {budget : Nat} {cs : List Char} {e : Expr}

theorem signed (negative : Bool) {ts : List Token} (hts : Lexes cs ts)
    (h : Primary (Expression budget) ts e) :
    Spells (Expression (budget + 2)) (Binary64.signChars negative cs) (.signed negative e) := by
  cases negative with
  | false => exact (primary hts h).mono (Nat.le_succ _)
  | true =>
    have hunary : Unary (budget + 1) (.symbol .minus :: ts) (.unary .minus e .blank) :=
      unary_succ budget ▸ .operator rfl (unary_of_accessed (.primary h))
    have hminus : Symbol.minus ∈ LexesAlone.standalone := by decide
    exact ⟨_, .cons (.symbol hminus) hts, expression_of_unary hunary⟩

theorem number (budget : Nat) (x : Binary64) :
    Spells (Expression (budget + 2)) (Template.numberSource x) (.ofNumber x) := by
  rw [Template.numberSource, Binary64.text, String.toList_ofList]
  cases x with
  | nan =>
    have hname : IsIdentifier "NaN" := by decide
    exact signed false (.word hname) (.identifier _)
  | infinity negative =>
    have hname : IsIdentifier "Infinity" := by decide
    exact signed negative (.word hname) (.identifier _)
  | finite negative quanta h => exact signed negative (.magnitude negative h) (.number _)

variable {α : Type} {L : Phrases α}

theorem separated {sources : List (List Char)} {as : List α}
    (h : List.Forall₂ (Spells L) sources as) :
    Spells (Separated L) (Template.commaSeparated sources) as := by
  induction h with
  | nil => exact ⟨[], .nil, .nil⟩
  | @cons s a sources as hs hrest ih =>
    obtain ⟨ts, hts, ha⟩ := hs
    cases hrest with
    | nil =>
      refine ⟨ts, ?_, .single ha⟩
      simpa [Template.commaSeparated] using hts
    | @cons s' a' sources as _ _ =>
      obtain ⟨us, hus, has⟩ := ih
      have hcomma : Lexes (',' :: ' ' :: Template.commaSeparated (s' :: sources))
          (.symbol .comma :: us) :=
        .cons (.symbol (by decide)) hus.space
      refine ⟨ts ++ .symbol .comma :: us, ?_, .cons ha has⟩
      have hsource : Template.commaSeparated (s :: s' :: sources) =
          s ++ ',' :: ' ' :: Template.commaSeparated (s' :: sources) := by
        simp [Template.commaSeparated]
      rw [hsource]
      exact hts.append hcomma (Lexer.boundary_cons (by decide) _)

theorem array {sources : List (List Char)} {es : List Expr}
    (h : List.Forall₂ (Spells (Expression budget)) sources es) :
    Spells (Expression (budget + 1)) ('[' :: Template.commaSeparated sources ++ [']'])
      (.array es .blank) := by
  obtain ⟨ts, hts, hes⟩ := separated h
  have hopen : Symbol.leftBracket ∈ LexesAlone.standalone := by decide
  have hclose : Symbol.rightBracket ∈ LexesAlone.standalone := by decide
  exact primary (bracketed hopen hclose (Lexer.boundary_cons (by decide) []) hts) (.array hes)

theorem object {sources : List (List Char)} {entries : List (ObjectEntry Expr)}
    (h : List.Forall₂ (Spells (Entry (Expression budget))) sources entries) :
    Spells (Expression (budget + 1)) (Template.braced (Template.commaSeparated sources))
      (.object entries .blank) := by
  obtain ⟨ts, hts, hes⟩ := separated h
  have hopen : Symbol.leftBrace ∈ LexesAlone.standalone := by decide
  have hclose : Symbol.rightBrace ∈ LexesAlone.standalone := by decide
  have hinner : Lexes (Template.commaSeparated sources ++ [' ', '}'])
      (ts ++ [.symbol .rightBrace]) :=
    hts.append (Lexes.space (.single (.symbol hclose))) (Lexer.boundary_cons (by decide) _)
  have hbraced : Lexes (Template.braced (Template.commaSeparated sources))
      (.symbol .leftBrace :: (ts ++ [.symbol .rightBrace])) :=
    have houter := Lexes.cons (.symbol hopen) hinner.space
    houter
  exact primary hbraced (.object hes)

theorem single {entry : ObjectEntry Expr} (h : Spells (Entry (Expression budget)) cs entry) :
    Spells (Expression (budget + 1)) (Template.braced cs) (.object [entry] .blank) := by
  simpa [Template.commaSeparated] using object (.cons h .nil)

theorem call {name : String} (hname : IsIdentifier name) {sources : List (List Char)}
    {args : List Expr} (h : List.Forall₂ (Spells (Expression budget)) sources args) :
    Spells (Expression (budget + 1))
      (name.toList ++ '(' :: Template.commaSeparated sources ++ [')'])
      (.call (.identifier name .blank) args .blank) := by
  obtain ⟨ts, hts, hargs⟩ := separated h
  have hopen : Symbol.leftParen ∈ LexesAlone.standalone := by decide
  have hclose : Symbol.rightParen ∈ LexesAlone.standalone := by decide
  have hparens := bracketed hopen hclose (Lexer.boundary_cons (by decide) []) hts
  have hlexes : Lexes (name.toList ++ '(' :: Template.commaSeparated sources ++ [')'])
      ([.identifier name] ++ .symbol .leftParen :: (ts ++ [.symbol .rightParen])) := by
    rw [List.append_assoc]
    exact (Lexes.word hname).append hparens (Lexer.boundary_cons (by decide) _)
  exact ⟨_, hlexes, expression_of_accessed (.call (.primary (.identifier name)) hargs)⟩

theorem colon {ts : List Token} (hts : Lexes cs ts) :
    Lexes (':' :: ' ' :: cs) (.symbol .colon :: ts) := by
  have hcolon : Symbol.colon ∈ LexesAlone.standalone := by decide
  exact .cons (.symbol hcolon) hts.space

theorem named (t : String) (h : Spells (Expression budget) cs e) :
    Spells (Entry (Expression budget)) (Template.entrySource (Template.quote t) cs)
      ⟨.named t, e, .blank⟩ := by
  obtain ⟨ts, hts, he⟩ := h
  exact ⟨_, .cons (.quote t) (colon hts), .named rfl he⟩

theorem computed {ks : List Char} {k : Expr} (hk : Spells (Expression budget) ks k)
    (h : Spells (Expression budget) cs e) :
    Spells (Entry (Expression budget)) (Template.entrySource ('[' :: ks ++ [']']) cs)
      ⟨.computed k, e, .blank⟩ := by
  obtain ⟨us, hus, hk⟩ := hk
  obtain ⟨ts, hts, he⟩ := h
  have hopen : Symbol.leftBracket ∈ LexesAlone.standalone := by decide
  have hclose : Symbol.rightBracket ∈ LexesAlone.standalone := by decide
  have hkey := bracketed hopen hclose (Lexer.boundary_cons (by decide) []) hus
  refine ⟨_, hkey.append (colon hts) (Lexer.boundary_cons (by decide) _), ?_⟩
  simpa using Entry.computed hk he

theorem template (hle : budget ≤ maxNesting) {ps : List (Char ⊕ Placeholder)}
    {expression : Placeholder → Expr}
    (h : ∀ p, .inr p ∈ ps → Spells (Expression budget) p.source.toList (expression p)) :
    Spells (Expression (budget + 1)) (Template.templateLiteral (Part.gather [] ps))
      (.template ((Part.gather [] ps).map (Part.map expression)) .blank) := by
  have hcode : ∀ p, .inr p ∈ ps → ∃ ls, tokenize p.source = .ok ls ∧
      Expression budget (spelling ls) (expression p) := by
    intro p hp
    obtain ⟨ts, hts, he⟩ := h p hp
    obtain ⟨ls, hls, rfl⟩ := hts.tokenize_eq
    rw [String.ofList_toList] at hls
    exact ⟨ls, hls, he⟩
  have hchunks : ∀ parts : List (Part Placeholder), (∀ p, .hole p ∈ parts → .inr p ∈ ps) →
      Chunks (Expression budget) (parts.map (Part.map Placeholder.code))
        (parts.map (Part.map expression)) := by
    intro parts hparts
    induction parts with
    | nil => exact .nil
    | cons part parts ih =>
      have ih := ih fun p hp => hparts p (List.mem_cons_of_mem _ hp)
      cases part with
      | text t => exact .text t ih
      | hole p =>
        obtain ⟨ls, hls, he⟩ := hcode p (hparts p List.mem_cons_self)
        exact .code hls he ih
  have hisCode : ∀ p, .inr p ∈ ps → IsCode maxNesting p.source := by
    intro p hp
    obtain ⟨ls, hls, he⟩ := hcode p hp
    exact IsCode.mono hle ⟨ls, _, hls, he⟩
  have hholes : ∀ p, .hole p ∈ Part.gather [] ps → .inr p ∈ ps :=
    fun p => (Part.hole_mem_gather []).1
  exact primary (.single (.template hisCode)) (.template (hchunks _ hholes))

end Spells

end JsonStencil
