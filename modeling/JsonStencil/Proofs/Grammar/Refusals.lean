import JsonStencil.Proofs.Grammar.Contract
import JsonStencil.Proofs.Grammar.Spans
import JsonStencil.Proofs.Text.Search
import JsonStencil.Proofs.Token.Spots

/-!
# The places of syntax errors

A reader that is given tokens standing in a text either refuses them at an anchored place of the
text or leaves tokens standing in it. There is one exception: a place is made up for an expression
that nests too deeply where the tokens end.
-/

namespace JsonStencil

namespace Grammar

variable {cs : List Char} {ls : List Lexeme}

/-- The refusal of a deep expression where no token is left, at a place that is always the same. -/
def tooDeepAtEnd : SyntaxError :=
  .invalid ("expression nested too deeply (limit " ++ toString maxNesting ++ ")") (.single 1 1 0)

def Refusal (cs : List Char) (e : SyntaxError) : Prop :=
  e = tooDeepAtEnd ∨ ∀ span, e.span? = some span → Spot cs span

def Stands (cs : List Char) (ls : List Lexeme) : Prop := ∀ l ∈ ls, l.Stands cs

theorem Refusal.of_none {e : SyntaxError} (h : e.span? = none) : Refusal cs e :=
  .inr fun span hspan => by rw [h] at hspan; cases hspan

theorem Refusal.of_spot {e : SyntaxError} {span : Span} (hspot : Spot cs span)
    (h : e.span? = some span) : Refusal cs e :=
  .inr fun span' hspan => by
    rw [h] at hspan
    cases hspan
    exact hspot

theorem Stands.tail {l : Lexeme} (h : Stands cs (l :: ls)) : Stands cs ls :=
  fun m hm => h m (List.mem_cons_of_mem l hm)

/-- A refusal of the first token stands at that token. -/
theorem Stands.refusal {l : Lexeme} (h : Stands cs (l :: ls)) {e : SyntaxError}
    (he : e.span? = some l.span) : Refusal cs e :=
  .of_spot (h l List.mem_cons_self).spot he

/-- The code of a chunk is refused where it stands in the text, or its tokens stand there. -/
theorem Stands.code {chunks : List TemplateChunk} {span : Span}
    (h : Stands cs (⟨.template chunks, span⟩ :: ls)) {code : CodeText}
    (hcode : .hole code ∈ chunks) :
    (∀ e, tokenize code.source = .error e →
      Refusal cs (.lexical ⟨e.fault, e.span.relocate code.span⟩)) ∧
    Refusal cs (.invalid "empty expression in template literal" code.span) ∧
    ∀ ts, tokenize code.source = .ok ts → Stands cs (ts.map (·.relocate code.span)) := by
  have hstands := (h _ List.mem_cons_self).holes chunks code rfl hcode
  exact ⟨fun e he => .of_spot (hstands.fault he) rfl, .of_spot hstands.spot rfl,
    fun ts => hstands.tokens⟩

theorem contract_stands (cs : List Char) : Contract (fun _ => Stands cs) (Refusal cs) where
  mono _ _ h := h
  tail _ _ _ h := h.tail
  pass _ _ _ h := h.tail
  ended _ _ := .of_none rfl
  unexpected _ _ _ _ _ h := h.refusal rfl
  tooDeep _ := .inl rfl
  tooDeepAt _ _ h := h.refusal rfl
  code _ _ _ _ _ h := h.code

end Grammar

namespace Expr

open Grammar

theorem refusal_of_parse {source : String} {e : SyntaxError} (h : parse source = .error e) :
    Refusal source.toList e := by
  unfold parse at h
  split at h
  next fault hfault =>
    cases h
    exact .of_spot (spot_of_tokenize hfault) rfl
  next ls hls =>
    have C := contract_stands source.toList
    exact C.whole (n := maxNesting) (C.expression_unary maxNesting).1
      (stands_of_tokenize hls) e h

theorem toList_ne_nil_of_tooDeepAtEnd {source : String}
    (h : parse source = .error tooDeepAtEnd) : source.toList ≠ [] := by
  intro hnil
  obtain rfl := String.toList_eq_nil_iff.1 hnil
  have htokens : tokenize "" = .ok [] := Lexer.readTokens_nil rfl
  have hempty : parse "" = .error (.unexpectedEnd "expression" none) := by
    rw [parse, htokens]
    rfl
  rw [hempty] at h
  cases h

/-- The place of an error is that of some text of the source, with two ends that no character
overlaps. Only an expression that nests too deeply where the tokens end, in a source that starts
with a character of several bytes, is placed inside that character. -/
theorem parse_error_spans (source : String) (e : SyntaxError) (span : Span)
    (h : parse source = .error e) (hspan : e.span? = some span) :
    (∃ before text behind, source.toList = before ++ text ++ behind ∧ span = .behind before text) ∨
      e = tooDeepAtEnd ∧ span = .single 1 1 0 ∧
        ∃ c behind, source.toList = c :: behind ∧ 1 < c.utf8Size := by
  rcases refusal_of_parse h with rfl | hplaced
  · cases hspan
    obtain ⟨c, behind, hsource⟩ := List.exists_cons_of_ne_nil (toList_ne_nil_of_tooDeepAtEnd h)
    rcases Nat.lt_or_ge 1 c.utf8Size with hsize | hsize
    · exact .inr ⟨rfl, rfl, c, behind, hsource, hsize⟩
    · have hone : c.utf8Size = 1 := Nat.le_antisymm hsize c.utf8Size_pos
      refine .inl ⟨[], [c], behind, hsource, ?_⟩
      simp [Span.single, Span.behind, byteLength, hone]
  · obtain ⟨i, j, hij, -, -, rfl⟩ := hplaced span hspan
    exact .inl (Span.exists_slice_eq_behind hij source.toList)

theorem parse_error_spans_relocated :
    let source := "é\n+ \x60ß$\x7b '\\z' \x7d\x60"
    let span : Span := ⟨2, 10, 13, 14⟩
    parse source = .error (.lexical ⟨.invalidEscape 'z', span⟩) ∧
      ∃ before text behind, source.toList = before ++ text ++ behind ∧
        span = .behind before text := by
  intro source span
  have h : parse source = .error (.lexical ⟨.invalidEscape 'z', span⟩) :=
    failure?_eq_some_iff.1 (by decide +kernel)
  rcases parse_error_spans source _ span h rfl with hplace | ⟨he, -⟩
  · exact ⟨h, hplace⟩
  · cases he

/-- Not every error has a place that ends between two characters. -/
theorem not_parse_error_spans :
    ¬ ∀ (source : String) (e : SyntaxError) (span : Span), parse source = .error e →
      e.span? = some span → ∃ before text behind, source.toList = before ++ text ++ behind ∧
        span = .behind before text := by
  intro h
  let source : String := .ofList ('é' :: List.replicate maxNesting '(')
  have herror : parse source = .error tooDeepAtEnd := failure?_eq_some_iff.1 (by decide +kernel)
  obtain ⟨before, text, behind, hsource, hspan⟩ := h source _ _ herror rfl
  -- the place starts with the source and ends one byte later, inside the first character
  have hstart : byteLength before = 0 := (congrArg Span.start hspan).symm
  have hstop : byteLength before + byteLength text = 1 := (congrArg Span.stop hspan).symm
  obtain rfl := eq_nil_of_byteLength hstart
  cases text with
  | nil => cases hstop
  | cons c text =>
    have hc : 'é' = c := by
      have hhead := congrArg List.head? hsource
      simpa [source] using hhead
    have hsize : c.utf8Size = 2 := by rw [← hc]; rfl
    rw [byteLength_cons, hsize, byteLength] at hstop
    omega

end Expr

end JsonStencil
