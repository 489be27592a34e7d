import JsonStencil.Proofs.Grammar.Derivation
import JsonStencil.Proofs.Template.Meaning

/-!
# Room below a template

The deepest template takes 33 of the 48 levels of nesting that a source may have: one for each of
its levels and one for what stands on the last of them. Placeholders that need 15 levels at most
have room wherever they stand, in a template literal and in the key of an object too. These are the
placeholders that derive with a nesting of at most 15, by `Expr.isOk_parseWithin_iff`.
-/

namespace JsonStencil

namespace Expr

/-- Reads a source as an expression within a nesting budget of its own. -/
def parseWithin (budget : Nat) (source : String) : Except SyntaxError Expr :=
  match tokenize source with
  | .error e => .error (.lexical e)
  | .ok tokens => Grammar.whole (Grammar.expression budget) tokens

theorem parseWithin_maxNesting (source : String) : parseWithin maxNesting source = parse source :=
  rfl

variable {budget : Nat} {source : String} {e : Expr}

theorem parse_of_parseWithin (hle : budget ≤ maxNesting) (h : parseWithin budget source = .ok e) :
    parse source = .ok e := by
  rw [← parseWithin_maxNesting]
  unfold parseWithin at h ⊢
  split at h
  next => cases h
  next tokens _ =>
    rcases Grammar.whole_below (Grammar.expression_below hle) tokens with ⟨fault, hf, -⟩ | heq
    · rw [h] at hf
      cases hf
    · exact heq.symm.trans h

theorem expression_of_parseWithin (h : parseWithin budget source = .ok e) :
    ∃ tokens, tokenize source = .ok tokens ∧
      Phrases.Expression budget (spelling tokens) e.erase := by
  unfold parseWithin at h
  split at h
  next => cases h
  next tokens htokens =>
    obtain ⟨used, hused, hL⟩ :=
      (Grammar.expression_unary_sound budget).1 (Grammar.whole_eq_ok_iff.1 h)
    rw [List.append_nil] at hused
    exact ⟨tokens, htokens, hused ▸ hL⟩

theorem spells_of_parseWithin (h : parseWithin budget source = .ok e) :
    Spells (Phrases.Expression budget) source.toList e.erase := by
  obtain ⟨tokens, htokens, hL⟩ := expression_of_parseWithin h
  exact ⟨spelling tokens, .of_tokenize htokens, hL⟩

/-- A source can be read within a budget when it derives with no greater nesting. -/
theorem isOk_parseWithin_iff :
    (parseWithin budget source).isOk ↔ ∃ tokens tree, ∃ n ≤ budget,
      tokenize source = .ok tokens ∧ Derivation.Full n (spelling tokens) tree := by
  constructor
  · intro h
    obtain ⟨e, he⟩ := Template.exists_of_isOk h
    obtain ⟨tokens, htokens, hL⟩ := expression_of_parseWithin he
    obtain ⟨n, hn, hderives⟩ := Derivation.expression_iff.1 hL
    exact ⟨tokens, e.erase, n, hn, htokens, hderives⟩
  · rintro ⟨tokens, tree, n, hn, htokens, hderives⟩
    obtain ⟨a, ha, -⟩ := exists_whole_of_expression (Derivation.expression_iff.2 ⟨n, hn, hderives⟩)
    rw [parseWithin, htokens]
    dsimp only
    rw [ha]
    rfl

end Expr

namespace Template

theorem spells_placeholder {budget : Nat} (hle : budget ≤ maxNesting) {p : Placeholder}
    (h : (Expr.parseWithin budget p.source).isOk) :
    Spells (Phrases.Expression budget) p.source.toList p.expression := by
  obtain ⟨e, he⟩ := exists_of_isOk h
  rw [Placeholder.expression, Expr.parse_of_parseWithin hle he]
  exact Expr.spells_of_parseWithin he

/-- A template that has a source has one that parses, when its calls have names to be called by and
its placeholders parse within the levels that the deepest template leaves. What that says of the
placeholders without the parser is `Expr.isOk_parseWithin_iff`. -/
theorem ofSource_of_templateSource (o : TemplateOptions) {v : Value} {source : String}
    (h : v.templateSource o = .ok source)
    (hplaceholders : ∀ p ∈ (form o v).placeholders, (Expr.parseWithin 15 p.source).isOk)
    (hnames : ∀ name ∈ (form o v).callNames, IsIdentifier name) :
    ∃ exe, Executable.ofSource source = .ok exe := by
  unfold Value.templateSource at h
  cases hcs : Template.source o [] 0 v with
  | error fault =>
    rw [hcs] at h
    cases h
  | ok cs =>
    rw [hcs] at h
    cases h
    have hspells : Spells (Phrases.Expression (budgetAt 15 0)) cs (form o v).tree :=
      spells_source (by decide) (by decide) hcs
        (fun p hp => spells_placeholder (by decide) (hplaceholders p hp)) hnames
    -- the top of the template needs all 48 levels
    obtain ⟨e, he, -⟩ := hspells.parse_eq_ok (by decide)
    exact ⟨⟨.ofList cs, e⟩, by rw [Executable.ofSource, he]; rfl⟩

def nestedArrays : Nat → Value → Value
  | 0, v => v
  | n + 1, v => .array [nestedArrays n v]

/-- A placeholder in as many brackets, beside a text. -/
def bracketedKey (brackets : Nat) : String :=
  .ofList ("a\x7b\x7b".toList ++ List.replicate brackets '[' ++ ['b'] ++
    List.replicate brackets ']' ++ "\x7d\x7d".toList)

theorem ofSource_of_templateSource_deepest :
    let deepest := nestedArrays 31 (.object [(bracketedKey 14, .number (.zero true))])
    ∃ source, deepest.templateSource .standard = .ok source ∧
      ∃ exe, Executable.ofSource source = .ok exe := by
  intro deepest
  obtain ⟨source, hsource⟩ := exists_of_isOk
    (by decide +kernel : (deepest.templateSource .standard).isOk)
  exact ⟨source, hsource, ofSource_of_templateSource .standard hsource (by decide +kernel)
    (by decide +kernel)⟩

end Template

end JsonStencil
