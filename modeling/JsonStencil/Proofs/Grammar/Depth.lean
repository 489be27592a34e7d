import JsonStencil.Proofs.Grammar.Agreement
import JsonStencil.Proofs.Grammar.Extent

/-!
# The depth as a budget

What a parser can read within the limit depends on its depth only through what is left of the limit.
The largest count that tokens need without a limit decides: together with the depth it keeps within
the limit, or the tokens are refused for their nesting.
-/

namespace JsonStencil

namespace Grammar

namespace Counted

/-- Reads a full expression with a limit that the tokens cannot reach. -/
def freely (tokens : List Lexeme) : Except SyntaxError Expr × Machine :=
  expressionFrom (extent tokens + 1) 0 tokens

section From

variable {b limit high : Nat}

theorem agree_expressionFrom (hhigh : limit ≤ b + high) (tokens : List Lexeme) :
    Agree b limit 0 tokens (expression limit (limit + 1)) (expression high (high + 1))
      (Grammar.expression (limit - b) tokens) := by
  have hagrees := (Agrees.expression_unary hhigh (limit + 1) 0 (high + 1) (by omega) (by omega)).1
  rw [Nat.zero_add] at hagrees
  exact hagrees tokens

theorem expressionFrom_raised (b : Nat) (tokens : List Lexeme) :
    (expression limit (limit + 1)).run ⟨tokens, 0 + b, 0 + b⟩ = expressionFrom limit b tokens := by
  rw [Nat.zero_add, expressionFrom]

theorem expressionFrom_of_le (h : limit ≤ b) (tokens : List Lexeme) :
    (expressionFrom limit b tokens).1 = .error (tooDeepAt (place tokens)) := by
  obtain ⟨c, hc⟩ := exists_full limit (limit + 1)
  have hrun : (full limit c).run ⟨tokens, b, b⟩ =
      (nested limit (place tokens) c).run ⟨tokens, b, b⟩ := rfl
  rw [expressionFrom, hc, hrun, run_nested_of_lt (Nat.lt_succ_of_le h)]

/-- The counting parser is the reader whose budget is what the limit leaves. -/
theorem expressionFrom_eq (limit b : Nat) (tokens : List Lexeme) :
    (expressionFrom limit b tokens).1.map (·, (expressionFrom limit b tokens).2.rest) =
      Grammar.expression (limit - b) tokens := by
  by_cases hb : limit ≤ b
  · rw [expressionFrom_of_le hb, Nat.sub_eq_zero_of_le hb, expression_zero]
    cases tokens <;> rfl
  · have hagree := agree_expressionFrom (Nat.le_add_left limit b) tokens
    by_cases hpeak : b + (expressionFrom limit 0 tokens).2.peak ≤ limit
    · obtain ⟨-, hrun, hreader⟩ := hagree.within 0 hpeak
      rw [expressionFrom_raised] at hrun
      rw [hrun, hreader]
      rfl
    · obtain ⟨span, hrun, hreader⟩ :=
        hagree.beyond 0 (by omega) (Nat.lt_of_not_le hpeak)
      rw [expressionFrom_raised] at hrun
      rw [hrun, hreader]
      rfl

/-- No limit above the extent of the tokens is reached. -/
theorem expressionFrom_eq_freely {tokens : List Lexeme} (h : extent tokens < limit) :
    expressionFrom limit 0 tokens = freely tokens := by
  have hhigh : extent tokens + 1 ≤ 0 + limit := by omega
  have hagree := agree_expressionFrom hhigh tokens
  by_cases hpeak : 0 + (expressionFrom limit 0 tokens).2.peak ≤ extent tokens + 1
  · obtain ⟨-, hrun, -⟩ := hagree.within 0 hpeak
    exact hrun.symm
  · obtain ⟨span, -, hreader⟩ := hagree.beyond 0 (Nat.zero_le _) (Nat.lt_of_not_le hpeak)
    exact absurd hreader (expression_ne_tooDeep (Nat.lt_succ_self _) span)

theorem freely_ne_tooDeep (tokens : List Lexeme) (span : Span) :
    (freely tokens).1 ≠ .error (tooDeepAt span) := by
  intro h
  have hreader := expressionFrom_eq (extent tokens + 1) 0 tokens
  rw [← freely, h] at hreader
  exact expression_ne_tooDeep (Nat.lt_succ_self _) span hreader.symm

end From

/-- Read from a depth on, tokens give what they give without a limit as long as the depth and the
largest count together keep within the limit, and are refused for their nesting otherwise. -/
theorem expressionFrom_budget (tokens : List Lexeme) (b : Nat) :
    (∀ limit, extent tokens < limit → expressionFrom limit 0 tokens = freely tokens) ∧
    (∀ span, (freely tokens).1 ≠ .error (tooDeepAt span)) ∧
    (expressionFrom maxNesting b tokens).1.map (·, (expressionFrom maxNesting b tokens).2.rest) =
      Grammar.expression (maxNesting - b) tokens ∧
    (b + (freely tokens).2.peak ≤ maxNesting →
      (expressionFrom maxNesting b tokens).1 = (freely tokens).1 ∧
      (expressionFrom maxNesting b tokens).2.rest = (freely tokens).2.rest ∧
      (expressionFrom maxNesting b tokens).2.depth = b) ∧
    (maxNesting < b + (freely tokens).2.peak →
      ∃ span, (expressionFrom maxNesting b tokens).1 = .error (tooDeepAt span)) := by
  have hhigh : maxNesting ≤ b + (maxNesting + extent tokens + 1) := by omega
  have hfree : expressionFrom (maxNesting + extent tokens + 1) 0 tokens = freely tokens :=
    expressionFrom_eq_freely (by omega)
  have hagree := agree_expressionFrom hhigh tokens
  refine ⟨fun limit h => expressionFrom_eq_freely h, freely_ne_tooDeep tokens,
    expressionFrom_eq maxNesting b tokens, fun hle => ?_, fun hlt => ?_⟩
  · rw [← hfree] at hle ⊢
    obtain ⟨hdepth, hrun, -⟩ := hagree.within 0 hle
    rw [expressionFrom_raised] at hrun
    rw [hrun]
    refine ⟨rfl, rfl, ?_⟩
    rw [Machine.raise, hdepth, Nat.zero_add]
  · by_cases hb : maxNesting ≤ b
    · exact ⟨_, expressionFrom_of_le hb tokens⟩
    · rw [← hfree] at hlt
      obtain ⟨span, hrun, -⟩ := hagree.beyond 0 (by omega) hlt
      rw [expressionFrom_raised] at hrun
      exact ⟨span, hrun⟩

/-- The operand, the expression in brackets and the whole make three levels. -/
example (span : Span) : (freely [⟨.symbol .minus, span⟩, ⟨.symbol .leftParen, span⟩,
    ⟨.identifier "a", span⟩, ⟨.symbol .rightParen, span⟩]).2.peak = 3 := rfl

end Counted

end Grammar

end JsonStencil
