import JsonStencil.Proofs.Grammar.Shape
import Mathlib.Data.List.Infix

/-!
# Matching parentheses

The parentheses of every spelling of an expression match. So a part of one that leaves out opening
parentheses in front, and closing ones behind, has matching parentheses only if it leaves out none.
-/

namespace JsonStencil

/-- Every parenthesis that is opened is closed further on. -/
structure ParensMatch (ts : List Token) : Prop where
  front_le : ∀ front, front <+: ts →
    front.count (.symbol .rightParen) ≤ front.count (.symbol .leftParen)
  count_eq : ts.count (.symbol .rightParen) = ts.count (.symbol .leftParen)

namespace ParensMatch

variable {ts us : List Token}

instance (ts : List Token) : Decidable (ParensMatch ts) :=
  decidable_of_iff ((∀ front ∈ ts.inits,
      front.count (.symbol .rightParen) ≤ front.count (.symbol .leftParen)) ∧
      ts.count (.symbol .rightParen) = ts.count (.symbol .leftParen))
    ⟨fun h => ⟨fun front hfront => h.1 front ((List.mem_inits front ts).2 hfront), h.2⟩,
      fun h => ⟨fun front hfront => h.front_le front ((List.mem_inits front ts).1 hfront),
        h.count_eq⟩⟩

theorem nil : ParensMatch [] := by decide

theorem append (h : ParensMatch ts) (h' : ParensMatch us) : ParensMatch (ts ++ us) where
  front_le front hfront := by
    rcases List.prefix_or_prefix_of_prefix hfront (List.prefix_append ts us) with
      hts | ⟨more, rfl⟩
    · exact h.front_le front hts
    · have hmore := h'.front_le more ((List.prefix_append_right_inj ts).1 hfront)
      rw [List.count_append, List.count_append, h.count_eq]
      exact Nat.add_le_add_left hmore _
  count_eq := by rw [List.count_append, List.count_append, h.count_eq, h'.count_eq]

theorem single {t : Token} (hleft : t ≠ .symbol .leftParen) (hright : t ≠ .symbol .rightParen) :
    ParensMatch [t] := by
  have hcount : [t].count (.symbol .rightParen) = 0 :=
    List.count_eq_zero.2 fun hmem => hright (List.mem_singleton.1 hmem).symm
  have hcount' : [t].count (.symbol .leftParen) = 0 :=
    List.count_eq_zero.2 fun hmem => hleft (List.mem_singleton.1 hmem).symm
  refine ⟨fun front hfront => ?_, hcount.trans hcount'.symm⟩
  have hle := hfront.sublist.count_le (.symbol .rightParen)
  omega

theorem round (h : ParensMatch ts) :
    ParensMatch (.symbol .leftParen :: (ts ++ [.symbol .rightParen])) := by
  have hcount : (Token.symbol .leftParen :: (ts ++ [.symbol .rightParen])).count
      (.symbol .rightParen) = (Token.symbol .leftParen :: (ts ++ [.symbol .rightParen])).count
      (.symbol .leftParen) := by
    simp [h.count_eq]
  refine ⟨fun front hfront => ?_, hcount⟩
  rcases List.prefix_cons_iff.1 hfront with rfl | ⟨more, rfl, hmore⟩
  · exact Nat.le_refl _
  · rcases List.prefix_concat_iff.1 hmore with rfl | hmore
    · exact Nat.le_of_eq hcount
    · have hle := h.front_le more hmore
      simp
      omega

theorem nests : Nests ParensMatch where
  nil := nil
  single t ht := single (by rintro rfl; exact ht) (by rintro rfl; exact ht)
  append _ _ := append
  round _ := round
  braces ts h := by
    have hleft : ParensMatch [.symbol .leftBrace] := by decide
    have hright : ParensMatch [.symbol .rightBrace] := by decide
    exact hleft.append (h.append hright)

/-- A part with matching parentheses between opening and closing ones has none around it, if what is
opened in front of it would be closed by a front of it. -/
theorem eq_nil {opening closing front part : List Token}
    (hopening : ∀ t ∈ opening, t = .symbol .leftParen)
    (hclosing : ∀ t ∈ closing, t = .symbol .rightParen) (hfront : ParensMatch (opening ++ front))
    (hstart : front <+: part) (hwhole : ParensMatch (opening ++ part ++ closing))
    (hpart : ParensMatch part) : opening = [] ∧ closing = [] := by
  have hopens : opening.count (.symbol .leftParen) = opening.length :=
    List.count_eq_length.2 fun t ht => (hopening t ht).symm
  have hopens' : opening.count (.symbol .rightParen) = 0 :=
    List.count_eq_zero.2 fun hmem => by cases hopening _ hmem
  have hcloses : closing.count (.symbol .rightParen) = closing.length :=
    List.count_eq_length.2 fun t ht => (hclosing t ht).symm
  have hcloses' : closing.count (.symbol .leftParen) = 0 :=
    List.count_eq_zero.2 fun hmem => by cases hclosing _ hmem
  have hfront' := hfront.count_eq
  have hwhole' := hwhole.count_eq
  rw [List.count_append, List.count_append] at hfront' hwhole'
  rw [List.count_append, List.count_append] at hwhole'
  have hle := hpart.front_le front hstart
  have hpart' := hpart.count_eq
  exact ⟨List.length_eq_zero_iff.1 (by omega), List.length_eq_zero_iff.1 (by omega)⟩

end ParensMatch

theorem parensMatch_of_expression {budget : Nat} {ts : List Token} {e : Expr}
    (h : Phrases.Expression budget ts e) : ParensMatch ts := by
  have htemplate (chunks : List TemplateChunk) : ParensMatch [.template chunks] :=
    .single nofun nofun
  exact (Phrases.expression_unary_ensures ParensMatch.nests htemplate budget).1 h

end JsonStencil
