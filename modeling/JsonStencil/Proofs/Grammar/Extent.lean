import JsonStencil.Proofs.Grammar.Contract
import JsonStencil.Proofs.Token.Tiling

/-!
# How deep tokens can nest

Every level of nesting takes a token, or a character of the code of a template literal. So a budget
above the extent of the tokens is never used up.
-/

namespace JsonStencil

/-- The length of the longest code in a template literal. -/
def longestCode : List TemplateChunk → Nat
  | [] => 0
  | .text _ :: chunks => longestCode chunks
  | .hole code :: chunks => max code.source.length (longestCode chunks)

theorem length_le_longestCode {chunks : List TemplateChunk} {code : CodeText}
    (h : .hole code ∈ chunks) : code.source.length ≤ longestCode chunks := by
  induction chunks with
  | nil => cases h
  | cons chunk chunks ih =>
    rcases List.mem_cons.1 h with rfl | hmem
    · exact Nat.le_max_left _ _
    · cases chunk with
      | text => exact ih hmem
      | hole => exact Nat.le_trans (ih hmem) (Nat.le_max_right _ _)

theorem longestCode_le {chunks : List TemplateChunk} {n : Nat}
    (h : ∀ code, .hole code ∈ chunks → code.source.length ≤ n) : longestCode chunks ≤ n := by
  induction chunks with
  | nil => exact Nat.zero_le n
  | cons chunk chunks ih =>
    have hrest := ih fun code hcode => h code (List.mem_cons_of_mem _ hcode)
    cases chunk with
    | text => exact hrest
    | hole code => exact Nat.max_le.2 ⟨h code List.mem_cons_self, hrest⟩

theorem longestCode_map (base : Span) (chunks : List TemplateChunk) :
    longestCode (chunks.map (Part.map (·.relocate base))) = longestCode chunks := by
  induction chunks with
  | nil => rfl
  | cons chunk chunks ih =>
    cases chunk with
    | text => exact ih
    | hole code => exact congrArg (max code.source.length) ih

/-- What a token can nest. -/
def Token.extent : Token → Nat
  | .template chunks => longestCode chunks + 1
  | _ => 1

theorem Token.extent_pos (t : Token) : 0 < t.extent := by
  cases t <;> exact Nat.succ_pos _

theorem Token.extent_relocate (base : Span) (t : Token) : (t.relocate base).extent = t.extent := by
  cases t with
  | template chunks => exact congrArg (· + 1) (longestCode_map base chunks)
  | _ => rfl

def extent : List Lexeme → Nat
  | [] => 0
  | l :: ls => l.token.extent + extent ls

theorem extent_append (ls ms : List Lexeme) : extent (ls ++ ms) = extent ls + extent ms := by
  induction ls with
  | nil => exact (Nat.zero_add _).symm
  | cons l ls ih => simp only [List.cons_append, extent, ih, Nat.add_assoc]

theorem extent_pos {ls : List Lexeme} (h : ls ≠ []) : 0 < extent ls := by
  cases ls with
  | nil => exact absurd rfl h
  | cons l ls => exact Nat.add_pos_left l.token.extent_pos _

theorem extent_relocate (base : Span) (ls : List Lexeme) :
    extent (ls.map (·.relocate base)) = extent ls := by
  induction ls with
  | nil => rfl
  | cons l ls ih =>
    simp only [List.map_cons, extent, ih]
    rw [show (l.relocate base).token = l.token.relocate base from rfl, Token.extent_relocate]

theorem Lexeme.Covers.extent_le {before text : List Char} {l : Lexeme} (h : l.Covers before text) :
    l.token.extent ≤ text.length := by
  have hpos : 0 < text.length := List.length_pos_iff.2 h.ne_nil
  cases htoken : l.token with
  | template chunks =>
    have hcode : longestCode chunks ≤ text.length - 1 := by
      refine longestCode_le fun code hcode => ?_
      obtain ⟨front, back, htext, -⟩ := h.holes chunks code htoken hcode
      have hlength := congrArg List.length htext
      simp only [List.length_append, List.length_cons, String.length_toList] at hlength
      omega
    simp only [Token.extent]
    omega
  | _ => exact hpos

theorem Tiles.extent_le {before cs : List Char} {ls : List Lexeme} (h : Tiles before cs ls) :
    extent ls ≤ cs.length := by
  induction h with
  | nil => exact Nat.le_refl 0
  | blank _ _ ih => exact Nat.le_succ_of_le ih
  | token hl _ ih =>
    rw [extent, List.length_append]
    exact Nat.add_le_add hl.extent_le ih

theorem extent_le_of_tokenize {source : String} {ls : List Lexeme}
    (h : tokenize source = .ok ls) : extent ls ≤ source.length := by
  rw [← String.length_toList]
  exact (tiles_of_tokenize h).extent_le

namespace Grammar

/-- Tokens within the budget are not refused for their depth. -/
theorem contract_extent :
    Contract (fun n ls => extent ls < n) (fun e => ∀ span, e ≠ tooDeepAt span) where
  mono _ _ h := Nat.lt_succ_of_lt h
  tail _ l _ h := Nat.lt_of_le_of_lt (Nat.le_add_left _ _) h
  pass n l ls h := by
    have hpos := l.token.extent_pos
    simp only [extent] at h
    omega
  ended _ _ _ h := SyntaxError.noConfusion h
  unexpected _ _ _ _ _ _ _ h := SyntaxError.noConfusion h
  tooDeep h := absurd h (Nat.not_lt_zero _)
  tooDeepAt l ls h := by
    have hpos := l.token.extent_pos
    simp only [extent] at h
    exact absurd h (by omega)
  code n chunks span ls code h hcode := by
    refine ⟨fun _ _ _ he => SyntaxError.noConfusion he, fun _ he => ?_, fun ts hts => ?_⟩
    · exact absurd (SyntaxError.invalid.inj he).1 (by decide)
    · have hlength := length_le_longestCode hcode
      have hextent := extent_le_of_tokenize hts
      simp only [extent, Token.extent] at h
      rw [extent_relocate]
      omega

theorem expression_ne_tooDeep {n : Nat} {ls : List Lexeme} (h : extent ls < n) (span : Span) :
    expression n ls ≠ .error (tooDeepAt span) := fun he =>
  ((contract_extent.expression_unary n).1 ls h).failsWith _ he span rfl

end Grammar

end JsonStencil
