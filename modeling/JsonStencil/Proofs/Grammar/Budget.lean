import JsonStencil.Proofs.Grammar.Completeness

/-!
# Nesting budgets

A smaller budget changes what a reader does in one way only: it may stop at the nesting limit. So a
spelling within any budget is read as what it spells, unless it is refused for its nesting.
-/

namespace JsonStencil

/-- The source nests too deeply, by its template literals or by its expressions. -/
def SyntaxError.IsNestingLimit : SyntaxError → Prop
  | .lexical e => e.fault = .nestedTooDeeply maxNesting
  | .invalid message _ =>
    message = "expression nested too deeply (limit " ++ toString maxNesting ++ ")"
  | _ => False

namespace Grammar

open Phrases

variable {α β : Type}

/-- The first outcome is the second one, or the nesting limit stands in its place. -/
def Below (x y : Except SyntaxError α) : Prop :=
  (∃ e, x = .error e ∧ e.IsNestingLimit) ∨ x = y

theorem Below.refl (x : Except SyntaxError α) : Below x x := .inr rfl

theorem Below.trans {x y z : Except SyntaxError α} (h : Below x y) (h' : Below y z) :
    Below x z := by
  rcases h with h | rfl
  · exact .inl h
  · exact h'

theorem Below.bind {x y : Except SyntaxError α} {f g : α → Except SyntaxError β} (h : Below x y)
    (hfg : ∀ a, Below (f a) (g a)) : Below (x >>= f) (y >>= g) := by
  rcases h with ⟨e, rfl, he⟩ | rfl
  · exact .inl ⟨e, rfl, he⟩
  · cases x with
    | error e => exact .inr rfl
    | ok a => exact hfg a

theorem Below.map {x y : Except SyntaxError α} (f : α → β) (h : Below x y) :
    Below (x.map f) (y.map f) := by
  rcases h with ⟨e, rfl, he⟩ | rfl
  · exact .inl ⟨e, rfl, he⟩
  · exact .inr rfl

theorem Below.mapM {f g : α → Except SyntaxError β} (h : ∀ a, Below (f a) (g a)) (as : List α) :
    Below (as.mapM f) (as.mapM g) := by
  induction as with
  | nil => exact .refl _
  | cons a as ih =>
    rw [List.mapM_cons, List.mapM_cons]
    exact (h a).bind fun b => ih.bind fun bs => .refl _

def ReaderBelow (r s : TokenReader α) : Prop := ∀ ls, Below (r ls) (s ls)

theorem ReaderBelow.refl (r : TokenReader α) : ReaderBelow r r := fun _ => .refl _

theorem ReaderBelow.trans {r s t : TokenReader α} (h : ReaderBelow r s) (h' : ReaderBelow s t) :
    ReaderBelow r t := fun ls => (h ls).trans (h' ls)

theorem tooDeep_below (r : TokenReader α) : ReaderBelow tooDeep r :=
  fun _ => .inl ⟨_, rfl, rfl⟩

section Combinators

variable {r s : TokenReader Expr}

theorem operands_below (h : ReaderBelow r s) (join? : Joiner) (n : Nat) (left : Expr) :
    ReaderBelow (operands r join? n left) (operands s join? n left) := by
  induction n generalizing left with
  | zero => exact .refl _
  | succ n ih =>
    intro ls
    cases ls with
    | nil => exact .refl _
    | cons l ls =>
      simp only [operands]
      split
      next => exact .refl _
      next join _ => exact (h ls).bind fun x => ih _ x.2

theorem level_below (h : ReaderBelow r s) (join? : Joiner) :
    ReaderBelow (level r join?) (level s join?) :=
  fun ls => (h ls).bind fun x => operands_below h join? _ _ x.2

theorem binaryLevels_below (h : ReaderBelow r s) :
    ReaderBelow (binaryLevels r) (binaryLevels s) := by
  have hfold (js : List Joiner) : ∀ r s : TokenReader Expr, ReaderBelow r s →
      ReaderBelow (js.foldl level r) (js.foldl level s) := by
    induction js with
    | nil => exact fun _ _ h => h
    | cons join? js ih => exact fun _ _ h => ih _ _ (level_below h join?)
  exact hfold _ r s h

theorem conditional_below {unary unary' : TokenReader Expr} (hu : ReaderBelow unary unary')
    (h : ReaderBelow r s) : ReaderBelow (conditional unary r) (conditional unary' s) := by
  intro ls
  refine (binaryLevels_below hu ls).bind fun x => ?_
  dsimp only
  split
  · exact (h _).bind fun y => Below.bind (.refl _) fun z => (h _).bind fun _ => .refl _
  · exact .refl _

theorem items_below {r s : TokenReader α} (h : ReaderBelow r s) (close : Symbol) (n : Nat) :
    ReaderBelow (items r close n) (items s close n) := by
  induction n with
  | zero => exact .refl _
  | succ n ih =>
    intro ls
    simp only [items]
    split
    · exact .refl _
    · refine (h ls).bind fun x => ?_
      split
      · exact (ih _).bind fun _ => .refl _
      · exact .refl _

theorem listUntil_below {r s : TokenReader α} (h : ReaderBelow r s) (close : Symbol)
    (context : String) : ReaderBelow (listUntil r close context) (listUntil s close context) :=
  fun ls => (items_below h close _ ls).bind fun _ => .refl _

theorem entryKey_below (h : ReaderBelow r s) : ReaderBelow (entryKey r) (entryKey s) := by
  intro ls
  cases ls with
  | nil => exact .refl _
  | cons l ls =>
    obtain ⟨t, span⟩ := l
    simp only [entryKey]
    split <;> first | exact .refl _ | exact (h ls).bind fun _ => .refl _

theorem entry_below (h : ReaderBelow r s) : ReaderBelow (entry r) (entry s) := by
  refine fun ls => (entryKey_below h ls).bind fun x => Below.bind ?_ fun _ => .refl _
  unfold entryValue
  split
  · exact .refl _
  · exact Below.bind (.refl _) fun y => h y.2

theorem whole_below (h : ReaderBelow r s) (ls : List Lexeme) : Below (whole r ls) (whole s ls) :=
  (h ls).bind fun _ => .refl _

theorem templatePart_below (h : ReaderBelow r s) (chunk : TemplateChunk) :
    Below (templatePart r chunk) (templatePart s chunk) := by
  cases chunk with
  | text => exact .refl _
  | hole code =>
    simp only [templatePart]
    split
    · exact .refl _
    · exact .refl _
    · exact (whole_below h _).map _

theorem primary_below (h : ReaderBelow r s) : ReaderBelow (primary r) (primary s) := by
  intro ls
  cases ls with
  | nil => exact .refl _
  | cons l ls =>
    obtain ⟨t, span⟩ := l
    cases t with
    | template chunks => exact (Below.mapM (templatePart_below h) chunks).bind fun _ => .refl _
    | keyword k => cases k <;> exact .refl _
    | symbol c =>
      cases c with
      | leftParen => exact (h ls).bind fun _ => .refl _
      | leftBracket => exact (listUntil_below h _ _ ls).bind fun _ => .refl _
      | leftBrace => exact (listUntil_below (entry_below h) _ _ ls).bind fun _ => .refl _
      | _ => exact .refl _
    | _ => exact .refl _

theorem postfixes_below (h : ReaderBelow r s) (n : Nat) (e : Expr) :
    ReaderBelow (postfixes r n e) (postfixes s n e) := by
  induction n generalizing e with
  | zero => exact .refl _
  | succ n ih =>
    intro ls
    cases ls with
    | nil => exact .refl _
    | cons l ls =>
      simp only [postfixes]
      split
      · exact Below.bind (.refl _) fun x => ih _ x.2
      · exact (h ls).bind fun x => Below.bind (.refl _) fun y => ih _ y.2
      · exact (listUntil_below h _ _ ls).bind fun x => ih _ x.2
      · exact .refl _

theorem accessed_below (h : ReaderBelow r s) : ReaderBelow (accessed r) (accessed s) :=
  fun ls => (primary_below h ls).bind fun x => postfixes_below h _ _ x.2

theorem prefixed_none_below (h : ReaderBelow r s) (operand : Option (TokenReader Expr)) :
    ReaderBelow (prefixed none r) (prefixed operand s) := by
  intro ls
  cases ls with
  | nil => exact accessed_below h []
  | cons l ls =>
    cases hop : unaryOp? l.token with
    | none => simpa only [prefixed, hop] using accessed_below h (l :: ls)
    | some op =>
      simp only [prefixed, hop]
      exact .inl ⟨_, rfl, rfl⟩

theorem prefixed_below {operand operand' : TokenReader Expr} (ho : ReaderBelow operand operand')
    (h : ReaderBelow r s) :
    ReaderBelow (prefixed (some operand) r) (prefixed (some operand') s) := by
  intro ls
  cases ls with
  | nil => exact accessed_below h []
  | cons l ls =>
    cases hop : unaryOp? l.token with
    | none => simpa only [prefixed, hop] using accessed_below h (l :: ls)
    | some op => simpa only [prefixed, hop] using (ho ls).bind fun _ => .refl _

end Combinators

theorem expression_unary_below_succ (budget : Nat) :
    ReaderBelow (expression budget) (expression (budget + 1)) ∧
      ReaderBelow (unary budget) (unary (budget + 1)) := by
  induction budget with
  | zero =>
    have hzero : ReaderBelow (expression 0) (expression 1) := by
      rw [expression]
      exact tooDeep_below _
    refine ⟨hzero, ?_⟩
    rw [unary_zero, unary_succ]
    exact prefixed_none_below hzero _
  | succ budget ih =>
    have hsucc : ReaderBelow (expression (budget + 1)) (expression (budget + 2)) := by
      rw [expression_succ, expression_succ]
      exact conditional_below ih.2 ih.1
    refine ⟨hsucc, ?_⟩
    rw [unary_succ, unary_succ]
    exact prefixed_below ih.2 hsucc

theorem expression_below {budget budget' : Nat} (h : budget ≤ budget') :
    ReaderBelow (expression budget) (expression budget') := by
  induction h with
  | refl => exact .refl _
  | step _ ih => exact ih.trans (expression_unary_below_succ _).1

end Grammar

namespace Expr

open Grammar Phrases

theorem exists_whole_of_expression {budget : Nat} {ls : List Lexeme} {e : Expr}
    (h : Expression budget (spelling ls) e) :
    ∃ a, whole (Grammar.expression budget) ls = .ok a ∧ a.erase = e :=
  whole_complete (expression_unary_complete budget).1 h

/-- A spelling within some budget is read as what it spells, or refused for its nesting. -/
theorem ofTokens_of_expression {budget : Nat} {ls : List Lexeme} {e : Expr}
    (h : Expression budget (spelling ls) e) :
    (∃ fault, ofTokens ls = .error fault ∧ fault.IsNestingLimit) ∨
      ∃ a, ofTokens ls = .ok a ∧ a.erase = e := by
  obtain ⟨a, ha, rfl⟩ := exists_whole_of_expression h
  -- only with less than the budget of the spelling can the reader stop early
  rcases Nat.le_total maxNesting budget with hle | hle
  · rcases whole_below (expression_below hle) ls with hlimit | heq
    · exact .inl hlimit
    · exact .inr ⟨a, heq.trans ha, rfl⟩
  · rcases whole_below (expression_below hle) ls with ⟨fault, hf, -⟩ | heq
    · rw [ha] at hf
      cases hf
    · exact .inr ⟨a, heq.symm.trans ha, rfl⟩

theorem ofTokens_eq_ok_of_expression {budget : Nat} (hle : budget ≤ maxNesting) {ls : List Lexeme}
    {e : Expr} (h : Expression budget (spelling ls) e) :
    ∃ a, ofTokens ls = .ok a ∧ a.erase = e := by
  obtain ⟨a, ha, rfl⟩ := exists_whole_of_expression h
  rcases whole_below (expression_below hle) ls with ⟨fault, hf, -⟩ | heq
  · rw [ha] at hf
    cases hf
  · exact ⟨a, heq.symm.trans ha, rfl⟩

end Expr

end JsonStencil
