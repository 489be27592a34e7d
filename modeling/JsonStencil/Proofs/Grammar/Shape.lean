import JsonStencil.Proofs.Grammar.Phrases

/-!
# What all spellings have in common

A larger budget keeps every spelling. The braces of a spelling are balanced, and the code in its
template literals is again a spelling, of a smaller budget.
-/

namespace JsonStencil

namespace Phrases

variable {α : Type}

/-- Every spelling of the first language is one of the second, of the same thing. -/
def Included (L M : Phrases α) : Prop := ∀ ⦃ts a⦄, L ts a → M ts a

theorem Included.refl (L : Phrases α) : Included L L := fun _ _ h => h

theorem nothing_included (L : Phrases Expr) : Included Nothing L := fun _ _ h => h.elim

theorem chain_included {L M : Phrases Expr} (h : Included L M) (join? : Grammar.Joiner) :
    Included (Chain L join?) (Chain M join?) := by
  intro ts e hL
  induction hL with
  | operand hL => exact .operand (h hL)
  | join _ hf hL ih => exact .join ih hf (h hL)

theorem levels_included {L M : Phrases Expr} (h : Included L M) :
    Included (Levels L) (Levels M) := by
  have hfold (js : List Grammar.Joiner) : ∀ L M : Phrases Expr, Included L M →
      Included (js.foldl Chain L) (js.foldl Chain M) := by
    induction js with
    | nil => exact fun _ _ h => h
    | cons join? js ih => exact fun _ _ h => ih _ _ (chain_included h join?)
  exact hfold _ L M h

theorem conditional_included {C C' B B' : Phrases Expr} (hc : Included C C')
    (hb : Included B B') : Included (Conditional C B) (Conditional C' B') := by
  intro ts e h
  cases h with
  | condition h => exact .condition (hc h)
  | choice h hx hy => exact .choice (hc h) (hb hx) (hb hy)

theorem separated_included {L M : Phrases α} (h : Included L M) :
    Included (Separated L) (Separated M) := by
  intro ts as hL
  induction hL with
  | nil => exact .nil
  | single hL => exact .single (h hL)
  | cons hL _ ih => exact .cons (h hL) ih

section Sub

variable {S T : Phrases Expr}

theorem entry_included (h : Included S T) : Included (Entry S) (Entry T) := by
  intro ts x hx
  cases hx with
  | shorthand name => exact .shorthand name
  | named hk he => exact .named hk (h he)
  | computed hk he => exact .computed (h hk) (h he)

theorem chunks_included (h : Included S T) {chunks : List TemplateChunk} {parts : List (Part Expr)}
    (hparts : Chunks S chunks parts) : Chunks T chunks parts := by
  induction hparts with
  | nil => exact .nil
  | text s _ ih => exact .text s ih
  | code hls he _ ih => exact .code hls (h he) ih

theorem primary_included (h : Included S T) : Included (Primary S) (Primary T) := by
  intro ts e he
  cases he with
  | null => exact .null
  | true => exact .true
  | false => exact .false
  | number x => exact .number x
  | string s => exact .string s
  | identifier name => exact .identifier name
  | template hparts => exact .template (chunks_included h hparts)
  | group he => exact .group (h he)
  | array hes => exact .array (separated_included h hes)
  | object hes => exact .object (separated_included (entry_included h) hes)

theorem accessed_included (h : Included S T) : Included (Accessed S) (Accessed T) := by
  intro ts e he
  induction he with
  | primary he => exact .primary (primary_included h he)
  | member _ hname ih => exact .member ih hname
  | index _ hp ih => exact .index ih (h hp)
  | call _ hargs ih => exact .call ih (separated_included h hargs)

theorem prefixed_included {O P : Phrases Expr} (ho : Included O P) (h : Included S T) :
    Included (Prefixed O S) (Prefixed P T) := by
  intro ts e he
  cases he with
  | accessed he => exact .accessed (accessed_included h he)
  | operator hop he => exact .operator hop (ho he)

end Sub

theorem expression_unary_included_succ (budget : Nat) :
    Included (Expression budget) (Expression (budget + 1)) ∧
      Included (Unary budget) (Unary (budget + 1)) := by
  induction budget with
  | zero =>
    have hzero : Included (Expression 0) (Expression 1) := by
      rw [Expression]
      exact nothing_included _
    refine ⟨hzero, ?_⟩
    rw [unary_zero, unary_succ]
    exact prefixed_included (nothing_included _) hzero
  | succ budget ih =>
    have hsucc : Included (Expression (budget + 1)) (Expression (budget + 2)) := by
      rw [expression_succ, expression_succ]
      exact conditional_included (levels_included ih.2) ih.1
    refine ⟨hsucc, ?_⟩
    rw [unary_succ, unary_succ]
    exact prefixed_included ih.2 hsucc

theorem expression_included {budget budget' : Nat} (h : budget ≤ budget') :
    Included (Expression budget) (Expression budget') := by
  induction h with
  | refl => exact .refl _
  | step _ ih => exact fun _ _ he => (expression_unary_included_succ _).1 (ih he)

theorem unary_included {budget budget' : Nat} (h : budget ≤ budget') :
    Included (Unary budget) (Unary budget') := by
  induction h with
  | refl => exact .refl _
  | step _ ih => exact fun _ _ he => (expression_unary_included_succ _).2 (ih he)

theorem expression_of_unary {budget : Nat} : Included (Unary budget) (Expression (budget + 1)) := by
  intro ts e h
  rw [expression_succ]
  exact .condition (levels_induction (motive := fun L => L ts e) h fun _ _ _ h => .operand h)

theorem unary_of_accessed {budget : Nat} :
    Included (Accessed (Expression budget)) (Unary budget) := by
  intro ts e h
  cases budget with
  | zero => exact unary_zero ▸ .accessed h
  | succ budget => exact unary_succ budget ▸ .accessed h

theorem expression_of_accessed {budget : Nat} :
    Included (Accessed (Expression budget)) (Expression (budget + 1)) :=
  fun _ _ h => expression_of_unary (unary_of_accessed h)

theorem expression_of_primary {budget : Nat} :
    Included (Primary (Expression budget)) (Expression (budget + 1)) :=
  fun _ _ h => expression_of_accessed (.primary h)

end Phrases

/-- The number of open braces behind tokens, nothing when one closes that was not opened. -/
def openBraces? : Nat → List Token → Option Nat
  | opened, [] => some opened
  | opened, .symbol .leftBrace :: ts => openBraces? (opened + 1) ts
  | 0, .symbol .rightBrace :: _ => none
  | opened + 1, .symbol .rightBrace :: ts => openBraces? opened ts
  | opened, _ :: ts => openBraces? opened ts

theorem openBraces?_append {opened opened' : Nat} {ts us : List Token}
    (h : openBraces? opened ts = some opened') :
    openBraces? opened (ts ++ us) = openBraces? opened' us := by
  fun_induction openBraces? opened ts with
  | case1 => cases h; rfl
  | case2 opened ts ih => exact ih h
  | case3 => cases h
  | case4 opened ts ih => exact ih h
  | case5 opened t ts hl h0 hr ih =>
    rw [List.cons_append, openBraces?, ih h] <;> assumption

theorem openBraces?_cons {opened opened' : Nat} {t : Token} {ts : List Token}
    (h : openBraces? opened (t :: ts) = some opened') :
    ∃ mid, openBraces? opened [t] = some mid ∧ openBraces? mid ts = some opened' := by
  cases t with
  | symbol s =>
    cases s with
    | leftBrace => exact ⟨_, rfl, h⟩
    | rightBrace =>
      cases opened with
      | zero => cases h
      | succ opened => exact ⟨_, rfl, h⟩
    | _ => exact ⟨_, rfl, h⟩
  | _ => exact ⟨_, rfl, h⟩

/-- A token that is no brace, no round bracket and no template literal. -/
def Token.Plain : Token → Prop
  | .symbol .leftBrace | .symbol .rightBrace | .symbol .leftParen | .symbol .rightParen
  | .template _ => False
  | _ => True

/-- A property of token lists that plain tokens have, and that stays when lists stand side by side
or in brackets. -/
structure Nests (P : List Token → Prop) : Prop where
  nil : P []
  single : ∀ ⦃t : Token⦄, t.Plain → P [t]
  append : ∀ ⦃ts us⦄, P ts → P us → P (ts ++ us)
  round : ∀ ⦃ts⦄, P ts → P (.symbol .leftParen :: (ts ++ [.symbol .rightParen]))
  braces : ∀ ⦃ts⦄, P ts → P (.symbol .leftBrace :: (ts ++ [.symbol .rightBrace]))

namespace Nests

variable {P : List Token → Prop}

theorem cons (hP : Nests P) {t : Token} (ht : t.Plain) {ts : List Token} (h : P ts) : P (t :: ts) :=
  hP.append (hP.single ht) h

theorem square (hP : Nests P) {ts : List Token} (h : P ts) :
    P (.symbol .leftBracket :: (ts ++ [.symbol .rightBracket])) :=
  hP.cons (by trivial) (hP.append h (hP.single (by trivial)))

end Nests

/-- Tokens with balanced braces and code of a certain kind in their template literals. -/
structure Enclosed (code : String → Prop) (ts : List Token) : Prop where
  balanced : ∀ opened, openBraces? opened ts = some opened
  code : ∀ chunks, .template chunks ∈ ts → ∀ c, .hole c ∈ chunks → code c.source

namespace Enclosed

variable {code : String → Prop}

theorem append {ts us : List Token} (h : Enclosed code ts) (h' : Enclosed code us) :
    Enclosed code (ts ++ us) where
  balanced opened := (openBraces?_append (h.balanced opened)).trans (h'.balanced opened)
  code chunks hmem := (List.mem_append.1 hmem).elim (h.code chunks) (h'.code chunks)

theorem mono {code' : String → Prop} (hcode : ∀ source, code source → code' source)
    {ts : List Token} (h : Enclosed code ts) : Enclosed code' ts :=
  ⟨h.balanced, fun chunks hmem c hc => hcode _ (h.code chunks hmem c hc)⟩

theorem template {chunks : List TemplateChunk} (h : ∀ c, .hole c ∈ chunks → code c.source) :
    Enclosed code [.template chunks] :=
  ⟨fun _ => rfl, fun _ hmem => by cases List.mem_singleton.1 hmem; exact h⟩

theorem bracket {s : Symbol} (hl : s ≠ .leftBrace) (hr : s ≠ .rightBrace) :
    Enclosed code [.symbol s] where
  balanced opened := by cases s <;> first | exact absurd rfl hl | exact absurd rfl hr | rfl
  code chunks hmem := by cases List.mem_singleton.1 hmem

theorem single {t : Token} (ht : t.Plain) : Enclosed code [t] where
  balanced opened := by
    cases t with
    | symbol s => cases s <;> first | exact ht.elim | rfl
    | _ => rfl
  code chunks hmem := by
    obtain rfl := List.mem_singleton.1 hmem
    exact ht.elim

theorem round {ts : List Token} (h : Enclosed code ts) :
    Enclosed code (.symbol .leftParen :: (ts ++ [.symbol .rightParen])) :=
  (bracket (by decide) (by decide)).append (h.append (bracket (by decide) (by decide)))

theorem braces {ts : List Token} (h : Enclosed code ts) :
    Enclosed code (.symbol .leftBrace :: (ts ++ [.symbol .rightBrace])) where
  balanced opened := by
    rw [openBraces?, openBraces?_append (h.balanced _)]
    rfl
  code chunks hmem := by
    have hts : .template chunks ∈ ts := by simpa using hmem
    exact h.code chunks hts

theorem nests (code : String → Prop) : Nests (Enclosed code) where
  nil := ⟨fun _ => rfl, fun _ h => by cases h⟩
  single _ := single
  append _ _ := append
  round _ := round
  braces _ := braces

end Enclosed

namespace Phrases

variable {α : Type} {P : List Token → Prop}

/-- Every spelling of the language has the property. -/
def Ensures (P : List Token → Prop) (L : Phrases α) : Prop := ∀ ⦃ts a⦄, L ts a → P ts

theorem nothing_ensures : Ensures P Nothing := fun _ _ h => h.elim

theorem chain_ensures (hP : Nests P) {operand : Phrases Expr} (h : Ensures P operand)
    {join? : Grammar.Joiner} (hj : ∀ t, (join? t).isSome → t.Plain) :
    Ensures P (Chain operand join?) := by
  intro ts e he
  induction he with
  | operand he => exact h he
  | join _ hf he ih => exact hP.append ih (hP.cons (hj _ (by simp [hf])) (h he))

theorem plain_of_mem_joiners {join? : Grammar.Joiner} (h : join? ∈ Grammar.joiners) {t : Token}
    (ht : (join? t).isSome) : t.Plain := by
  simp only [Grammar.joiners, List.mem_cons, List.not_mem_nil, or_false] at h
  cases t with
  | symbol s =>
    cases s with
    | leftBrace | rightBrace | leftParen | rightParen =>
      rcases h with rfl | rfl | rfl | rfl | rfl | rfl | rfl <;> cases ht
    | _ => trivial
  | template chunks => rcases h with rfl | rfl | rfl | rfl | rfl | rfl | rfl <;> cases ht
  | _ => trivial

theorem levels_ensures (hP : Nests P) {unary : Phrases Expr} (h : Ensures P unary) :
    Ensures P (Levels unary) :=
  levels_induction h fun _ _ hj h => chain_ensures hP h fun _ => plain_of_mem_joiners hj

theorem conditional_ensures (hP : Nests P) {condition branch : Phrases Expr}
    (hc : Ensures P condition) (hb : Ensures P branch) :
    Ensures P (Conditional condition branch) := by
  intro ts e he
  cases he with
  | condition he => exact hc he
  | choice he hx hy =>
    exact hP.append (hc he)
      (hP.cons (by trivial) (hP.append (hb hx) (hP.cons (by trivial) (hb hy))))

theorem separated_ensures (hP : Nests P) {item : Phrases α} (h : Ensures P item) :
    Ensures P (Separated item) := by
  intro ts as hs
  induction hs with
  | nil => exact hP.nil
  | single ha => exact h ha
  | cons ha _ ih => exact hP.append (h ha) (hP.cons (by trivial) ih)

theorem plain_of_keyName? {t : Token} {name : String} (h : keyName? t = some name) : t.Plain := by
  cases t with
  | symbol s => cases h
  | template chunks => cases h
  | _ => trivial

theorem plain_of_memberName? {t : Token} {name : String} (h : memberName? t = some name) :
    t.Plain := by
  cases t with
  | symbol s => cases h
  | template chunks => cases h
  | _ => trivial

theorem plain_of_unaryOp? {t : Token} {op : UnaryOp} (h : Grammar.unaryOp? t = some op) :
    t.Plain := by
  cases t with
  | symbol s => cases s <;> trivial
  | template chunks => cases h
  | _ => trivial

section Sub

variable {S : Phrases Expr}

theorem entry_ensures (hP : Nests P) (h : Ensures P S) : Ensures P (Entry S) := by
  intro ts x hx
  cases hx with
  | shorthand name => exact hP.single (by trivial)
  | named hk he => exact hP.cons (plain_of_keyName? hk) (hP.cons (by trivial) (h he))
  | computed hk he =>
    refine hP.cons (by trivial) (hP.append (h hk) ?_)
    exact hP.cons (by trivial) (hP.cons (by trivial) (h he))

theorem chunks_code {code : String → Prop}
    (hcode : ∀ source ls e, tokenize source = .ok ls → S (spelling ls) e → code source)
    {chunks : List TemplateChunk} {parts : List (Part Expr)} (h : Chunks S chunks parts) :
    ∀ c, .hole c ∈ chunks → code c.source := by
  induction h with
  | nil =>
    intro c hc
    cases hc
  | text s _ ih =>
    intro c hc
    exact ih c (by simpa using hc)
  | code hls he _ ih =>
    intro c hc
    rcases List.mem_cons.1 hc with heq | hc
    · cases heq
      exact hcode _ _ _ hls he
    · exact ih c hc

/-- What the code of a template literal makes of it. -/
def EnsuresCode (P : List Token → Prop) (S : Phrases Expr) : Prop :=
  ∀ ⦃chunks parts⦄, Chunks S chunks parts → P [.template chunks]

theorem primary_ensures (hP : Nests P) (hcode : EnsuresCode P S) (h : Ensures P S) :
    Ensures P (Primary S) := by
  intro ts e he
  cases he with
  | template hparts => exact hcode hparts
  | group he => exact hP.round (h he)
  | array hes => exact hP.square (separated_ensures hP h hes)
  | object hes => exact hP.braces (separated_ensures hP (entry_ensures hP h) hes)
  | _ => exact hP.single (by trivial)

theorem accessed_ensures (hP : Nests P) (hcode : EnsuresCode P S) (h : Ensures P S) :
    Ensures P (Accessed S) := by
  intro ts e he
  induction he with
  | primary he => exact primary_ensures hP hcode h he
  | member _ hname ih =>
    exact hP.append ih (hP.cons (by trivial) (hP.single (plain_of_memberName? hname)))
  | index _ hp ih => exact hP.append ih (hP.square (h hp))
  | call _ hargs ih => exact hP.append ih (hP.round (separated_ensures hP h hargs))

theorem prefixed_ensures (hP : Nests P) {operand : Phrases Expr} (ho : Ensures P operand)
    (hcode : EnsuresCode P S) (h : Ensures P S) : Ensures P (Prefixed operand S) := by
  intro ts e he
  cases he with
  | accessed he => exact accessed_ensures hP hcode h he
  | operator hop he => exact hP.cons (plain_of_unaryOp? hop) (ho he)

end Sub

/-- A property that template literals have, too, is one of all spellings. -/
theorem expression_unary_ensures (hP : Nests P) (htemplate : ∀ chunks, P [.template chunks])
    (budget : Nat) : Ensures P (Expression budget) ∧ Ensures P (Unary budget) := by
  have hcode (S : Phrases Expr) : EnsuresCode P S := fun chunks _ _ => htemplate chunks
  induction budget with
  | zero =>
    have hzero : Ensures P (Expression 0) := by
      rw [Expression]
      exact nothing_ensures
    refine ⟨hzero, ?_⟩
    rw [unary_zero]
    exact prefixed_ensures hP nothing_ensures (hcode _) hzero
  | succ budget ih =>
    have hsucc : Ensures P (Expression (budget + 1)) := by
      rw [expression_succ]
      exact conditional_ensures hP (levels_ensures hP ih.2) ih.1
    refine ⟨hsucc, ?_⟩
    rw [unary_succ]
    exact prefixed_ensures hP ih.2 (hcode _) hsucc

/-- A source of an expression within a budget. -/
def IsCode (budget : Nat) (source : String) : Prop :=
  ∃ ls e, tokenize source = .ok ls ∧ Expression budget (spelling ls) e

theorem IsCode.mono {budget budget' : Nat} (h : budget ≤ budget') {source : String}
    (hcode : IsCode budget source) : IsCode budget' source := by
  obtain ⟨ls, e, hls, he⟩ := hcode
  exact ⟨ls, e, hls, expression_included h he⟩

theorem ensuresCode_isCode (budget : Nat) :
    EnsuresCode (Enclosed (IsCode budget)) (Expression budget) :=
  fun _ _ h => .template (chunks_code (fun _ ls e hls he => ⟨ls, e, hls, he⟩) h)

/-- The code in an expression has less budget than the expression. -/
theorem expression_unary_encloses (budget : Nat) :
    Ensures (Enclosed (IsCode budget)) (Expression (budget + 1)) ∧
      Ensures (Enclosed (IsCode budget)) (Unary budget) := by
  induction budget with
  | zero =>
    have hzero : Ensures (Enclosed (IsCode 0)) (Expression 0) := by
      rw [Expression]
      exact nothing_ensures
    have hunary : Ensures (Enclosed (IsCode 0)) (Unary 0) := by
      rw [unary_zero]
      exact prefixed_ensures (Enclosed.nests _) nothing_ensures (ensuresCode_isCode 0) hzero
    refine ⟨?_, hunary⟩
    rw [expression_succ]
    exact conditional_ensures (Enclosed.nests _) (levels_ensures (Enclosed.nests _) hunary) hzero
  | succ budget ih =>
    -- operands and branches enclose code of even less budget
    have hmono {ts : List Token} (h : Enclosed (IsCode budget) ts) :
        Enclosed (IsCode (budget + 1)) ts :=
      h.mono fun _ => IsCode.mono (Nat.le_succ _)
    have hunary : Ensures (Enclosed (IsCode (budget + 1))) (Unary (budget + 1)) := by
      rw [unary_succ]
      exact prefixed_ensures (Enclosed.nests _) (fun _ _ h => hmono (ih.2 h))
        (ensuresCode_isCode (budget + 1)) fun _ _ h => hmono (ih.1 h)
    refine ⟨?_, hunary⟩
    rw [expression_succ]
    exact conditional_ensures (Enclosed.nests _) (levels_ensures (Enclosed.nests _) hunary)
      fun _ _ h => hmono (ih.1 h)

end Phrases

end JsonStencil
