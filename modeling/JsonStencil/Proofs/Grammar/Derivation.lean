import JsonStencil.Proofs.Grammar.Budget
import JsonStencil.Proofs.Grammar.Shape
import Mathlib.Data.List.Forall2

/-!
# Derivations

The rules of the grammar, with the nesting of each derivation: the greatest number of full
expressions and prefix operators around one of its tokens. A full expression in the code of a
template literal lies inside of those around the literal. What derives within a nesting is the
language of that budget, so the parser accepts a list of tokens just when it derives within the
nesting limit, and no list of tokens derives two trees.
-/

namespace JsonStencil

namespace Derivation

open Grammar (Joiner joinNullish joinOr joinAnd joinEquality joinComparison joinSum joinProduct
  joiners unaryOp?)
open Phrases (keyName? memberName? Included Chain Levels Separated Nothing Expression Unary)

/-- What stands between two operands. -/
inductive Connective where
  | binary (op : BinaryOp)
  | logical (op : LogicalOp)

def Connective.join : Connective → Expr → Expr → Expr
  | .binary op => .joinBinary op
  | .logical op => .joinLogical op

/-- Symbols that bind alike, each with what it stands for. -/
abbrev Tier := List (Symbol × Connective)

/-- The tiers of operators, the loosest in front. -/
def tiers : List Tier :=
  [[(.questionQuestion, .logical .nullish)],
   [(.orOr, .logical .or)],
   [(.andAnd, .logical .and)],
   [(.equal, .binary .equal), (.strictEqual, .binary .equal),
    (.notEqual, .binary .notEqual), (.strictNotEqual, .binary .notEqual)],
   [(.less, .binary .less), (.lessEqual, .binary .lessEqual),
    (.greater, .binary .greater), (.greaterEqual, .binary .greaterEqual)],
   [(.plus, .binary .add), (.minus, .binary .sub)],
   [(.star, .binary .mul), (.slash, .binary .div), (.percent, .binary .rem)]]

mutual

/-- A full expression, which is a conditional or what its condition may be. -/
inductive Full : Nat → Phrases Expr
  | condition {n : Nat} {ts : List Token} {e : Expr} :
      Tiered tiers n ts e → Full (n + 1) ts e
  | choice {n m k : Nat} {ts us vs : List Token} {e onTrue onFalse : Expr} :
      Tiered tiers n ts e → Full m us onTrue → Full k vs onFalse →
      Full (max n (max m k) + 1) (ts ++ .symbol .question :: (us ++ .symbol .colon :: vs))
        (.conditional e onTrue onFalse .blank)

/-- Operands of the tighter tiers joined from the left, and prefix expressions below all tiers. -/
inductive Tiered : List Tier → Nat → Phrases Expr
  | tightest {n : Nat} {ts : List Token} {e : Expr} : Prefixed n ts e → Tiered [] n ts e
  | operand {tier : Tier} {tighter : List Tier} {n : Nat} {ts : List Token} {e : Expr} :
      Tiered tighter n ts e → Tiered (tier :: tighter) n ts e
  | join {tier : Tier} {tighter : List Tier} {n m : Nat} {ts us : List Token} {s : Symbol}
      {c : Connective} {left right : Expr} :
      Tiered (tier :: tighter) n ts left → (s, c) ∈ tier → Tiered tighter m us right →
      Tiered (tier :: tighter) (max n m) (ts ++ .symbol s :: us) (c.join left right)

inductive Prefixed : Nat → Phrases Expr
  | accessed {n : Nat} {ts : List Token} {e : Expr} : Accessed n ts e → Prefixed n ts e
  | operator {n : Nat} {t : Token} {ts : List Token} {op : UnaryOp} {e : Expr} :
      unaryOp? t = some op → Prefixed n ts e → Prefixed (n + 1) (t :: ts) (.unary op e .blank)

/-- A primary expression with accesses and calls behind it. -/
inductive Accessed : Nat → Phrases Expr
  | primary {n : Nat} {ts : List Token} {e : Expr} : Primary n ts e → Accessed n ts e
  | member {n : Nat} {ts : List Token} {t : Token} {owner : Expr} {name : String} :
      Accessed n ts owner → memberName? t = some name →
      Accessed n (ts ++ [.symbol .dot, t]) (.member owner name .blank)
  | index {n m : Nat} {ts us : List Token} {owner position : Expr} :
      Accessed n ts owner → Full m us position →
      Accessed (max n m) (ts ++ .symbol .leftBracket :: (us ++ [.symbol .rightBracket]))
        (.index owner position .blank)
  | call {n m : Nat} {ts us : List Token} {callee : Expr} {args : List Expr} :
      Accessed n ts callee → Items m us args →
      Accessed (max n m) (ts ++ .symbol .leftParen :: (us ++ [.symbol .rightParen]))
        (.call callee args .blank)

inductive Primary : Nat → Phrases Expr
  | null : Primary 0 [.keyword .null] (.null .blank)
  | true : Primary 0 [.keyword .true] (.bool true .blank)
  | false : Primary 0 [.keyword .false] (.bool false .blank)
  | number (x : Binary64) : Primary 0 [.number x] (.number x .blank)
  | string (s : String) : Primary 0 [.string s] (.string s .blank)
  | identifier (name : String) : Primary 0 [.identifier name] (.identifier name .blank)
  | template {n : Nat} {chunks : List TemplateChunk} {parts : List (Part Expr)} :
      Chunks n chunks parts → Primary n [.template chunks] (.template parts .blank)
  | group {n : Nat} {ts : List Token} {e : Expr} :
      Full n ts e → Primary n (.symbol .leftParen :: (ts ++ [.symbol .rightParen])) e
  | array {n : Nat} {ts : List Token} {items : List Expr} :
      Items n ts items →
      Primary n (.symbol .leftBracket :: (ts ++ [.symbol .rightBracket])) (.array items .blank)
  | object {n : Nat} {ts : List Token} {entries : List (ObjectEntry Expr)} :
      Entries n ts entries →
      Primary n (.symbol .leftBrace :: (ts ++ [.symbol .rightBrace])) (.object entries .blank)

/-- Items with commas between them. A comma may follow the last one. -/
inductive Items : Nat → Phrases (List Expr)
  | nil : Items 0 [] []
  | single {n : Nat} {ts : List Token} {e : Expr} : Full n ts e → Items n ts [e]
  | cons {n m : Nat} {ts us : List Token} {e : Expr} {es : List Expr} :
      Full n ts e → Items m us es → Items (max n m) (ts ++ .symbol .comma :: us) (e :: es)

inductive Entry : Nat → Phrases (ObjectEntry Expr)
  | shorthand (name : String) :
      Entry 0 [.identifier name] ⟨.named name, .identifier name .blank, .blank⟩
  | named {n : Nat} {t : Token} {ts : List Token} {name : String} {e : Expr} :
      keyName? t = some name → Full n ts e →
      Entry n (t :: .symbol .colon :: ts) ⟨.named name, e, .blank⟩
  | computed {n m : Nat} {ks ts : List Token} {k e : Expr} :
      Full n ks k → Full m ts e →
      Entry (max n m)
        (.symbol .leftBracket :: (ks ++ .symbol .rightBracket :: .symbol .colon :: ts))
        ⟨.computed k, e, .blank⟩

inductive Entries : Nat → Phrases (List (ObjectEntry Expr))
  | nil : Entries 0 [] []
  | single {n : Nat} {ts : List Token} {entry : ObjectEntry Expr} :
      Entry n ts entry → Entries n ts [entry]
  | cons {n m : Nat} {ts us : List Token} {entry : ObjectEntry Expr}
      {entries : List (ObjectEntry Expr)} :
      Entry n ts entry → Entries m us entries →
      Entries (max n m) (ts ++ .symbol .comma :: us) (entry :: entries)

/-- The chunks of a template literal, whose code is a source of its own. -/
inductive Chunks : Nat → List TemplateChunk → List (Part Expr) → Prop
  | nil : Chunks 0 [] []
  | text {n : Nat} {chunks : List TemplateChunk} {parts : List (Part Expr)} (s : String) :
      Chunks n chunks parts → Chunks n (.text s :: chunks) (.text s :: parts)
  | code {n m : Nat} {chunks : List TemplateChunk} {parts : List (Part Expr)} {code : CodeText}
      {ls : List Lexeme} {e : Expr} :
      tokenize code.source = .ok ls → Full n (spelling ls) e → Chunks m chunks parts →
      Chunks (max n m) (.hole code :: chunks) (.hole e :: parts)

end

/-- The reader of a tier joins at its symbols and at no other token. -/
def Reads (tier : Tier) (join? : Joiner) : Prop :=
  ∀ t f, join? t = some f ↔ ∃ s c, t = .symbol s ∧ (s, c) ∈ tier ∧ c.join = f

theorem joiner_eq_none {join? : Joiner} (h : join? ∈ joiners) {t : Token}
    (ht : ∀ s, t ≠ .symbol s) : join? t = none := by
  simp only [joiners, List.mem_cons, List.not_mem_nil, or_false] at h
  cases t with
  | symbol s => exact (ht s rfl).elim
  | _ => rcases h with rfl | rfl | rfl | rfl | rfl | rfl | rfl <;> rfl

theorem reads_of_symbols {tier : Tier} {join? : Joiner} (h : join? ∈ joiners)
    (hsymbols : ∀ s f, join? (.symbol s) = some f ↔ ∃ c, (s, c) ∈ tier ∧ c.join = f) :
    Reads tier join? := by
  intro t f
  by_cases ht : ∃ s, t = .symbol s
  · obtain ⟨s, rfl⟩ := ht
    simp [hsymbols]
  · have hother : ∀ s, t ≠ .symbol s := fun s h => ht ⟨s, h⟩
    simp [joiner_eq_none h hother, hother]

theorem reads_joiners : List.Forall₂ Reads tiers joiners.reverse := by
  have hall : joiners.reverse = [joinNullish, joinOr, joinAnd, joinEquality, joinComparison,
    joinSum, joinProduct] := rfl
  rw [hall, tiers]
  simp only [List.forall₂_cons, List.forall₂_nil_left_iff, and_true]
  refine ⟨?_, ?_, ?_, ?_, ?_, ?_, ?_⟩ <;>
    refine reads_of_symbols (by simp [joiners]) fun s f => ?_ <;>
    cases s <;>
    simp [joinNullish, joinOr, joinAnd, joinEquality, joinComparison, joinSum, joinProduct,
      Connective.join]

/-- The language of some levels of operators over that of their operands. -/
def Stacked (levels : List Joiner) (unary : Phrases Expr) : Phrases Expr :=
  levels.foldr (fun join? L => Chain L join?) unary

theorem levels_eq_stacked (unary : Phrases Expr) : Levels unary = Stacked joiners.reverse unary :=
  rfl

theorem stacked_included {L M : Phrases Expr} (h : Included L M) (levels : List Joiner) :
    Included (Stacked levels L) (Stacked levels M) := by
  induction levels with
  | nil => exact h
  | cons join? levels ih => exact Phrases.chain_included ih join?

mutual

/-- What derives with a nesting is in the language of that budget. -/
theorem Full.expression {n : Nat} {ts : List Token} {e : Expr} : Full n ts e → Expression n ts e
  | .condition h => by
    rw [Phrases.expression_succ]
    exact .condition (h.stacked reads_joiners)
  | @Full.choice n m k _ _ _ _ _ _ hc hx hy => by
    have hm : m ≤ max n (max m k) := Nat.le_trans (Nat.le_max_left m k) (Nat.le_max_right n _)
    have hk : k ≤ max n (max m k) := Nat.le_trans (Nat.le_max_right m k) (Nat.le_max_right n _)
    rw [Phrases.expression_succ]
    exact .choice
      (stacked_included (Phrases.unary_included (Nat.le_max_left _ _)) _ (hc.stacked reads_joiners))
      (Phrases.expression_included hm hx.expression)
      (Phrases.expression_included hk hy.expression)

theorem Tiered.stacked {tiers : List Tier} {n : Nat} {ts : List Token} {e : Expr} :
    Tiered tiers n ts e → ∀ {levels : List Joiner}, List.Forall₂ Reads tiers levels →
      Stacked levels (Unary n) ts e
  | .tightest h, _, .nil => h.unary
  | .operand h, _, .cons _ hlevels => .operand (h.stacked hlevels)
  | .join hl hs hr, _, .cons hreads hlevels =>
    .join (stacked_included (Phrases.unary_included (Nat.le_max_left _ _)) _
        (hl.stacked (.cons hreads hlevels)))
      ((hreads _ _).2 ⟨_, _, rfl, hs, rfl⟩)
      (stacked_included (Phrases.unary_included (Nat.le_max_right _ _)) _ (hr.stacked hlevels))

theorem Prefixed.unary {n : Nat} {ts : List Token} {e : Expr} : Prefixed n ts e → Unary n ts e
  | .accessed h => Phrases.unary_of_accessed h.language
  | .operator hop h => by
    rw [Phrases.unary_succ]
    exact .operator hop h.unary

theorem Accessed.language {n : Nat} {ts : List Token} {e : Expr} :
    Accessed n ts e → Phrases.Accessed (Expression n) ts e
  | .primary h => .primary h.language
  | .member h hname => .member h.language hname
  | .index h hp =>
    .index
      (Phrases.accessed_included (Phrases.expression_included (Nat.le_max_left _ _)) h.language)
      (Phrases.expression_included (Nat.le_max_right _ _) hp.expression)
  | .call h hargs =>
    .call
      (Phrases.accessed_included (Phrases.expression_included (Nat.le_max_left _ _)) h.language)
      (Phrases.separated_included (Phrases.expression_included (Nat.le_max_right _ _))
        hargs.language)

theorem Primary.language {n : Nat} {ts : List Token} {e : Expr} :
    Primary n ts e → Phrases.Primary (Expression n) ts e
  | .null => .null
  | .true => .true
  | .false => .false
  | .number x => .number x
  | .string s => .string s
  | .identifier name => .identifier name
  | .template h => .template h.language
  | .group h => .group h.expression
  | .array h => .array h.language
  | .object h => .object h.language

theorem Items.language {n : Nat} {ts : List Token} {es : List Expr} :
    Items n ts es → Separated (Expression n) ts es
  | .nil => .nil
  | .single h => .single h.expression
  | .cons h hes =>
    .cons (Phrases.expression_included (Nat.le_max_left _ _) h.expression)
      (Phrases.separated_included (Phrases.expression_included (Nat.le_max_right _ _)) hes.language)

theorem Entry.language {n : Nat} {ts : List Token} {entry : ObjectEntry Expr} :
    Entry n ts entry → Phrases.Entry (Expression n) ts entry
  | .shorthand name => .shorthand name
  | .named hk h => .named hk h.expression
  | .computed hk h =>
    .computed (Phrases.expression_included (Nat.le_max_left _ _) hk.expression)
      (Phrases.expression_included (Nat.le_max_right _ _) h.expression)

theorem Entries.language {n : Nat} {ts : List Token} {entries : List (ObjectEntry Expr)} :
    Entries n ts entries → Separated (Phrases.Entry (Expression n)) ts entries
  | .nil => .nil
  | .single h => .single h.language
  | .cons h hes =>
    .cons (Phrases.entry_included (Phrases.expression_included (Nat.le_max_left _ _)) h.language)
      (Phrases.separated_included
        (Phrases.entry_included (Phrases.expression_included (Nat.le_max_right _ _))) hes.language)

theorem Chunks.language {n : Nat} {chunks : List TemplateChunk} {parts : List (Part Expr)} :
    Chunks n chunks parts → Phrases.Chunks (Expression n) chunks parts
  | .nil => .nil
  | .text s h => .text s h.language
  | .code htokens h hparts =>
    .code htokens (Phrases.expression_included (Nat.le_max_left _ _) h.expression)
      (Phrases.chunks_included (Phrases.expression_included (Nat.le_max_right _ _)) hparts.language)

end

section Within

variable {α : Type} {b : Nat}

/-- What derives within a nesting. -/
def Within (D : Nat → Phrases α) (b : Nat) : Phrases α := fun ts a => ∃ n ≤ b, D n ts a

theorem chain_within {O : Phrases Expr} {tier : Tier} {tighter : List Tier} {join? : Joiner}
    (hreads : Reads tier join?) (h : Included O (Within (Tiered tighter) b)) :
    Included (Chain O join?) (Within (Tiered (tier :: tighter)) b) := by
  intro ts e he
  induction he with
  | operand he =>
    obtain ⟨n, hn, he⟩ := h he
    exact ⟨n, hn, .operand he⟩
  | join _ hf hr ih =>
    obtain ⟨n, hn, hl⟩ := ih
    obtain ⟨m, hm, hr⟩ := h hr
    obtain ⟨s, c, rfl, hs, rfl⟩ := (hreads _ _).1 hf
    exact ⟨max n m, Nat.max_le.2 ⟨hn, hm⟩, .join hl hs hr⟩

theorem stacked_within {U : Phrases Expr} {tiers : List Tier} {levels : List Joiner}
    (hlevels : List.Forall₂ Reads tiers levels) (h : Included U (Within Prefixed b)) :
    Included (Stacked levels U) (Within (Tiered tiers) b) := by
  induction hlevels with
  | nil =>
    intro ts e he
    obtain ⟨n, hn, he⟩ := h he
    exact ⟨n, hn, .tightest he⟩
  | cons hreads _ ih => exact chain_within hreads ih

theorem conditional_within {U E : Phrases Expr} (hu : Included U (Within Prefixed b))
    (he : Included E (Within Full b)) :
    Included (Phrases.Conditional (Levels U) E) (Within Full (b + 1)) := by
  have hlevels : Included (Levels U) (Within (Tiered tiers) b) := by
    rw [levels_eq_stacked]
    exact stacked_within reads_joiners hu
  intro ts e h
  cases h with
  | condition h =>
    obtain ⟨n, hn, h⟩ := hlevels h
    exact ⟨n + 1, Nat.succ_le_succ hn, .condition h⟩
  | choice h hx hy =>
    obtain ⟨n, hn, h⟩ := hlevels h
    obtain ⟨m, hm, hx⟩ := he hx
    obtain ⟨k, hk, hy⟩ := he hy
    exact ⟨_, Nat.succ_le_succ (Nat.max_le.2 ⟨hn, Nat.max_le.2 ⟨hm, hk⟩⟩), .choice h hx hy⟩

section Sub

variable {S : Phrases Expr}

theorem items_within (h : Included S (Within Full b)) :
    Included (Separated S) (Within Items b) := by
  intro ts es hes
  induction hes with
  | nil => exact ⟨0, Nat.zero_le _, .nil⟩
  | single he =>
    obtain ⟨n, hn, he⟩ := h he
    exact ⟨n, hn, .single he⟩
  | cons he _ ih =>
    obtain ⟨n, hn, he⟩ := h he
    obtain ⟨m, hm, hes⟩ := ih
    exact ⟨_, Nat.max_le.2 ⟨hn, hm⟩, .cons he hes⟩

theorem entry_within (h : Included S (Within Full b)) :
    Included (Phrases.Entry S) (Within Entry b) := by
  intro ts entry hx
  cases hx with
  | shorthand name => exact ⟨0, Nat.zero_le _, .shorthand name⟩
  | named hk he =>
    obtain ⟨n, hn, he⟩ := h he
    exact ⟨n, hn, .named hk he⟩
  | computed hk he =>
    obtain ⟨n, hn, hk⟩ := h hk
    obtain ⟨m, hm, he⟩ := h he
    exact ⟨_, Nat.max_le.2 ⟨hn, hm⟩, .computed hk he⟩

theorem entries_within (h : Included S (Within Full b)) :
    Included (Separated (Phrases.Entry S)) (Within Entries b) := by
  intro ts entries hxs
  induction hxs with
  | nil => exact ⟨0, Nat.zero_le _, .nil⟩
  | single hx =>
    obtain ⟨n, hn, hx⟩ := entry_within h hx
    exact ⟨n, hn, .single hx⟩
  | cons hx _ ih =>
    obtain ⟨n, hn, hx⟩ := entry_within h hx
    obtain ⟨m, hm, hxs⟩ := ih
    exact ⟨_, Nat.max_le.2 ⟨hn, hm⟩, .cons hx hxs⟩

theorem chunks_within (h : Included S (Within Full b)) {chunks : List TemplateChunk}
    {parts : List (Part Expr)} (hparts : Phrases.Chunks S chunks parts) :
    ∃ n ≤ b, Chunks n chunks parts := by
  induction hparts with
  | nil => exact ⟨0, Nat.zero_le _, .nil⟩
  | text s _ ih =>
    obtain ⟨n, hn, hparts⟩ := ih
    exact ⟨n, hn, .text s hparts⟩
  | code htokens he _ ih =>
    obtain ⟨n, hn, he⟩ := h he
    obtain ⟨m, hm, hparts⟩ := ih
    exact ⟨_, Nat.max_le.2 ⟨hn, hm⟩, .code htokens he hparts⟩

theorem primary_within (h : Included S (Within Full b)) :
    Included (Phrases.Primary S) (Within Primary b) := by
  intro ts e he
  cases he with
  | null => exact ⟨0, Nat.zero_le _, .null⟩
  | true => exact ⟨0, Nat.zero_le _, .true⟩
  | false => exact ⟨0, Nat.zero_le _, .false⟩
  | number x => exact ⟨0, Nat.zero_le _, .number x⟩
  | string s => exact ⟨0, Nat.zero_le _, .string s⟩
  | identifier name => exact ⟨0, Nat.zero_le _, .identifier name⟩
  | template hparts =>
    obtain ⟨n, hn, hparts⟩ := chunks_within h hparts
    exact ⟨n, hn, .template hparts⟩
  | group he =>
    obtain ⟨n, hn, he⟩ := h he
    exact ⟨n, hn, .group he⟩
  | array hes =>
    obtain ⟨n, hn, hes⟩ := items_within h hes
    exact ⟨n, hn, .array hes⟩
  | object hxs =>
    obtain ⟨n, hn, hxs⟩ := entries_within h hxs
    exact ⟨n, hn, .object hxs⟩

theorem accessed_within (h : Included S (Within Full b)) :
    Included (Phrases.Accessed S) (Within Accessed b) := by
  intro ts e he
  induction he with
  | primary he =>
    obtain ⟨n, hn, he⟩ := primary_within h he
    exact ⟨n, hn, .primary he⟩
  | member _ hname ih =>
    obtain ⟨n, hn, he⟩ := ih
    exact ⟨n, hn, .member he hname⟩
  | index _ hp ih =>
    obtain ⟨n, hn, he⟩ := ih
    obtain ⟨m, hm, hp⟩ := h hp
    exact ⟨_, Nat.max_le.2 ⟨hn, hm⟩, .index he hp⟩
  | call _ hargs ih =>
    obtain ⟨n, hn, he⟩ := ih
    obtain ⟨m, hm, hargs⟩ := items_within h hargs
    exact ⟨_, Nat.max_le.2 ⟨hn, hm⟩, .call he hargs⟩

theorem prefixed_within {O : Phrases Expr}
    (ho : ∀ ⦃ts e⦄, O ts e → ∃ n < b, Prefixed n ts e) (h : Included S (Within Full b)) :
    Included (Phrases.Prefixed O S) (Within Prefixed b) := by
  intro ts e he
  cases he with
  | accessed he =>
    obtain ⟨n, hn, he⟩ := accessed_within h he
    exact ⟨n, hn, .accessed he⟩
  | operator hop he =>
    obtain ⟨n, hn, he⟩ := ho he
    exact ⟨n + 1, hn, .operator hop he⟩

end Sub

theorem expression_unary_within (b : Nat) :
    Included (Expression b) (Within Full b) ∧ Included (Unary b) (Within Prefixed b) := by
  induction b with
  | zero =>
    have hzero : Included (Expression 0) (Within Full 0) := by
      rw [Expression]
      exact Phrases.nothing_included _
    refine ⟨hzero, ?_⟩
    rw [Phrases.unary_zero]
    exact prefixed_within (fun _ _ h => h.elim) hzero
  | succ b ih =>
    have hsucc : Included (Expression (b + 1)) (Within Full (b + 1)) := by
      rw [Phrases.expression_succ]
      exact conditional_within ih.2 ih.1
    refine ⟨hsucc, ?_⟩
    rw [Phrases.unary_succ]
    refine prefixed_within (fun ts e h => ?_) hsucc
    obtain ⟨n, hn, he⟩ := ih.2 h
    exact ⟨n, Nat.lt_succ_of_le hn, he⟩

/-- The language of a budget is what derives within that nesting. -/
theorem expression_iff {ts : List Token} {e : Expr} :
    Expression b ts e ↔ ∃ n ≤ b, Full n ts e := by
  constructor
  · exact fun h => (expression_unary_within b).1 h
  · rintro ⟨n, hn, h⟩
    exact Phrases.expression_included hn h.expression

end Within

end Derivation

namespace Expr

open JsonStencil.Derivation

end Expr

end JsonStencil
