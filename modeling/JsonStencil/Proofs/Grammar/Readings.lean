import JsonStencil.Proofs.Grammar.Phrases

/-!
# The ways to read

What each reader has done when it succeeds: which tokens it met, and what the readers that it calls
returned and left. There is one case for each way to read, and a loop is told from its last step, as
the phrases of the language are. What holds of all that is read is proved from these cases, without
the readers.
-/

namespace JsonStencil

namespace Grammar

open Phrases (keyName? memberName?)

theorem expect_eq_ok_iff {s : Symbol} {context : String} {ls rest : List Lexeme} {span : Span} :
    expect s context ls = .ok (span, rest) ↔ ls = ⟨.symbol s, span⟩ :: rest := by
  cases ls with
  | nil => simp [expect]
  | cons l ls =>
    obtain ⟨t, span'⟩ := l
    simp only [expect]
    split
    next ht =>
      subst ht
      simp [eq_comm]
    next ht => simp [ht]

theorem startsWithSymbol_iff {s : Symbol} {ls : List Lexeme} :
    startsWithSymbol s ls ↔ ∃ span rest, ls = ⟨.symbol s, span⟩ :: rest := by
  cases ls with
  | nil => simp [startsWithSymbol]
  | cons l ls =>
    obtain ⟨t, span⟩ := l
    simp only [startsWithSymbol, decide_eq_true_eq, List.cons.injEq, Lexeme.mk.injEq]
    constructor
    · rintro rfl
      exact ⟨span, ls, ⟨rfl, rfl⟩, rfl⟩
    · rintro ⟨_, _, ⟨rfl, -⟩, -⟩
      rfl

theorem memberName_eq_ok_iff {ls rest : List Lexeme} {name : String} {span : Span} :
    memberName ls = .ok ((name, span), rest) ↔
      ∃ t, ls = ⟨t, span⟩ :: rest ∧ memberName? t = some name := by
  constructor
  · intro h
    cases ls with
    | nil => cases h
    | cons l ls =>
      obtain ⟨t, span'⟩ := l
      cases t <;> cases h <;> exact ⟨_, rfl, rfl⟩
  · rintro ⟨t, rfl, ht⟩
    cases t <;> cases ht <;> rfl

section Levels

variable {operand : TokenReader Expr} {join? : Joiner} {ls mid rest : List Lexeme} {left e : Expr}

/-- A level of operators reads operands with its operators between them. -/
inductive LevelRead (operand : TokenReader Expr) (join? : Joiner) (ls : List Lexeme) :
    Expr → List Lexeme → Prop
  | operand {e : Expr} {rest : List Lexeme} :
      operand ls = .ok (e, rest) → LevelRead operand join? ls e rest
  | join {left right : Expr} {l : Lexeme} {mid rest : List Lexeme} {f : Expr → Expr → Expr} :
      LevelRead operand join? ls left (l :: mid) → join? l.token = some f →
      operand mid = .ok (right, rest) → LevelRead operand join? ls (f left right) rest

theorem LevelRead.operands (hleft : LevelRead operand join? ls left mid) {n : Nat}
    (h : operands operand join? n left mid = .ok (e, rest)) :
    LevelRead operand join? ls e rest := by
  induction n generalizing left mid with
  | zero =>
    cases h
    exact hleft
  | succ n ih =>
    cases mid with
    | nil =>
      cases h
      exact hleft
    | cons l mid =>
      simp only [Grammar.operands] at h
      split at h
      next =>
        cases h
        exact hleft
      next f hf =>
        obtain ⟨⟨right, mid'⟩, hright, hmore⟩ := bind_eq_ok_iff.1 h
        exact ih (.join hleft hf hright) hmore

theorem levelRead_of_level (h : level operand join? ls = .ok (e, rest)) :
    LevelRead operand join? ls e rest := by
  obtain ⟨⟨left, mid⟩, hleft, hmore⟩ := bind_eq_ok_iff.1 h
  exact LevelRead.operands (.operand hleft) hmore

/-- What holds of the operands, and passes from each level to the next one, holds of all levels. -/
theorem binaryLevels_induction {motive : TokenReader Expr → Phrases Expr → Prop}
    {unary : TokenReader Expr} {U : Phrases Expr} (base : motive unary U)
    (step : ∀ join? ∈ joiners, ∀ operand O, motive operand O →
      motive (level operand join?) (O.Chain join?)) :
    motive (binaryLevels unary) (Phrases.Levels U) := by
  have hfold (js : List Joiner) (hjs : ∀ join? ∈ js, join? ∈ joiners) :
      ∀ operand O, motive operand O →
        motive (js.foldl level operand) (js.foldl Phrases.Chain O) := by
    induction js with
    | nil => exact fun _ _ h => h
    | cons join? js ih =>
      exact fun operand O h => ih (fun j hj => hjs j (List.mem_cons_of_mem _ hj)) _ _
        (step join? (hjs join? List.mem_cons_self) operand O h)
  exact hfold joiners (fun _ h => h) unary U base

end Levels

inductive ConditionalRead (condition branch : TokenReader Expr) (ls : List Lexeme) :
    Expr → List Lexeme → Prop
  | condition {e : Expr} {rest : List Lexeme} :
      condition ls = .ok (e, rest) → ConditionalRead condition branch ls e rest
  | choice {e onTrue onFalse : Expr} {question colon : Span} {mid mid' rest : List Lexeme} :
      condition ls = .ok (e, ⟨.symbol .question, question⟩ :: mid) →
      branch mid = .ok (onTrue, ⟨.symbol .colon, colon⟩ :: mid') →
      branch mid' = .ok (onFalse, rest) →
      ConditionalRead condition branch ls
        (.conditional e onTrue onFalse (e.span.merge onFalse.span)) rest

theorem conditionalRead_of_conditional {unary branch : TokenReader Expr} {ls rest : List Lexeme}
    {e : Expr} (h : conditional unary branch ls = .ok (e, rest)) :
    ConditionalRead (binaryLevels unary) branch ls e rest := by
  obtain ⟨⟨c, mid⟩, hc, h'⟩ := bind_eq_ok_iff.1 h
  dsimp only at h'
  split at h'
  next hquestion =>
    obtain ⟨question, mid, rfl⟩ := startsWithSymbol_iff.1 hquestion
    obtain ⟨⟨x, _⟩, hx, h₁⟩ := bind_eq_ok_iff.1 h'
    obtain ⟨⟨colon, mid'⟩, hcolon, h₂⟩ := bind_eq_ok_iff.1 h₁
    obtain ⟨⟨y, _⟩, hy, h₃⟩ := bind_eq_ok_iff.1 h₂
    cases expect_eq_ok_iff.1 hcolon
    cases h₃
    exact .choice hc hx hy
  next =>
    cases h'
    exact .condition hc

section Lists

variable {α : Type} {item : TokenReader α} {ls rest : List Lexeme} {as : List α}

/-- Items are read with commas between them. A comma may follow the last one. -/
inductive ItemsRead (item : TokenReader α) : List Lexeme → List α → List Lexeme → Prop
  | nil (ls : List Lexeme) : ItemsRead item ls [] ls
  | single {ls rest : List Lexeme} {a : α} :
      item ls = .ok (a, rest) → ItemsRead item ls [a] rest
  | cons {ls mid rest : List Lexeme} {a : α} {as : List α} {comma : Span} :
      item ls = .ok (a, ⟨.symbol .comma, comma⟩ :: mid) → ItemsRead item mid as rest →
      ItemsRead item ls (a :: as) rest

theorem itemsRead_of_items {close : Symbol} {n : Nat}
    (h : items item close n ls = .ok (as, rest)) : ItemsRead item ls as rest := by
  induction n generalizing ls as with
  | zero =>
    cases h
    exact .nil _
  | succ n ih =>
    simp only [items] at h
    split at h
    next =>
      cases h
      exact .nil _
    next =>
      obtain ⟨⟨a, mid⟩, ha, h'⟩ := bind_eq_ok_iff.1 h
      dsimp only at h'
      split at h'
      next hcomma =>
        obtain ⟨comma, mid, rfl⟩ := startsWithSymbol_iff.1 hcomma
        obtain ⟨⟨more, _⟩, hmore, h''⟩ := bind_eq_ok_iff.1 h'
        cases h''
        exact .cons ha (ih hmore)
      next =>
        cases h'
        exact .single ha

theorem itemsRead_of_listUntil {close : Symbol} {context : String} {span : Span}
    (h : listUntil item close context ls = .ok ((as, span), rest)) :
    ItemsRead item ls as (⟨.symbol close, span⟩ :: rest) := by
  obtain ⟨⟨as', mid⟩, hitems, h'⟩ := bind_eq_ok_iff.1 h
  obtain ⟨⟨span', _⟩, hclose, h''⟩ := bind_eq_ok_iff.1 h'
  cases expect_eq_ok_iff.1 hclose
  cases h''
  exact itemsRead_of_items hitems

end Lists

section Sub

variable {sub : TokenReader Expr} {ls rest : List Lexeme} {e : Expr}

inductive KeyRead (sub : TokenReader Expr) : List Lexeme → EntryKey → List Lexeme → Prop
  | name {t : Token} {span : Span} {name : String} {shorthand : Option String}
      (rest : List Lexeme) :
      keyName? t = some name → (∀ s, shorthand = some s → t = .identifier s) →
      KeyRead sub (⟨t, span⟩ :: rest) ⟨.named name, shorthand, span⟩ rest
  | computed {first last : Span} {ls rest : List Lexeme} {e : Expr} :
      sub ls = .ok (e, ⟨.symbol .rightBracket, last⟩ :: rest) →
      KeyRead sub (⟨.symbol .leftBracket, first⟩ :: ls) ⟨.computed e, none, first⟩ rest

theorem keyRead_of_entryKey {key : EntryKey} (h : entryKey sub ls = .ok (key, rest)) :
    KeyRead sub ls key rest := by
  cases ls with
  | nil => cases h
  | cons l ls =>
    obtain ⟨t, span⟩ := l
    cases t with
    | symbol s =>
      cases s <;> try cases h
      obtain ⟨⟨e, _⟩, he, h'⟩ := bind_eq_ok_iff.1 h
      obtain ⟨⟨last, _⟩, hlast, h''⟩ := bind_eq_ok_iff.1 h'
      cases expect_eq_ok_iff.1 hlast
      cases h''
      exact .computed he
    | template chunks => cases h
    | identifier name =>
      cases h
      exact .name _ rfl fun s hs => by cases hs; rfl
    | _ =>
      cases h
      exact .name _ rfl nofun

theorem entryValue_cases {key : EntryKey} (h : entryValue sub key ls = .ok (e, rest)) :
    (ls = rest ∧ ∃ name, key.shorthand = some name ∧ e = .identifier name key.span) ∨
      ∃ colon mid, ls = ⟨.symbol .colon, colon⟩ :: mid ∧ sub mid = .ok (e, rest) := by
  unfold entryValue at h
  split at h
  next name hname _ =>
    cases h
    exact .inl ⟨rfl, name, hname, rfl⟩
  next =>
    obtain ⟨⟨colon, mid⟩, hcolon, h'⟩ := bind_eq_ok_iff.1 h
    exact .inr ⟨colon, mid, expect_eq_ok_iff.1 hcolon, h'⟩

theorem whole_eq_ok_iff : whole sub ls = .ok e ↔ sub ls = .ok (e, []) := by
  unfold whole
  rw [bind_eq_ok_iff]
  constructor
  · rintro ⟨⟨e', _ | ⟨l, ls'⟩⟩, h, h'⟩
    · cases h'
      exact h
    · cases h'
  · exact fun h => ⟨_, h, rfl⟩

/-- The code in a template literal is read to its end, from tokens moved to where it stands. -/
inductive PartsRead (sub : TokenReader Expr) : List TemplateChunk → List (Part Expr) → Prop
  | nil : PartsRead sub [] []
  | text {chunks : List TemplateChunk} {parts : List (Part Expr)} (s : String) :
      PartsRead sub chunks parts → PartsRead sub (.text s :: chunks) (.text s :: parts)
  | code {chunks : List TemplateChunk} {parts : List (Part Expr)} {code : CodeText}
      {ts : List Lexeme} {e : Expr} :
      tokenize code.source = .ok ts → sub (ts.map (·.relocate code.span)) = .ok (e, []) →
      PartsRead sub chunks parts → PartsRead sub (.hole code :: chunks) (.hole e :: parts)

theorem partsRead_of_mapM {chunks : List TemplateChunk} {parts : List (Part Expr)}
    (h : chunks.mapM (templatePart sub) = .ok parts) : PartsRead sub chunks parts := by
  induction chunks generalizing parts with
  | nil =>
    cases h
    exact .nil
  | cons chunk chunks ih =>
    rw [List.mapM_cons] at h
    obtain ⟨part, hpart, h'⟩ := bind_eq_ok_iff.1 h
    obtain ⟨more, hmore, h''⟩ := bind_eq_ok_iff.1 h'
    cases h''
    cases chunk with
    | text s =>
      cases hpart
      exact .text s (ih hmore)
    | hole code =>
      simp only [templatePart] at hpart
      split at hpart
      · cases hpart
      · cases hpart
      next ts _ hts =>
        obtain ⟨e, he, rfl⟩ := map_eq_ok_iff.1 hpart
        exact .code hts (whole_eq_ok_iff.1 he) (ih hmore)

theorem PartsRead.exists_code {chunks : List TemplateChunk} {parts : List (Part Expr)}
    (h : PartsRead sub chunks parts) (he : .hole e ∈ parts) :
    ∃ code ts, .hole code ∈ chunks ∧ tokenize code.source = .ok ts ∧
      sub (ts.map (·.relocate code.span)) = .ok (e, []) := by
  induction h with
  | nil => cases he
  | text s _ ih =>
    obtain ⟨code, ts, hcode, hread⟩ := ih (by simpa using he)
    exact ⟨code, ts, List.mem_cons_of_mem _ hcode, hread⟩
  | @code _ _ code ts _ hts hread _ ih =>
    rcases List.mem_cons.1 he with heq | he
    · cases heq
      exact ⟨code, ts, List.mem_cons_self, hts, hread⟩
    · obtain ⟨code', ts', hcode', hread'⟩ := ih he
      exact ⟨code', ts', List.mem_cons_of_mem _ hcode', hread'⟩

/-- The expressions that are single tokens, but for template literals. -/
inductive Atomic (span : Span) : Token → Expr → Prop
  | null : Atomic span (.keyword .null) (.null span)
  | true : Atomic span (.keyword .true) (.bool true span)
  | false : Atomic span (.keyword .false) (.bool false span)
  | number (x : Binary64) : Atomic span (.number x) (.number x span)
  | string (s : String) : Atomic span (.string s) (.string s span)
  | identifier (name : String) : Atomic span (.identifier name) (.identifier name span)

inductive PrimaryRead (sub : TokenReader Expr) : List Lexeme → Expr → List Lexeme → Prop
  | atom {t : Token} {span : Span} {e : Expr} (rest : List Lexeme) :
      Atomic span t e → PrimaryRead sub (⟨t, span⟩ :: rest) e rest
  | template {chunks : List TemplateChunk} {parts : List (Part Expr)} (span : Span)
      (rest : List Lexeme) : PartsRead sub chunks parts →
      PrimaryRead sub (⟨.template chunks, span⟩ :: rest) (.template parts span) rest
  | group {first last : Span} {ls rest : List Lexeme} {e : Expr} :
      sub ls = .ok (e, ⟨.symbol .rightParen, last⟩ :: rest) →
      PrimaryRead sub (⟨.symbol .leftParen, first⟩ :: ls) e rest
  | array {first last : Span} {ls rest : List Lexeme} {es : List Expr} :
      ItemsRead sub ls es (⟨.symbol .rightBracket, last⟩ :: rest) →
      PrimaryRead sub (⟨.symbol .leftBracket, first⟩ :: ls) (.array es (first.merge last)) rest
  | object {first last : Span} {ls rest : List Lexeme} {entries : List (ObjectEntry Expr)} :
      ItemsRead (entry sub) ls entries (⟨.symbol .rightBrace, last⟩ :: rest) →
      PrimaryRead sub (⟨.symbol .leftBrace, first⟩ :: ls) (.object entries (first.merge last)) rest

theorem primaryRead_of_primary (h : primary sub ls = .ok (e, rest)) :
    PrimaryRead sub ls e rest := by
  cases ls with
  | nil => cases h
  | cons l ls =>
    obtain ⟨t, span⟩ := l
    cases t with
    | keyword k =>
      cases k <;> cases h
      · exact .atom _ .true
      · exact .atom _ .false
      · exact .atom _ .null
    | identifier name =>
      cases h
      exact .atom _ (.identifier name)
    | string s =>
      cases h
      exact .atom _ (.string s)
    | number x =>
      cases h
      exact .atom _ (.number x)
    | template chunks =>
      obtain ⟨parts, hparts, h'⟩ := bind_eq_ok_iff.1 h
      cases h'
      exact .template span _ (partsRead_of_mapM hparts)
    | symbol s =>
      cases s <;> try cases h
      case leftParen =>
        obtain ⟨⟨e', _⟩, he, h'⟩ := bind_eq_ok_iff.1 h
        obtain ⟨⟨last, _⟩, hlast, h''⟩ := bind_eq_ok_iff.1 h'
        cases expect_eq_ok_iff.1 hlast
        cases h''
        exact .group he
      case leftBracket =>
        obtain ⟨⟨⟨es, last⟩, _⟩, hes, h'⟩ := bind_eq_ok_iff.1 h
        cases h'
        exact .array (itemsRead_of_listUntil hes)
      case leftBrace =>
        obtain ⟨⟨⟨entries, last⟩, _⟩, hentries, h'⟩ := bind_eq_ok_iff.1 h
        cases h'
        exact .object (itemsRead_of_listUntil hentries)

/-- A primary expression is read with accesses and calls behind it. -/
inductive AccessedRead (sub : TokenReader Expr) (ls : List Lexeme) : Expr → List Lexeme → Prop
  | primary {e : Expr} {rest : List Lexeme} :
      primary sub ls = .ok (e, rest) → AccessedRead sub ls e rest
  | member {owner : Expr} {dot last : Span} {t : Token} {name : String} {rest : List Lexeme} :
      AccessedRead sub ls owner (⟨.symbol .dot, dot⟩ :: ⟨t, last⟩ :: rest) →
      memberName? t = some name →
      AccessedRead sub ls (.member owner name (owner.span.merge last)) rest
  | index {owner position : Expr} {first last : Span} {mid rest : List Lexeme} :
      AccessedRead sub ls owner (⟨.symbol .leftBracket, first⟩ :: mid) →
      sub mid = .ok (position, ⟨.symbol .rightBracket, last⟩ :: rest) →
      AccessedRead sub ls (.index owner position (owner.span.merge last)) rest
  | call {callee : Expr} {args : List Expr} {first last : Span} {mid rest : List Lexeme} :
      AccessedRead sub ls callee (⟨.symbol .leftParen, first⟩ :: mid) →
      ItemsRead sub mid args (⟨.symbol .rightParen, last⟩ :: rest) →
      AccessedRead sub ls (.call callee args (callee.span.merge last)) rest

theorem AccessedRead.postfixes {owner : Expr} {mid : List Lexeme}
    (howner : AccessedRead sub ls owner mid) {n : Nat}
    (h : postfixes sub n owner mid = .ok (e, rest)) : AccessedRead sub ls e rest := by
  induction n generalizing owner mid with
  | zero =>
    cases h
    exact howner
  | succ n ih =>
    cases mid with
    | nil =>
      cases h
      exact howner
    | cons l mid =>
      obtain ⟨t, span⟩ := l
      simp only [Grammar.postfixes] at h
      split at h
      next =>
        obtain ⟨⟨⟨name, last⟩, mid'⟩, hname, h'⟩ := bind_eq_ok_iff.1 h
        obtain ⟨t, rfl, ht⟩ := memberName_eq_ok_iff.1 hname
        exact ih (.member howner ht) h'
      next =>
        obtain ⟨⟨position, _⟩, hposition, h'⟩ := bind_eq_ok_iff.1 h
        obtain ⟨⟨last, mid'⟩, hlast, h''⟩ := bind_eq_ok_iff.1 h'
        cases expect_eq_ok_iff.1 hlast
        exact ih (.index howner hposition) h''
      next =>
        obtain ⟨⟨⟨args, last⟩, mid'⟩, hargs, h'⟩ := bind_eq_ok_iff.1 h
        exact ih (.call howner (itemsRead_of_listUntil hargs)) h'
      next =>
        cases h
        exact howner

theorem accessedRead_of_accessed (h : accessed sub ls = .ok (e, rest)) :
    AccessedRead sub ls e rest := by
  obtain ⟨⟨first, mid⟩, hfirst, hmore⟩ := bind_eq_ok_iff.1 h
  exact AccessedRead.postfixes (.primary hfirst) hmore

inductive PrefixedRead (operand : Option (TokenReader Expr)) (sub : TokenReader Expr) :
    List Lexeme → Expr → List Lexeme → Prop
  | accessed {ls rest : List Lexeme} {e : Expr} :
      accessed sub ls = .ok (e, rest) → PrefixedRead operand sub ls e rest
  | operator {l : Lexeme} {ls rest : List Lexeme} {op : UnaryOp} {reader : TokenReader Expr}
      {e : Expr} : unaryOp? l.token = some op → operand = some reader →
      reader ls = .ok (e, rest) →
      PrefixedRead operand sub (l :: ls) (.unary op e (l.span.merge e.span)) rest

theorem prefixedRead_of_prefixed {operand : Option (TokenReader Expr)}
    (h : prefixed operand sub ls = .ok (e, rest)) : PrefixedRead operand sub ls e rest := by
  cases ls with
  | nil => exact .accessed h
  | cons l ls =>
    simp only [prefixed] at h
    split at h
    next => exact .accessed h
    next => cases h
    next op reader hop =>
      obtain ⟨⟨x, _⟩, hx, h'⟩ := bind_eq_ok_iff.1 h
      cases h'
      exact .operator hop rfl hx

end Sub

/-- Properties of both readers, over all budgets. Brackets inside a prefix expression keep its
budget, so full expressions come first. -/
theorem expression_unary_induction (full tight : Nat → TokenReader Expr → Prop)
    (exhausted : full 0 tooDeep)
    (conditional : ∀ n, tight n (unary n) → full n (expression n) →
      full (n + 1) (conditional (unary n) (expression n)))
    (bare : full 0 (expression 0) → tight 0 (prefixed none (expression 0)))
    (prefixed : ∀ n, tight n (unary n) → full (n + 1) (expression (n + 1)) →
      tight (n + 1) (prefixed (some (unary n)) (expression (n + 1)))) (budget : Nat) :
    full budget (expression budget) ∧ tight budget (unary budget) := by
  induction budget with
  | zero =>
    have hzero : full 0 (expression 0) := by
      rw [expression]
      exact exhausted
    refine ⟨hzero, ?_⟩
    rw [unary_zero]
    exact bare hzero
  | succ n ih =>
    have hsucc : full (n + 1) (expression (n + 1)) := by
      rw [expression_succ]
      exact conditional n ih.2 ih.1
    refine ⟨hsucc, ?_⟩
    rw [unary_succ]
    exact prefixed n ih.2 hsucc

end Grammar

end JsonStencil
