import JsonStencil.Expr.Parser
import JsonStencil.Proofs.Expr.Erase

/-!
# The language of expressions

A language is a set of token lists, each with what it spells. The language of expressions within a
nesting budget is put together from the languages of its parts, as the grammar reads: conditionals,
seven levels of operators that associate to the left, prefix operators, accesses and calls, and
primary expressions. Places are erased on both sides.
-/

namespace JsonStencil

def CodeText.erase (code : CodeText) : CodeText := ⟨code.source, .blank⟩

def Token.erase : Token → Token
  | .template chunks => .template (chunks.map (Part.map CodeText.erase))
  | t => t

theorem Token.erase_eq_symbol_iff {t : Token} {s : Symbol} :
    t.erase = .symbol s ↔ t = .symbol s := by
  cases t <;> simp [erase]

@[simp] theorem Token.erase_relocate (base : Span) (t : Token) :
    (t.relocate base).erase = t.erase := by
  cases t with
  | template chunks =>
    simp only [relocate, erase, List.map_map, Token.template.injEq]
    refine List.map_congr_left fun chunk _ => ?_
    cases chunk <;> rfl
  | _ => rfl

/-- The tokens of lexemes without their places. -/
def spelling (ls : List Lexeme) : List Token := ls.map (·.token.erase)

@[simp] theorem spelling_nil : spelling [] = [] := rfl

@[simp] theorem spelling_cons (l : Lexeme) (ls : List Lexeme) :
    spelling (l :: ls) = l.token.erase :: spelling ls := rfl

@[simp] theorem spelling_append (ls ms : List Lexeme) :
    spelling (ls ++ ms) = spelling ls ++ spelling ms := List.map_append

@[simp] theorem spelling_relocate (base : Span) (ls : List Lexeme) :
    spelling (ls.map (·.relocate base)) = spelling ls := by
  simp only [spelling, List.map_map]
  exact List.map_congr_left fun l _ => Token.erase_relocate base l.token

theorem spelling_eq_append_iff {ls : List Lexeme} {ts us : List Token} :
    spelling ls = ts ++ us ↔ ∃ ks ms, ls = ks ++ ms ∧ spelling ks = ts ∧ spelling ms = us :=
  List.map_eq_append_iff

theorem spelling_eq_cons_iff {ls : List Lexeme} {t : Token} {ts : List Token} :
    spelling ls = t :: ts ↔ ∃ l ms, ls = l :: ms ∧ l.token.erase = t ∧ spelling ms = ts :=
  List.map_eq_cons_iff

theorem spelling_eq_nil_iff {ls : List Lexeme} : spelling ls = [] ↔ ls = [] := List.map_eq_nil_iff

/-- Token lists, each with what it spells. -/
abbrev Phrases (α : Type) := List Token → α → Prop

namespace Phrases

open Grammar (Joiner joiners)

variable {α : Type}

/-- Operands of one level, joined from the left. -/
inductive Chain (operand : Phrases Expr) (join? : Joiner) : Phrases Expr
  | operand {ts : List Token} {e : Expr} : operand ts e → Chain operand join? ts e
  | join {ts us : List Token} {t : Token} {f : Expr → Expr → Expr} {left right : Expr} :
      Chain operand join? ts left → join? t = some f → operand us right →
      Chain operand join? (ts ++ t :: us) (f left right)

inductive Conditional (condition branch : Phrases Expr) : Phrases Expr
  | condition {ts : List Token} {e : Expr} : condition ts e → Conditional condition branch ts e
  | choice {ts us vs : List Token} {e onTrue onFalse : Expr} :
      condition ts e → branch us onTrue → branch vs onFalse →
      Conditional condition branch
        (ts ++ .symbol .question :: (us ++ .symbol .colon :: vs))
        (.conditional e onTrue onFalse .blank)

/-- Items with commas between them. A comma may follow the last one. -/
inductive Separated (item : Phrases α) : Phrases (List α)
  | nil : Separated item [] []
  | single {ts : List Token} {a : α} : item ts a → Separated item ts [a]
  | cons {ts us : List Token} {a : α} {as : List α} :
      item ts a → Separated item us as → Separated item (ts ++ .symbol .comma :: us) (a :: as)

/-- The name that a token gives to a property. -/
def keyName? : Token → Option String
  | .identifier name => some name
  | .string s => some s
  | .number x => some x.briefText
  | .keyword k => some k.text
  | _ => none

inductive Entry (sub : Phrases Expr) : Phrases (ObjectEntry Expr)
  | shorthand (name : String) :
      Entry sub [.identifier name] ⟨.named name, .identifier name .blank, .blank⟩
  | named {t : Token} {ts : List Token} {name : String} {e : Expr} :
      keyName? t = some name → sub ts e →
      Entry sub (t :: .symbol .colon :: ts) ⟨.named name, e, .blank⟩
  | computed {ks ts : List Token} {k e : Expr} :
      sub ks k → sub ts e →
      Entry sub (.symbol .leftBracket :: (ks ++ .symbol .rightBracket :: .symbol .colon :: ts))
        ⟨.computed k, e, .blank⟩

/-- What the chunks of a template literal stand for. Their code is a source of its own. -/
inductive Chunks (sub : Phrases Expr) : List TemplateChunk → List (Part Expr) → Prop
  | nil : Chunks sub [] []
  | text {chunks : List TemplateChunk} {parts : List (Part Expr)} (s : String) :
      Chunks sub chunks parts → Chunks sub (.text s :: chunks) (.text s :: parts)
  | code {chunks : List TemplateChunk} {parts : List (Part Expr)} {code : CodeText}
      {ls : List Lexeme} {e : Expr} :
      tokenize code.source = .ok ls → sub (spelling ls) e → Chunks sub chunks parts →
      Chunks sub (.hole code :: chunks) (.hole e :: parts)

inductive Primary (sub : Phrases Expr) : Phrases Expr
  | null : Primary sub [.keyword .null] (.null .blank)
  | true : Primary sub [.keyword .true] (.bool true .blank)
  | false : Primary sub [.keyword .false] (.bool false .blank)
  | number (x : Binary64) : Primary sub [.number x] (.number x .blank)
  | string (s : String) : Primary sub [.string s] (.string s .blank)
  | identifier (name : String) : Primary sub [.identifier name] (.identifier name .blank)
  | template {chunks : List TemplateChunk} {parts : List (Part Expr)} :
      Chunks sub chunks parts →
      Primary sub [.template chunks] (.template parts .blank)
  | group {ts : List Token} {e : Expr} :
      sub ts e → Primary sub (.symbol .leftParen :: (ts ++ [.symbol .rightParen])) e
  | array {ts : List Token} {items : List Expr} :
      Separated sub ts items →
      Primary sub (.symbol .leftBracket :: (ts ++ [.symbol .rightBracket])) (.array items .blank)
  | object {ts : List Token} {entries : List (ObjectEntry Expr)} :
      Separated (Entry sub) ts entries →
      Primary sub (.symbol .leftBrace :: (ts ++ [.symbol .rightBrace])) (.object entries .blank)

def memberName? : Token → Option String
  | .identifier name => some name
  | .keyword k => some k.text
  | _ => none

/-- A primary expression with accesses and calls behind it. -/
inductive Accessed (sub : Phrases Expr) : Phrases Expr
  | primary {ts : List Token} {e : Expr} : Primary sub ts e → Accessed sub ts e
  | member {ts : List Token} {t : Token} {owner : Expr} {name : String} :
      Accessed sub ts owner → memberName? t = some name →
      Accessed sub (ts ++ [.symbol .dot, t]) (.member owner name .blank)
  | index {ts us : List Token} {owner position : Expr} :
      Accessed sub ts owner → sub us position →
      Accessed sub (ts ++ .symbol .leftBracket :: (us ++ [.symbol .rightBracket]))
        (.index owner position .blank)
  | call {ts us : List Token} {callee : Expr} {args : List Expr} :
      Accessed sub ts callee → Separated sub us args →
      Accessed sub (ts ++ .symbol .leftParen :: (us ++ [.symbol .rightParen]))
        (.call callee args .blank)

inductive Prefixed (operand sub : Phrases Expr) : Phrases Expr
  | accessed {ts : List Token} {e : Expr} : Accessed sub ts e → Prefixed operand sub ts e
  | operator {t : Token} {ts : List Token} {op : UnaryOp} {e : Expr} :
      Grammar.unaryOp? t = some op → operand ts e →
      Prefixed operand sub (t :: ts) (.unary op e .blank)

def Levels (unary : Phrases Expr) : Phrases Expr := joiners.foldl Chain unary

theorem levels_induction {motive : Phrases Expr → Prop} {unary : Phrases Expr} (base : motive unary)
    (step : ∀ L, ∀ join? ∈ joiners, motive L → motive (Chain L join?)) : motive (Levels unary) := by
  have hfold (js : List Joiner) (hjs : ∀ join? ∈ js, join? ∈ joiners) :
      ∀ L : Phrases Expr, motive L → motive (js.foldl Chain L) := by
    induction js with
    | nil => exact fun _ h => h
    | cons join? js ih =>
      exact fun L h => ih (fun j hj => hjs j (List.mem_cons_of_mem _ hj)) _
        (step L join? (hjs join? List.mem_cons_self) h)
  exact hfold joiners (fun _ h => h) unary base

def Nothing : Phrases Expr := fun _ _ => False

mutual

/-- Full expressions within a nesting budget. -/
def Expression : Nat → Phrases Expr
  | 0 => Nothing
  | budget + 1 => Conditional (Levels (Unary budget)) (Expression budget)

def Unary : Nat → Phrases Expr
  | 0 => Prefixed Nothing Nothing
  | budget + 1 =>
    Prefixed (Unary budget) (Conditional (Levels (Unary budget)) (Expression budget))

end

theorem expression_succ (budget : Nat) :
    Expression (budget + 1) = Conditional (Levels (Unary budget)) (Expression budget) := by
  rw [Expression]

theorem unary_zero : Unary 0 = Prefixed Nothing (Expression 0) := by rw [Unary, Expression]

theorem unary_succ (budget : Nat) :
    Unary (budget + 1) = Prefixed (Unary budget) (Expression (budget + 1)) := by
  rw [Unary, Expression]

end Phrases

end JsonStencil
