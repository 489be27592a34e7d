import JsonStencil.Expr.Parser

/-!
# Reading without bounds

The readers once more, with nothing that counts: a loop runs until a token stops it, a reader may
call itself for ever, and the nesting limit can be left out. What a reader calls has a clock that is
one less than its own. A reading need not end: it ends with an outcome that it has with every clock
from some one on.
-/

namespace JsonStencil

namespace Grammar

namespace Unbounded

variable {α β : Type}

/-- What a reading comes to by its clock. Nothing stands for a reading that goes on. -/
abbrev Run (α : Type) := ExceptT SyntaxError Option α

abbrev Reader (α : Type) := List Lexeme → Run (α × List Lexeme)

def unended : Run α := ExceptT.mk none

def ended (x : Except SyntaxError α) : Run α := ExceptT.mk (some x)

/-- With every clock from some one on, the reading has ended with the outcome. -/
def EndsWith (run : Nat → Run α) (x : Except SyntaxError α) : Prop :=
  ∃ c, ∀ clock, c ≤ clock → run clock = ended x

namespace EndsWith

variable {x : Except SyntaxError α} {run : Nat → Run α}

theorem const : EndsWith (fun _ => ended x) x := ⟨0, fun _ _ => rfl⟩

theorem tick (h : EndsWith (fun clock => run (clock + 1)) x) : EndsWith run x := by
  obtain ⟨c, hc⟩ := h
  refine ⟨c + 1, fun clock hclock => ?_⟩
  obtain ⟨clock, rfl⟩ := Nat.exists_eq_add_of_le' (Nat.le_of_add_left_le hclock)
  exact hc clock (Nat.le_of_succ_le_succ hclock)

/-- What follows a reading that has ended decides whether the whole ends. -/
theorem bind {more : Nat → α → Run β} {g : α → Except SyntaxError β} (h : EndsWith run x)
    (hmore : ∀ a, x = .ok a → EndsWith (more · a) (g a)) :
    EndsWith (fun clock => run clock >>= more clock) (x >>= g) := by
  obtain ⟨c, hc⟩ := h
  cases x with
  | error e =>
    refine ⟨c, fun clock hclock => ?_⟩
    change run clock >>= more clock = _
    rw [hc clock hclock]
    rfl
  | ok a =>
    obtain ⟨d, hd⟩ := hmore a rfl
    refine ⟨max c d, fun clock hclock => ?_⟩
    change run clock >>= more clock = _
    rw [hc clock (Nat.le_trans (Nat.le_max_left c d) hclock)]
    exact hd clock (Nat.le_trans (Nat.le_max_right c d) hclock)

theorem map (f : α → β) (h : EndsWith run x) :
    EndsWith (fun clock => run clock >>= fun a => pure (f a)) (x.map f) := by
  have hmap : x.map f = x >>= fun a => .ok (f a) := by cases x <;> rfl
  rw [hmap]
  exact h.bind fun _ _ => const

theorem mapM {run : Nat → α → Run β} {g : α → Except SyntaxError β} {as : List α}
    (h : ∀ a ∈ as, EndsWith (run · a) (g a)) :
    EndsWith (fun clock => as.mapM (run clock)) (as.mapM g) := by
  induction as with
  | nil => exact const
  | cons a as ih =>
    simp only [List.mapM_cons]
    have hmore := ih fun a ha => h a (List.mem_cons_of_mem _ ha)
    exact (h a List.mem_cons_self).bind fun b _ => hmore.bind fun bs _ => const

end EndsWith

-- A budget is what the nesting limit leaves; without one there is no limit.
mutual

def expression : Nat → Option Nat → Reader Expr
  | 0, _, _ => unended
  | clock + 1, none, tokens => conditional clock none tokens
  | _ + 1, some 0, tokens => ended (tooDeep tokens)
  | clock + 1, some (n + 1), tokens => conditional clock (some n) tokens

def conditional : Nat → Option Nat → Reader Expr
  | 0, _, _ => unended
  | clock + 1, budget, tokens => do
    let (condition, rest) ← levels clock budget joiners.reverse tokens
    if startsWithSymbol .question rest then
      let (onTrue, rest) ← expression clock budget (rest.drop 1)
      let (_, rest) ← ended (expect .colon "conditional expression" rest)
      let (onFalse, rest) ← expression clock budget rest
      pure (.conditional condition onTrue onFalse (condition.span.merge onFalse.span), rest)
    else pure (condition, rest)

/-- Some levels of operators, the loosest in front. -/
def levels : Nat → Option Nat → List Joiner → Reader Expr
  | 0, _, _, _ => unended
  | clock + 1, budget, [], tokens => unary clock budget tokens
  | clock + 1, budget, join? :: tighter, tokens => do
    let (left, rest) ← levels clock budget tighter tokens
    operands clock budget join? tighter left rest

def operands : Nat → Option Nat → Joiner → List Joiner → Expr → Reader Expr
  | 0, _, _, _, _, _ => unended
  | _ + 1, _, _, _, left, [] => pure (left, [])
  | clock + 1, budget, join?, tighter, left, l :: rest =>
    match join? l.token with
    | none => pure (left, l :: rest)
    | some join => do
      let (right, rest) ← levels clock budget tighter rest
      operands clock budget join? tighter (join left right) rest

def unary : Nat → Option Nat → Reader Expr
  | 0, _, _ => unended
  | clock + 1, budget, [] => accessed clock budget []
  | clock + 1, budget, l :: rest =>
    match unaryOp? l.token, budget with
    | none, _ => accessed clock budget (l :: rest)
    | some _, some 0 => ended (tooDeep (l :: rest))
    | some op, _ => do
      let (e, rest) ← unary clock (budget.map (· - 1)) rest
      pure (.unary op e (l.span.merge e.span), rest)

def accessed : Nat → Option Nat → Reader Expr
  | 0, _, _ => unended
  | clock + 1, budget, tokens => do
    let (e, rest) ← primary clock budget tokens
    postfixes clock budget e rest

def postfixes : Nat → Option Nat → Expr → Reader Expr
  | 0, _, _, _ => unended
  | _ + 1, _, e, [] => pure (e, [])
  | clock + 1, budget, e, l :: rest =>
    match l.token with
    | .symbol .dot => do
      let ((name, last), rest) ← ended (memberName rest)
      postfixes clock budget (.member e name (e.span.merge last)) rest
    | .symbol .leftBracket => do
      let (position, rest) ← expression clock budget rest
      let (last, rest) ← ended (expect .rightBracket "index expression" rest)
      postfixes clock budget (.index e position (e.span.merge last)) rest
    | .symbol .leftParen => do
      let ((args, last), rest) ← listUntil clock budget .rightParen "call arguments" rest
      postfixes clock budget (.call e args (e.span.merge last)) rest
    | _ => pure (e, l :: rest)

def listUntil : Nat → Option Nat → Symbol → String → Reader (List Expr × Span)
  | 0, _, _, _, _ => unended
  | clock + 1, budget, close, context, tokens => do
    let (list, rest) ← items clock budget close tokens
    let (span, rest) ← ended (expect close context rest)
    pure ((list, span), rest)

def items : Nat → Option Nat → Symbol → Reader (List Expr)
  | 0, _, _, _ => unended
  | clock + 1, budget, close, tokens =>
    if startsWithSymbol close tokens then pure ([], tokens)
    else do
      let (first, rest) ← expression clock budget tokens
      if startsWithSymbol .comma rest then
        let (more, rest) ← items clock budget close (rest.drop 1)
        pure (first :: more, rest)
      else pure ([first], rest)

def primary : Nat → Option Nat → Reader Expr
  | 0, _, _ => unended
  | clock + 1, budget, ⟨.template chunks, span⟩ :: rest => do
    let parts ← chunks.mapM (templatePart clock budget)
    pure (.template parts span, rest)
  | clock + 1, budget, ⟨.symbol .leftParen, _⟩ :: rest => do
    let (e, rest) ← expression clock budget rest
    let (_, rest) ← ended (expect .rightParen "parenthesised expression" rest)
    pure (e, rest)
  | clock + 1, budget, ⟨.symbol .leftBracket, span⟩ :: rest => do
    let ((list, close), rest) ← listUntil clock budget .rightBracket "array literal" rest
    pure (.array list (span.merge close), rest)
  | clock + 1, budget, ⟨.symbol .leftBrace, span⟩ :: rest => do
    let ((list, close), rest) ← object clock budget rest
    pure (.object list (span.merge close), rest)
  | _ + 1, _, tokens => ended (Grammar.primary tooDeep tokens)

/-- An object behind its opening brace. -/
def object : Nat → Option Nat → Reader (List (ObjectEntry Expr) × Span)
  | 0, _, _ => unended
  | clock + 1, budget, tokens => do
    let (list, rest) ← entries clock budget tokens
    let (span, rest) ← ended (expect .rightBrace "object literal" rest)
    pure ((list, span), rest)

def entries : Nat → Option Nat → Reader (List (ObjectEntry Expr))
  | 0, _, _ => unended
  | clock + 1, budget, tokens =>
    if startsWithSymbol .rightBrace tokens then pure ([], tokens)
    else do
      let (first, rest) ← entry clock budget tokens
      if startsWithSymbol .comma rest then
        let (more, rest) ← entries clock budget (rest.drop 1)
        pure (first :: more, rest)
      else pure ([first], rest)

def entry : Nat → Option Nat → Reader (ObjectEntry Expr)
  | 0, _, _ => unended
  | clock + 1, budget, tokens => do
    let (key, rest) ← entryKey clock budget tokens
    let (value, rest) ← entryValue clock budget key rest
    pure (⟨key.key, value, key.span.merge value.span⟩, rest)

def entryKey : Nat → Option Nat → Reader EntryKey
  | 0, _, _ => unended
  | clock + 1, budget, ⟨.symbol .leftBracket, span⟩ :: rest => do
    let (e, rest) ← expression clock budget rest
    let (_, rest) ← ended (expect .rightBracket "computed property key" rest)
    pure (⟨.computed e, none, span⟩, rest)
  | _ + 1, _, tokens => ended (Grammar.entryKey tooDeep tokens)

def entryValue : Nat → Option Nat → EntryKey → Reader Expr
  | 0, _, _, _ => unended
  | clock + 1, budget, key, tokens =>
    match key.shorthand, endsShorthand tokens with
    | some name, true => pure (.identifier name key.span, tokens)
    | _, _ => do
      let (_, rest) ← ended (expect .colon "object literal" tokens)
      expression clock budget rest

/-- The code in a template literal is made into tokens and read by a parser of its own. -/
def templatePart : Nat → Option Nat → TemplateChunk → Run (Part Expr)
  | 0, _, _ => unended
  | _ + 1, _, .text s => pure (.text s)
  | clock + 1, budget, .hole ⟨source, span⟩ =>
    match tokenize source with
    | .error e => throw (.lexical ⟨e.fault, e.span.relocate span⟩)
    | .ok [] => throw (.invalid "empty expression in template literal" span)
    | .ok tokens => do
      let e ← whole clock budget (tokens.map (·.relocate span))
      pure (.hole e)

def whole : Nat → Option Nat → List Lexeme → Run Expr
  | 0, _, _ => unended
  | clock + 1, budget, tokens => do
    match ← expression clock budget tokens with
    | (e, []) => pure e
    | (_, l :: _) => throw (.unexpectedToken "end of expression" l.token.describe l.span)

end

def parse (clock : Nat) (budget : Option Nat) (source : String) : Run Expr :=
  match tokenize source with
  | .error e => throw (.lexical e)
  | .ok tokens => whole clock budget tokens

end Unbounded

end Grammar

end JsonStencil
