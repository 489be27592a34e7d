import JsonStencil.Proofs.Grammar.Contract

/-!
# Counting the depth

The parser with its state: the tokens that are left, the counter of its depth, and the largest count
so far. The counter goes up for a full expression and for the operand of a prefix operator and comes
down behind it; the code of a template literal is read by a parser that starts at the count of the
one around it. A count above the limit is refused.
-/

namespace JsonStencil

namespace Grammar

variable {α β : Type}

structure Machine where
  rest : List Lexeme
  depth : Nat
  peak : Nat

/-- One level deeper. -/
def Machine.deeper (m : Machine) : Machine := ⟨m.rest, m.depth + 1, max m.peak (m.depth + 1)⟩

/-- A parser that keeps count. What happened to its state stands if it fails, too, and the largest
count never goes down. -/
structure Counted (α : Type) where
  run : Machine → Except SyntaxError α × Machine
  rising : ∀ m, m.peak ≤ (run m).2.peak

namespace Counted

def bind (c : Counted α) (f : α → Counted β) : Counted β where
  run m := match c.run m with
    | (.ok a, next) => (f a).run next
    | (.error e, last) => (.error e, last)
  rising m := by
    have hc := c.rising m
    split
    next a next h =>
      rw [h] at hc
      exact Nat.le_trans hc ((f a).rising next)
    next e last h =>
      rw [h] at hc
      exact hc

instance : Monad Counted where
  pure a := ⟨fun m => (.ok a, m), fun _ => Nat.le_refl _⟩
  bind := bind

def fail (e : SyntaxError) : Counted α := ⟨fun m => (.error e, m), fun _ => Nat.le_refl _⟩

/-- The tokens that are left. -/
def upcoming : Counted (List Lexeme) := ⟨fun m => (.ok m.rest, m), fun _ => Nat.le_refl _⟩

/-- Reads with a reader of single tokens. It has passed the token that it fails at. -/
def lift (reader : TokenReader α) : Counted α where
  run m := match reader m.rest with
    | .ok (a, rest) => (.ok a, ⟨rest, m.depth, m.peak⟩)
    | .error e => (.error e, ⟨m.rest.drop 1, m.depth, m.peak⟩)
  rising m := by split <;> exact Nat.le_refl _

def skip : Counted Unit := lift fun tokens => .ok ((), tokens.drop 1)

/-- Counts one up for a parser, and down again when it is done. -/
def nested (limit : Nat) (span : Span) (c : Counted α) : Counted α where
  run m :=
    if limit < m.depth + 1 then (.error (tooDeepAt span), m.deeper)
    else
      let (x, last) := c.run m.deeper
      (x, ⟨last.rest, last.depth - 1, last.peak⟩)
  rising m := by
    have hmax : m.peak ≤ m.deeper.peak := Nat.le_max_left _ _
    split
    · exact hmax
    · exact Nat.le_trans hmax (c.rising m.deeper)

/-- Reads other tokens with a parser of their own, which starts at the same count. -/
def aside (tokens : List Lexeme) (c : Counted α) : Counted α where
  run m :=
    let (x, last) := c.run ⟨tokens, m.depth, m.peak⟩
    (x, ⟨m.rest, m.depth, last.peak⟩)
  rising m := c.rising ⟨tokens, m.depth, m.peak⟩

def operands (operand : Counted Expr) (join? : Joiner) : Nat → Expr → Counted Expr
  | 0, left => pure left
  | n + 1, left => do
    match ← upcoming with
    | [] => pure left
    | l :: _ =>
      match join? l.token with
      | none => pure left
      | some join => do
        skip
        let right ← operand
        operands operand join? n (join left right)

def level (operand : Counted Expr) (join? : Joiner) : Counted Expr := do
  let left ← operand
  operands operand join? (← upcoming).length left

def binaryLevels (unary : Counted Expr) : Counted Expr := joiners.foldl level unary

def conditional (unary branch : Counted Expr) : Counted Expr := do
  let condition ← binaryLevels unary
  if startsWithSymbol .question (← upcoming) then
    skip
    let onTrue ← branch
    let _ ← lift (expect .colon "conditional expression")
    let onFalse ← branch
    pure (.conditional condition onTrue onFalse (condition.span.merge onFalse.span))
  else pure condition

def items (item : Counted α) (close : Symbol) : Nat → Counted (List α)
  | 0 => pure []
  | n + 1 => do
    if startsWithSymbol close (← upcoming) then pure []
    else
      let first ← item
      if startsWithSymbol .comma (← upcoming) then
        skip
        let more ← items item close n
        pure (first :: more)
      else pure [first]

def listUntil (item : Counted α) (close : Symbol) (context : String) : Counted (List α × Span) := do
  let list ← items item close ((← upcoming).length + 1)
  let span ← lift (expect close context)
  pure (list, span)

/-- Only a computed key is more than one token. -/
def entryKey (sub : Counted Expr) : Counted EntryKey := do
  match ← upcoming with
  | ⟨.symbol .leftBracket, span⟩ :: _ =>
    skip
    let e ← sub
    let _ ← lift (expect .rightBracket "computed property key")
    pure ⟨.computed e, none, span⟩
  | _ => lift (Grammar.entryKey tooDeep)

def entryValue (sub : Counted Expr) (key : EntryKey) : Counted Expr := do
  match key.shorthand, endsShorthand (← upcoming) with
  | some name, true => pure (.identifier name key.span)
  | _, _ =>
    let _ ← lift (expect .colon "object literal")
    sub

def entry (sub : Counted Expr) : Counted (ObjectEntry Expr) := do
  let key ← entryKey sub
  let value ← entryValue sub key
  pure ⟨key.key, value, key.span.merge value.span⟩

def expectEnd : TokenReader Unit
  | [] => .ok ((), [])
  | l :: _ => .error (.unexpectedToken "end of expression" l.token.describe l.span)

def whole (sub : Counted Expr) : Counted Expr := do
  let e ← sub
  lift expectEnd
  pure e

def templatePart (sub : Counted Expr) : TemplateChunk → Counted (Part Expr)
  | .text s => pure (.text s)
  | .hole ⟨source, span⟩ =>
    match tokenize source with
    | .error e => fail (.lexical ⟨e.fault, e.span.relocate span⟩)
    | .ok [] => fail (.invalid "empty expression in template literal" span)
    | .ok tokens => do
      let e ← aside (tokens.map (·.relocate span)) (whole sub)
      pure (.hole e)

def templateParts (sub : Counted Expr) : List TemplateChunk → Counted (List (Part Expr))
  | [] => pure []
  | chunk :: chunks => do
    let part ← templatePart sub chunk
    let parts ← templateParts sub chunks
    pure (part :: parts)

/-- What starts with no bracket and is no template literal is one token. -/
def primary (sub : Counted Expr) : Counted Expr := do
  match ← upcoming with
  | ⟨.template chunks, span⟩ :: _ =>
    skip
    let parts ← templateParts sub chunks
    pure (.template parts span)
  | ⟨.symbol .leftParen, _⟩ :: _ =>
    skip
    let e ← sub
    let _ ← lift (expect .rightParen "parenthesised expression")
    pure e
  | ⟨.symbol .leftBracket, span⟩ :: _ =>
    skip
    let (list, close) ← listUntil sub .rightBracket "array literal"
    pure (.array list (span.merge close))
  | ⟨.symbol .leftBrace, span⟩ :: _ =>
    skip
    let (list, close) ← listUntil (entry sub) .rightBrace "object literal"
    pure (.object list (span.merge close))
  | _ => lift (Grammar.primary tooDeep)

def postfixes (sub : Counted Expr) : Nat → Expr → Counted Expr
  | 0, e => pure e
  | n + 1, e => do
    match ← upcoming with
    | ⟨.symbol .dot, _⟩ :: _ =>
      skip
      let (name, last) ← lift memberName
      postfixes sub n (.member e name (e.span.merge last))
    | ⟨.symbol .leftBracket, _⟩ :: _ =>
      skip
      let position ← sub
      let last ← lift (expect .rightBracket "index expression")
      postfixes sub n (.index e position (e.span.merge last))
    | ⟨.symbol .leftParen, _⟩ :: _ =>
      skip
      let (args, last) ← listUntil sub .rightParen "call arguments"
      postfixes sub n (.call e args (e.span.merge last))
    | _ => pure e

def accessed (sub : Counted Expr) : Counted Expr := do
  let e ← primary sub
  postfixes sub (← upcoming).length e

def prefixed (limit : Nat) (operand sub : Counted Expr) : Counted Expr := do
  match ← upcoming with
  | [] => accessed sub
  | l :: _ =>
    match unaryOp? l.token with
    | none => accessed sub
    | some op =>
      skip
      let e ← nested limit l.span operand
      pure (.unary op e (l.span.merge e.span))

/-- The place that a full expression is refused at. -/
def place : List Lexeme → Span
  | [] => .single 1 1 0
  | l :: _ => l.span

def full (limit : Nat) (c : Counted Expr) : Counted Expr := do
  nested limit (place (← upcoming)) c

mutual

/-- Reads a full expression, of `n` levels at most: a number above the limit is no bound. -/
def expression (limit : Nat) : Nat → Counted Expr
  | 0 => full limit (lift tooDeep)
  | n + 1 => full limit (conditional (unary limit n) (expression limit n))

def unary (limit : Nat) : Nat → Counted Expr
  | 0 => prefixed limit (lift tooDeep) (full limit (lift tooDeep))
  | n + 1 =>
    prefixed limit (unary limit n) (full limit (conditional (unary limit n) (expression limit n)))

end

/-- Reads a full expression from a depth on. -/
def expressionFrom (limit depth : Nat) (tokens : List Lexeme) : Except SyntaxError Expr × Machine :=
  (expression limit (limit + 1)).run ⟨tokens, depth, depth⟩

end Counted

end Grammar

end JsonStencil
