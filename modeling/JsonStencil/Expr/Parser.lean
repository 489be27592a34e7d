import JsonStencil.Expr.Basic
import JsonStencil.Token.Lexer

/-!
# Reading expressions

Operators from the loosest to the tightest: the conditional, then `??`, `||`, `&&`, equality,
comparison, sums and products, all of which associate to the left, then prefix operators and postfix
accesses and calls. Recursion is on the nesting budget, which full expressions and prefix operators
use up one by one and the code of a template literal shares with the expression around it.
-/

namespace JsonStencil

/-- Reads a part of a list of tokens and leaves the rest. -/
abbrev TokenReader (α : Type) := List Lexeme → Except SyntaxError (α × List Lexeme)

namespace Grammar

/-- Reads one given symbol. The context names the construct for the message at the end of input. -/
def expect (s : Symbol) (context : String) : TokenReader Span
  | [] => .error (.unexpectedEnd (Token.symbol s).describe (some context))
  | ⟨token, span⟩ :: rest =>
    if token = .symbol s then .ok (span, rest)
    else .error (.unexpectedToken (Token.symbol s).describe token.describe span)

def startsWithSymbol (s : Symbol) : List Lexeme → Bool
  | [] => false
  | l :: _ => l.token = .symbol s

def tooDeep {α : Type} : TokenReader α := fun tokens =>
  let span := match tokens with
    | [] => .single 1 1 0
    | l :: _ => l.span
  .error (.invalid ("expression nested too deeply (limit " ++ toString maxNesting ++ ")") span)

abbrev Joiner := Token → Option (Expr → Expr → Expr)

def operands (operand : TokenReader Expr) (join? : Joiner) : Nat → Expr → TokenReader Expr
  | 0, left, tokens => .ok (left, tokens)
  | _ + 1, left, [] => .ok (left, [])
  | n + 1, left, l :: rest =>
    match join? l.token with
    | none => .ok (left, l :: rest)
    | some join => do
      let (right, rest) ← operand rest
      operands operand join? n (join left right) rest

/-- A level of operators that associate to the left. Every operator is a token, so the number of
tokens bounds the number of operators. -/
def level (operand : TokenReader Expr) (join? : Joiner) : TokenReader Expr := fun tokens => do
  let (left, rest) ← operand tokens
  operands operand join? rest.length left rest

def joinNullish : Joiner
  | .symbol .questionQuestion => some (.joinLogical .nullish)
  | _ => none

def joinOr : Joiner
  | .symbol .orOr => some (.joinLogical .or)
  | _ => none

def joinAnd : Joiner
  | .symbol .andAnd => some (.joinLogical .and)
  | _ => none

def joinEquality : Joiner
  | .symbol .equal | .symbol .strictEqual => some (.joinBinary .equal)
  | .symbol .notEqual | .symbol .strictNotEqual => some (.joinBinary .notEqual)
  | _ => none

def joinComparison : Joiner
  | .symbol .less => some (.joinBinary .less)
  | .symbol .lessEqual => some (.joinBinary .lessEqual)
  | .symbol .greater => some (.joinBinary .greater)
  | .symbol .greaterEqual => some (.joinBinary .greaterEqual)
  | _ => none

def joinSum : Joiner
  | .symbol .plus => some (.joinBinary .add)
  | .symbol .minus => some (.joinBinary .sub)
  | _ => none

def joinProduct : Joiner
  | .symbol .star => some (.joinBinary .mul)
  | .symbol .slash => some (.joinBinary .div)
  | .symbol .percent => some (.joinBinary .rem)
  | _ => none

/-- The levels of operators from the tightest to the loosest. -/
def joiners : List Joiner :=
  [joinProduct, joinSum, joinComparison, joinEquality, joinAnd, joinOr, joinNullish]

def binaryLevels (unary : TokenReader Expr) : TokenReader Expr := joiners.foldl level unary

def conditional (unary branch : TokenReader Expr) : TokenReader Expr := fun tokens => do
  let (condition, rest) ← binaryLevels unary tokens
  if startsWithSymbol .question rest then
    let (onTrue, rest) ← branch (rest.drop 1)
    let (_, rest) ← expect .colon "conditional expression" rest
    let (onFalse, rest) ← branch rest
    .ok (.conditional condition onTrue onFalse (condition.span.merge onFalse.span), rest)
  else .ok (condition, rest)

/-- Reads items up to a closing symbol, `n` at most. A comma may follow the last one. -/
def items {α : Type} (item : TokenReader α) (close : Symbol) : Nat → TokenReader (List α)
  | 0, tokens => .ok ([], tokens)
  | n + 1, tokens =>
    if startsWithSymbol close tokens then .ok ([], tokens)
    else do
      let (first, rest) ← item tokens
      if startsWithSymbol .comma rest then
        let (more, rest) ← items item close n (rest.drop 1)
        .ok (first :: more, rest)
      else .ok ([first], rest)

def listUntil {α : Type} (item : TokenReader α) (close : Symbol) (context : String) :
    TokenReader (List α × Span) := fun tokens => do
  let (list, rest) ← items item close (tokens.length + 1) tokens
  let (span, rest) ← expect close context rest
  .ok ((list, span), rest)

/-- The key of an object entry, the name that may stand for its own value, and the span where the
entry starts. -/
structure EntryKey where
  key : PropertyKey Expr
  shorthand : Option String
  span : Span

def entryKey (sub : TokenReader Expr) : TokenReader EntryKey
  | [] => .error (.unexpectedEnd "property key" (some "object literal"))
  | ⟨token, span⟩ :: rest =>
    match token with
    | .identifier name => .ok (⟨.named name, some name, span⟩, rest)
    | .string s => .ok (⟨.named s, none, span⟩, rest)
    | .number x => .ok (⟨.named x.briefText, none, span⟩, rest)
    | .keyword k => .ok (⟨.named k.text, none, span⟩, rest)
    | .symbol .leftBracket => do
      let (e, rest) ← sub rest
      let (_, rest) ← expect .rightBracket "computed property key" rest
      .ok (⟨.computed e, none, span⟩, rest)
    | _ => .error (.unexpectedToken "property key" token.describe span)

def endsShorthand (tokens : List Lexeme) : Bool :=
  startsWithSymbol .comma tokens || startsWithSymbol .rightBrace tokens

def entryValue (sub : TokenReader Expr) (key : EntryKey) : TokenReader Expr := fun tokens =>
  match key.shorthand, endsShorthand tokens with
  | some name, true => .ok (.identifier name key.span, tokens)
  | _, _ => do
    let (_, rest) ← expect .colon "object literal" tokens
    sub rest

def entry (sub : TokenReader Expr) : TokenReader (ObjectEntry Expr) := fun tokens => do
  let (key, rest) ← entryKey sub tokens
  let (value, rest) ← entryValue sub key rest
  .ok (⟨key.key, value, key.span.merge value.span⟩, rest)

def whole (sub : TokenReader Expr) (tokens : List Lexeme) : Except SyntaxError Expr := do
  match ← sub tokens with
  | (e, []) => .ok e
  | (_, l :: _) => .error (.unexpectedToken "end of expression" l.token.describe l.span)

def templatePart (sub : TokenReader Expr) : TemplateChunk → Except SyntaxError (Part Expr)
  | .text s => .ok (.text s)
  | .hole ⟨source, span⟩ =>
    match tokenize source with
    | .error e => .error (.lexical ⟨e.fault, e.span.relocate span⟩)
    | .ok [] => .error (.invalid "empty expression in template literal" span)
    | .ok tokens => (whole sub (tokens.map (·.relocate span))).map .hole

def primary (sub : TokenReader Expr) : TokenReader Expr
  | [] => .error (.unexpectedEnd "expression" none)
  | ⟨token, span⟩ :: rest =>
    match token with
    | .keyword .true => .ok (.bool true span, rest)
    | .keyword .false => .ok (.bool false span, rest)
    | .keyword .null => .ok (.null span, rest)
    | .number x => .ok (.number x span, rest)
    | .string s => .ok (.string s span, rest)
    | .identifier name => .ok (.identifier name span, rest)
    | .template chunks => do
      let parts ← chunks.mapM (templatePart sub)
      .ok (.template parts span, rest)
    | .symbol .leftParen => do
      let (e, rest) ← sub rest
      let (_, rest) ← expect .rightParen "parenthesised expression" rest
      .ok (e, rest)
    | .symbol .leftBracket => do
      let ((list, close), rest) ← listUntil sub .rightBracket "array literal" rest
      .ok (.array list (span.merge close), rest)
    | .symbol .leftBrace => do
      let ((list, close), rest) ← listUntil (entry sub) .rightBrace "object literal" rest
      .ok (.object list (span.merge close), rest)
    | _ => .error (.unexpectedToken "expression" token.describe span)

def memberName : TokenReader (String × Span)
  | [] => .error (.unexpectedEnd "property name" (some "member access"))
  | ⟨token, span⟩ :: rest =>
    match token with
    | .identifier name => .ok ((name, span), rest)
    | .keyword k => .ok ((k.text, span), rest)
    | _ => .error (.unexpectedToken "property name after '.'" token.describe span)

def postfixes (sub : TokenReader Expr) : Nat → Expr → TokenReader Expr
  | 0, e, tokens => .ok (e, tokens)
  | _ + 1, e, [] => .ok (e, [])
  | n + 1, e, l :: rest =>
    match l.token with
    | .symbol .dot => do
      let ((name, last), rest) ← memberName rest
      postfixes sub n (.member e name (e.span.merge last)) rest
    | .symbol .leftBracket => do
      let (position, rest) ← sub rest
      let (last, rest) ← expect .rightBracket "index expression" rest
      postfixes sub n (.index e position (e.span.merge last)) rest
    | .symbol .leftParen => do
      let ((args, last), rest) ← listUntil sub .rightParen "call arguments" rest
      postfixes sub n (.call e args (e.span.merge last)) rest
    | _ => .ok (e, l :: rest)

def accessed (sub : TokenReader Expr) : TokenReader Expr := fun tokens => do
  let (e, rest) ← primary sub tokens
  postfixes sub rest.length e rest

def unaryOp? : Token → Option UnaryOp
  | .symbol .bang => some .not
  | .symbol .minus => some .minus
  | .symbol .plus => some .plus
  | _ => none

/-- A prefix operator with its operand, or anything below it. Without a reader of operands the
operator is nested too deeply. -/
def prefixed (operand : Option (TokenReader Expr)) (sub : TokenReader Expr) : TokenReader Expr
  | [] => accessed sub []
  | l :: rest =>
    match unaryOp? l.token, operand with
    | none, _ => accessed sub (l :: rest)
    | some _, none => tooDeep (l :: rest)
    | some op, some operand => do
      let (e, rest) ← operand rest
      .ok (.unary op e (l.span.merge e.span), rest)

mutual

/-- Reads a full expression within a nesting budget. -/
def expression : Nat → TokenReader Expr
  | 0 => tooDeep
  | budget + 1 => conditional (unary budget) (expression budget)

def unary : Nat → TokenReader Expr
  | 0 => prefixed none tooDeep
  | budget + 1 =>
    prefixed (some (unary budget)) (conditional (unary budget) (expression budget))

end

theorem expression_succ (budget : Nat) :
    expression (budget + 1) = conditional (unary budget) (expression budget) := by
  rw [expression]

theorem unary_zero : unary 0 = prefixed none (expression 0) := by rw [unary, expression]

theorem unary_succ (budget : Nat) :
    unary (budget + 1) = prefixed (some (unary budget)) (expression (budget + 1)) := by
  rw [unary, expression]

end Grammar

namespace Expr

def ofTokens (tokens : List Lexeme) : Except SyntaxError Expr :=
  Grammar.whole (Grammar.expression maxNesting) tokens

def parse (source : String) : Except SyntaxError Expr :=
  match tokenize source with
  | .error e => .error (.lexical e)
  | .ok tokens => ofTokens tokens

end Expr

end JsonStencil
