import JsonStencil.SyntaxError
import JsonStencil.Text.CharClass
import JsonStencil.Text.Hexadecimal
import JsonStencil.Token.Basic

/-!
# Reading tokens

A cursor walks over the source and carries the position of what is left. Every reader gives back the
cursor behind what it read, with no more characters left than before, and one that reads a token
leaves fewer, so reading all tokens ends.
-/

namespace JsonStencil

/-- How deeply sub-expressions, unary operators and template literals may nest. -/
def maxNesting : Nat := 48

structure Cursor where
  position : Position
  rest : List Char

namespace Cursor

def ofText (cs : List Char) : Cursor := ⟨.start, cs⟩

def skip (n : Nat) (cur : Cursor) : Cursor :=
  ⟨cur.position.after (cur.rest.take n), cur.rest.drop n⟩

/-- Moves over the longest front whose characters satisfy a predicate. -/
def skipWhile (p : Char → Bool) (cur : Cursor) : Cursor :=
  ⟨cur.position.after (cur.rest.takeWhile p), cur.rest.dropWhile p⟩

@[simp] theorem length_rest_skip (n : Nat) (cur : Cursor) :
    (cur.skip n).rest.length = cur.rest.length - n := List.length_drop

theorem length_rest_skip_le (n : Nat) (cur : Cursor) :
    (cur.skip n).rest.length ≤ cur.rest.length :=
  length_rest_skip n cur ▸ Nat.sub_le _ _

theorem length_rest_skip_lt {cur : Cursor} {c : Char} {cs : List Char} (h : cur.rest = c :: cs)
    (n : Nat) : (cur.skip (n + 1)).rest.length < cur.rest.length := by
  rw [length_rest_skip, h, List.length_cons]
  omega

theorem length_lt_of_rest_eq {cur : Cursor} {c d : Char} {cs : List Char}
    (h : cur.rest = c :: d :: cs) : cs.length < cur.rest.length := by
  rw [h, List.length_cons, List.length_cons]
  omega

theorem length_rest_skipWhile (p : Char → Bool) (cur : Cursor) :
    (cur.skipWhile p).rest.length ≤ cur.rest.length :=
  (List.dropWhile_sublist p).length_le

end Cursor

namespace Lexer

def isIdentifierStart (c : Char) : Bool := isAlphabetic c || c = '_' || c = '$'

def isIdentifierChar (c : Char) : Bool := isIdentifierStart c || isNumeric c

def isSeparator (c : Char) : Bool := c = ' ' || c = '\t' || c = '\r' || c = '\n'

def fail {α : Type} (fault : LexicalFault) (start : Position) (cur : Cursor) :
    Except LexicalError α :=
  .error ⟨fault, start.span cur.position⟩

def charOfHex? : List Char → Option Char
  | '+' :: cs => (readHex? cs).bind charOfNat?
  | cs => (readHex? cs).bind charOfNat?

def escapedChar? : Char → Option Char
  | 'n' => some '\n'
  | 't' => some '\t'
  | 'r' => some '\r'
  | '0' => some '\x00'
  | '\n' => some '\n'
  | c => if c ∈ ['\\', '\'', '"', '\x60', '$', '{', '}', '/'] then some c else none

def readEscape (cur : Cursor) : Except LexicalError (Char × Cursor) :=
  match cur.rest with
  | [] => fail .unterminatedString cur.position cur
  | 'u' :: '{' :: cs =>
    let hex := cs.takeWhile (· ≠ '}')
    let next := cur.skip (hex.length + 3)
    ((charOfHex? hex).map fun c => .ok (c, next)).getD (fail (.invalidEscape 'u') cur.position next)
  | 'u' :: cs =>
    let next := cur.skip 5
    ((charOfHex? (cs.take 4)).map fun c => .ok (c, next)).getD
      (fail (.invalidEscape 'u') cur.position next)
  | c :: _ =>
    let next := cur.skip 1
    ((escapedChar? c).map fun c => .ok (c, next)).getD (fail (.invalidEscape c) cur.position next)

section Escapes

variable {cur next : Cursor} {c : Char} {cs : List Char}

theorem readEscape_braces (h : cur.rest = 'u' :: '{' :: cs)
    (hc : charOfHex? (cs.takeWhile (· ≠ '}')) = some c) :
    readEscape cur = .ok (c, cur.skip ((cs.takeWhile (· ≠ '}')).length + 3)) := by
  rw [readEscape, h]
  simp only [hc, Option.map_some, Option.getD_some]

theorem readEscape_digits (h : cur.rest = 'u' :: cs) (hcs : cs.head? ≠ some '{')
    (hc : charOfHex? (cs.take 4) = some c) : readEscape cur = .ok (c, cur.skip 5) := by
  rw [readEscape, h]
  cases cs with
  | nil => simp only [hc, Option.map_some, Option.getD_some]
  | cons d ds =>
    split
    next heq => cases heq
    next heq =>
      cases heq
      exact absurd rfl hcs
    next heq =>
      cases heq
      simp only [hc, Option.map_some, Option.getD_some]
    next hu heq =>
      cases heq
      exact (hu rfl).elim

theorem readEscape_char {d : Char} (h : cur.rest = d :: cs) (hd : d ≠ 'u')
    (hc : escapedChar? d = some c) : readEscape cur = .ok (c, cur.skip 1) := by
  rw [readEscape, h]
  split
  next heq => cases heq
  next heq => exact (hd (List.cons.inj heq).1).elim
  next heq => exact (hd (List.cons.inj heq).1).elim
  next heq =>
    cases heq
    simp only [hc, Option.map_some, Option.getD_some]

theorem readEscape_cases (h : readEscape cur = .ok (c, next)) :
    (∃ cs, cur.rest = 'u' :: '{' :: cs ∧ charOfHex? (cs.takeWhile (· ≠ '}')) = some c ∧
      next = cur.skip ((cs.takeWhile (· ≠ '}')).length + 3)) ∨
    (∃ cs, cur.rest = 'u' :: cs ∧ cs.head? ≠ some '{' ∧ charOfHex? (cs.take 4) = some c ∧
      next = cur.skip 5) ∨
    ∃ d cs, cur.rest = d :: cs ∧ d ≠ 'u' ∧ escapedChar? d = some c ∧ next = cur.skip 1 := by
  have key {a : Option Char} {k : Nat} {e : LexicalError}
      (h : (a.map fun c => (.ok (c, cur.skip k) : Except LexicalError (Char × Cursor))).getD
        (.error e) = .ok (c, next)) : a = some c ∧ next = cur.skip k := by
    cases a with
    | none => cases h
    | some a =>
      cases h
      exact ⟨rfl, rfl⟩
  unfold readEscape at h
  split at h
  · cases h
  next cs hrest => exact .inl ⟨cs, hrest, key h⟩
  next cs hbrace hrest =>
    refine .inr (.inl ⟨cs, hrest, fun hcs => ?_, key h⟩)
    obtain ⟨ds, rfl⟩ := List.head?_eq_some_iff.1 hcs
    exact hbrace ds rfl
  next d cs _ hu hrest => exact .inr (.inr ⟨d, cs, hrest, hu, key h⟩)

theorem length_rest_of_readEscape (h : readEscape cur = .ok (c, next)) :
    next.rest.length ≤ cur.rest.length := by
  rcases readEscape_cases h with ⟨_, _, _, rfl⟩ | ⟨_, _, _, _, rfl⟩ | ⟨_, _, _, _, _, rfl⟩ <;>
    exact cur.length_rest_skip_le _

end Escapes

def readString (quote : Char) (start : Position) (cur : Cursor) :
    Except LexicalError (List Char × Cursor) :=
  match _ : cur.rest with
  | [] => fail .unterminatedString start cur
  | c :: _ =>
    if c = quote then .ok ([], cur.skip 1)
    else if c = '\\' then
      match _ : readEscape (cur.skip 1) with
      | .error e => .error e
      | .ok (c, next) => (readString quote start next).map fun (cs, last) => (c :: cs, last)
    else (readString quote start (cur.skip 1)).map fun (cs, last) => (c :: cs, last)
termination_by cur.rest.length
decreasing_by
  · exact Nat.lt_of_le_of_lt (length_rest_of_readEscape ‹_›) (Cursor.length_rest_skip_lt ‹_› 0)
  · exact Cursor.length_rest_skip_lt ‹_› 0

theorem length_rest_of_readString {quote : Char} {start : Position} {cur last : Cursor}
    {cs : List Char} (h : readString quote start cur = .ok (cs, last)) :
    last.rest.length ≤ cur.rest.length := by
  fun_induction readString quote start cur generalizing cs with
  | case1 => simp [fail] at h
  | case2 => grind [Cursor.length_rest_skip]
  | case3 => simp at h
  | case4 cur _ c next hesc _ _ ih =>
    obtain ⟨⟨ds, l⟩, hr, he⟩ := map_eq_ok_iff.1 h
    cases he
    exact Nat.le_trans (ih hr) (Nat.le_trans (length_rest_of_readEscape hesc)
      (Cursor.length_rest_skip_le 1 cur))
  | case5 cur c _ _ _ _ ih =>
    obtain ⟨⟨ds, l⟩, hr, he⟩ := map_eq_ok_iff.1 h
    cases he
    exact Nat.le_trans (ih hr) (Cursor.length_rest_skip_le 1 cur)

/-- What a character in the code of a template literal is inside of: braces with the number of those
opened in them, a string, the text of a nested template literal, or one of the two marks that take
the next character, a backslash and the dollar sign before a brace. -/
inductive CodeFrame where
  | braces (opened : Nat)
  | quote (q : Char)
  | text
  | escaped
  | opening
  deriving DecidableEq, Repr

namespace CodeFrame

def step (c : Char) (following : Option Char) : List CodeFrame → List CodeFrame
  | .braces opened :: outer =>
    if c = '}' then if opened = 0 then outer else .braces (opened - 1) :: outer
    else if c = '{' then .braces (opened + 1) :: outer
    else if c = '\'' ∨ c = '"' then .quote c :: .braces opened :: outer
    else if c = '\x60' then .text :: .braces opened :: outer
    else .braces opened :: outer
  | .quote q :: outer =>
    if c = '\\' then .escaped :: .quote q :: outer
    else if c = q then outer
    else .quote q :: outer
  | .text :: outer =>
    if c = '\\' then .escaped :: .text :: outer
    else if c = '\x60' then outer
    else if c = '$' ∧ following = some '{' then .opening :: .text :: outer
    else .text :: outer
  | .escaped :: outer => outer
  | .opening :: outer => .braces 0 :: outer
  | [] => []

def nesting (frames : List CodeFrame) : Nat := frames.countP (· matches .braces _)

def fault : List CodeFrame → LexicalFault
  | .quote _ :: _ | .escaped :: .quote _ :: _ => .unterminatedString
  | _ => .unterminatedTemplate

end CodeFrame

/-- Copies the code of a template literal up to its closing brace, and leaves the cursor behind
the brace. -/
def copyCode (start : Position) (frames : List CodeFrame) (position : Position) :
    List Char → Except LexicalError (List Char × Cursor)
  | [] => .error ⟨CodeFrame.fault frames, start.span position⟩
  | c :: cs =>
    match CodeFrame.step c cs.head? frames with
    | [] => .ok ([], ⟨position.advance c, cs⟩)
    | frame :: outer =>
      if maxNesting < CodeFrame.nesting (frame :: outer) then
        .error ⟨.nestedTooDeeply maxNesting, start.span (position.advance c)⟩
      else
        (copyCode start (frame :: outer) (position.advance c) cs).map fun (copied, last) =>
          (c :: copied, last)

theorem length_rest_of_copyCode {start position : Position} {frames : List CodeFrame}
    {cs copied : List Char} {last : Cursor}
    (h : copyCode start frames position cs = .ok (copied, last)) :
    last.rest.length < cs.length := by
  induction cs generalizing frames position copied with
  | nil => simp [copyCode] at h
  | cons c cs ih =>
    rw [copyCode] at h
    split at h
    · cases h
      simp
    · split at h
      · cases h
      · obtain ⟨⟨ds, l⟩, hr, he⟩ := map_eq_ok_iff.1 h
        cases he
        exact Nat.lt_succ_of_lt (ih hr)

def codeAt (start : Position) (copied : List Char) : CodeText :=
  ⟨.ofList copied, start.span (start.after copied)⟩

def readTemplate (start : Position) (cur : Cursor) :
    Except LexicalError (List (Char ⊕ CodeText) × Cursor) :=
  match _ : cur.rest with
  | [] => fail .unterminatedTemplate start cur
  | '\x60' :: _ => .ok ([], cur.skip 1)
  | '\\' :: _ =>
    match _ : readEscape (cur.skip 1) with
    | .error e => .error e
    | .ok (c, next) => (readTemplate start next).map fun (ps, last) => (.inl c :: ps, last)
  | '$' :: '{' :: cs =>
    match _ : copyCode start [.braces 0] (cur.skip 2).position cs with
    | .error e => .error e
    | .ok (copied, next) =>
      (readTemplate start next).map fun (ps, last) =>
        (.inr (codeAt (cur.skip 2).position copied) :: ps, last)
  | c :: _ => (readTemplate start (cur.skip 1)).map fun (ps, last) => (.inl c :: ps, last)
termination_by cur.rest.length
decreasing_by
  · exact Nat.lt_of_le_of_lt (length_rest_of_readEscape ‹_›) (Cursor.length_rest_skip_lt ‹_› 0)
  · exact Nat.lt_trans (length_rest_of_copyCode ‹_›) (Cursor.length_lt_of_rest_eq ‹_›)
  · exact Cursor.length_rest_skip_lt ‹_› 0

theorem length_rest_of_readTemplate {start : Position} {cur last : Cursor}
    {ps : List (Char ⊕ CodeText)} (h : readTemplate start cur = .ok (ps, last)) :
    last.rest.length ≤ cur.rest.length := by
  fun_induction readTemplate start cur generalizing ps with
  | case1 => simp [fail] at h
  | case2 => grind [Cursor.length_rest_skip]
  | case3 => simp at h
  | case4 cur _ _ c next hesc ih =>
    obtain ⟨⟨ds, l⟩, hr, he⟩ := map_eq_ok_iff.1 h
    cases he
    exact Nat.le_trans (ih hr) (Nat.le_trans (length_rest_of_readEscape hesc)
      (Cursor.length_rest_skip_le 1 cur))
  | case5 => simp at h
  | case6 cur cs hrest copied next hcode ih =>
    obtain ⟨⟨ds, l⟩, hr, he⟩ := map_eq_ok_iff.1 h
    cases he
    exact Nat.le_of_lt (Nat.lt_of_le_of_lt (ih hr)
      (Nat.lt_trans (length_rest_of_copyCode hcode) (Cursor.length_lt_of_rest_eq hrest)))
  | case7 cur _ _ _ _ _ _ ih =>
    obtain ⟨⟨ds, l⟩, hr, he⟩ := map_eq_ok_iff.1 h
    cases he
    exact Nat.le_trans (ih hr) (Cursor.length_rest_skip_le 1 cur)

def isNumberBody (c : Char) : Bool := c.isDigit || c = '.'

/-- The exponent that a text starts with, its mark in lower case. -/
def exponentChars : List Char → List Char
  | [] => []
  | c :: cs =>
    if c = 'e' ∨ c = 'E' then
      'e' :: match cs with
        | '+' :: ds => '+' :: ds.takeWhile Char.isDigit
        | '-' :: ds => '-' :: ds.takeWhile Char.isDigit
        | ds => ds.takeWhile Char.isDigit
    else []

/-- The number with a given text, unless a word follows it. -/
def numberToken (text : List Char) (start : Position) (next : Cursor) :
    Except LexicalError (Token × Cursor) :=
  if next.rest.head?.any isIdentifierStart then fail (.invalidNumber (.ofList text)) start next
  else match Decimal.read? text with
    | some d => .ok (.number (d.toBinary64 false), next)
    | none => fail (.invalidNumber (.ofList text)) start next

/-- Reads the rest of a number behind a front that stands for what was read before. -/
def readNumber (front : List Char) (start : Position) (cur : Cursor) :
    Except LexicalError (Token × Cursor) :=
  let body := cur.rest.takeWhile isNumberBody
  let exponent := exponentChars (cur.skipWhile isNumberBody).rest
  numberToken (front ++ body ++ exponent) start
    ((cur.skipWhile isNumberBody).skip exponent.length)

theorem eq_of_numberToken {text : List Char} {start : Position} {next last : Cursor} {token : Token}
    (h : numberToken text start next = .ok (token, last)) : last = next := by
  unfold numberToken fail at h
  split at h
  · cases h
  · split at h <;> cases h
    rfl

theorem length_rest_of_readNumber {front : List Char} {start : Position} {cur last : Cursor}
    {token : Token} (h : readNumber front start cur = .ok (token, last)) :
    last.rest.length ≤ (cur.skipWhile isNumberBody).rest.length := by
  rw [eq_of_numberToken h, Cursor.length_rest_skip]
  exact Nat.sub_le _ _

def readWord (cur : Cursor) : Token × Cursor :=
  let word := String.ofList (cur.rest.takeWhile isIdentifierChar)
  let token := match Keyword.ofText? word with
    | some k => .keyword k
    | none => .identifier word
  (token, cur.skipWhile isIdentifierChar)

/-- The doubled form of a character that is no token alone. -/
def suggestion? (c : Char) : Option String :=
  if c ∈ ['=', '&', '|'] then some (.ofList [c, c]) else none

def readToken (c : Char) (cur : Cursor) : Except LexicalError (Token × Cursor) :=
  if c = '\'' ∨ c = '"' then
    (readString c cur.position (cur.skip 1)).map fun (cs, next) => (.string (.ofList cs), next)
  else if c = '\x60' then
    (readTemplate cur.position (cur.skip 1)).map fun (ps, next) =>
      (.template (Part.gather [] ps), next)
  else if c.isDigit then readNumber [] cur.position cur
  else if c = '.' ∧ (cur.skip 1).rest.head?.any Char.isDigit then
    readNumber ['0', '.'] cur.position (cur.skip 1)
  else match Symbol.ofFront? cur.rest with
    | some s => .ok (.symbol s, cur.skip s.text.length)
    | none =>
      if isIdentifierStart c then .ok (readWord cur)
      else fail (.unexpectedChar c (suggestion? c)) cur.position (cur.skip 1)

/-- The ways to read a token, by what it starts with. -/
inductive TokenRead (c : Char) (cur : Cursor) : Token → Cursor → Prop
  | string {s : List Char} {last : Cursor} : c = '\'' ∨ c = '"' →
      readString c cur.position (cur.skip 1) = .ok (s, last) →
      TokenRead c cur (.string (.ofList s)) last
  | template {ps : List (Char ⊕ CodeText)} {last : Cursor} : c = '\x60' →
      readTemplate cur.position (cur.skip 1) = .ok (ps, last) →
      TokenRead c cur (.template (Part.gather [] ps)) last
  | number {token : Token} {last : Cursor} : c.isDigit →
      readNumber [] cur.position cur = .ok (token, last) → TokenRead c cur token last
  | fraction {token : Token} {last : Cursor} : c = '.' ∧ (cur.skip 1).rest.head?.any Char.isDigit →
      readNumber ['0', '.'] cur.position (cur.skip 1) = .ok (token, last) →
      TokenRead c cur token last
  | symbol {s : Symbol} : Symbol.ofFront? cur.rest = some s →
      TokenRead c cur (.symbol s) (cur.skip s.text.length)
  | word : isIdentifierStart c → TokenRead c cur (readWord cur).1 (readWord cur).2

theorem tokenRead_of_readToken {c : Char} {cur last : Cursor} {token : Token}
    (h : readToken c cur = .ok (token, last)) : TokenRead c cur token last := by
  unfold readToken at h
  split at h
  next hquote =>
    obtain ⟨⟨s, l⟩, hr, he⟩ := map_eq_ok_iff.1 h
    cases he
    exact .string hquote hr
  next =>
    split at h
    next hback =>
      obtain ⟨⟨ps, l⟩, hr, he⟩ := map_eq_ok_iff.1 h
      cases he
      exact .template hback hr
    next =>
      split at h
      next hdigit => exact .number hdigit h
      next =>
        split at h
        next hpoint => exact .fraction hpoint h
        next =>
          split at h
          next s hs =>
            cases h
            exact .symbol hs
          next =>
            split at h
            next hstart =>
              cases h
              exact .word hstart
            next => cases h

theorem length_rest_of_readToken {c : Char} {cs : List Char} {cur last : Cursor} {token : Token}
    (hc : cur.rest = c :: cs) (h : readToken c cur = .ok (token, last)) :
    last.rest.length < cur.rest.length := by
  have hskip : ((cur.skip 1).rest.length) < cur.rest.length := by simp [hc]
  have hwhile {p : Char → Bool} (hp : p c) :
      (cur.skipWhile p).rest.length < cur.rest.length := by
    have := (List.dropWhile_sublist (l := cs) p).length_le
    simp only [Cursor.skipWhile, hc, List.dropWhile_cons, hp, if_true, List.length_cons]
    omega
  cases tokenRead_of_readToken h with
  | string _ hr => exact Nat.lt_of_le_of_lt (length_rest_of_readString hr) hskip
  | template _ hr => exact Nat.lt_of_le_of_lt (length_rest_of_readTemplate hr) hskip
  | number hd hr =>
    exact Nat.lt_of_le_of_lt (length_rest_of_readNumber hr) (hwhile (by simp [isNumberBody, hd]))
  | fraction _ hr =>
    exact Nat.lt_of_le_of_lt (Nat.le_trans (length_rest_of_readNumber hr)
      (Cursor.length_rest_skipWhile _ _)) hskip
  | @symbol s _ =>
    have : 0 < s.text.length := by cases s <;> decide
    rw [Cursor.length_rest_skip, hc, List.length_cons]
    omega
  | word hs => exact hwhile (by simp [isIdentifierChar, hs])

def readTokens (cur : Cursor) : Except LexicalError (List Lexeme) :=
  match _ : cur.rest with
  | [] => .ok []
  | c :: _ =>
    if isSeparator c then readTokens (cur.skip 1)
    else match _ : readToken c cur with
      | .error e => .error e
      | .ok (token, next) =>
        (readTokens next).map (⟨token, cur.position.span next.position⟩ :: ·)
termination_by cur.rest.length
decreasing_by
  · exact Cursor.length_rest_skip_lt ‹_› 0
  · exact length_rest_of_readToken ‹_› ‹_›

end Lexer

def tokenize (source : String) : Except LexicalError (List Lexeme) :=
  Lexer.readTokens (.ofText source.toList)

end JsonStencil
