import JsonStencil.Outer.PatternClass

/-!
# Patterns

Regular expressions over characters with assertions about places. Running a pattern takes a set of
places in a text to the set of places where a match from one of them can end, so greedy and lazy
repetition are the same.
-/

namespace JsonStencil

inductive CharSet where
  | none
  | range (first last : Char)
  | digit
  | space
  | word
  | complement (s : CharSet)
  | union (s t : CharSet)
  | inter (s t : CharSet)
  /-- The set with all case variants of its members. -/
  | anyCase (s : CharSet)
  deriving DecidableEq, Repr

namespace CharSet

def contains : CharSet → Char → Bool
  | .none, _ => false
  | .range first last, c => first ≤ c && c ≤ last
  | .digit, c => isDecimalDigit c
  | .space, c => isBlank c
  | .word, c => isWordChar c
  | .complement s, c => !s.contains c
  | .union s t, c => s.contains c || t.contains c
  | .inter s t, c => s.contains c && t.contains c
  | .anyCase s, c => (caseVariants c).any s.contains

def single (c : Char) : CharSet := .range c c

def diff (s t : CharSet) : CharSet := .inter s (.complement t)

end CharSet

inductive Assertion where
  | textStart | textEnd | lineStart | lineEnd
  | wordBoundary | noWordBoundary | wordStart | wordEnd | wordStartHalf | wordEndHalf
  deriving DecidableEq, Repr

/-- Whether an assertion holds between two neighbours, of which the ends of a text have one. -/
def Assertion.holds (before after : Option Char) : Assertion → Bool
  | .textStart => before.isNone
  | .textEnd => after.isNone
  | .lineStart => before.all (· = '\n')
  | .lineEnd => after.all (· = '\n')
  | .wordBoundary => before.any isWordChar != after.any isWordChar
  | .noWordBoundary => before.any isWordChar == after.any isWordChar
  | .wordStart => !before.any isWordChar && after.any isWordChar
  | .wordEnd => before.any isWordChar && !after.any isWordChar
  | .wordStartHalf => !before.any isWordChar
  | .wordEndHalf => !after.any isWordChar

inductive Pattern where
  | empty
  | set (s : CharSet)
  | assertion (a : Assertion)
  | sequence (p q : Pattern)
  | choice (p q : Pattern)
  /-- At least `min` times and, if there is one, at most `max` times. -/
  | repeated (p : Pattern) (min : Nat) (max : Option Nat)
  deriving DecidableEq, Repr

namespace Pattern

def before? (text : Array Char) (place : Nat) : Option Char :=
  if place = 0 then none else text[place - 1]?

def fresh (seen : List Nat) : List Nat → List Nat
  | [] => []
  | place :: places =>
    if place ∈ seen then fresh seen places else place :: fresh (place :: seen) places

def iterate (step : List Nat → List Nat) : Nat → List Nat → List Nat
  | 0, places => places
  | n + 1, places => iterate step n (fresh [] (step places))

/-- All places reached by up to `n` steps from the newest of the places seen. -/
def reach (step : List Nat → List Nat) : Nat → List Nat → List Nat → List Nat
  | 0, seen, _ => seen
  | n + 1, seen, newest =>
    match fresh seen (step newest) with
    | [] => seen
    | next => reach step n (seen ++ next) next

def run (text : Array Char) : Pattern → List Nat → List Nat
  | .empty, places => places
  | .set s, places => (places.filter fun place => text[place]?.any s.contains).map (· + 1)
  | .assertion a, places => places.filter fun place => a.holds (before? text place) text[place]?
  | .sequence p q, places => q.run text (p.run text places)
  | .choice p q, places => fresh [] (p.run text places ++ q.run text places)
  | .repeated p min max, places =>
    let needed := iterate (p.run text) min places
    let further := match max with
      | none => text.size + 1
      | some max => max - min
    reach (p.run text) further needed needed

def matchesIn (p : Pattern) (text : String) : Bool :=
  let cs := text.toList.toArray
  !(p.run cs (List.range (cs.size + 1))).isEmpty

end Pattern

end JsonStencil
