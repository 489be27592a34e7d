import JsonStencil.Text.Search

/-!
# Positions and spans

A position counts lines and columns from one and bytes from zero. A span is a byte range with the
line and column of its start.
-/

namespace JsonStencil

structure Position where
  line : Nat
  column : Nat
  offset : Nat
  deriving DecidableEq, Repr

namespace Position

def start : Position := ⟨1, 1, 0⟩

def advance (p : Position) (c : Char) : Position :=
  if c = '\n' then ⟨p.line + 1, 1, p.offset + c.utf8Size⟩
  else ⟨p.line, p.column + 1, p.offset + c.utf8Size⟩

def after (p : Position) (cs : List Char) : Position := cs.foldl advance p

theorem after_append (p : Position) (cs ds : List Char) :
    p.after (cs ++ ds) = (p.after cs).after ds := List.foldl_append

theorem offset_after (p : Position) (cs : List Char) :
    (p.after cs).offset = p.offset + byteLength cs := by
  induction cs generalizing p with
  | nil => rfl
  | cons c cs ih =>
    rw [after, List.foldl_cons, ← after, ih, byteLength_cons]
    unfold advance
    split <;> simp [Nat.add_assoc]

end Position

structure Span where
  line : Nat
  column : Nat
  start : Nat
  stop : Nat
  deriving DecidableEq, Repr

def Position.span (p q : Position) : Span := ⟨p.line, p.column, p.offset, q.offset⟩

namespace Span

def single (line column offset : Nat) : Span := ⟨line, column, offset, offset + 1⟩

/-- The smallest byte range that covers both spans. On different lines the column stays that of the
first span. -/
def merge (a b : Span) : Span where
  line := min a.line b.line
  column := if a.line = b.line then min a.column b.column else a.column
  start := min a.start b.start
  stop := max a.stop b.stop

/-- Moves a span of a part of a text into the whole text, `base` being where the part starts. Only
columns on the first line of the part move. -/
def relocate (a base : Span) : Span where
  line := base.line + a.line - 1
  column := if a.line = 1 then base.column + a.column - 1 else a.column
  start := base.start + a.start
  stop := base.start + a.stop

end Span

end JsonStencil
