import JsonStencil.Proofs.Failures
import JsonStencil.Proofs.Grammar.Readings

/-!
# What readers leave and refuse

A contract gives classes of token lists, one for each nesting budget, and the errors that are
allowed. Once single tokens keep it, every reader does: from tokens of the class of its budget it
leaves tokens of that class, or it fails with an allowed error.
-/

namespace JsonStencil

namespace Grammar

variable {α β : Type}

/-- The refusal of tokens that nest too deeply, at the given place. -/
def tooDeepAt (span : Span) : SyntaxError :=
  .invalid ("expression nested too deeply (limit " ++ toString maxNesting ++ ")") span

/-- The reader fails with an allowed error, or what it leaves is in the class. -/
inductive Settles (S : List Lexeme → Prop) (R : SyntaxError → Prop) :
    Except SyntaxError (α × List Lexeme) → Prop
  | refused {e : SyntaxError} : R e → Settles S R (.error e)
  | read {a : α} {rest : List Lexeme} : S rest → Settles S R (.ok (a, rest))

namespace Settles

variable {S S' : List Lexeme → Prop} {R : SyntaxError → Prop}

theorem bind {x : Except SyntaxError (α × List Lexeme)}
    {f : α × List Lexeme → Except SyntaxError (β × List Lexeme)} (hx : Settles S R x)
    (hf : ∀ a rest, S rest → Settles S' R (f (a, rest))) : Settles S' R (x >>= f) := by
  cases hx with
  | refused he => exact .refused he
  | read hrest => exact hf _ _ hrest

theorem bind_of_failsWith {x : Except SyntaxError α}
    {f : α → Except SyntaxError (β × List Lexeme)} (hx : FailsWith R x)
    (hf : ∀ a, Settles S R (f a)) : Settles S R (x >>= f) := by
  cases x with
  | error e => exact .refused (hx e rfl)
  | ok a => exact hf a

theorem failsWith {x : Except SyntaxError (α × List Lexeme)} (h : Settles S R x) :
    FailsWith R x := by
  cases h with
  | refused he => exact .error he
  | read => exact .ok _

theorem mono {x : Except SyntaxError (α × List Lexeme)} (h : Settles S R x)
    (hS : ∀ ls, S ls → S' ls) : Settles S' R x := by
  cases h with
  | refused he => exact .refused he
  | read hrest => exact .read (hS _ hrest)

end Settles

def ReaderSettles (S S' : List Lexeme → Prop) (R : SyntaxError → Prop) (reader : TokenReader α) :
    Prop :=
  ∀ ls, S ls → Settles S' R (reader ls)

/-- The classes of token lists by the budget for reading them, with the allowed errors. A token that
is passed takes a list to the next smaller class. -/
structure Contract (S : Nat → List Lexeme → Prop) (R : SyntaxError → Prop) : Prop where
  mono : ∀ n ls, S n ls → S (n + 1) ls
  tail : ∀ n l ls, S n (l :: ls) → S n ls
  pass : ∀ n l ls, S (n + 1) (l :: ls) → S n ls
  ended : ∀ expected context, R (.unexpectedEnd expected context)
  unexpected : ∀ n l ls expected found, S n (l :: ls) → R (.unexpectedToken expected found l.span)
  tooDeep : S 0 [] → R (tooDeepAt (.single 1 1 0))
  tooDeepAt : ∀ l ls, S 1 (l :: ls) → R (tooDeepAt l.span)
  code : ∀ n chunks span ls code, S (n + 1) (⟨.template chunks, span⟩ :: ls) → .hole code ∈ chunks →
    (∀ e, tokenize code.source = .error e → R (.lexical ⟨e.fault, e.span.relocate code.span⟩)) ∧
    R (.invalid "empty expression in template literal" code.span) ∧
    ∀ ts, tokenize code.source = .ok ts → S n (ts.map (·.relocate code.span))

namespace Contract

variable {S : Nat → List Lexeme → Prop} {R : SyntaxError → Prop} (C : Contract S R) {n : Nat}

include C

theorem drop_one {ls : List Lexeme} (h : S n ls) : S n (ls.drop 1) := by
  cases ls with
  | nil => exact h
  | cons l ls => exact C.tail _ _ _ h

theorem expect (s : Symbol) (context : String) :
    ReaderSettles (S n) (S n) R (expect s context) := by
  intro ls hls
  cases ls with
  | nil => exact .refused (C.ended _ _)
  | cons l ls =>
    rw [Grammar.expect]
    split
    · exact .read (C.tail _ _ _ hls)
    · exact .refused (C.unexpected _ _ _ _ _ hls)

section Levels

variable {operand : TokenReader Expr}

theorem operands (ho : ReaderSettles (S (n + 1)) (S n) R operand) (join? : Joiner) (k : Nat)
    (left : Expr) : ReaderSettles (S n) (S n) R (operands operand join? k left) := by
  induction k generalizing left with
  | zero => exact fun _ hls => .read hls
  | succ k ih =>
    intro ls hls
    cases ls with
    | nil => exact .read hls
    | cons l ls =>
      rw [Grammar.operands]
      split
      · exact .read hls
      · exact (ho ls (C.mono _ _ (C.tail _ _ _ hls))).bind fun right rest hrest => ih _ rest hrest

theorem level (ho : ReaderSettles (S (n + 1)) (S n) R operand) (join? : Joiner) :
    ReaderSettles (S (n + 1)) (S n) R (level operand join?) :=
  fun ls hls => (ho ls hls).bind fun left rest hrest => C.operands ho join? _ left rest hrest

theorem binaryLevels (ho : ReaderSettles (S (n + 1)) (S n) R operand) :
    ReaderSettles (S (n + 1)) (S n) R (binaryLevels operand) :=
  binaryLevels_induction (motive := fun reader _ => ReaderSettles (S (n + 1)) (S n) R reader)
    (U := Phrases.Nothing) ho fun join? _ _ _ h => C.level h join?

end Levels

theorem conditional {unary branch : TokenReader Expr}
    (hu : ReaderSettles (S (n + 1)) (S n) R unary) (hb : ReaderSettles (S n) (S n) R branch) :
    ReaderSettles (S (n + 1)) (S n) R (conditional unary branch) := by
  refine fun ls hls => (C.binaryLevels hu ls hls).bind fun condition rest hrest => ?_
  dsimp only
  split
  · refine (hb _ (C.drop_one hrest)).bind fun onTrue rest hrest => ?_
    refine (C.expect _ _ rest hrest).bind fun colon rest hrest => ?_
    exact (hb rest hrest).bind fun onFalse rest hrest => .read hrest
  · exact .read hrest

section Lists

variable {item : TokenReader α}

theorem items (hi : ReaderSettles (S n) (S n) R item) (close : Symbol) (k : Nat) :
    ReaderSettles (S n) (S n) R (items item close k) := by
  induction k with
  | zero => exact fun _ hls => .read hls
  | succ k ih =>
    intro ls hls
    rw [Grammar.items]
    split
    · exact .read hls
    · refine (hi ls hls).bind fun first rest hrest => ?_
      dsimp only
      split
      · exact (ih _ (C.drop_one hrest)).bind fun more rest hrest => .read hrest
      · exact .read hrest

theorem listUntil (hi : ReaderSettles (S n) (S n) R item) (close : Symbol) (context : String) :
    ReaderSettles (S n) (S n) R (listUntil item close context) := fun ls hls =>
  (C.items hi close _ ls hls).bind fun _ rest hrest =>
    (C.expect close context rest hrest).bind fun _ _ hrest => .read hrest

end Lists

section Sub

variable {sub : TokenReader Expr} (hs : ReaderSettles (S n) (S n) R sub)

include hs

theorem entryKey : ReaderSettles (S n) (S n) R (entryKey sub) := by
  intro ls hls
  cases ls with
  | nil => exact .refused (C.ended _ _)
  | cons l ls =>
    obtain ⟨t, span⟩ := l
    rw [entryKey.eq_def]
    dsimp only
    split
    case h_5 =>
      exact (hs ls (C.tail _ _ _ hls)).bind fun e rest hrest =>
        (C.expect _ _ rest hrest).bind fun _ _ hrest => .read hrest
    case h_6 => exact .refused (C.unexpected _ _ _ _ _ hls)
    all_goals exact .read (C.tail _ _ _ hls)

theorem entryValue (key : EntryKey) : ReaderSettles (S n) (S n) R (entryValue sub key) := by
  intro ls hls
  unfold Grammar.entryValue
  split
  · exact .read hls
  · exact (C.expect _ _ ls hls).bind fun _ rest hrest => hs rest hrest

theorem entry : ReaderSettles (S n) (S n) R (entry sub) := fun ls hls =>
  (C.entryKey hs ls hls).bind fun key rest hrest =>
    (C.entryValue hs key rest hrest).bind fun _ _ hrest => .read hrest

theorem whole {ls : List Lexeme} (hls : S n ls) : FailsWith R (whole sub ls) := by
  refine (hs ls hls).failsWith.bind fun x hx => ?_
  have hsettles := hs ls hls
  rw [hx] at hsettles
  cases hsettles with
  | @read e rest hrest =>
    cases rest with
    | nil => exact .ok e
    | cons l rest => exact .error (C.unexpected _ _ _ _ _ hrest)

theorem templatePart {chunks : List TemplateChunk} {span : Span} {ls : List Lexeme}
    (hls : S (n + 1) (⟨.template chunks, span⟩ :: ls)) {chunk : TemplateChunk}
    (hchunk : chunk ∈ chunks) : FailsWith R (templatePart sub chunk) := by
  cases chunk with
  | text s => exact .ok _
  | hole code =>
    obtain ⟨hlexical, hempty, htokens⟩ := C.code _ _ _ _ _ hls hchunk
    simp only [Grammar.templatePart]
    split
    next e he => exact .error (hlexical e he)
    next => exact .error hempty
    next ts _ hts => exact (C.whole hs (htokens ts hts)).map _

theorem primary : ReaderSettles (S (n + 1)) (S n) R (primary sub) := by
  intro ls hls
  cases ls with
  | nil => exact .refused (C.ended _ _)
  | cons l ls =>
    have hrest := C.pass _ _ _ hls
    obtain ⟨t, span⟩ := l
    cases t with
    | keyword k => cases k <;> exact .read hrest
    | identifier | string | number => exact .read hrest
    | template chunks =>
      exact Settles.bind_of_failsWith (.mapM fun chunk => C.templatePart hs hls) fun parts =>
        .read hrest
    | symbol s =>
      cases s with
      | leftParen =>
        exact (hs ls hrest).bind fun e rest hrest =>
          (C.expect _ _ rest hrest).bind fun _ _ hrest => .read hrest
      | leftBracket =>
        exact (C.listUntil hs _ _ ls hrest).bind fun _ _ hrest => .read hrest
      | leftBrace =>
        exact (C.listUntil (C.entry hs) _ _ ls hrest).bind fun _ _ hrest => .read hrest
      | _ => exact .refused (C.unexpected _ _ _ _ _ hls)

omit hs in
theorem memberName : ReaderSettles (S n) (S n) R memberName := by
  intro ls hls
  cases ls with
  | nil => exact .refused (C.ended _ _)
  | cons l ls =>
    obtain ⟨t, span⟩ := l
    cases t with
    | identifier | keyword => exact .read (C.tail _ _ _ hls)
    | _ => exact .refused (C.unexpected _ _ _ _ _ hls)

theorem postfixes (k : Nat) (e : Expr) : ReaderSettles (S n) (S n) R (postfixes sub k e) := by
  induction k generalizing e with
  | zero => exact fun _ hls => .read hls
  | succ k ih =>
    intro ls hls
    cases ls with
    | nil => exact .read hls
    | cons l ls =>
      have htail := C.tail _ _ _ hls
      rw [Grammar.postfixes]
      split
      · exact (C.memberName ls htail).bind fun _ rest hrest => ih _ rest hrest
      · exact (hs ls htail).bind fun position rest hrest =>
          (C.expect _ _ rest hrest).bind fun _ rest hrest => ih _ rest hrest
      · exact (C.listUntil hs _ _ ls htail).bind fun _ rest hrest => ih _ rest hrest
      · exact .read hls

theorem accessed : ReaderSettles (S (n + 1)) (S n) R (accessed sub) :=
  fun ls hls => (C.primary hs ls hls).bind fun e rest hrest => C.postfixes hs _ e rest hrest

theorem prefixed {operand : TokenReader Expr} (ho : ReaderSettles (S n) (S n) R operand) :
    ReaderSettles (S (n + 1)) (S n) R (prefixed (some operand) sub) := by
  intro ls hls
  cases ls with
  | nil => exact C.accessed hs [] hls
  | cons l ls =>
    cases hop : unaryOp? l.token with
    | none =>
      simp only [Grammar.prefixed, hop]
      exact C.accessed hs _ hls
    | some op =>
      simp only [Grammar.prefixed, hop]
      exact (ho ls (C.pass _ _ _ hls)).bind fun _ _ hrest => .read hrest

end Sub

theorem prefixed_none {sub : TokenReader Expr} (hs : ReaderSettles (S 0) (S 0) R sub) :
    ReaderSettles (S 1) (S 0) R (Grammar.prefixed none sub) := by
  intro ls hls
  cases ls with
  | nil => exact C.accessed hs [] hls
  | cons l ls =>
    cases hop : unaryOp? l.token with
    | none =>
      simp only [Grammar.prefixed, hop]
      exact C.accessed hs _ hls
    | some op =>
      simp only [Grammar.prefixed, hop]
      exact .refused (C.tooDeepAt l ls hls)

theorem expression_unary (n : Nat) : ReaderSettles (S n) (S n) R (expression n) ∧
    ReaderSettles (S (n + 1)) (S n) R (unary n) := by
  refine expression_unary_induction (fun n reader => ReaderSettles (S n) (S n) R reader)
    (fun n reader => ReaderSettles (S (n + 1)) (S n) R reader) ?_ ?_ ?_ ?_ n
  · intro ls hls
    cases ls with
    | nil => exact .refused (C.tooDeep hls)
    | cons l ls => exact .refused (C.tooDeepAt l ls (C.mono _ _ hls))
  · exact fun n hunary hfull ls hls => (C.conditional hunary hfull ls hls).mono (C.mono n)
  · exact fun hfull => C.prefixed_none hfull
  · exact fun n hunary hfull => C.prefixed hfull fun ls hls => (hunary ls hls).mono (C.mono n)

end Contract

end Grammar

end JsonStencil
