import JsonStencil.Proofs.Grammar.Extent
import JsonStencil.Proofs.Grammar.Progress
import JsonStencil.Proofs.Grammar.Unbounded

/-!
# Reading ends

A loop takes a token each time it is run. A reader that calls itself does so with less to read: with
fewer tokens, or with the code of a template literal, which is shorter than the literal. So the
readers without bounds end, even where no nesting limit stops them, and the counts that the other
readers give their loops are never used up.
-/

namespace JsonStencil

namespace Grammar

variable {α β : Type}

namespace Unbounded

/-- A budget of so many levels, or none at all where nothing is limited. -/
def budgetOf (limited : Bool) (n : Nat) : Option Nat := bif limited then some n else none

/-- Where nothing is limited, the tokens nest less than the number of levels. -/
def Fits (limited : Bool) (n : Nat) (ls : List Lexeme) : Prop := limited = false → extent ls < n

namespace Fits

variable {limited : Bool} {n : Nat} {l : Lexeme} {ls used rest : List Lexeme}

theorem of_limited : Fits true n ls := fun hl => absurd hl (by decide)

theorem succ (h : Fits limited n ls) : Fits limited (n + 1) ls := fun hl => Nat.lt_succ_of_lt (h hl)

theorem append (h : Fits limited n (used ++ rest)) : Fits limited n rest := by
  intro hl
  have hlt := h hl
  rw [extent_append] at hlt
  omega

theorem tail (h : Fits limited n (l :: ls)) : Fits limited n ls := by
  rw [← List.singleton_append] at h
  exact h.append

theorem drop_one (h : Fits limited n ls) : Fits limited n (ls.drop 1) := by
  rw [← List.take_append_drop 1 ls] at h
  exact h.append

/-- Tokens that are taken make room for a level. -/
theorem consumed (h : Fits limited (n + 1) (used ++ rest)) (hused : used ≠ []) :
    Fits limited n rest := by
  intro hl
  have hlt := h hl
  have hpos := extent_pos hused
  rw [extent_append] at hlt
  omega

theorem pass (h : Fits limited (n + 1) (l :: ls)) : Fits limited n ls := by
  rw [← List.singleton_append] at h
  exact h.consumed (List.cons_ne_nil l [])

/-- The code in a token nests less than the token. -/
theorem code {chunks : List TemplateChunk} {span : Span} {code : CodeText} {ts : List Lexeme}
    (h : Fits limited (n + 1) (⟨.template chunks, span⟩ :: ls)) (hcode : .hole code ∈ chunks)
    (hts : tokenize code.source = .ok ts) : Fits limited n (ts.map (·.relocate code.span)) := by
  intro hl
  have hlt := h hl
  have hlength := length_le_longestCode hcode
  have hextent := extent_le_of_tokenize hts
  simp only [extent, Token.extent] at hlt
  rw [extent_relocate]
  omega

end Fits

/-- From tokens of the class, the reading ends as the reader does. -/
def EndsAs (S : List Lexeme → Prop) (run : Nat → Reader α) (reader : TokenReader α) : Prop :=
  ∀ ls, S ls → EndsWith (run · ls) (reader ls)

variable {limited : Bool} {n : Nat}

section Loops

/-- A loop over items with commas between them is run at most once for each token. -/
theorem separated_endsAs {item : Nat → Reader α} {loop : Nat → Reader (List α)}
    {reader : TokenReader α} {close : Symbol}
    (hloop : ∀ clock ls, loop (clock + 1) ls = if startsWithSymbol close ls then pure ([], ls)
      else do
        let (first, rest) ← item clock ls
        if startsWithSymbol .comma rest then
          let (more, rest) ← loop clock (rest.drop 1)
          pure (first :: more, rest)
        else pure ([first], rest))
    (hitem : EndsAs (Fits limited n) item reader) (hc : Consumes reader) {k : Nat}
    {ls : List Lexeme} (hlt : ls.length < k) (hls : Fits limited n ls) :
    EndsWith (loop · ls) (Grammar.items reader close k ls) := by
  induction k generalizing ls with
  | zero => exact absurd hlt (Nat.not_lt_zero _)
  | succ k ih =>
    refine .tick ?_
    simp only [hloop, Grammar.items]
    split
    · exact .const
    · refine (hitem ls hls).bind ?_
      rintro ⟨first, rest⟩ hfirst
      obtain ⟨used, hused, rfl⟩ := hc hfirst
      dsimp only
      split
      · have hshort : (rest.drop 1).length < k := by
          have hpos := List.length_pos_iff.2 hused
          rw [List.length_append] at hlt
          rw [List.length_drop]
          omega
        exact (ih hshort hls.append.drop_one).bind fun more _ => .const
      · exact .const

theorem operands_endsAs {tighter : List Joiner} {operand : TokenReader Expr}
    (ho : EndsAs (Fits limited (n + 1)) (levels · (budgetOf limited n) tighter) operand)
    (hc : Consumes operand) {join? : Joiner} {k : Nat} {ls : List Lexeme} (left : Expr)
    (hle : ls.length ≤ k) (hls : Fits limited (n + 1) ls) :
    EndsWith (operands · (budgetOf limited n) join? tighter left ls)
      (Grammar.operands operand join? k left ls) := by
  induction k generalizing ls left with
  | zero =>
    obtain rfl := List.length_eq_zero_iff.1 (Nat.le_zero.1 hle)
    exact .tick .const
  | succ k ih =>
    cases ls with
    | nil => exact .tick .const
    | cons l ls =>
      refine .tick ?_
      simp only [operands, Grammar.operands]
      cases hjoin : join? l.token with
      | none => exact .const
      | some join =>
        refine (ho ls hls.tail).bind ?_
        rintro ⟨right, rest⟩ hright
        obtain ⟨used, -, rfl⟩ := hc hright
        have hshort : rest.length ≤ k := by
          rw [List.length_cons, List.length_append] at hle
          omega
        exact ih _ hshort hls.tail.append

end Loops

section Sub

variable
  (hsub : EndsAs (Fits limited n) (expression · (budgetOf limited n)) (Grammar.expression n))

include hsub

theorem items_endsAs (close : Symbol) {k : Nat} {ls : List Lexeme} (hlt : ls.length < k)
    (hls : Fits limited n ls) : EndsWith (items · (budgetOf limited n) close ls)
      (Grammar.items (Grammar.expression n) close k ls) :=
  separated_endsAs (fun _ _ => by rw [items]) hsub (consumes_expression n) hlt hls

theorem listUntil_endsAs (close : Symbol) (context : String) :
    EndsAs (Fits limited n) (listUntil · (budgetOf limited n) close context)
      (Grammar.listUntil (Grammar.expression n) close context) := by
  intro ls hls
  refine .tick ?_
  simp only [listUntil]
  exact (items_endsAs hsub close (Nat.lt_succ_self _) hls).bind fun _ _ =>
    EndsWith.const.bind fun _ _ => .const

theorem entryKey_endsAs : EndsAs (Fits limited n) (entryKey · (budgetOf limited n))
    (Grammar.entryKey (Grammar.expression n)) := by
  intro ls hls
  cases ls with
  | nil => exact .tick .const
  | cons l ls =>
    obtain ⟨t, span⟩ := l
    cases t with
    | symbol s =>
      cases s with
      | leftBracket =>
        refine .tick ?_
        simp only [entryKey]
        exact (hsub ls hls.tail).bind fun _ _ => EndsWith.const.bind fun _ _ => .const
      | _ => exact .tick .const
    | _ => exact .tick .const

theorem entryValue_endsAs (key : EntryKey) : EndsAs (Fits limited n)
    (entryValue · (budgetOf limited n) key) (Grammar.entryValue (Grammar.expression n) key) := by
  intro ls hls
  have hvalue : EndsWith (fun clock => ended (expect .colon "object literal" ls) >>= fun x =>
      expression clock (budgetOf limited n) x.2)
        (expect .colon "object literal" ls >>= fun x => Grammar.expression n x.2) := by
    refine EndsWith.const.bind ?_
    rintro ⟨colon, rest⟩ hcolon
    obtain rfl := expect_eq_ok_iff.1 hcolon
    exact hsub rest hls.tail
  refine .tick ?_
  simp only [entryValue, Grammar.entryValue]
  cases key.shorthand with
  | none => exact hvalue
  | some name =>
    cases endsShorthand ls with
    | true => exact .const
    | false => exact hvalue

theorem entry_endsAs : EndsAs (Fits limited n) (entry · (budgetOf limited n))
    (Grammar.entry (Grammar.expression n)) := by
  intro ls hls
  refine .tick ?_
  simp only [entry]
  refine (entryKey_endsAs hsub ls hls).bind ?_
  rintro ⟨key, rest⟩ hkey
  obtain ⟨used, rfl, -⟩ := entryKey_sound (expression_unary_sound n).1 hkey
  exact (entryValue_endsAs hsub key rest hls.append).bind fun _ _ => .const

theorem entries_endsAs {k : Nat} {ls : List Lexeme} (hlt : ls.length < k)
    (hls : Fits limited n ls) : EndsWith (entries · (budgetOf limited n) ls)
      (Grammar.items (Grammar.entry (Grammar.expression n)) .rightBrace k ls) :=
  separated_endsAs (fun _ _ => by rw [entries]) (entry_endsAs hsub) (consumes_entry n) hlt hls

theorem object_endsAs : EndsAs (Fits limited n) (object · (budgetOf limited n))
    (Grammar.listUntil (Grammar.entry (Grammar.expression n)) .rightBrace "object literal") := by
  intro ls hls
  refine .tick ?_
  simp only [object]
  exact (entries_endsAs hsub (Nat.lt_succ_self _) hls).bind fun _ _ =>
    EndsWith.const.bind fun _ _ => .const

theorem whole_endsAs {ls : List Lexeme} (hls : Fits limited n ls) :
    EndsWith (whole · (budgetOf limited n) ls) (Grammar.whole (Grammar.expression n) ls) := by
  refine .tick ?_
  simp only [whole]
  refine (hsub ls hls).bind ?_
  rintro ⟨e, _ | ⟨l, rest⟩⟩ _ <;> exact .const

theorem templatePart_endsAs {chunks : List TemplateChunk} {span : Span} {ls : List Lexeme}
    (hls : Fits limited (n + 1) (⟨.template chunks, span⟩ :: ls)) {chunk : TemplateChunk}
    (hchunk : chunk ∈ chunks) : EndsWith (templatePart · (budgetOf limited n) chunk)
      (Grammar.templatePart (Grammar.expression n) chunk) := by
  refine .tick ?_
  cases chunk with
  | text s => exact .const
  | hole code =>
    simp only [templatePart, Grammar.templatePart]
    cases hts : tokenize code.source with
    | error e => exact .const
    | ok ts =>
      cases ts with
      | nil => exact .const
      | cons t ts => exact (whole_endsAs hsub (hls.code hchunk hts)).map Part.hole

theorem primary_endsAs : EndsAs (Fits limited (n + 1)) (primary · (budgetOf limited n))
    (Grammar.primary (Grammar.expression n)) := by
  intro ls hls
  cases ls with
  | nil => exact .tick .const
  | cons l ls =>
    obtain ⟨t, span⟩ := l
    cases t with
    | template chunks =>
      refine .tick ?_
      simp only [primary]
      have hparts := EndsWith.mapM fun chunk hchunk => templatePart_endsAs hsub hls hchunk
      exact hparts.bind fun _ _ => .const
    | symbol s =>
      cases s with
      | leftParen =>
        refine .tick ?_
        simp only [primary]
        exact (hsub ls hls.pass).bind fun _ _ => EndsWith.const.bind fun _ _ => .const
      | leftBracket =>
        refine .tick ?_
        simp only [primary]
        exact (listUntil_endsAs hsub _ _ ls hls.pass).bind fun _ _ => .const
      | leftBrace =>
        refine .tick ?_
        simp only [primary]
        exact (object_endsAs hsub ls hls.pass).bind fun _ _ => .const
      | _ => exact .tick .const
    | keyword k => cases k <;> exact .tick .const
    | _ => exact .tick .const

theorem postfixes_endsAs {k : Nat} {ls : List Lexeme} (e : Expr) (hle : ls.length ≤ k)
    (hls : Fits limited n ls) : EndsWith (postfixes · (budgetOf limited n) e ls)
      (Grammar.postfixes (Grammar.expression n) k e ls) := by
  induction k generalizing ls e with
  | zero =>
    obtain rfl := List.length_eq_zero_iff.1 (Nat.le_zero.1 hle)
    exact .tick .const
  | succ k ih =>
    cases ls with
    | nil => exact .tick .const
    | cons l ls =>
      -- what is behind the access or the call is shorter by its first token at least
      have hnext (used : List Lexeme) {rest : List Lexeme} (e : Expr) (hused : ls = used ++ rest) :
          EndsWith (postfixes · (budgetOf limited n) e rest)
            (Grammar.postfixes (Grammar.expression n) k e rest) := by
        subst hused
        refine ih e ?_ hls.tail.append
        rw [List.length_cons, List.length_append] at hle
        omega
      refine .tick ?_
      simp only [postfixes, Grammar.postfixes]
      obtain ⟨t, span⟩ := l
      cases t with
      | symbol s =>
        cases s with
        | dot =>
          refine EndsWith.const.bind ?_
          rintro ⟨⟨name, last⟩, rest⟩ hname
          obtain ⟨t, rfl, -⟩ := memberName_eq_ok_iff.1 hname
          exact hnext [_] _ rfl
        | leftBracket =>
          refine (hsub ls hls.tail).bind ?_
          rintro ⟨position, rest⟩ hposition
          obtain ⟨used, -, rfl⟩ := consumes_expression n hposition
          refine EndsWith.const.bind ?_
          rintro ⟨last, rest'⟩ hlast
          obtain rfl := expect_eq_ok_iff.1 hlast
          exact hnext _ _ (List.append_cons used _ rest')
        | leftParen =>
          refine (listUntil_endsAs hsub _ _ ls hls.tail).bind ?_
          rintro ⟨⟨args, last⟩, rest⟩ hargs
          obtain ⟨used, -, hused⟩ :=
            consumes_listUntil (expression_unary_sound n).1 _ _ hargs
          exact hnext used _ hused
        | _ => exact .const
      | _ => exact .const

theorem accessed_endsAs : EndsAs (Fits limited (n + 1)) (accessed · (budgetOf limited n))
    (Grammar.accessed (Grammar.expression n)) := by
  intro ls hls
  refine .tick ?_
  simp only [accessed]
  refine (primary_endsAs hsub ls hls).bind ?_
  rintro ⟨e, rest⟩ he
  obtain ⟨used, hused, rfl⟩ := consumes_primary n he
  exact postfixes_endsAs hsub e (Nat.le_refl _) (hls.consumed hused)

end Sub

section Levels

variable (hu : EndsAs (Fits limited (n + 1)) (unary · (budgetOf limited n)) (Grammar.unary n))

include hu

theorem levels_endsAs (joins : List Joiner) :
    EndsAs (Fits limited (n + 1)) (levels · (budgetOf limited n) joins) (stacked joins n) := by
  induction joins with
  | nil => exact fun ls hls => .tick (hu ls hls)
  | cons join? joins ih =>
    intro ls hls
    have hc := consumes_stacked n joins
    refine .tick ?_
    simp only [levels]
    refine (ih ls hls).bind ?_
    rintro ⟨left, rest⟩ hleft
    obtain ⟨used, -, rfl⟩ := hc hleft
    exact operands_endsAs ih hc left (Nat.le_refl _) hls.append

theorem conditional_endsAs
    (hsub : EndsAs (Fits limited n) (expression · (budgetOf limited n)) (Grammar.expression n)) :
    EndsAs (Fits limited (n + 1)) (conditional · (budgetOf limited n))
      (Grammar.conditional (Grammar.unary n) (Grammar.expression n)) := by
  intro ls hls
  refine .tick ?_
  simp only [conditional, Grammar.conditional, binaryLevels_unary]
  refine (levels_endsAs hu _ ls hls).bind ?_
  rintro ⟨condition, rest⟩ hcondition
  obtain ⟨used, hused, rfl⟩ := consumes_stacked n _ hcondition
  have hrest := (hls.consumed hused).drop_one
  dsimp only
  split
  · refine (hsub _ hrest).bind ?_
    rintro ⟨onTrue, rest'⟩ htrue
    obtain ⟨used', -, hused'⟩ := consumes_expression n htrue
    rw [hused'] at hrest
    refine EndsWith.const.bind ?_
    rintro ⟨colon, rest''⟩ hcolon
    obtain rfl := expect_eq_ok_iff.1 hcolon
    exact (hsub _ hrest.append.tail).bind fun _ _ => .const
  · exact .const

end Levels

/-- Prefix expressions are at the level of the full expressions in their brackets. -/
theorem unary_endsAs_of_operator
    (hsub : EndsAs (Fits limited n) (expression · (budgetOf limited n)) (Grammar.expression n))
    (hoperator : ∀ l ls, Fits limited (n + 1) (l :: ls) → ∀ op, unaryOp? l.token = some op →
      EndsWith (unary · (budgetOf limited n) (l :: ls)) (Grammar.unary n (l :: ls))) :
    EndsAs (Fits limited (n + 1)) (unary · (budgetOf limited n)) (Grammar.unary n) := by
  intro ls hls
  have haccessed := accessed_endsAs hsub ls hls
  have hprefixed : ∃ operand, Grammar.unary n = prefixed operand (Grammar.expression n) := by
    cases n with
    | zero => exact ⟨_, unary_zero⟩
    | succ n => exact ⟨_, unary_succ n⟩
  obtain ⟨operand, hunary⟩ := hprefixed
  cases ls with
  | nil =>
    rw [hunary]
    exact .tick haccessed
  | cons l ls =>
    cases hop : unaryOp? l.token with
    | none =>
      refine .tick ?_
      simp only [unary, hunary, prefixed, hop]
      exact haccessed
    | some op => exact hoperator l ls hls op hop

theorem expression_unary_endsAs (limited : Bool) (n : Nat) :
    EndsAs (Fits limited n) (expression · (budgetOf limited n)) (Grammar.expression n) ∧
      EndsAs (Fits limited (n + 1)) (unary · (budgetOf limited n)) (Grammar.unary n) := by
  induction n with
  | zero =>
    have hzero : EndsAs (Fits limited 0) (expression · (budgetOf limited 0))
        (Grammar.expression 0) := by
      intro ls hls
      cases limited with
      | true =>
        rw [Grammar.expression]
        exact .tick .const
      | false => exact absurd (hls rfl) (Nat.not_lt_zero _)
    refine ⟨hzero, unary_endsAs_of_operator hzero fun l ls hls op hop => ?_⟩
    cases limited with
    | true =>
      refine .tick ?_
      simp only [unary_zero, unary, prefixed, hop, budgetOf, cond_true]
      exact .const
    | false =>
      have hpos := l.token.extent_pos
      have hlt := hls rfl
      rw [extent] at hlt
      omega
  | succ n ih =>
    have hsucc : EndsAs (Fits limited (n + 1)) (expression · (budgetOf limited (n + 1)))
        (Grammar.expression (n + 1)) := by
      intro ls hls
      rw [expression_succ]
      refine .tick ?_
      cases limited <;> exact conditional_endsAs ih.2 ih.1 ls hls
    refine ⟨hsucc, unary_endsAs_of_operator hsucc fun l ls hls op hop => ?_⟩
    refine .tick ?_
    cases limited <;> simp only [budgetOf, cond_true, cond_false, unary, unary_succ, prefixed, hop]
    all_goals exact (ih.2 ls hls.pass).bind fun _ _ => .const

/-- The reading ends with every budget, as the reader whose loops are counted does, and it ends with
none, as that reader does with any budget above what the tokens can nest. -/
structure Ends (run : Nat → Option Nat → Reader α) (reader : Nat → TokenReader α) : Prop where
  limited : ∀ n ls, EndsWith (run · (some n) ls) (reader n ls)
  unlimited : ∀ n ls, extent ls < n → EndsWith (run · none ls) (reader n ls)

/-- The reading ends, and when it succeeds it has moved on among the tokens. -/
structure Progresses (run : Nat → Option Nat → Reader α) (reader : Nat → TokenReader α) : Prop
    extends Ends run reader where
  advances : ∀ n ls a rest, reader n ls = .ok (a, rest) →
    ∃ k, 0 < k ∧ k ≤ ls.length ∧ rest = ls.drop k

theorem Ends.of_fits {run : Nat → Option Nat → Reader α} {reader : Nat → TokenReader α}
    (h : ∀ limited n ls, Fits limited n ls →
      EndsWith (run · (budgetOf limited n) ls) (reader n ls)) :
    Ends run reader where
  limited n ls := h true n ls .of_limited
  unlimited n ls hlt := h false n ls fun _ => hlt

theorem Progresses.of_fits {run : Nat → Option Nat → Reader α} {reader : Nat → TokenReader α}
    (h : ∀ limited n ls, Fits limited n ls →
      EndsWith (run · (budgetOf limited n) ls) (reader n ls))
    (hc : ∀ n, Consumes (reader n)) : Progresses run reader where
  toEnds := .of_fits h
  advances n ls a rest hread := by
    obtain ⟨used, hused, rfl⟩ := hc n hread
    exact ⟨used.length, List.length_pos_iff.2 hused, by simp, (List.drop_left ..).symm⟩

/-- The productions of the grammar: without bounds, and with loops that are counted. -/
inductive Production : {α : Type} → (Nat → Option Nat → Reader α) → (Nat → TokenReader α) → Prop
  | expression : Production expression Grammar.expression
  | conditional : Production conditional
      fun n => Grammar.conditional (Grammar.unary n) (Grammar.expression n)
  | levels (joins : List Joiner) : Production (levels · · joins) (stacked joins)
  | unary : Production unary Grammar.unary
  | accessed : Production accessed fun n => Grammar.accessed (Grammar.expression n)
  | primary : Production primary fun n => Grammar.primary (Grammar.expression n)
  | listUntil (close : Symbol) (context : String) : Production (listUntil · · close context)
      fun n => Grammar.listUntil (Grammar.expression n) close context
  | object : Production object fun n =>
      Grammar.listUntil (Grammar.entry (Grammar.expression n)) .rightBrace "object literal"

/-- The loops in the productions: run until a token stops them, and counted. -/
inductive Loop : {α : Type} → (Nat → Option Nat → Reader α) → (Nat → TokenReader α) → Prop
  | operands (join? : Joiner) (tighter : List Joiner) (left : Expr) :
      Loop (operands · · join? tighter left)
        fun n ls => Grammar.operands (stacked tighter n) join? ls.length left ls
  | postfixes (e : Expr) : Loop (postfixes · · e)
      fun n ls => Grammar.postfixes (Grammar.expression n) ls.length e ls
  | items (close : Symbol) : Loop (items · · close)
      fun n ls => Grammar.items (Grammar.expression n) close (ls.length + 1) ls
  | entries : Loop entries fun n ls =>
      Grammar.items (Grammar.entry (Grammar.expression n)) .rightBrace (ls.length + 1) ls

section Production

variable {run : Nat → Option Nat → Reader α} {reader : Nat → TokenReader α}

theorem Production.progresses (h : Production run reader) : Progresses run reader := by
  have hsub (limited : Bool) (n : Nat) := (expression_unary_endsAs limited n).1
  have hunary (limited : Bool) (n : Nat) := (expression_unary_endsAs limited n).2
  have hsound (n : Nat) := (expression_unary_sound n).1
  cases h with
  | expression => exact .of_fits hsub consumes_expression
  | conditional =>
    refine .of_fits (fun limited n ls hls => ?_) consumes_conditional
    exact conditional_endsAs (hunary limited n) (hsub limited n) ls hls.succ
  | levels joins =>
    refine .of_fits (fun limited n ls hls => ?_) fun n => consumes_stacked n joins
    exact levels_endsAs (hunary limited n) joins ls hls.succ
  | unary => exact .of_fits (fun limited n ls hls => hunary limited n ls hls.succ) consumes_unary
  | accessed =>
    refine .of_fits (fun limited n ls hls => ?_) consumes_accessed
    exact accessed_endsAs (hsub limited n) ls hls.succ
  | primary =>
    refine .of_fits (fun limited n ls hls => ?_) consumes_primary
    exact primary_endsAs (hsub limited n) ls hls.succ
  | listUntil close context =>
    exact .of_fits (fun limited n => listUntil_endsAs (hsub limited n) close context)
      fun n => consumes_listUntil (hsound n) close context
  | object =>
    exact .of_fits (fun limited n => object_endsAs (hsub limited n))
      fun n => consumes_listUntil (entry_sound (hsound n)) _ _

theorem Loop.ends (h : Loop run reader) : Ends run reader := by
  have hsub (limited : Bool) (n : Nat) := (expression_unary_endsAs limited n).1
  refine .of_fits fun limited n ls hls => ?_
  cases h with
  | operands join? tighter left =>
    have ho := levels_endsAs (expression_unary_endsAs limited n).2 tighter
    exact operands_endsAs ho (consumes_stacked n tighter) left (Nat.le_refl _) hls.succ
  | postfixes e => exact postfixes_endsAs (hsub limited n) e (Nat.le_refl _) hls
  | items close => exact items_endsAs (hsub limited n) close (Nat.lt_succ_self _) hls
  | entries => exact entries_endsAs (hsub limited n) (Nat.lt_succ_self _) hls

end Production

theorem parse_maxNesting (source : String) :
    EndsWith (parse · (some maxNesting) source) (Expr.parse source) := by
  simp only [parse, Expr.parse]
  cases tokenize source with
  | error e => exact .const
  | ok ls =>
    have hfits : Fits true maxNesting ls := .of_limited
    have hwhole := whole_endsAs (expression_unary_endsAs true maxNesting).1 hfits
    exact hwhole

theorem exists_parse_none (source : String) : ∃ x, EndsWith (parse · none source) x := by
  simp only [parse]
  cases tokenize source with
  | error e => exact ⟨.error (.lexical e), .const⟩
  | ok ls =>
    have hfits : Fits false (extent ls + 1) ls := fun _ => Nat.lt_succ_self _
    have hwhole := whole_endsAs (expression_unary_endsAs false (extent ls + 1)).1 hfits
    exact ⟨_, hwhole⟩

/-- A production that succeeds has moved on among the tokens, and a parser is started only on code
that is shorter than the literal around it. So every loop ends, and the parser does on every source,
with the nesting limit and without one. -/
theorem parser_ends :
    (∀ {α : Type} (run : Nat → Option Nat → Reader α) (reader : Nat → TokenReader α),
      Production run reader → Progresses run reader) ∧
    (∀ {α : Type} (run : Nat → Option Nat → Reader α) (reader : Nat → TokenReader α),
      Loop run reader → Ends run reader) ∧
    ∀ source,
      EndsWith (parse · (some maxNesting) source) (Expr.parse source) ∧
      (∃ x, EndsWith (parse · none source) x) ∧
      ∀ ls, Started source ls → ∀ l ∈ ls, ∃ i j, l.Encloses source.toList i j :=
  ⟨fun _ _ h => h.progresses, fun _ _ h => h.ends, fun source =>
    ⟨parse_maxNesting source, exists_parse_none source, fun _ h => h.encloses⟩⟩

/-- A list that is not closed, with code in code. -/
theorem parser_ends_unclosed :
    let source := "\x60$\x7b[\x60$\x7b b \x7d\x60,\x7d\x60"
    let name : Lexeme := ⟨.identifier "b", ⟨1, 9, 8, 9⟩⟩
    EndsWith (parse · (some maxNesting) source) (.error (.unexpectedEnd "expression" none)) ∧
      (∃ x, EndsWith (parse · none source) x) ∧
      Started source [name] ∧ ∃ i j, name.Encloses source.toList i j := by
  intro source name
  let literal : Token := .template [.hole ⟨"[\x60$\x7b b \x7d\x60,", ⟨1, 4, 3, 13⟩⟩]
  let inner : Token := .template [.hole ⟨" b ", ⟨1, 5, 4, 7⟩⟩]
  have hsource : tokenize source = .ok [⟨literal, ⟨1, 1, 0, 15⟩⟩] := by decide +kernel
  have hcode : tokenize "[\x60$\x7b b \x7d\x60," = .ok [⟨.symbol .leftBracket, ⟨1, 1, 0, 1⟩⟩,
      ⟨inner, ⟨1, 2, 1, 9⟩⟩, ⟨.symbol .comma, ⟨1, 10, 9, 10⟩⟩] := by decide +kernel
  have hinner : tokenize " b " = .ok [⟨.identifier "b", ⟨1, 2, 1, 2⟩⟩] := by decide +kernel
  have hparse : Expr.parse source = .error (.unexpectedEnd "expression" none) :=
    failure?_eq_some_iff.1 (by decide +kernel)
  have hstarted : Started source [name] :=
    .code (.code (.source hsource) List.mem_cons_self List.mem_cons_self hcode)
      (List.mem_cons_of_mem _ List.mem_cons_self) List.mem_cons_self hinner
  obtain ⟨hlimited, hunlimited, hencloses⟩ := parser_ends.2.2 source
  exact ⟨hparse ▸ hlimited, hunlimited, hstarted, hencloses _ hstarted name List.mem_cons_self⟩

end Unbounded

end Grammar

end JsonStencil
