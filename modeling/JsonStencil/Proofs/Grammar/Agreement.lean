import JsonStencil.Proofs.Grammar.Counter

/-!
# Counting from another depth

Two parsers that count from different depths up to different limits are compared step by step, with
a reader that has no state. They do the same until the lower limit is reached, where the parser
under it refuses, and the reader with it.
-/

namespace JsonStencil

namespace Grammar

variable {α β : Type}

/-- The state of a parser that was started `b` levels deeper. -/
def Machine.raise (b : Nat) (m : Machine) : Machine := ⟨m.rest, m.depth + b, m.peak + b⟩

namespace Counted

/-- A parser that is started `b` levels deeper, under a limit, compared with one that has a higher
limit, and with a reader. Up to the limit they are the same; where the higher parser counts more,
the deeper one refuses, and the reader with it. -/
structure Agree (b limit d : Nat) (ts : List Lexeme) (l u : Counted α)
    (y : Except SyntaxError (α × List Lexeme)) : Prop where
  within : ∀ peak, b + (u.run ⟨ts, d, peak⟩).2.peak ≤ limit →
    (u.run ⟨ts, d, peak⟩).2.depth = d ∧
      l.run ⟨ts, d + b, peak + b⟩ =
        ((u.run ⟨ts, d, peak⟩).1, (u.run ⟨ts, d, peak⟩).2.raise b) ∧
      y = (u.run ⟨ts, d, peak⟩).1.map (·, (u.run ⟨ts, d, peak⟩).2.rest)
  beyond : ∀ peak, b + peak ≤ limit → limit < b + (u.run ⟨ts, d, peak⟩).2.peak →
    ∃ span, (l.run ⟨ts, d + b, peak + b⟩).1 = .error (tooDeepAt span) ∧ y = .error (tooDeepAt span)

theorem run_bind (c : Counted α) (f : α → Counted β) (m : Machine) :
    (c >>= f).run m = match c.run m with
      | (.ok a, next) => (f a).run next
      | (.error e, last) => (.error e, last) := rfl

theorem run_aside (tokens : List Lexeme) (c : Counted α) (m : Machine) :
    (aside tokens c).run m = ((c.run ⟨tokens, m.depth, m.peak⟩).1,
      ⟨m.rest, m.depth, (c.run ⟨tokens, m.depth, m.peak⟩).2.peak⟩) := rfl

theorem run_nested_of_lt {limit : Nat} {m : Machine} (h : limit < m.depth + 1) (span : Span)
    (c : Counted α) : (nested limit span c).run m = (.error (tooDeepAt span), m.deeper) :=
  if_pos h

theorem run_nested_of_le {limit : Nat} {m : Machine} (h : m.depth + 1 ≤ limit) (span : Span)
    (c : Counted α) : (nested limit span c).run m = ((c.run m.deeper).1,
      ⟨(c.run m.deeper).2.rest, (c.run m.deeper).2.depth - 1, (c.run m.deeper).2.peak⟩) :=
  if_neg (Nat.not_lt_of_le h)

theorem le_peak_nested (limit : Nat) (span : Span) (c : Counted α) (m : Machine) :
    m.depth + 1 ≤ ((nested limit span c).run m).2.peak := by
  have hdeeper : m.depth + 1 ≤ m.deeper.peak := Nat.le_max_right _ _
  by_cases h : m.depth + 1 ≤ limit
  · rw [run_nested_of_le h]
    exact Nat.le_trans hdeeper (c.rising m.deeper)
  · rw [run_nested_of_lt (Nat.lt_of_not_le h)]
    exact hdeeper

theorem deeper_raise (b : Nat) (m : Machine) : (m.raise b).deeper = m.deeper.raise b := by
  have hdepth : m.depth + b + 1 = m.depth + 1 + b := Nat.add_right_comm _ _ _
  simp only [Machine.raise, Machine.deeper, hdepth, Nat.add_max_add_right]

theorem unary_zero (limit : Nat) :
    unary limit 0 = prefixed limit (lift tooDeep) (expression limit 0) := by
  rw [unary, expression]

theorem unary_succ (limit n : Nat) :
    unary limit (n + 1) = prefixed limit (unary limit n) (expression limit (n + 1)) := by
  rw [unary, expression]

theorem exists_full (limit n : Nat) : ∃ c, expression limit n = full limit c := by
  cases n with
  | zero => exact ⟨_, by rw [expression]⟩
  | succ n => exact ⟨_, by rw [expression]⟩

theorem exists_prefixed (limit n : Nat) :
    ∃ operand, unary limit n = prefixed limit operand (expression limit n) := by
  cases n with
  | zero => exact ⟨_, unary_zero limit⟩
  | succ n => exact ⟨_, unary_succ limit n⟩

theorem expression_zero : Grammar.expression 0 = tooDeep := by rw [Grammar.expression]

namespace Agree

variable {b limit high d : Nat} {ts : List Lexeme}

theorem pure (a : α) : Agree b limit d ts (Pure.pure a) (Pure.pure a) (.ok (a, ts)) where
  within _ _ := ⟨rfl, rfl, rfl⟩
  beyond _ hle hlt := absurd hle (Nat.not_le_of_lt hlt)

theorem fail (e : SyntaxError) :
    Agree b limit d ts (fail e : Counted α) (Counted.fail e) (.error e) where
  within _ _ := ⟨rfl, rfl, rfl⟩
  beyond _ hle hlt := absurd hle (Nat.not_le_of_lt hlt)

theorem lift (reader : TokenReader α) :
    Agree b limit d ts (lift reader) (Counted.lift reader) (reader ts) := by
  constructor
  · intro peak _
    simp only [Counted.lift]
    cases reader ts <;> exact ⟨rfl, rfl, rfl⟩
  · intro peak hle hlt
    have hpeak : ((Counted.lift reader).run ⟨ts, d, peak⟩).2.peak = peak := by
      simp only [Counted.lift]
      cases reader ts <;> rfl
    omega

theorem bind {l u : Counted α} {y : Except SyntaxError (α × List Lexeme)} {f g : α → Counted β}
    {k : α × List Lexeme → Except SyntaxError (β × List Lexeme)} (h : Agree b limit d ts l u y)
    (hfg : ∀ a rest, Agree b limit d rest (f a) (g a) (k (a, rest))) :
    Agree b limit d ts (l >>= f) (u >>= g) (y >>= k) := by
  constructor
  · intro peak hle
    have hfirst := h.within peak
    rw [run_bind] at hle ⊢
    rw [run_bind]
    generalize u.run ⟨ts, d, peak⟩ = o at hfirst hle ⊢
    obtain ⟨e | a, rest, depth, high⟩ := o
    · obtain ⟨hdepth, hl, hy⟩ := hfirst hle
      rw [hl, hy]
      exact ⟨hdepth, rfl, rfl⟩
    · have hrise := (g a).rising ⟨rest, depth, high⟩
      obtain ⟨rfl, hl, hy⟩ := hfirst (Nat.le_trans (Nat.add_le_add_left hrise b) hle)
      rw [hl, hy]
      exact (hfg a rest).within high hle
  · intro peak hle hlt
    have hwithin := h.within peak
    have hbeyond := h.beyond peak hle
    rw [run_bind] at hlt ⊢
    generalize u.run ⟨ts, d, peak⟩ = o at hwithin hbeyond hlt
    obtain ⟨x, rest, depth, high⟩ := o
    by_cases hfirst : b + high ≤ limit
    · obtain ⟨rfl, hl, hy⟩ := hwithin hfirst
      rw [hl, hy]
      cases x with
      | error e => exact absurd hfirst (Nat.not_le_of_lt hlt)
      | ok a => exact (hfg a rest).beyond high hfirst hlt
    · -- the first parser is refused, so that the second one is not started
      obtain ⟨span, hl, hy⟩ := hbeyond (Nat.lt_of_not_le hfirst)
      generalize l.run ⟨ts, d + b, peak + b⟩ = o at hl ⊢
      obtain ⟨x, last⟩ := o
      obtain rfl : x = .error (tooDeepAt span) := hl
      exact ⟨span, rfl, hy ▸ rfl⟩

theorem upcoming {f g : List Lexeme → Counted α} {y : Except SyntaxError (α × List Lexeme)}
    (h : Agree b limit d ts (f ts) (g ts) y) :
    Agree b limit d ts (upcoming >>= f) (Counted.upcoming >>= g) y := ⟨h.within, h.beyond⟩

theorem skip {f g : Unit → Counted α} {y : Except SyntaxError (α × List Lexeme)}
    (h : Agree b limit d (ts.drop 1) (f ()) (g ()) y) :
    Agree b limit d ts (skip >>= f) (Counted.skip >>= g) y := ⟨h.within, h.beyond⟩

theorem map_eq_of_map_eq {x y : Except SyntaxError α} {b c : β}
    (h : x.map (·, b) = y.map (·, c)) : x = y := by
  cases x with
  | error e => cases y <;> cases h; rfl
  | ok a =>
    cases y with
    | error e => cases h
    | ok a' => exact congrArg Except.ok (Prod.mk.inj (Except.ok.inj h)).1

/-- The level that is entered takes the deeper parser above its limit, or both go on in it. -/
theorem nested {l u : Counted α} {y : Except SyntaxError (α × List Lexeme)} (span : Span)
    (hhigh : limit ≤ b + high) (hin : d + b < limit → Agree b limit (d + 1) ts l u y)
    (hout : limit ≤ d + b → y = .error (tooDeepAt span)) :
    Agree b limit d ts (nested limit span l) (Counted.nested high span u) y := by
  constructor
  · intro peak hle
    have hpeak := le_peak_nested high span u ⟨ts, d, peak⟩
    dsimp only at hpeak
    have hd : d + b < limit := by omega
    have hd' : (⟨ts, d + b, peak + b⟩ : Machine).depth + 1 ≤ limit := hd
    have hroom : d + 1 ≤ high := by omega
    have hagree := (hin hd).within (max peak (d + 1))
    rw [run_nested_of_le hroom] at hle ⊢
    obtain ⟨hdepth, hl, hy⟩ := hagree hle
    have hraise : Machine.deeper ⟨ts, d + b, peak + b⟩ = (Machine.deeper ⟨ts, d, peak⟩).raise b :=
      deeper_raise b ⟨ts, d, peak⟩
    have hl' : l.run ((Machine.deeper ⟨ts, d, peak⟩).raise b) = _ := hl
    have hback : d + 1 + b - 1 = d + 1 - 1 + b := by omega
    refine ⟨Nat.sub_eq_of_eq_add hdepth, ?_, hy⟩
    rw [run_nested_of_le hd', hraise, hl']
    simp only [Machine.raise, Machine.deeper, hdepth, hback]
  · intro peak hle hlt
    by_cases hd : d + b < limit
    · have hroom : d + 1 ≤ high := by omega
      have hd' : (⟨ts, d + b, peak + b⟩ : Machine).depth + 1 ≤ limit := hd
      have hraise : Machine.deeper ⟨ts, d + b, peak + b⟩ = (Machine.deeper ⟨ts, d, peak⟩).raise b :=
        deeper_raise b ⟨ts, d, peak⟩
      rw [run_nested_of_le hroom] at hlt
      rw [run_nested_of_le hd', hraise]
      exact (hin hd).beyond (max peak (d + 1)) (by omega) hlt
    · rw [run_nested_of_lt (by dsimp only; omega)]
      exact ⟨span, rfl, hout (Nat.le_of_not_lt hd)⟩

theorem aside {l u : Counted α} {y : Except SyntaxError α} (tokens : List Lexeme)
    (h : Agree b limit d tokens l u (y.map (·, []))) :
    Agree b limit d ts (aside tokens l) (Counted.aside tokens u) (y.map (·, ts)) := by
  constructor
  · intro peak hle
    rw [run_aside] at hle ⊢
    obtain ⟨-, hl, hy⟩ := h.within peak hle
    rw [run_aside, hl]
    refine ⟨rfl, rfl, ?_⟩
    rw [map_eq_of_map_eq hy]
  · intro peak hle hlt
    obtain ⟨span, hl, hy⟩ := h.beyond peak hle hlt
    refine ⟨span, hl, ?_⟩
    cases y <;> cases hy
    rfl

end Agree

/-- The parsers agree with the reader on all tokens. -/
def Agrees (b limit d : Nat) (l u : Counted α) (reader : TokenReader α) : Prop :=
  ∀ ts, Agree b limit d ts l u (reader ts)

namespace Agrees

variable {b limit high d : Nat}

section Levels

variable {l u : Counted Expr} {reader : TokenReader Expr}

theorem operands (h : Agrees b limit d l u reader) (join? : Joiner) (n : Nat) (left : Expr) :
    Agrees b limit d (operands l join? n left) (Counted.operands u join? n left)
      (Grammar.operands reader join? n left) := by
  induction n generalizing left with
  | zero => exact fun ts => .pure left
  | succ n ih =>
    intro ts
    cases ts with
    | nil => exact .upcoming (.pure left)
    | cons l' ts =>
      refine .upcoming ?_
      cases hjoin : join? l'.token with
      | none =>
        simp only [Grammar.operands, hjoin]
        exact .pure left
      | some join =>
        simp only [Grammar.operands, hjoin]
        exact .skip ((h ts).bind fun right rest => ih _ rest)

theorem level (h : Agrees b limit d l u reader) (join? : Joiner) :
    Agrees b limit d (level l join?) (Counted.level u join?) (Grammar.level reader join?) :=
  fun ts => (h ts).bind fun left rest => .upcoming (h.operands join? _ left rest)

theorem binaryLevels (h : Agrees b limit d l u reader) :
    Agrees b limit d (binaryLevels l) (Counted.binaryLevels u) (Grammar.binaryLevels reader) := by
  unfold Counted.binaryLevels Grammar.binaryLevels
  induction joiners generalizing l u reader with
  | nil => exact h
  | cons join? js ih => exact ih (h.level join?)

end Levels

theorem conditional {l l' u u' : Counted Expr} {reader branch : TokenReader Expr}
    (h : Agrees b limit d l u reader) (hb : Agrees b limit d l' u' branch) :
    Agrees b limit d (conditional l l') (Counted.conditional u u')
      (Grammar.conditional reader branch) := by
  refine fun ts => (h.binaryLevels ts).bind fun condition rest => .upcoming ?_
  dsimp only
  split
  · refine .skip ((hb _).bind fun onTrue rest => ?_)
    refine (Agree.lift _).bind fun colon rest => ?_
    exact (hb rest).bind fun onFalse rest => .pure _
  · exact .pure _

section Lists

variable {l u : Counted α} {item : TokenReader α}

theorem items (h : Agrees b limit d l u item) (close : Symbol) (n : Nat) :
    Agrees b limit d (items l close n) (Counted.items u close n) (Grammar.items item close n) := by
  induction n with
  | zero => exact fun ts => .pure []
  | succ n ih =>
    refine fun ts => .upcoming ?_
    rw [Grammar.items]
    split
    · exact .pure []
    · refine (h ts).bind fun first rest => .upcoming ?_
      dsimp only
      split
      · exact .skip ((ih _).bind fun more rest => .pure _)
      · exact .pure _

theorem listUntil (h : Agrees b limit d l u item) (close : Symbol) (context : String) :
    Agrees b limit d (listUntil l close context) (Counted.listUntil u close context)
      (Grammar.listUntil item close context) :=
  fun ts => .upcoming ((h.items close _ ts).bind fun _ _ => (Agree.lift _).bind fun _ _ => .pure _)

end Lists

section Sub

variable {l u : Counted Expr} {sub : TokenReader Expr}

theorem entryKey (h : Agrees b limit d l u sub) :
    Agrees b limit d (entryKey l) (Counted.entryKey u) (Grammar.entryKey sub) := by
  intro ts
  cases ts with
  | nil => exact .upcoming (.lift (Grammar.entryKey tooDeep))
  | cons t ts =>
    obtain ⟨t, span⟩ := t
    refine .upcoming ?_
    cases t with
    | symbol s =>
      cases s with
      | leftBracket =>
        exact .skip ((h ts).bind fun e rest => (Agree.lift _).bind fun _ _ => .pure _)
      | _ => exact .lift (Grammar.entryKey tooDeep)
    | _ => exact .lift (Grammar.entryKey tooDeep)

theorem entryValue (h : Agrees b limit d l u sub) (key : EntryKey) :
    Agrees b limit d (entryValue l key) (Counted.entryValue u key)
      (Grammar.entryValue sub key) := by
  refine fun ts => .upcoming ?_
  unfold Grammar.entryValue
  have hvalue : Agree b limit d ts (do let _ ← Counted.lift (expect .colon "object literal"); l)
      (do let _ ← Counted.lift (expect .colon "object literal"); u)
      (expect .colon "object literal" ts >>= fun x => sub x.2) :=
    (Agree.lift _).bind fun _ rest => h rest
  cases key.shorthand with
  | none => exact hvalue
  | some name =>
    cases endsShorthand ts with
    | true => exact .pure _
    | false => exact hvalue

theorem entry (h : Agrees b limit d l u sub) :
    Agrees b limit d (entry l) (Counted.entry u) (Grammar.entry sub) :=
  fun ts => (h.entryKey ts).bind fun key rest => (h.entryValue key rest).bind fun _ _ => .pure _

theorem whole (h : Agrees b limit d l u sub) (ts : List Lexeme) :
    Agree b limit d ts (whole l) (Counted.whole u) ((Grammar.whole sub ts).map (·, [])) := by
  have hsteps : (Grammar.whole sub ts).map (·, []) =
      sub ts >>= fun x => expectEnd x.2 >>= fun y => .ok (x.1, y.2) := by
    unfold Grammar.whole
    cases sub ts with
    | error e => rfl
    | ok x => obtain ⟨e, _ | ⟨t, rest⟩⟩ := x <;> rfl
  rw [hsteps]
  exact (h ts).bind fun e rest => (Agree.lift expectEnd).bind fun _ _ => .pure e

theorem templatePart (h : Agrees b limit d l u sub) (chunk : TemplateChunk) (ts : List Lexeme) :
    Agree b limit d ts (templatePart l chunk) (Counted.templatePart u chunk)
      ((Grammar.templatePart sub chunk).map (·, ts)) := by
  cases chunk with
  | text s => exact .pure _
  | hole code =>
    simp only [Counted.templatePart, Grammar.templatePart]
    cases tokenize code.source with
    | error e => exact .fail _
    | ok tokens =>
      cases tokens with
      | nil => exact .fail _
      | cons t tokens =>
        have hsteps (x : Except SyntaxError Expr) : (x.map Part.hole).map (·, ts) =
            x.map (·, ts) >>= fun y => .ok (Part.hole y.1, y.2) := by
          cases x <;> rfl
        dsimp only
        rw [hsteps]
        exact (Agree.aside _ (h.whole _)).bind fun e rest => .pure _

theorem templateParts (h : Agrees b limit d l u sub) (chunks : List TemplateChunk)
    (ts : List Lexeme) :
    Agree b limit d ts (templateParts l chunks) (Counted.templateParts u chunks)
      ((chunks.mapM (Grammar.templatePart sub)).map (·, ts)) := by
  induction chunks generalizing ts with
  | nil => exact .pure []
  | cons chunk chunks ih =>
    have hsteps (x : Except SyntaxError (Part Expr)) (y : Except SyntaxError (List (Part Expr))) :
        (do let part ← x; let parts ← y; pure (part :: parts)).map (·, ts) =
          x.map (·, ts) >>= fun part => y.map (·, part.2) >>= fun parts =>
            .ok (part.1 :: parts.1, parts.2) := by
      cases x <;> cases y <;> rfl
    rw [List.mapM_cons, hsteps]
    exact (h.templatePart chunk ts).bind fun part rest => (ih rest).bind fun _ _ => .pure _

theorem primary (h : Agrees b limit d l u sub) :
    Agrees b limit d (primary l) (Counted.primary u) (Grammar.primary sub) := by
  intro ts
  cases ts with
  | nil => exact .upcoming (.lift (Grammar.primary tooDeep))
  | cons t ts =>
    obtain ⟨t, span⟩ := t
    refine .upcoming ?_
    cases t with
    | template chunks =>
      have hsteps (x : Except SyntaxError (List (Part Expr))) :
          (do let parts ← x; .ok (Expr.template parts span, ts)) =
            x.map (·, ts) >>= fun y => .ok (.template y.1 span, y.2) := by
        cases x <;> rfl
      simp only [Grammar.primary]
      rw [hsteps]
      exact .skip ((h.templateParts chunks ts).bind fun parts rest => .pure _)
    | symbol s =>
      cases s with
      | leftParen =>
        exact .skip ((h ts).bind fun e rest => (Agree.lift _).bind fun _ rest => .pure _)
      | leftBracket => exact .skip ((h.listUntil _ _ ts).bind fun x rest => .pure _)
      | leftBrace => exact .skip ((h.entry.listUntil _ _ ts).bind fun x rest => .pure _)
      | _ => exact .lift (Grammar.primary tooDeep)
    | keyword k => cases k <;> exact .lift (Grammar.primary tooDeep)
    | _ => exact .lift (Grammar.primary tooDeep)

theorem postfixes (h : Agrees b limit d l u sub) (n : Nat) (e : Expr) :
    Agrees b limit d (postfixes l n e) (Counted.postfixes u n e) (Grammar.postfixes sub n e) := by
  induction n generalizing e with
  | zero => exact fun ts => .pure e
  | succ n ih =>
    intro ts
    cases ts with
    | nil => exact .upcoming (.pure e)
    | cons t ts =>
      refine .upcoming ?_
      obtain ⟨t, span⟩ := t
      cases t with
      | symbol s =>
        cases s with
        | dot => exact .skip ((Agree.lift _).bind fun _ rest => ih _ rest)
        | leftBracket =>
          exact .skip ((h ts).bind fun position rest => (Agree.lift _).bind fun _ rest => ih _ rest)
        | leftParen => exact .skip ((h.listUntil _ _ ts).bind fun _ rest => ih _ rest)
        | _ => exact .pure e
      | _ => exact .pure e

theorem accessed (h : Agrees b limit d l u sub) :
    Agrees b limit d (accessed l) (Counted.accessed u) (Grammar.accessed sub) :=
  fun ts => (h.primary ts).bind fun e rest => .upcoming (h.postfixes _ e rest)

theorem prefixed {operand operand' : Counted Expr} {reader : TokenReader Expr}
    (hhigh : limit ≤ b + high) (hd : d + b < limit)
    (ho : Agrees b limit (d + 1) operand operand' reader) (h : Agrees b limit d l u sub) :
    Agrees b limit d (prefixed limit operand l) (Counted.prefixed high operand' u)
      (Grammar.prefixed (some reader) sub) := by
  intro ts
  cases ts with
  | nil => exact .upcoming (h.accessed [])
  | cons t ts =>
    refine .upcoming ?_
    cases hop : unaryOp? t.token with
    | none =>
      simp only [Grammar.prefixed, hop]
      exact h.accessed _
    | some op =>
      simp only [Grammar.prefixed, hop]
      refine .skip (Agree.bind ?_ fun e rest => .pure _)
      exact .nested t.span hhigh (fun _ => ho ts) fun hle => absurd hd (Nat.not_lt_of_le hle)

theorem prefixed_none {operand operand' : Counted Expr} (hhigh : limit ≤ b + high)
    (hd : limit ≤ d + b) (h : Agrees b limit d l u sub) :
    Agrees b limit d (Counted.prefixed limit operand l) (Counted.prefixed high operand' u)
      (Grammar.prefixed none sub) := by
  intro ts
  cases ts with
  | nil => exact .upcoming (h.accessed [])
  | cons t ts =>
    refine .upcoming ?_
    cases hop : unaryOp? t.token with
    | none =>
      simp only [Grammar.prefixed, hop]
      exact h.accessed _
    | some op =>
      simp only [Grammar.prefixed, hop]
      have hrefused : (tooDeep (t :: ts) : Except SyntaxError (Expr × List Lexeme)) =
          (.error (tooDeepAt t.span) : Except SyntaxError (Expr × List Lexeme)) >>= fun x =>
            .ok (.unary op x.1 (t.span.merge x.1.span), x.2) := rfl
      rw [hrefused]
      refine .skip (Agree.bind ?_ fun e rest => .pure _)
      exact .nested t.span hhigh (fun hlt => absurd hd (Nat.not_le_of_lt hlt)) fun _ => rfl

theorem full (hhigh : limit ≤ b + high) (hin : d + b < limit → Agrees b limit (d + 1) l u sub)
    (hout : limit ≤ d + b → sub = tooDeep) :
    Agrees b limit d (full limit l) (Counted.full high u) sub := by
  refine fun ts => .upcoming (.nested _ hhigh (fun hd => hin hd ts) fun hd => ?_)
  rw [hout hd]
  cases ts <;> rfl

end Sub

/-- The budget of the reader is what the limit leaves above the depth. -/
theorem expression_unary (hhigh : limit ≤ b + high) (n : Nat) : ∀ d k, limit < n + (d + b) →
    high < k + d →
    Agrees b limit d (expression limit n) (Counted.expression high k)
      (Grammar.expression (limit - (d + b))) ∧
    Agrees b limit d (unary limit n) (Counted.unary high k)
      (Grammar.unary (limit - (d + b))) := by
  induction n with
  | zero =>
    intro d k hn hk
    have hbudget : limit - (d + b) = 0 := by omega
    have hexpression : Agrees b limit d (Counted.expression limit 0) (Counted.expression high k)
        (Grammar.expression 0) := by
      obtain ⟨c, hc⟩ := exists_full high k
      rw [hc, Counted.expression]
      exact full hhigh (fun hlt => absurd hlt (by omega)) fun _ => expression_zero
    obtain ⟨operand, ho⟩ := exists_prefixed high k
    rw [hbudget, ho, unary_zero, Grammar.unary_zero]
    exact ⟨hexpression, prefixed_none hhigh (by omega) hexpression⟩
  | succ n ih =>
    intro d k hn hk
    by_cases hd : d + b < limit
    · -- both parsers have a level left, and so has the reader
      obtain ⟨k, rfl⟩ : ∃ k', k = k' + 1 := ⟨k - 1, by omega⟩
      have hbudget : limit - (d + b) = limit - (d + 1 + b) + 1 := by omega
      obtain ⟨he, hu⟩ := ih (d + 1) k (by omega) (by omega)
      have hexpression : Agrees b limit d (Counted.expression limit (n + 1))
          (Counted.expression high (k + 1)) (Grammar.expression (limit - (d + 1 + b) + 1)) := by
        rw [Counted.expression, Counted.expression, Grammar.expression_succ]
        exact full hhigh (fun _ => hu.conditional he) fun hle => absurd hd (Nat.not_lt_of_le hle)
      rw [hbudget, unary_succ, unary_succ, Grammar.unary_succ]
      exact ⟨hexpression, prefixed hhigh hd hu hexpression⟩
    · have hbudget : limit - (d + b) = 0 := by omega
      have hexpression : Agrees b limit d (Counted.expression limit (n + 1))
          (Counted.expression high k) (Grammar.expression 0) := by
        obtain ⟨c, hc⟩ := exists_full high k
        rw [hc, Counted.expression]
        exact full hhigh (fun hlt => absurd hlt hd) fun _ => expression_zero
      obtain ⟨operand, ho⟩ := exists_prefixed high k
      rw [hbudget, ho, unary_succ, Grammar.unary_zero]
      exact ⟨hexpression, prefixed_none hhigh (Nat.le_of_not_lt hd) hexpression⟩

end Agrees

end Counted

end Grammar

end JsonStencil
