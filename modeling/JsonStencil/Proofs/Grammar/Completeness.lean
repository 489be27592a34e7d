import JsonStencil.Proofs.Grammar.Soundness

/-!
# Readers accept their language

A spelling at the front of a list of tokens is read to its end, whatever follows it, as long as the
token behind it does not go on with the expression. How far a token goes on is its looseness: that
of an operator is its level, and accesses and calls bind tightest.
-/

namespace JsonStencil

/-- The level at which a token goes on with an expression. Level 9 never does. -/
def Token.looseness : Token → Nat
  | .symbol .dot | .symbol .leftBracket | .symbol .leftParen => 0
  | .symbol .star | .symbol .slash | .symbol .percent => 1
  | .symbol .plus | .symbol .minus => 2
  | .symbol .less | .symbol .lessEqual | .symbol .greater | .symbol .greaterEqual => 3
  | .symbol .equal | .symbol .strictEqual | .symbol .notEqual | .symbol .strictNotEqual => 4
  | .symbol .andAnd => 5
  | .symbol .orOr => 6
  | .symbol .questionQuestion => 7
  | .symbol .question => 8
  | _ => 9

namespace Grammar

open Phrases

variable {α β : Type}

/-- The next token, if there is one, goes on at a looser level. -/
def LooserThan (k : Nat) (ls : List Lexeme) : Prop := ∀ l ∈ ls.head?, k < l.token.looseness

theorem looserThan_nil (k : Nat) : LooserThan k [] := by
  intro l hl
  cases hl

theorem looserThan_cons {k : Nat} {l : Lexeme} {ls : List Lexeme} :
    LooserThan k (l :: ls) ↔ k < l.token.looseness := by
  simp [LooserThan]

/-- Every spelling at the front of the tokens is read to its end when the rest is as required. -/
def Complete (follows : List Lexeme → Prop) (view : α → β) (reader : TokenReader α)
    (L : Phrases β) : Prop :=
  ∀ ⦃ls : List Lexeme⦄ ⦃b : β⦄, L (spelling ls) b → ∀ ⦃rest : List Lexeme⦄, follows rest →
    ∃ a, reader (ls ++ rest) = .ok (a, rest) ∧ view a = b

theorem expect_cons (s : Symbol) (context : String) (span : Span) (rest : List Lexeme) :
    expect s context (⟨.symbol s, span⟩ :: rest) = .ok (span, rest) :=
  expect_eq_ok_iff.2 rfl

theorem eq_of_erase_eq_symbol {l : Lexeme} {s : Symbol} (h : l.token.erase = .symbol s) :
    l = ⟨.symbol s, l.span⟩ := by
  rw [← Token.erase_eq_symbol_iff.1 h]

theorem spelling_eq_symbol_cons {ls : List Lexeme} {s : Symbol} {ts : List Token}
    (h : spelling ls = .symbol s :: ts) :
    ∃ span ms, ls = ⟨.symbol s, span⟩ :: ms ∧ spelling ms = ts := by
  obtain ⟨l, ms, rfl, hl, hms⟩ := spelling_eq_cons_iff.1 h
  exact ⟨l.span, ms, by rw [← eq_of_erase_eq_symbol hl], hms⟩

theorem spelling_eq_single {ls : List Lexeme} {t : Token} (h : spelling ls = [t]) :
    ∃ l, ls = [l] ∧ l.token.erase = t := by
  obtain ⟨l, ms, rfl, hl, hms⟩ := spelling_eq_cons_iff.1 h
  rw [spelling_eq_nil_iff] at hms
  subst hms
  exact ⟨l, rfl, hl⟩

theorem spelling_eq_bracketed {ls : List Lexeme} {opening closing : Symbol} {ts : List Token}
    (h : spelling ls = .symbol opening :: (ts ++ [.symbol closing])) :
    ∃ span ms span', ls = ⟨.symbol opening, span⟩ :: (ms ++ [⟨.symbol closing, span'⟩]) ∧
      spelling ms = ts := by
  obtain ⟨span, ns, rfl, hns⟩ := spelling_eq_symbol_cons h
  obtain ⟨ms, ls, rfl, hms, hls⟩ := spelling_eq_append_iff.1 hns
  obtain ⟨l, rfl, hl⟩ := spelling_eq_single hls
  rw [eq_of_erase_eq_symbol hl]
  exact ⟨span, ms, l.span, rfl, hms⟩

section Levels

variable {operand : TokenReader Expr} {O : Phrases Expr} {join? : Joiner} {k : Nat}

theorem level_eq_operands (hj : join?.Lawful)
    (hlevel : ∀ t, (join? t).isSome → k < t.looseness)
    (ho : Complete (LooserThan k) Expr.erase operand O) {ts : List Token} {e : Expr}
    (h : Chain O join? ts e) {ls : List Lexeme} (hls : spelling ls = ts) {rest : List Lexeme}
    (hrest : LooserThan k rest) :
    ∃ a n, a.erase = e ∧ rest.length ≤ n ∧
      level operand join? (ls ++ rest) = operands operand join? n a rest := by
  -- the loop joins from the left, so the chain before an operator has that operator as its rest
  induction h generalizing ls rest with
  | operand h =>
    subst hls
    obtain ⟨a, ha, rfl⟩ := ho h hrest
    exact ⟨a, rest.length, rfl, Nat.le_refl _, by rw [level, ha]; rfl⟩
  | join h hf hus ih =>
    rename_i ts us t f left right
    obtain ⟨ks, ms, rfl, hks, hms⟩ := spelling_eq_append_iff.1 hls
    obtain ⟨l, ms, rfl, rfl, rfl⟩ := spelling_eq_cons_iff.1 hms
    rw [hj.erase_token] at hf
    have hl : LooserThan k (l :: (ms ++ rest)) := looserThan_cons.2 (hlevel _ (by simp [hf]))
    obtain ⟨a, n, rfl, hn, ha⟩ := ih hks hl
    obtain ⟨b, hb, rfl⟩ := ho hus hrest
    cases n with
    | zero => simp at hn
    | succ n =>
      refine ⟨f a b, n, hj.erase_join hf a b, ?_, ?_⟩
      · simp only [List.length_cons, List.length_append] at hn
        omega
      · rw [List.append_assoc, List.cons_append, ha, operands, hf]
        simp only [hb, ok_bind]

theorem operands_of_none {n : Nat} {e : Expr} {rest : List Lexeme}
    (h : ∀ l ∈ rest.head?, join? l.token = none) :
    operands operand join? n e rest = .ok (e, rest) := by
  cases n with
  | zero => rfl
  | succ n =>
    cases rest with
    | nil => rfl
    | cons l rest => rw [operands, h l rfl]

theorem level_complete (hj : join?.Lawful)
    (hlevel : ∀ t, (join? t).isSome ↔ t.looseness = k + 1)
    (ho : Complete (LooserThan k) Expr.erase operand O) :
    Complete (LooserThan (k + 1)) Expr.erase (level operand join?) (Chain O join?) := by
  intro ls e h rest hrest
  have hrest' : LooserThan k rest := fun l hl => Nat.lt_of_succ_lt (hrest l hl)
  obtain ⟨a, n, rfl, -, ha⟩ := level_eq_operands hj (fun t ht => by
    rw [(hlevel t).1 ht]
    exact Nat.lt_succ_self _) ho h rfl hrest'
  refine ⟨a, ?_, rfl⟩
  rw [ha]
  refine operands_of_none fun l hl => Option.not_isSome_iff_eq_none.1 fun hsome => ?_
  exact Nat.lt_irrefl _ ((hlevel _).1 hsome ▸ hrest l hl)

end Levels

theorem binaryLevels_complete {unary : TokenReader Expr} {U : Phrases Expr}
    (hu : Complete (LooserThan 0) Expr.erase unary U) :
    Complete (LooserThan 7) Expr.erase (binaryLevels unary) (Levels U) := by
  have hlaw {join? : Joiner} (h : join? ∈ joiners) : join?.Lawful := lawful_of_mem_joiners h
  refine level_complete (hlaw (by simp [joiners])) ?_ <|
    level_complete (hlaw (by simp [joiners])) ?_ <|
    level_complete (hlaw (by simp [joiners])) ?_ <|
    level_complete (hlaw (by simp [joiners])) ?_ <|
    level_complete (hlaw (by simp [joiners])) ?_ <|
    level_complete (hlaw (by simp [joiners])) ?_ <|
    level_complete (hlaw (by simp [joiners])) ?_ hu
  all_goals
    intro t
    cases t with
    | symbol s => cases s <;> decide
    | _ => simp [Token.looseness, joinNullish, joinOr, joinAnd, joinEquality, joinComparison,
        joinSum, joinProduct]

theorem conditional_complete {unary branch : TokenReader Expr} {U B : Phrases Expr}
    (hu : Complete (LooserThan 0) Expr.erase unary U)
    (hb : Complete (LooserThan 8) Expr.erase branch B) :
    Complete (LooserThan 8) Expr.erase (conditional unary branch) (Conditional (Levels U) B) := by
  intro ls e h rest hrest
  generalize hts : spelling ls = ts at h
  cases h with
  | condition h =>
    subst hts
    obtain ⟨a, ha, rfl⟩ := binaryLevels_complete hu h fun l hl => Nat.lt_of_succ_lt (hrest l hl)
    refine ⟨a, ?_, rfl⟩
    have hq : startsWithSymbol .question rest = false := by
      refine Bool.eq_false_iff.2 fun hq => ?_
      obtain ⟨span, rest', rfl⟩ := startsWithSymbol_iff.1 hq
      exact Nat.lt_irrefl _ (looserThan_cons.1 hrest)
    simp [conditional, ha, ok_bind, hq]
  | choice hc hx hy =>
    obtain ⟨cs, ms, rfl, rfl, hms⟩ := spelling_eq_append_iff.1 hts
    obtain ⟨question, ns, rfl, hns⟩ := spelling_eq_symbol_cons hms
    obtain ⟨xs, ys, rfl, rfl, hys⟩ := spelling_eq_append_iff.1 hns
    obtain ⟨colon, ys, rfl, rfl⟩ := spelling_eq_symbol_cons hys
    have hquestion : LooserThan 7 (⟨.symbol .question, question⟩ ::
        (xs ++ ⟨.symbol .colon, colon⟩ :: (ys ++ rest))) := looserThan_cons.2 (Nat.lt_succ_self 7)
    have hcolon : LooserThan 8 (⟨.symbol .colon, colon⟩ :: (ys ++ rest)) :=
      looserThan_cons.2 (Nat.lt_succ_self 8)
    obtain ⟨c, hc', rfl⟩ := binaryLevels_complete hu hc hquestion
    obtain ⟨x, hx', rfl⟩ := hb hx hcolon
    obtain ⟨y, hy', rfl⟩ := hb hy hrest
    refine ⟨.conditional c x y (c.span.merge y.span), ?_, rfl⟩
    rw [List.append_assoc, List.cons_append, List.append_assoc, List.cons_append]
    simp [conditional, hc', hx', hy', ok_bind, expect_cons, startsWithSymbol]

def Closer (s : Symbol) : Prop := s = .rightParen ∨ s = .rightBracket ∨ s = .rightBrace

theorem looserThan_closer {s : Symbol} (h : Closer s) (span : Span) (rest : List Lexeme) :
    LooserThan 8 (⟨.symbol s, span⟩ :: rest) := by
  rcases h with rfl | rfl | rfl <;> exact looserThan_cons.2 (Nat.lt_succ_self 8)

def Opens (L : Phrases α) : Prop :=
  ∀ ⦃ts a⦄, L ts a → ∃ t us, ts = t :: us ∧ ∀ s, Closer s → t ≠ .symbol s

theorem Opens.startsWithSymbol_eq_false {L : Phrases α} (h : Opens L) {ls : List Lexeme} {a : α}
    (hL : L (spelling ls) a) {close : Symbol} (hclose : Closer close) (rest : List Lexeme) :
    startsWithSymbol close (ls ++ rest) = false := by
  obtain ⟨t, us, ht, hne⟩ := h hL
  obtain ⟨l, ms, rfl, rfl, -⟩ := spelling_eq_cons_iff.1 ht
  refine Bool.eq_false_iff.2 fun hstart => hne close hclose ?_
  rw [Token.erase_eq_symbol_iff]
  simpa [startsWithSymbol] using hstart

theorem Opens.ne_nil {L : Phrases α} (h : Opens L) {ls : List Lexeme} {a : α}
    (hL : L (spelling ls) a) : ls ≠ [] := by
  rintro rfl
  obtain ⟨t, us, ht, -⟩ := h hL
  cases ht

section Lists

variable {view : α → β} {item : TokenReader α} {L : Phrases β} {follows : List Lexeme → Prop}
  {close : Symbol}

theorem items_complete (hi : Complete follows view item L) (ho : Opens L) (hclose : Closer close)
    (hfollows : ∀ s, s = .comma ∨ s = close → ∀ span rest, follows (⟨.symbol s, span⟩ :: rest))
    {ts : List Token} {bs : List β} (h : Separated L ts bs) {ls : List Lexeme}
    (hls : spelling ls = ts) {n : Nat} (hn : ls.length ≤ n) (span : Span) (rest : List Lexeme) :
    ∃ as, items item close n (ls ++ ⟨.symbol close, span⟩ :: rest) =
      .ok (as, ⟨.symbol close, span⟩ :: rest) ∧ as.map view = bs := by
  have hcomma : startsWithSymbol .comma (⟨.symbol close, span⟩ :: rest) = false := by
    rcases hclose with rfl | rfl | rfl <;> rfl
  induction h generalizing ls n with
  | nil =>
    rw [spelling_eq_nil_iff] at hls
    subst hls
    cases n <;> exact ⟨[], by simp [items, startsWithSymbol], rfl⟩
  | single h =>
    subst hls
    obtain ⟨a, ha, rfl⟩ := hi h (hfollows close (.inr rfl) span rest)
    cases n with
    | zero => exact absurd (List.length_eq_zero_iff.1 (Nat.le_zero.1 hn)) (ho.ne_nil h)
    | succ n =>
      refine ⟨[a], ?_, rfl⟩
      rw [items, ho.startsWithSymbol_eq_false h hclose, if_neg Bool.false_ne_true, ha, ok_bind]
      simp [hcomma]
  | cons h hbs ih =>
    obtain ⟨ks, cs, rfl, rfl, hcs⟩ := spelling_eq_append_iff.1 hls
    obtain ⟨comma, ms, rfl, rfl⟩ := spelling_eq_symbol_cons hcs
    have hn' : ms.length < n := by
      simp only [List.length_append, List.length_cons] at hn
      omega
    cases n with
    | zero => cases hn'
    | succ n =>
      obtain ⟨as, has, rfl⟩ := ih rfl (Nat.le_of_lt_succ hn')
      obtain ⟨a, ha, rfl⟩ :=
        hi h (hfollows .comma (.inl rfl) comma (ms ++ ⟨.symbol close, span⟩ :: rest))
      refine ⟨a :: as, ?_, rfl⟩
      rw [List.append_assoc, List.cons_append, items, ho.startsWithSymbol_eq_false h hclose,
        if_neg Bool.false_ne_true, ha, ok_bind]
      simp [has, ok_bind, startsWithSymbol]

theorem listUntil_complete (hi : Complete follows view item L) (ho : Opens L)
    (hclose : Closer close)
    (hfollows : ∀ s, s = .comma ∨ s = close → ∀ span rest, follows (⟨.symbol s, span⟩ :: rest))
    (context : String) {ls : List Lexeme} {bs : List β} (h : Separated L (spelling ls) bs)
    (span : Span) (rest : List Lexeme) :
    ∃ as, listUntil item close context (ls ++ ⟨.symbol close, span⟩ :: rest) =
      .ok ((as, span), rest) ∧ as.map view = bs := by
  have hn : ls.length ≤ (ls ++ ⟨.symbol close, span⟩ :: rest).length + 1 := by
    rw [List.length_append]
    omega
  obtain ⟨as, has, rfl⟩ := items_complete hi ho hclose hfollows h rfl hn span rest
  exact ⟨as, by simp only [listUntil, has, ok_bind, expect_cons], rfl⟩

end Lists

theorem looserThan_separator {close : Symbol} (hclose : Closer close) (s : Symbol)
    (hs : s = .comma ∨ s = close) (span : Span) (rest : List Lexeme) :
    LooserThan 8 (⟨.symbol s, span⟩ :: rest) := by
  rcases hs with rfl | rfl
  · exact looserThan_cons.2 (Nat.lt_succ_self 8)
  · exact looserThan_closer hclose span rest

theorem endsShorthand_separator (s : Symbol) (hs : s = .comma ∨ s = .rightBrace) (span : Span)
    (rest : List Lexeme) : endsShorthand (⟨.symbol s, span⟩ :: rest) := by
  rcases hs with rfl | rfl <;> rfl

section Sub

variable {sub : TokenReader Expr} {S : Phrases Expr}

theorem entryValue_colon (sub : TokenReader Expr) (key : EntryKey) (span : Span)
    (rest : List Lexeme) : entryValue sub key (⟨.symbol .colon, span⟩ :: rest) = sub rest := by
  have hends : endsShorthand (⟨.symbol .colon, span⟩ :: rest) = false := rfl
  unfold entryValue
  rw [hends]
  cases key.shorthand <;> simp only [expect_cons, ok_bind]

theorem entryValue_shorthand (sub : TokenReader Expr) {key : EntryKey} {name : String}
    (hkey : key.shorthand = some name) {rest : List Lexeme} (hrest : endsShorthand rest) :
    entryValue sub key rest = .ok (.identifier name key.span, rest) := by
  unfold entryValue
  rw [hkey, hrest]

theorem looserThan_of_endsShorthand {rest : List Lexeme} (h : endsShorthand rest) :
    LooserThan 8 rest := by
  intro l hl
  cases rest with
  | nil => cases hl
  | cons l' rest =>
    cases hl
    simp only [endsShorthand, startsWithSymbol, Bool.or_eq_true, decide_eq_true_eq] at h
    rcases h with h | h <;> rw [h] <;> exact Nat.lt_succ_self 8

theorem entryKey_of_keyName? (sub : TokenReader Expr) {l : Lexeme} {name : String}
    (h : keyName? l.token.erase = some name) (rest : List Lexeme) :
    ∃ shorthand, entryKey sub (l :: rest) = .ok (⟨.named name, shorthand, l.span⟩, rest) := by
  obtain ⟨t, span⟩ := l
  cases t <;> cases h
  · exact ⟨none, rfl⟩
  · exact ⟨some _, rfl⟩
  · exact ⟨none, rfl⟩
  · exact ⟨none, rfl⟩

theorem entry_complete (hs : Complete (LooserThan 8) Expr.erase sub S) :
    Complete (fun rest => endsShorthand rest) ObjectEntry.erase (entry sub) (Entry S) := by
  intro ls x h rest hrest
  have hfollow : LooserThan 8 rest := looserThan_of_endsShorthand hrest
  generalize hts : spelling ls = ts at h
  cases h with
  | shorthand name =>
    obtain ⟨⟨t, span⟩, rfl, hl⟩ := spelling_eq_single hts
    cases t <;> cases hl
    refine ⟨⟨.named name, .identifier name span, span.merge span⟩, ?_, rfl⟩
    simp only [List.singleton_append, entry, entryKey, ok_bind,
      entryValue_shorthand sub (rfl : EntryKey.shorthand ⟨_, some name, _⟩ = _) hrest]
    rfl
  | named hk he =>
    obtain ⟨l, ms, rfl, rfl, hms⟩ := spelling_eq_cons_iff.1 hts
    obtain ⟨colon, es, rfl, rfl⟩ := spelling_eq_symbol_cons hms
    obtain ⟨a, ha, rfl⟩ := hs he hfollow
    obtain ⟨shorthand, hkey⟩ := entryKey_of_keyName? sub hk
      (⟨.symbol .colon, colon⟩ :: (es ++ rest))
    refine ⟨⟨.named _, a, l.span.merge a.span⟩, ?_, rfl⟩
    simp only [List.cons_append, entry, hkey, ok_bind, entryValue_colon, ha]
  | computed hk he =>
    obtain ⟨bracket, ms, rfl, hms⟩ := spelling_eq_symbol_cons hts
    obtain ⟨ks, cs, rfl, rfl, hcs⟩ := spelling_eq_append_iff.1 hms
    obtain ⟨close, ns, rfl, hns⟩ := spelling_eq_symbol_cons hcs
    obtain ⟨colon, es, rfl, rfl⟩ := spelling_eq_symbol_cons hns
    obtain ⟨k, hk', rfl⟩ := hs hk
      (looserThan_closer (.inr (.inl rfl)) close (⟨.symbol .colon, colon⟩ :: (es ++ rest)))
    obtain ⟨a, ha, rfl⟩ := hs he hfollow
    refine ⟨⟨.computed k, a, bracket.merge a.span⟩, ?_, rfl⟩
    simp [entry, entryKey, hk', ok_bind, expect_cons, entryValue_colon, ha]

theorem opens_entry (sub : Phrases Expr) : Opens (Entry sub) := by
  intro ts x h
  cases h with
  | shorthand name => exact ⟨_, _, rfl, fun s _ h => by cases h⟩
  | named hk _ => exact ⟨_, _, rfl, fun s _ h => by subst h; cases hk⟩
  | computed _ _ =>
    refine ⟨_, _, rfl, fun s hs h => ?_⟩
    cases h
    rcases hs with h | h | h <;> cases h

theorem whole_complete (hs : Complete (LooserThan 8) Expr.erase sub S) {ls : List Lexeme} {e : Expr}
    (h : S (spelling ls) e) : ∃ a, whole sub ls = .ok a ∧ a.erase = e := by
  obtain ⟨a, ha, rfl⟩ := hs h (looserThan_nil 8)
  rw [List.append_nil] at ha
  exact ⟨a, whole_eq_ok_iff.2 ha, rfl⟩

theorem templatePart_of_whole {code : CodeText} {ls : List Lexeme} {e : Expr}
    (hcode : tokenize code.source = .ok ls)
    (hne : ls.map (·.relocate code.span) ≠ [])
    (h : whole sub (ls.map (·.relocate code.span)) = .ok e) :
    templatePart sub (.hole code) = .ok (.hole e) := by
  cases ls with
  | nil => exact absurd rfl hne
  | cons l ls => simp only [templatePart, hcode, h, Except.map]

theorem templatePart_complete (hs : Complete (LooserThan 8) Expr.erase sub S) (ho : Opens S)
    {chunks' : List TemplateChunk} {parts : List (Part Expr)} (h : Chunks S chunks' parts)
    {chunks : List TemplateChunk} (hchunks : chunks.map (Part.map CodeText.erase) = chunks') :
    ∃ as, chunks.mapM (templatePart sub) = .ok as ∧ as.map (Part.map Expr.erase) = parts := by
  induction h generalizing chunks with
  | nil =>
    rw [List.map_eq_nil_iff] at hchunks
    subst hchunks
    exact ⟨[], rfl, rfl⟩
  | text s _ ih =>
    obtain ⟨chunk, more, rfl, hchunk, hmore⟩ := List.map_eq_cons_iff.1 hchunks
    obtain ⟨as, has, rfl⟩ := ih hmore
    cases chunk <;> cases hchunk
    refine ⟨.text s :: as, ?_, rfl⟩
    simp only [List.mapM_cons, templatePart, ok_bind, has]
    rfl
  | code htokens hS _ ih =>
    obtain ⟨chunk, more, rfl, hchunk, hmore⟩ := List.map_eq_cons_iff.1 hchunks
    obtain ⟨as, has, rfl⟩ := ih hmore
    cases chunk with
    | text s => cases hchunk
    | hole code =>
      cases hchunk
      rw [← spelling_relocate code.span] at hS
      obtain ⟨a, ha, rfl⟩ := whole_complete hs hS
      refine ⟨.hole a :: as, ?_, rfl⟩
      have hpart : templatePart sub (.hole code) = .ok (.hole a) :=
        templatePart_of_whole htokens (ho.ne_nil hS) ha
      simp only [List.mapM_cons, hpart, ok_bind, has]
      rfl

theorem primary_complete (hs : Complete (LooserThan 8) Expr.erase sub S) (ho : Opens S) :
    Complete (fun _ => True) Expr.erase (primary sub) (Primary S) := by
  intro ls e h rest _
  generalize hts : spelling ls = ts at h
  cases h with
  | template hchunks =>
    obtain ⟨⟨t, span⟩, rfl, hl⟩ := spelling_eq_single hts
    cases t <;> cases hl
    obtain ⟨parts, hparts, rfl⟩ := templatePart_complete hs ho hchunks rfl
    refine ⟨.template parts span, ?_, by rw [Expr.erase, Expr.eraseParts_eq_map]⟩
    simp only [List.cons_append, List.nil_append, primary, hparts, ok_bind]
  | group h =>
    obtain ⟨open', ks, close, rfl, rfl⟩ := spelling_eq_bracketed hts
    obtain ⟨a, ha, rfl⟩ := hs h (looserThan_closer (.inl rfl) close rest)
    refine ⟨a, ?_, rfl⟩
    simp [primary, ha, ok_bind, expect_cons]
  | array h =>
    obtain ⟨open', ks, close, rfl, rfl⟩ := spelling_eq_bracketed hts
    have hclose : Closer .rightBracket := .inr (.inl rfl)
    obtain ⟨as, has, rfl⟩ := listUntil_complete hs ho hclose (looserThan_separator hclose)
      "array literal" h close rest
    refine ⟨.array as (open'.merge close), ?_, by rw [Expr.erase, Expr.eraseItems_eq_map]⟩
    simp [primary, has, ok_bind]
  | object h =>
    obtain ⟨open', ks, close, rfl, rfl⟩ := spelling_eq_bracketed hts
    obtain ⟨as, has, rfl⟩ := listUntil_complete (entry_complete hs) (opens_entry S)
      (.inr (.inr rfl)) endsShorthand_separator "object literal" h close rest
    refine ⟨.object as (open'.merge close), ?_, by rw [Expr.erase, Expr.eraseEntries_eq_map]⟩
    simp [primary, has, ok_bind]
  | _ =>
    obtain ⟨⟨t, span⟩, rfl, hl⟩ := spelling_eq_single hts
    cases t <;> cases hl
    exact ⟨_, rfl, rfl⟩

theorem opens_primary (sub : Phrases Expr) : Opens (Primary sub) := by
  intro ts e h
  cases h with
  | group | array | object =>
    refine ⟨_, _, rfl, fun s hs h => ?_⟩
    cases h
    rcases hs with h | h | h <;> cases h
  | _ => exact ⟨_, _, rfl, fun s _ h => by cases h⟩

theorem opens_accessed (sub : Phrases Expr) : Opens (Accessed sub) := by
  intro ts e h
  induction h with
  | primary h => exact opens_primary sub h
  | member _ _ ih | index _ _ ih | call _ _ ih =>
    obtain ⟨t, us, rfl, hne⟩ := ih
    exact ⟨t, _, rfl, hne⟩

theorem opens_prefixed (operand sub : Phrases Expr) : Opens (Prefixed operand sub) := by
  intro ts e h
  cases h with
  | accessed h => exact opens_accessed sub h
  | operator hop _ =>
    refine ⟨_, _, rfl, fun s hs h => ?_⟩
    subst h
    rcases hs with rfl | rfl | rfl <;> cases hop

theorem opens_chain {operand : Phrases Expr} (ho : Opens operand) (join? : Joiner) :
    Opens (Chain operand join?) := by
  intro ts e h
  induction h with
  | operand h => exact ho h
  | join _ _ _ ih =>
    obtain ⟨t, us, rfl, hne⟩ := ih
    exact ⟨t, _, rfl, hne⟩

theorem opens_levels {unary : Phrases Expr} (ho : Opens unary) : Opens (Levels unary) :=
  levels_induction ho fun _ join? _ h => opens_chain h join?

theorem opens_conditional {unary branch : Phrases Expr} (ho : Opens unary) :
    Opens (Conditional (Levels unary) branch) := by
  intro ts e h
  cases h with
  | condition h => exact opens_levels ho h
  | choice h _ _ =>
    obtain ⟨t, us, rfl, hne⟩ := opens_levels ho h
    exact ⟨t, _, rfl, hne⟩

theorem accessed_eq_postfixes (hs : Complete (LooserThan 8) Expr.erase sub S) (ho : Opens S)
    {ts : List Token} {e : Expr} (h : Accessed S ts e) {ls : List Lexeme} (hls : spelling ls = ts)
    (rest : List Lexeme) :
    ∃ a n, a.erase = e ∧ rest.length ≤ n ∧ accessed sub (ls ++ rest) = postfixes sub n a rest := by
  induction h generalizing ls rest with
  | primary h =>
    subst hls
    have hfollows : (fun _ : List Lexeme => True) rest := trivial
    obtain ⟨a, ha, rfl⟩ := primary_complete hs ho h hfollows
    exact ⟨a, rest.length, rfl, Nat.le_refl _, by rw [accessed, ha]; rfl⟩
  | @member _ _ _ name _ hname ih =>
    obtain ⟨ks, cs, rfl, hks, hcs⟩ := spelling_eq_append_iff.1 hls
    obtain ⟨dot, ms, rfl, hms⟩ := spelling_eq_symbol_cons hcs
    obtain ⟨⟨t, span⟩, rfl, rfl⟩ := spelling_eq_single hms
    obtain ⟨a, n, rfl, hn, ha⟩ := ih hks (⟨.symbol .dot, dot⟩ :: ⟨t, span⟩ :: rest)
    cases n with
    | zero => cases hn
    | succ n =>
      have hmember : memberName (⟨t, span⟩ :: rest) = .ok ((name, span), rest) :=
        memberName_eq_ok_iff.2 ⟨t, rfl, (memberName?_erase t).symm.trans hname⟩
      refine ⟨.member a name (a.span.merge span), n, rfl, ?_, ?_⟩
      · simp only [List.length_cons] at hn
        omega
      · simp only [List.append_assoc, List.cons_append, List.nil_append, ha, postfixes, hmember,
          ok_bind]
  | index _ hposition ih =>
    obtain ⟨ks, cs, rfl, hks, hcs⟩ := spelling_eq_append_iff.1 hls
    obtain ⟨open', us, close, rfl, rfl⟩ := spelling_eq_bracketed hcs
    obtain ⟨a, n, rfl, hn, ha⟩ := ih hks
      (⟨.symbol .leftBracket, open'⟩ :: (us ++ ⟨.symbol .rightBracket, close⟩ :: rest))
    obtain ⟨i, hi, rfl⟩ := hs hposition (looserThan_closer (.inr (.inl rfl)) close rest)
    cases n with
    | zero => cases hn
    | succ n =>
      refine ⟨.index a i (a.span.merge close), n, rfl, ?_, ?_⟩
      · simp only [List.length_cons, List.length_append] at hn
        omega
      · simp only [List.append_assoc, List.cons_append, List.nil_append, ha, postfixes, hi, ok_bind,
          expect_cons]
  | call _ hargs ih =>
    obtain ⟨ks, cs, rfl, hks, hcs⟩ := spelling_eq_append_iff.1 hls
    obtain ⟨open', us, close, rfl, rfl⟩ := spelling_eq_bracketed hcs
    obtain ⟨a, n, rfl, hn, ha⟩ := ih hks
      (⟨.symbol .leftParen, open'⟩ :: (us ++ ⟨.symbol .rightParen, close⟩ :: rest))
    have hclose : Closer .rightParen := .inl rfl
    obtain ⟨as, has, rfl⟩ := listUntil_complete hs ho hclose (looserThan_separator hclose)
      "call arguments" hargs close rest
    cases n with
    | zero => cases hn
    | succ n =>
      refine ⟨.call a as (a.span.merge close), n, ?_, ?_, ?_⟩
      · rw [Expr.erase, Expr.eraseItems_eq_map]
      · simp only [List.length_cons, List.length_append] at hn
        omega
      · simp only [List.append_assoc, List.cons_append, List.nil_append, ha, postfixes, has,
          ok_bind]

theorem postfixes_of_looserThan {n : Nat} {e : Expr} {rest : List Lexeme}
    (h : LooserThan 0 rest) : postfixes sub n e rest = .ok (e, rest) := by
  cases n with
  | zero => rfl
  | succ n =>
    cases rest with
    | nil => rfl
    | cons l rest =>
      have hl := looserThan_cons.1 h
      rw [postfixes]
      split
      next ht => simp [ht, Token.looseness] at hl
      next ht => simp [ht, Token.looseness] at hl
      next ht => simp [ht, Token.looseness] at hl
      next => rfl

theorem accessed_complete (hs : Complete (LooserThan 8) Expr.erase sub S) (ho : Opens S) :
    Complete (LooserThan 0) Expr.erase (accessed sub) (Accessed S) := by
  intro ls e h rest hrest
  obtain ⟨a, n, rfl, -, ha⟩ := accessed_eq_postfixes hs ho h rfl rest
  exact ⟨a, by rw [ha, postfixes_of_looserThan hrest], rfl⟩

theorem unaryOp?_of_primary {ts : List Token} {e : Expr} (h : Primary S ts e) :
    ∃ t us, ts = t :: us ∧ unaryOp? t = none := by
  cases h <;> exact ⟨_, _, rfl, rfl⟩

theorem unaryOp?_of_accessed {ls : List Lexeme} {e : Expr} (h : Accessed S (spelling ls) e) :
    ∃ l ms, ls = l :: ms ∧ unaryOp? l.token = none := by
  have hstart : ∃ t us, spelling ls = t :: us ∧ unaryOp? t = none := by
    generalize spelling ls = ts at h
    induction h with
    | primary h => exact unaryOp?_of_primary h
    | member _ _ ih | index _ _ ih | call _ _ ih =>
      obtain ⟨t, us, rfl, ht⟩ := ih
      exact ⟨t, _, rfl, ht⟩
  obtain ⟨t, us, hts, ht⟩ := hstart
  obtain ⟨l, ms, rfl, rfl, -⟩ := spelling_eq_cons_iff.1 hts
  exact ⟨l, ms, rfl, (unaryOp?_erase _).symm.trans ht⟩

theorem prefixed_complete {operand : Option (TokenReader Expr)} {O : Phrases Expr}
    (hoperand : ∀ ⦃ts e⦄, O ts e → ∃ reader, operand = some reader ∧
      Complete (LooserThan 0) Expr.erase reader O)
    (hs : Complete (LooserThan 8) Expr.erase sub S) (ho : Opens S) :
    Complete (LooserThan 0) Expr.erase (prefixed operand sub) (Prefixed O S) := by
  intro ls e h rest hrest
  generalize hts : spelling ls = ts at h
  cases h with
  | accessed h =>
    subst hts
    obtain ⟨a, ha, rfl⟩ := accessed_complete hs ho h hrest
    obtain ⟨l, ms, rfl, hl⟩ := unaryOp?_of_accessed h
    refine ⟨a, ?_, rfl⟩
    simp only [List.cons_append, prefixed, hl]
    exact ha
  | operator hop h =>
    obtain ⟨l, ms, rfl, rfl, rfl⟩ := spelling_eq_cons_iff.1 hts
    rw [unaryOp?_erase] at hop
    obtain ⟨reader, rfl, hreader⟩ := hoperand h
    obtain ⟨a, ha, rfl⟩ := hreader h hrest
    refine ⟨.unary _ a (l.span.merge a.span), ?_, rfl⟩
    simp only [List.cons_append, prefixed, hop, ha, ok_bind]

end Sub

theorem nothing_complete {follows : List Lexeme → Prop} {reader : TokenReader Expr} :
    Complete follows Expr.erase reader Nothing := fun _ _ h => h.elim

theorem opens_unary (budget : Nat) : Opens (Unary budget) := by
  cases budget with
  | zero => exact Phrases.unary_zero ▸ opens_prefixed _ _
  | succ budget => exact Phrases.unary_succ budget ▸ opens_prefixed _ _

theorem opens_expression (budget : Nat) : Opens (Expression budget) := by
  cases budget with
  | zero => exact fun _ _ h => by rw [Expression] at h; exact h.elim
  | succ budget =>
    rw [Phrases.expression_succ]
    exact opens_conditional (opens_unary budget)

/-- Both readers accept all that their budget allows. -/
theorem expression_unary_complete (budget : Nat) :
    Complete (LooserThan 8) Expr.erase (expression budget) (Expression budget) ∧
      Complete (LooserThan 0) Expr.erase (unary budget) (Unary budget) := by
  refine expression_unary_induction
    (fun n reader => Complete (LooserThan 8) Expr.erase reader (Expression n))
    (fun n reader => Complete (LooserThan 0) Expr.erase reader (Unary n)) ?_ ?_ ?_ ?_ budget
  · rw [Expression]
    exact nothing_complete
  · intro n hunary hfull
    rw [Phrases.expression_succ]
    exact conditional_complete hunary hfull
  · intro hfull
    rw [Phrases.unary_zero]
    exact prefixed_complete (fun _ _ h => h.elim) hfull (opens_expression 0)
  · intro n hunary hfull
    rw [Phrases.unary_succ]
    exact prefixed_complete (fun _ _ _ => ⟨_, rfl, hunary⟩) hfull (opens_expression (n + 1))

end Grammar

end JsonStencil
