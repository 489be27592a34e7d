import JsonStencil.Proofs.Grammar.Readings

/-!
# Readers stay inside their language

What a reader takes from the front of a list of tokens is a spelling of what it returns. The ways to
read are those to put phrases together, so the proof for each reader rests on those of the readers
it calls.
-/

namespace JsonStencil

namespace Grammar

open Phrases

variable {α β : Type}

/-- Reading takes a spelling of the result from the front of the tokens. -/
def Sound (view : α → β) (reader : TokenReader α) (L : Phrases β) : Prop :=
  ∀ ⦃ls : List Lexeme⦄ ⦃a : α⦄ ⦃rest : List Lexeme⦄, reader ls = .ok (a, rest) →
    ∃ used, ls = used ++ rest ∧ L (spelling used) (view a)

/-- An operator of a level that sees only symbols and spans both operands. -/
structure Joiner.Lawful (join? : Joiner) : Prop where
  erase_token : ∀ t, join? t.erase = join? t
  erase_join : ∀ {t f}, join? t = some f → ∀ a b, (f a b).erase = f a.erase b.erase

theorem erase_joinBinary (op : BinaryOp) (a b : Expr) :
    (Expr.joinBinary op a b).erase = Expr.joinBinary op a.erase b.erase := by
  simp [Expr.joinBinary, Expr.erase]

theorem erase_joinLogical (op : LogicalOp) (a b : Expr) :
    (Expr.joinLogical op a b).erase = Expr.joinLogical op a.erase b.erase := by
  simp [Expr.joinLogical, Expr.erase]

theorem lawful_of_mem_joiners {join? : Joiner} (h : join? ∈ joiners) : join?.Lawful := by
  simp only [joiners, List.mem_cons, List.not_mem_nil, or_false] at h
  constructor
  · intro t
    rcases h with rfl | rfl | rfl | rfl | rfl | rfl | rfl <;> cases t <;> rfl
  · intro t f hf a b
    cases t with
    | symbol s =>
      rcases h with rfl | rfl | rfl | rfl | rfl | rfl | rfl <;> cases s <;> cases hf <;>
        first | exact erase_joinBinary _ a b | exact erase_joinLogical _ a b
    | _ => rcases h with rfl | rfl | rfl | rfl | rfl | rfl | rfl <;> cases hf

theorem tooDeep_sound {view : α → β} {L : Phrases β} : Sound view tooDeep L := by
  intro ls a rest h
  cases h

section Levels

variable {operand : TokenReader Expr} {O : Phrases Expr} {join? : Joiner}

theorem LevelRead.sound {ls rest : List Lexeme} {e : Expr}
    (h : LevelRead operand join? ls e rest) (hj : join?.Lawful) (ho : Sound Expr.erase operand O) :
    ∃ used, ls = used ++ rest ∧ Chain O join? (spelling used) e.erase := by
  induction h with
  | operand h =>
    obtain ⟨used, hused, hO⟩ := ho h
    exact ⟨used, hused, .operand hO⟩
  | @join left right l _ _ f _ hf hright ih =>
    obtain ⟨ks, rfl, hks⟩ := ih
    obtain ⟨us, rfl, hus⟩ := ho hright
    refine ⟨ks ++ l :: us, by simp, ?_⟩
    rw [hj.erase_join hf, spelling_append, spelling_cons]
    exact .join hks ((hj.erase_token _).trans hf) hus

theorem level_sound (hj : join?.Lawful) (ho : Sound Expr.erase operand O) :
    Sound Expr.erase (level operand join?) (Chain O join?) :=
  fun _ _ _ h => (levelRead_of_level h).sound hj ho

theorem binaryLevels_sound (ho : Sound Expr.erase operand O) :
    Sound Expr.erase (binaryLevels operand) (Levels O) :=
  binaryLevels_induction ho fun _ hj _ _ h => level_sound (lawful_of_mem_joiners hj) h

end Levels

theorem conditional_sound {unary branch : TokenReader Expr} {U B : Phrases Expr}
    (hu : Sound Expr.erase unary U) (hb : Sound Expr.erase branch B) :
    Sound Expr.erase (conditional unary branch) (Conditional (Levels U) B) := by
  intro ls e rest h
  cases conditionalRead_of_conditional h with
  | condition hc =>
    obtain ⟨ts, hts, hL⟩ := binaryLevels_sound hu hc
    exact ⟨ts, hts, .condition hL⟩
  | @choice _ _ _ question colon _ _ _ hc hx hy =>
    obtain ⟨ts, rfl, hts⟩ := binaryLevels_sound hu hc
    obtain ⟨us, rfl, hus⟩ := hb hx
    obtain ⟨vs, rfl, hvs⟩ := hb hy
    refine ⟨ts ++ ⟨.symbol .question, question⟩ :: (us ++ ⟨.symbol .colon, colon⟩ :: vs),
      by simp, ?_⟩
    simpa [Token.erase, Expr.erase] using Conditional.choice hts hus hvs

theorem ItemsRead.sound {view : α → β} {item : TokenReader α} {L : Phrases β}
    {ls rest : List Lexeme}
    {as : List α} (h : ItemsRead item ls as rest) (hi : Sound view item L) :
    ∃ used, ls = used ++ rest ∧ Separated L (spelling used) (as.map view) := by
  induction h with
  | nil ls => exact ⟨[], rfl, .nil⟩
  | single ha =>
    obtain ⟨ts, hts, hL⟩ := hi ha
    exact ⟨ts, hts, .single hL⟩
  | @cons _ _ _ _ _ comma ha _ ih =>
    obtain ⟨ts, rfl, hts⟩ := hi ha
    obtain ⟨us, rfl, hus⟩ := ih
    refine ⟨ts ++ ⟨.symbol .comma, comma⟩ :: us, by simp, ?_⟩
    simpa [Token.erase] using Separated.cons hts hus

section Sub

variable {sub : TokenReader Expr} {S : Phrases Expr}

theorem keyName?_erase (t : Token) : keyName? t.erase = keyName? t := by
  cases t <;> rfl

theorem memberName?_erase (t : Token) : memberName? t.erase = memberName? t := by
  cases t <;> rfl

theorem unaryOp?_erase (t : Token) : unaryOp? t.erase = unaryOp? t := by
  cases t <;> rfl

/-- How the tokens of a key continue to those of an entry. -/
inductive KeyTokens (S : Phrases Expr) : List Token → EntryKey → Prop
  | name {t : Token} {name : String} {shorthand : Option String} (span : Span) :
      keyName? t = some name → (∀ s, shorthand = some s → t = .identifier s) →
      KeyTokens S [t] ⟨.named name, shorthand, span⟩
  | computed {ts : List Token} {e : Expr} (span : Span) : S ts e.erase →
      KeyTokens S (.symbol .leftBracket :: (ts ++ [.symbol .rightBracket]))
        ⟨.computed e, none, span⟩

theorem entryKey_sound (hs : Sound Expr.erase sub S) :
    Sound id (entryKey sub) (KeyTokens S) := by
  intro ls key rest h
  cases keyRead_of_entryKey h with
  | @name t span _ _ _ ht hshort =>
    refine ⟨[⟨t, span⟩], rfl, .name span ((keyName?_erase t).trans ht) fun s hs => ?_⟩
    rw [hshort s hs]
    rfl
  | @computed first last _ _ _ he =>
    obtain ⟨ts, rfl, hts⟩ := hs he
    refine ⟨⟨.symbol .leftBracket, first⟩ :: (ts ++ [⟨.symbol .rightBracket, last⟩]), by simp, ?_⟩
    simpa [Token.erase] using KeyTokens.computed first hts

theorem entry_sound (hs : Sound Expr.erase sub S) :
    Sound ObjectEntry.erase (entry sub) (Entry S) := by
  intro ls x rest h
  obtain ⟨⟨key, ls'⟩, hkey, h'⟩ := bind_eq_ok_iff.1 h
  obtain ⟨⟨e, r⟩, hvalue, h''⟩ := bind_eq_ok_iff.1 h'
  cases h''
  obtain ⟨ks, rfl, hks⟩ := entryKey_sound hs hkey
  rcases entryValue_cases hvalue with ⟨rfl, name, hname, rfl⟩ | ⟨colon, mid, rfl, he⟩
  · refine ⟨ks, rfl, ?_⟩
    generalize spelling ks = ts at hks
    cases hks with
    | name span hk hshort =>
      cases hshort name hname
      cases hk
      exact .shorthand name
    | computed => cases hname
  · obtain ⟨used, rfl, hused⟩ := hs he
    refine ⟨ks ++ ⟨.symbol .colon, colon⟩ :: used, by simp, ?_⟩
    rw [spelling_append, spelling_cons]
    generalize spelling ks = ts at hks
    cases hks with
    | name span hk hshort => exact .named hk hused
    | computed span hk =>
      simpa [Token.erase, ObjectEntry.erase, PropertyKey.erase] using Entry.computed hk hused

theorem PartsRead.sound {chunks : List TemplateChunk} {parts : List (Part Expr)}
    (h : PartsRead sub chunks parts) (hs : Sound Expr.erase sub S) :
    Chunks S (chunks.map (Part.map CodeText.erase)) (parts.map (Part.map Expr.erase)) := by
  induction h with
  | nil => exact .nil
  | text s _ ih => exact .text s ih
  | code hts he _ ih =>
    obtain ⟨used, hused, hS⟩ := hs he
    rw [List.append_nil] at hused
    rw [← hused, spelling_relocate] at hS
    exact .code hts hS ih

theorem Atomic.spelled {span : Span} {t : Token} {e : Expr} (h : Atomic span t e) :
    Primary S [t.erase] e.erase := by
  cases h with
  | null => exact .null
  | true => exact .true
  | false => exact .false
  | number x => exact .number x
  | string s => exact .string s
  | identifier name => exact .identifier name

theorem primary_sound (hs : Sound Expr.erase sub S) :
    Sound Expr.erase (primary sub) (Primary S) := by
  intro ls e rest h
  cases primaryRead_of_primary h with
  | @atom t span _ _ hatom => exact ⟨[⟨t, span⟩], rfl, hatom.spelled⟩
  | @template chunks _ span _ hparts =>
    refine ⟨[⟨.template chunks, span⟩], rfl, ?_⟩
    rw [Expr.erase, Expr.eraseParts_eq_map]
    exact .template (hparts.sound hs)
  | @group first last _ _ _ he =>
    obtain ⟨ts, rfl, hts⟩ := hs he
    refine ⟨⟨.symbol .leftParen, first⟩ :: (ts ++ [⟨.symbol .rightParen, last⟩]), by simp, ?_⟩
    simpa [Token.erase] using Primary.group hts
  | @array first last _ _ _ hes =>
    obtain ⟨ts, rfl, hts⟩ := hes.sound hs
    refine ⟨⟨.symbol .leftBracket, first⟩ :: (ts ++ [⟨.symbol .rightBracket, last⟩]), by simp, ?_⟩
    simpa [Token.erase, Expr.erase, Expr.eraseItems_eq_map] using Primary.array hts
  | @object first last _ _ _ hentries =>
    obtain ⟨ts, rfl, hts⟩ := hentries.sound (entry_sound hs)
    refine ⟨⟨.symbol .leftBrace, first⟩ :: (ts ++ [⟨.symbol .rightBrace, last⟩]), by simp, ?_⟩
    simpa [Token.erase, Expr.erase, Expr.eraseEntries_eq_map] using Primary.object hts

theorem AccessedRead.sound {ls rest : List Lexeme} {e : Expr} (h : AccessedRead sub ls e rest)
    (hs : Sound Expr.erase sub S) :
    ∃ used, ls = used ++ rest ∧ Accessed S (spelling used) e.erase := by
  induction h with
  | primary h =>
    obtain ⟨used, hused, hL⟩ := primary_sound hs h
    exact ⟨used, hused, .primary hL⟩
  | @member _ dot last t _ _ _ ht ih =>
    obtain ⟨ks, rfl, howner⟩ := ih
    refine ⟨ks ++ [⟨.symbol .dot, dot⟩, ⟨t, last⟩], by simp, ?_⟩
    simpa [Token.erase, Expr.erase] using
      Accessed.member howner ((memberName?_erase t).trans ht)
  | @index _ _ first last _ _ _ hposition ih =>
    obtain ⟨ks, rfl, howner⟩ := ih
    obtain ⟨us, rfl, hus⟩ := hs hposition
    refine ⟨ks ++ ⟨.symbol .leftBracket, first⟩ :: (us ++ [⟨.symbol .rightBracket, last⟩]),
      by simp, ?_⟩
    simpa [Token.erase, Expr.erase] using Accessed.index howner hus
  | @call _ _ first last _ _ _ hargs ih =>
    obtain ⟨ks, rfl, hcallee⟩ := ih
    obtain ⟨us, rfl, hus⟩ := hargs.sound hs
    refine ⟨ks ++ ⟨.symbol .leftParen, first⟩ :: (us ++ [⟨.symbol .rightParen, last⟩]),
      by simp, ?_⟩
    simpa [Token.erase, Expr.erase, Expr.eraseItems_eq_map] using Accessed.call hcallee hus

theorem accessed_sound (hs : Sound Expr.erase sub S) :
    Sound Expr.erase (accessed sub) (Accessed S) :=
  fun _ _ _ h => (accessedRead_of_accessed h).sound hs

theorem prefixed_sound {operand : Option (TokenReader Expr)} {O : Phrases Expr}
    (ho : ∀ reader, operand = some reader → Sound Expr.erase reader O)
    (hs : Sound Expr.erase sub S) : Sound Expr.erase (prefixed operand sub) (Prefixed O S) := by
  intro ls e rest h
  cases prefixedRead_of_prefixed h with
  | accessed h =>
    obtain ⟨used, hused, hL⟩ := accessed_sound hs h
    exact ⟨used, hused, .accessed hL⟩
  | @operator l _ _ _ _ _ hop hreader hx =>
    obtain ⟨us, rfl, hus⟩ := ho _ hreader hx
    exact ⟨l :: us, rfl, .operator ((unaryOp?_erase _).trans hop) hus⟩

end Sub

/-- Both readers take only what their budget allows. -/
theorem expression_unary_sound (budget : Nat) :
    Sound Expr.erase (expression budget) (Expression budget) ∧
      Sound Expr.erase (unary budget) (Unary budget) := by
  refine expression_unary_induction (fun n reader => Sound Expr.erase reader (Expression n))
    (fun n reader => Sound Expr.erase reader (Unary n)) tooDeep_sound ?_ ?_ ?_ budget
  · intro n hunary hfull
    rw [Phrases.expression_succ]
    exact conditional_sound hunary hfull
  · intro hfull
    rw [Phrases.unary_zero]
    exact prefixed_sound nofun hfull
  · intro n hunary hfull
    rw [Phrases.unary_succ]
    exact prefixed_sound (fun _ h => by cases h; exact hunary) hfull

end Grammar

namespace Expr

theorem expression_of_ofTokens {ls : List Lexeme} {e : Expr} (h : ofTokens ls = .ok e) :
    Phrases.Expression maxNesting (spelling ls) e.erase := by
  obtain ⟨used, hused, hL⟩ :=
    (Grammar.expression_unary_sound maxNesting).1 (Grammar.whole_eq_ok_iff.1 h)
  rwa [hused, List.append_nil]

theorem tokenize_of_parse {source : String} {e : Expr} (h : parse source = .ok e) :
    ∃ ls, tokenize source = .ok ls ∧ Phrases.Expression maxNesting (spelling ls) e.erase := by
  unfold parse at h
  split at h
  next => cases h
  next ls hls => exact ⟨ls, hls, expression_of_ofTokens h⟩

end Expr

end JsonStencil
