import JsonStencil.Proofs.Grammar.Legibility

/-!
# Expressions by the texts of their spans

Every reader that is given legible tokens takes an expression with its nodes as the texts of their
spans tell. Each node is made of parts that were taken before, from the first one to the last.
-/

namespace JsonStencil

namespace Grammar

open Phrases (Included Chain Levels Conditional Separated Entry Primary Accessed Prefixed Expression
  Unary)
open JsonStencil.Expr (Node Excerpt Excerpted)

variable {α : Type} {cs : List Char} {ls rest : List Lexeme}

/-- What the reader takes from legible tokens is taken as the texts of the spans tell. -/
def Takes (cs : List Char) (L : Phrases Expr) (reader : TokenReader Expr) : Prop :=
  ∀ ⦃ls : List Lexeme⦄ ⦃e : Expr⦄ ⦃rest : List Lexeme⦄, Legible cs ls →
    reader ls = .ok (e, rest) → ∃ used, ls = used ++ rest ∧ Taken cs L used e

/-- The nodes that the reader makes of legible tokens are excerpts, and it leaves legible tokens. -/
def Yields (cs : List Char) (view : α → Node) (reader : TokenReader α) : Prop :=
  ∀ ⦃ls : List Lexeme⦄ ⦃a : α⦄ ⦃rest : List Lexeme⦄, Legible cs ls →
    reader ls = .ok (a, rest) → Legible cs rest ∧ Excerpted cs (view a)

theorem Takes.yields {L : Phrases Expr} {reader : TokenReader Expr} (h : Takes cs L reader) :
    Yields cs .expr reader := by
  intro ls e rest hls hread
  obtain ⟨used, rfl, htaken⟩ := h hls hread
  exact ⟨hls.of_append, htaken.excerpted⟩

theorem tooDeep_takes {L : Phrases Expr} : Takes cs L tooDeep := by
  intro ls e rest hls h
  cases h

theorem parensMatch_of_taken {L : Phrases Expr} {used : List Lexeme} {e : Expr}
    (h : Taken cs L used e) (hL : Included L (Expression maxNesting)) :
    ParensMatch (spelling used) := parensMatch_of_expression (hL h.spelled)

section Levels

variable {operand : TokenReader Expr} {O : Phrases Expr} {join? : Joiner}

theorem LevelRead.takes {e : Expr} (h : LevelRead operand join? ls e rest) (hj : join? ∈ joiners)
    (ho : Takes cs O operand) (hwhole : Included (Chain O join?) (Expression maxNesting))
    (hls : Legible cs ls) : ∃ used, ls = used ++ rest ∧ Taken cs (Chain O join?) used e := by
  induction h with
  | operand h =>
    obtain ⟨used, hused, htaken⟩ := ho hls h
    exact ⟨used, hused, htaken.mono fun _ _ h => .operand h⟩
  | @join left right l mid _ f _ hf hread ih =>
    obtain ⟨ks, rfl, hleft⟩ := ih
    have hmid : Legible cs mid := hls.of_suffix ⟨ks ++ [l], by simp⟩
    obtain ⟨us, rfl, hright⟩ := ho hmid hread
    obtain ⟨hspan, hchildren⟩ := spans_of_mem_joiners hj hf left right
    refine ⟨ks ++ [l] ++ us, by simp, .of_merge (by simpa using hls) ?_ hwhole hleft.edged
      hright.edged (parensMatch_of_taken hleft hwhole) hspan ?_⟩
    · rw [(lawful_of_mem_joiners hj).erase_join hf, List.append_assoc, spelling_append]
      exact .join hleft.spelled (((lawful_of_mem_joiners hj).erase_token _).trans hf) hright.spelled
    · rw [hchildren]
      exact List.forall_mem_cons.2 ⟨hleft.excerpted, List.forall_mem_singleton.2 hright.excerpted⟩

theorem level_takes (hj : join? ∈ joiners) (ho : Takes cs O operand)
    (hwhole : Included (Chain O join?) (Expression maxNesting)) :
    Takes cs (Chain O join?) (level operand join?) :=
  fun _ _ _ hls h => (levelRead_of_level h).takes hj ho hwhole hls

theorem binaryLevels_takes (ho : Takes cs O operand)
    (hwhole : Included (Levels O) (Expression maxNesting)) :
    Takes cs (Levels O) (binaryLevels operand) := by
  have htakes : Included (Levels O) (Expression maxNesting) →
      Takes cs (Levels O) (binaryLevels operand) :=
    binaryLevels_induction
      (motive := fun reader L => Included L (Expression maxNesting) → Takes cs L reader)
      (fun _ => ho) fun _ hj _ _ ih hchain =>
        level_takes hj (ih fun _ _ h => hchain (.operand h)) hchain
  exact htakes hwhole

end Levels

theorem conditional_takes {unary branch : TokenReader Expr} {U B : Phrases Expr}
    (hu : Takes cs U unary) (hb : Takes cs B branch)
    (hwhole : Included (Conditional (Levels U) B) (Expression maxNesting)) :
    Takes cs (Conditional (Levels U) B) (conditional unary branch) := by
  have hlevels : Included (Levels U) (Expression maxNesting) :=
    fun _ _ h => hwhole (.condition h)
  intro ls e rest hls h
  cases conditionalRead_of_conditional h with
  | condition hc =>
    obtain ⟨ts, hts, hcond⟩ := binaryLevels_takes hu hlevels hls hc
    exact ⟨ts, hts, hcond.mono fun _ _ h => .condition h⟩
  | @choice _ _ _ question colon ls₁ ls₂ _ hc hx hy =>
    obtain ⟨ts, rfl, hcond⟩ := binaryLevels_takes hu hlevels hls hc
    have hls₁ : Legible cs ls₁ := hls.of_suffix ⟨ts ++ [⟨.symbol .question, question⟩], by simp⟩
    obtain ⟨us, rfl, htrue⟩ := hb hls₁ hx
    have hls₂ : Legible cs ls₂ := hls₁.of_suffix ⟨us ++ [⟨.symbol .colon, colon⟩], by simp⟩
    obtain ⟨vs, rfl, hfalse⟩ := hb hls₂ hy
    refine ⟨ts ++ ⟨.symbol .question, question⟩ :: (us ++ [⟨.symbol .colon, colon⟩]) ++ vs,
      by simp, .of_merge (by simpa using hls) ?_ hwhole hcond.edged hfalse.edged
        (parensMatch_of_taken hcond hlevels) rfl ?_⟩
    · simpa [Token.erase, Expr.erase] using
        Conditional.choice hcond.spelled htrue.spelled hfalse.spelled
    · exact List.forall_mem_cons.2 ⟨hcond.excerpted, List.forall_mem_cons.2
        ⟨htrue.excerpted, List.forall_mem_singleton.2 hfalse.excerpted⟩⟩

theorem ItemsRead.yields {view : α → Node} {item : TokenReader α} {as : List α}
    (h : ItemsRead item ls as rest) (hi : Yields cs view item) (hls : Legible cs ls) :
    ∀ a ∈ as, Excerpted cs (view a) := by
  induction h with
  | nil => nofun
  | single ha => exact List.forall_mem_singleton.2 (hi hls ha).2
  | cons ha _ ih =>
    obtain ⟨hls', hexcerpted⟩ := hi hls ha
    exact List.forall_mem_cons.2 ⟨hexcerpted, ih (hls'.of_suffix (List.suffix_cons _ _))⟩

section Sub

variable {sub : TokenReader Expr} {S : Phrases Expr}

theorem Taken.of_atomic {span : Span} {t : Token} {e : Expr} (h : Atomic span t e)
    (hls : Legible cs (⟨t, span⟩ :: rest))
    (hwhole : Included (Primary S) (Expression maxNesting)) :
    Taken cs (Primary S) [⟨t, span⟩] e := by
  refine .of_token hls h.spelled hwhole h.span_eq ?_
  rw [h.children_eq]
  nofun

/-- A computed key is an excerpt, and so is a name that may stand for its own value. -/
theorem entryKey_yields (hs : Yields cs .expr sub)
    (hwhole : Included (Primary S) (Expression maxNesting)) {key : EntryKey} (hls : Legible cs ls)
    (h : entryKey sub ls = .ok (key, rest)) :
    Legible cs rest ∧
      ((∃ name, key.key = .named name) ∨
        ∃ e, key.key = .computed e ∧ key.shorthand = none ∧ Excerpted cs (.expr e)) ∧
      ∀ name, key.shorthand = some name → Excerpted cs (.expr (.identifier name key.span)) := by
  cases keyRead_of_entryKey h with
  | name _ _ hshort =>
    refine ⟨hls.of_suffix (List.suffix_cons _ _), .inl ⟨_, rfl⟩, fun name hname => ?_⟩
    cases hshort name hname
    exact (Taken.of_atomic (.identifier name) hls hwhole).excerpted
  | computed he =>
    obtain ⟨hls', hexcerpted⟩ := hs (hls.of_suffix (List.suffix_cons _ _)) he
    exact ⟨hls'.of_suffix (List.suffix_cons _ _), .inr ⟨_, rfl, rfl, hexcerpted⟩, nofun⟩

theorem entry_yields (hs : Yields cs .expr sub)
    (hwhole : Included (Primary S) (Expression maxNesting)) : Yields cs .entry (entry sub) := by
  intro ls x rest hls h
  obtain ⟨⟨key, ls'⟩, hkey, h'⟩ := bind_eq_ok_iff.1 h
  obtain ⟨⟨e, r⟩, hvalue, h''⟩ := bind_eq_ok_iff.1 h'
  cases h''
  obtain ⟨hls', hcases, hshorthand⟩ := entryKey_yields hs hwhole hls hkey
  have hboth : Legible cs rest ∧ Excerpted cs (.expr e) := by
    rcases entryValue_cases hvalue with ⟨rfl, name, hname, rfl⟩ | ⟨colon, r, rfl, hsub⟩
    · exact ⟨hls', hshorthand name hname⟩
    · exact hs (hls'.of_suffix (List.suffix_cons _ _)) hsub
  obtain ⟨hrest, he⟩ := hboth
  refine ⟨hrest, Expr.excerpted_entry ?_⟩
  obtain ⟨name, hname⟩ | ⟨k, hk, -, hkexcerpted⟩ := hcases
  · rw [hname]
    exact List.forall_mem_singleton.2 he
  · rw [hk]
    exact List.forall_mem_cons.2 ⟨hkexcerpted, List.forall_mem_singleton.2 he⟩

theorem primary_takes (hsound : Sound Expr.erase sub S) (hs : Takes cs S sub)
    (hwhole : Included (Primary S) (Expression maxNesting)) :
    Takes cs (Primary S) (primary sub) := by
  intro ls e rest hls h
  cases primaryRead_of_primary h with
  | @atom t span _ _ hatom => exact ⟨[⟨t, span⟩], rfl, .of_atomic hatom hls hwhole⟩
  | @template chunks _ span _ hparts =>
    refine ⟨[⟨.template chunks, span⟩], rfl, .of_token hls ?_ hwhole rfl fun m hm => ?_⟩
    · rw [Expr.erase, Expr.eraseParts_eq_map]
      exact .template (hparts.sound hsound)
    · obtain ⟨e, he, rfl⟩ := Node.mem_children_template hm
      obtain ⟨code, ts, hcode, hts, hread⟩ := hparts.exists_code he
      exact (hs.yields (hls.code rfl hcode hts) hread).2
  | @group first last ls _ _ he =>
    obtain ⟨us, rfl, htaken⟩ := hs (hls.of_suffix (List.suffix_cons _ ls)) he
    refine ⟨⟨.symbol .leftParen, first⟩ :: (us ++ [⟨.symbol .rightParen, last⟩]), by simp, ?_,
      htaken.edged.round first last, htaken.excerpted⟩
    simpa [Token.erase] using Primary.group htaken.spelled
  | @array first last ls _ _ hes =>
    have hitems := hes.yields hs.yields (hls.of_suffix (List.suffix_cons _ ls))
    obtain ⟨us, rfl, hus⟩ := hes.sound hsound
    have hmatch : ParensMatch (spelling [⟨.symbol .leftBracket, first⟩]) := by
      change ParensMatch [.symbol .leftBracket]
      decide
    refine ⟨[⟨.symbol .leftBracket, first⟩] ++ us ++ [⟨.symbol .rightBracket, last⟩], by simp,
      .of_merge (by simpa using hls) ?_ hwhole (.single _) (.single _) hmatch rfl fun m hm => ?_⟩
    · simpa [Token.erase, Expr.erase, Expr.eraseItems_eq_map] using Primary.array hus
    · obtain ⟨e, he, rfl⟩ := List.mem_map.1 hm
      exact hitems e he
  | @object first last ls _ _ hentries =>
    have hitems := hentries.yields (entry_yields hs.yields hwhole)
      (hls.of_suffix (List.suffix_cons _ ls))
    obtain ⟨us, rfl, hus⟩ := hentries.sound (entry_sound hsound)
    have hmatch : ParensMatch (spelling [⟨.symbol .leftBrace, first⟩]) := by
      change ParensMatch [.symbol .leftBrace]
      decide
    refine ⟨[⟨.symbol .leftBrace, first⟩] ++ us ++ [⟨.symbol .rightBrace, last⟩], by simp,
      .of_merge (by simpa using hls) ?_ hwhole (.single _) (.single _) hmatch rfl fun m hm => ?_⟩
    · simpa [Token.erase, Expr.erase, Expr.eraseEntries_eq_map] using Primary.object hus
    · obtain ⟨x, hx, rfl⟩ := List.mem_map.1 hm
      exact hitems x hx

theorem AccessedRead.takes {e : Expr} (h : AccessedRead sub ls e rest)
    (hsound : Sound Expr.erase sub S) (hs : Takes cs S sub)
    (hwhole : Included (Accessed S) (Expression maxNesting)) (hls : Legible cs ls) :
    ∃ used, ls = used ++ rest ∧ Taken cs (Accessed S) used e := by
  induction h with
  | primary h =>
    obtain ⟨used, hused, htaken⟩ :=
      primary_takes hsound hs (fun _ _ h => hwhole (.primary h)) hls h
    exact ⟨used, hused, htaken.mono fun _ _ h => .primary h⟩
  | @member owner dot last t _ _ _ ht ih =>
    obtain ⟨ks, rfl, howner⟩ := ih
    refine ⟨ks ++ [⟨.symbol .dot, dot⟩] ++ [⟨t, last⟩], by simp, .of_merge (by simpa using hls) ?_
      hwhole howner.edged (.single _) (parensMatch_of_taken howner hwhole) rfl ?_⟩
    · simpa [Token.erase, Expr.erase] using
        Accessed.member howner.spelled ((memberName?_erase t).trans ht)
    · exact List.forall_mem_singleton.2 howner.excerpted
  | @index owner position first last mid _ _ hposition ih =>
    obtain ⟨ks, rfl, howner⟩ := ih
    have hmid : Legible cs mid := hls.of_suffix ⟨ks ++ [⟨.symbol .leftBracket, first⟩], by simp⟩
    obtain ⟨us, rfl, htaken⟩ := hs hmid hposition
    refine ⟨ks ++ ⟨.symbol .leftBracket, first⟩ :: us ++ [⟨.symbol .rightBracket, last⟩], by simp,
      .of_merge (by simpa using hls) ?_ hwhole howner.edged (.single _)
        (parensMatch_of_taken howner hwhole) rfl ?_⟩
    · simpa [Token.erase, Expr.erase] using Accessed.index howner.spelled htaken.spelled
    · exact List.forall_mem_cons.2
        ⟨howner.excerpted, List.forall_mem_singleton.2 htaken.excerpted⟩
  | @call callee args first last mid _ _ hargs ih =>
    obtain ⟨ks, rfl, hcallee⟩ := ih
    have hmid : Legible cs mid := hls.of_suffix ⟨ks ++ [⟨.symbol .leftParen, first⟩], by simp⟩
    have hitems := hargs.yields hs.yields hmid
    obtain ⟨us, rfl, hus⟩ := hargs.sound hsound
    refine ⟨ks ++ ⟨.symbol .leftParen, first⟩ :: us ++ [⟨.symbol .rightParen, last⟩], by simp,
      .of_merge (by simpa using hls) ?_ hwhole hcallee.edged (.single _)
        (parensMatch_of_taken hcallee hwhole) rfl ?_⟩
    · simpa [Token.erase, Expr.erase, Expr.eraseItems_eq_map] using
        Accessed.call hcallee.spelled hus
    · refine List.forall_mem_cons.2 ⟨hcallee.excerpted, fun m hm => ?_⟩
      obtain ⟨arg, harg, rfl⟩ := List.mem_map.1 hm
      exact hitems arg harg

theorem accessed_takes (hsound : Sound Expr.erase sub S) (hs : Takes cs S sub)
    (hwhole : Included (Accessed S) (Expression maxNesting)) :
    Takes cs (Accessed S) (accessed sub) :=
  fun _ _ _ hls h => (accessedRead_of_accessed h).takes hsound hs hwhole hls

theorem prefixed_takes {operand : Option (TokenReader Expr)} {O : Phrases Expr}
    (ho : ∀ reader, operand = some reader → Takes cs O reader)
    (hsound : Sound Expr.erase sub S) (hs : Takes cs S sub)
    (hwhole : Included (Prefixed O S) (Expression maxNesting)) :
    Takes cs (Prefixed O S) (prefixed operand sub) := by
  intro ls e rest hls h
  cases prefixedRead_of_prefixed h with
  | accessed h =>
    obtain ⟨used, hused, htaken⟩ :=
      accessed_takes hsound hs (fun _ _ h => hwhole (.accessed h)) hls h
    exact ⟨used, hused, htaken.mono fun _ _ h => .accessed h⟩
  | @operator l ls _ _ _ _ hop hreader hx =>
    obtain ⟨us, rfl, htaken⟩ := ho _ hreader (hls.of_suffix (List.suffix_cons l ls)) hx
    have hop' := (unaryOp?_erase l.token).trans hop
    have hmatch : ParensMatch (spelling [l]) :=
      ParensMatch.nests.single (Phrases.plain_of_unaryOp? hop')
    exact ⟨[l] ++ [] ++ us, rfl, .of_merge hls (.operator hop' htaken.spelled) hwhole (.single l)
      htaken.edged hmatch rfl (List.forall_mem_singleton.2 htaken.excerpted)⟩

end Sub

/-- Both readers take what the texts of the spans tell, within any budget of the parser. -/
theorem expression_unary_takes (cs : List Char) (budget : Nat) :
    (budget ≤ maxNesting → Takes cs (Expression budget) (expression budget)) ∧
      (budget + 1 ≤ maxNesting → Takes cs (Unary budget) (unary budget)) := by
  have hunary {n : Nat} (hn : n + 1 ≤ maxNesting) : Included (Unary n) (Expression maxNesting) :=
    fun _ _ h => Phrases.expression_included hn (Phrases.expression_of_unary h)
  refine expression_unary_induction
    (fun n reader => n ≤ maxNesting → Takes cs (Expression n) reader)
    (fun n reader => n + 1 ≤ maxNesting → Takes cs (Unary n) reader)
    (fun _ => tooDeep_takes) ?_ ?_ ?_ budget
  · intro n htight hfull hn
    have hwhole := Phrases.expression_included hn
    rw [Phrases.expression_succ] at hwhole ⊢
    exact conditional_takes (htight hn) (hfull (Nat.le_of_succ_le hn)) hwhole
  · intro hfull hn
    have hwhole := hunary hn
    rw [Phrases.unary_zero] at hwhole ⊢
    exact prefixed_takes nofun (expression_unary_sound 0).1 (hfull (Nat.zero_le _)) hwhole
  · intro n htight hfull hn
    have hle : n + 1 ≤ maxNesting := Nat.le_of_succ_le hn
    have hwhole := hunary hn
    rw [Phrases.unary_succ] at hwhole ⊢
    exact prefixed_takes (fun _ h => by cases h; exact htight hle)
      (expression_unary_sound (n + 1)).1 (hfull hle) hwhole

end Grammar

namespace Expr

open Grammar

theorem excerpted_of_parse {source : String} {e : Expr} (h : parse source = .ok e) :
    Excerpted source.toList (.expr e) := by
  unfold parse at h
  split at h
  next => cases h
  next ls hls =>
    obtain ⟨used, -, htaken⟩ := (expression_unary_takes source.toList maxNesting).1
      (Nat.le_refl _) (Legible.of_tokenize hls) (whole_eq_ok_iff.1 h)
    exact htaken.excerpted

/-- A text with the tokens of an expression but for parentheses is read as it if these match. -/
theorem parse_of_lexes {text : String} {ls core : List Lexeme} {e : Expr}
    (hls : tokenize text = .ok ls) (hcore : spelling ls = spelling core)
    (h : ParensMatch (spelling core) → Phrases.Expression maxNesting (spelling core) e.erase) :
    (ParensMatch (spelling ls) → ∃ m, parse text = .ok m ∧ m.erase = e.erase) ∧
      (¬ ParensMatch (spelling ls) → ∃ err, parse text = .error err) := by
  refine ⟨fun hmatch => ?_, fun hmatch => ?_⟩
  · have hspelled := h (hcore ▸ hmatch)
    rw [← hcore] at hspelled
    obtain ⟨m, hm, herase⟩ := ofTokens_eq_ok_of_expression (Nat.le_refl _) hspelled
    refine ⟨m, ?_, herase⟩
    rw [parse, hls]
    exact hm
  · cases hparse : parse text with
    | error err => exact ⟨err, rfl⟩
    | ok m =>
      obtain ⟨ls', hls', hspelled⟩ := tokenize_of_parse hparse
      rw [hls] at hls'
      cases hls'
      exact absurd (parensMatch_of_expression hspelled) hmatch

/-- The text of the span of any expression in a tree has tokens. It is read as that expression if
their parentheses match, and else it is refused: a span leaves out parentheses around its first
part, and those around its last one. -/
theorem parse_excerpts (source : String) (e : Expr) (h : parse source = .ok e) (n : Expr)
    (hn : (Node.expr n).Within (.expr e)) :
    ∃ before text behind, source.toList = before ++ text ++ behind ∧
      n.span = .behind before text ∧ ∃ ls, tokenize (.ofList text) = .ok ls ∧
        (ParensMatch (spelling ls) → ∃ m, parse (.ofList text) = .ok m ∧ m.erase = n.erase) ∧
        (¬ ParensMatch (spelling ls) → ∃ err, parse (.ofList text) = .error err) := by
  obtain ⟨core, ⟨i, j, hij, -, hspan, ls, hls, hcore⟩, hread⟩ := excerpted_of_parse h n hn
  rw [← List.drop_take] at hls
  refine ⟨source.toList.take i, (source.toList.take j).drop i, source.toList.drop j, ?_, ?_,
    ls, hls, parse_of_lexes hls hcore hread⟩
  · rw [← Span.take_eq_append hij, List.take_append_drop]
  · rw [hspan, Span.slice_eq_behind hij]

theorem parse_excerpts_grouped :
    let source := "(é ?? [`ß${ (b) + 1}`]) + f((a))"
    ∃ e, parse source = .ok e ∧ ∀ n : Expr, (Node.expr n).Within (.expr e) →
      ∃ before text behind, source.toList = before ++ text ++ behind ∧
        n.span = .behind before text ∧ ∃ ls, tokenize (.ofList text) = .ok ls ∧
          (ParensMatch (spelling ls) → ∃ m, parse (.ofList text) = .ok m ∧ m.erase = n.erase) ∧
          (¬ ParensMatch (spelling ls) → ∃ err, parse (.ofList text) = .error err) := by
  intro source
  have hok : (parse source).isOk := by decide +kernel
  cases h : parse source with
  | error err =>
    rw [h] at hok
    cases hok
  | ok e => exact ⟨e, rfl, parse_excerpts source e h⟩

/-- The text of a span is not always that of the expression: here it is that of a sum short of the
parenthesis in front of its first operand. -/
theorem not_parse_excerpts :
    ¬ ∀ (source : String) (e : Expr), parse source = .ok e → ∀ n : Expr,
      (Node.expr n).Within (.expr e) → ∃ before text behind,
        source.toList = before ++ text ++ behind ∧ n.span = .behind before text ∧
          ∃ m, parse (.ofList text) = .ok m ∧ m.erase = n.erase := by
  intro h
  let source := "(a) + b"
  have hok : (parse source).isOk := by decide +kernel
  cases hparse : parse source with
  | error err =>
    rw [hparse] at hok
    cases hok
  | ok e =>
    obtain ⟨before, text, behind, hsource, hspan, m, hm, -⟩ := h source e hparse e (.refl _)
    -- the place starts behind the first parenthesis and ends with the source
    have hplace : (parse source).toOption.map Expr.span = some ⟨1, 2, 1, 7⟩ := by decide +kernel
    rw [hparse] at hplace
    rw [Option.some.inj hplace] at hspan
    have hrange := byteRange?_append before text behind
    have hstart : 1 = byteLength before := congrArg Span.start hspan
    have hstop : 7 = byteLength before + byteLength text := congrArg Span.stop hspan
    rw [← hsource, ← hstop, ← hstart] at hrange
    have hpart : byteRange? 1 7 source.toList = some "a) + b".toList := by decide +kernel
    obtain rfl : "a) + b".toList = text := Option.some.inj (hpart.symm.trans hrange)
    have hfails : ¬ (parse (.ofList "a) + b".toList)).isOk := by decide +kernel
    rw [hm] at hfails
    exact hfails rfl

end Expr

end JsonStencil
