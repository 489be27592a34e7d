import JsonStencil.Proofs.Grammar.Phrases
import JsonStencil.Proofs.Text.Ascii
import JsonStencil.Proofs.Token.Locality

/-!
# More text behind a text

What a reader takes from a text it also takes when more follows, wherever the text stands. A quoted
text or a template literal ends by itself. A number or a word ends where a character follows that
goes on with neither: a blank or one of the marks that stand behind them in a template's source.
-/

namespace JsonStencil

namespace Lexer

/-- The second cursor has the text of the first one with more behind it. -/
def Extends (more : List Char) (cur cur' : Cursor) : Prop := cur'.rest = cur.rest ++ more

variable {more : List Char} {cur cur' : Cursor}

theorem Extends.skip (h : Extends more cur cur') {n : Nat} (hn : n ≤ cur.rest.length) :
    Extends more (cur.skip n) (cur'.skip n) := by
  show cur'.rest.drop n = cur.rest.drop n ++ more
  rw [h, List.drop_append_of_le_length hn]

theorem Extends.skip_one (h : Extends more cur cur') {c : Char} {cs : List Char}
    (hrest : cur.rest = c :: cs) : Extends more (cur.skip 1) (cur'.skip 1) :=
  h.skip (by simp [hrest])

theorem Extends.rest_cons (h : Extends more cur cur') {c : Char} {cs : List Char}
    (hrest : cur.rest = c :: cs) : cur'.rest = c :: (cs ++ more) := by
  rw [h, hrest, List.cons_append]

theorem Reads.extends {α : Type} {read : Cursor → Except LexicalError (α × Cursor)}
    {used : List Char} {result : Position → α} {last : Cursor} (h : Reads read used result)
    (hrest : cur.rest = used ++ last.rest) (hcur : Extends more cur cur') :
    ∃ last', read cur' = .ok (result cur'.position, last') ∧ Extends more last last' := by
  obtain ⟨p, cs⟩ := cur'
  have hcs : cs = used ++ (last.rest ++ more) := by
    rw [← List.append_assoc, ← hrest]
    exact hcur
  exact ⟨⟨p.after used, last.rest ++ more⟩, hcs ▸ h p _, rfl⟩

theorem readString_extends {quote : Char} {start : Position} (start' : Position) {s : List Char}
    {last : Cursor} (h : readString quote start cur = .ok (s, last))
    (hcur : Extends more cur cur') :
    ∃ last', readString quote start' cur' = .ok (s, last') ∧ Extends more last last' := by
  obtain ⟨used, hused, hreads⟩ := readString_reads h
  exact (hreads start').extends hused hcur

def erasePieces (ps : List (Char ⊕ CodeText)) : List (Char ⊕ CodeText) :=
  ps.map (Sum.map id CodeText.erase)

theorem erasePieces_place (p q : Position) (pieces : List Piece) :
    erasePieces (pieces.map (Piece.place p)) = erasePieces (pieces.map (Piece.place q)) := by
  rw [erasePieces, erasePieces, List.map_map, List.map_map]
  refine List.map_congr_left fun x _ => ?_
  cases x <;> rfl

theorem readTemplate_extends {start : Position} (start' : Position) {ps : List (Char ⊕ CodeText)}
    {last : Cursor} (h : readTemplate start cur = .ok (ps, last)) (hcur : Extends more cur cur') :
    ∃ ps' last', readTemplate start' cur' = .ok (ps', last') ∧ erasePieces ps' = erasePieces ps ∧
      Extends more last last' := by
  obtain ⟨used, pieces, -, hused, -, hreads⟩ := readTemplate_reads h
  obtain ⟨last', hlast', hext⟩ := (hreads start').extends hused hcur
  obtain ⟨rfl, -⟩ := (hreads start).eq_of_eq_ok hused h
  exact ⟨_, last', hlast', erasePieces_place _ _ pieces, hext⟩

/-- The blanks, and the marks that stand behind the parts of a template's source. -/
def boundaries : List Char := [' ', '\t', '\r', '\n', ',', ':', ']', ')', '}', '(']

def Boundary (cs : List Char) : Prop := ∀ c ∈ cs.head?, c ∈ boundaries

theorem boundary_nil : Boundary [] := fun _ h => by cases h

theorem boundary_cons {c : Char} (h : c ∈ boundaries) (cs : List Char) : Boundary (c :: cs) := by
  intro d hd
  cases hd
  exact h

theorem of_mem_boundaries (p : Char → Prop) [DecidablePred p] (hall : boundaries.all fun c => p c)
    {c : Char} (h : c ∈ boundaries) : p c :=
  of_decide_eq_true (List.all_eq_true.1 hall c h)

theorem not_isIdentifierChar_of_mem {c : Char} (h : c ∈ boundaries) : isIdentifierChar c = false :=
  not_isIdentifierChar (of_mem_boundaries (fun c => c.toNat < 128 ∧
    (c.isAlpha || c = '_' || c = '$' || c.isDigit) = false) (by decide) h)

theorem not_isIdentifierStart_of_mem {c : Char} (h : c ∈ boundaries) :
    isIdentifierStart c = false :=
  (Bool.or_eq_false_iff.1 (not_isIdentifierChar_of_mem h)).1

theorem not_isNumberBody_of_mem {c : Char} (h : c ∈ boundaries) : isNumberBody c = false :=
  of_mem_boundaries (fun c => isNumberBody c = false) (by decide) h

theorem not_isDigit_of_mem {c : Char} (h : c ∈ boundaries) : c.isDigit = false :=
  (Bool.or_eq_false_iff.1 (not_isNumberBody_of_mem h)).1

theorem takeWhile_eq_nil {p : Char → Bool} (h : ∀ c ∈ more.head?, p c = false) :
    more.takeWhile p = [] := by
  cases more with
  | nil => rfl
  | cons c cs => simp [h c rfl]

theorem takeWhile_append_of_head {p : Char → Bool} (h : ∀ c ∈ more.head?, p c = false)
    (cs : List Char) : (cs ++ more).takeWhile p = cs.takeWhile p := by
  rw [List.takeWhile_append, takeWhile_eq_nil h, List.append_nil]
  split
  next hlen => exact ((List.takeWhile_sublist p).eq_of_length hlen).symm
  next => rfl

theorem dropWhile_append_of_head {p : Char → Bool} (h : ∀ c ∈ more.head?, p c = false)
    (cs : List Char) : (cs ++ more).dropWhile p = cs.dropWhile p ++ more := by
  rw [List.dropWhile_append]
  split
  next hnil =>
    rw [List.isEmpty_iff.1 hnil]
    cases more with
    | nil => rfl
    | cons c cs => simp [h c rfl]
  next => rfl

theorem Extends.skipWhile (hcur : Extends more cur cur') {p : Char → Bool}
    (h : ∀ c ∈ more.head?, p c = false) : Extends more (cur.skipWhile p) (cur'.skipWhile p) := by
  show cur'.rest.dropWhile p = _
  rw [hcur, dropWhile_append_of_head h]
  rfl

theorem exponentChars_append (hmore : Boundary more) (cs : List Char) :
    exponentChars (cs ++ more) = exponentChars cs := by
  have hdigit : ∀ c ∈ more.head?, Char.isDigit c = false :=
    fun c hc => not_isDigit_of_mem (hmore c hc)
  have hmark (c : Char) (hc : c ∈ boundaries) : ¬ (c = 'e' ∨ c = 'E') ∧ c ≠ '+' ∧ c ≠ '-' :=
    of_mem_boundaries (fun c => ¬ (c = 'e' ∨ c = 'E') ∧ c ≠ '+' ∧ c ≠ '-') (by decide) hc
  cases cs with
  | nil =>
    cases more with
    | nil => rfl
    | cons c cs =>
      unfold exponentChars
      exact if_neg (hmark c (hmore c rfl)).1
  | cons c cs =>
    unfold exponentChars
    rw [List.cons_append]
    dsimp only
    split
    · congr 1
      cases cs with
      | nil =>
        rw [List.nil_append]
        split
        next => exact absurd rfl (hmark '+' (hmore '+' rfl)).2.1
        next => exact absurd rfl (hmark '-' (hmore '-' rfl)).2.2
        next => exact takeWhile_eq_nil hdigit
      | cons d cs =>
        rw [List.cons_append]
        split
        next heq =>
          cases heq
          rw [takeWhile_append_of_head hdigit]
          rfl
        next heq =>
          cases heq
          rw [takeWhile_append_of_head hdigit]
          rfl
        next hplus hminus =>
          split
          next heq =>
            cases heq
            exact (hplus _ rfl).elim
          next heq =>
            cases heq
            exact (hminus _ rfl).elim
          next => rw [← List.cons_append, takeWhile_append_of_head hdigit]
    · rfl

theorem length_exponentChars (cs : List Char) : (exponentChars cs).length ≤ cs.length := by
  have hwhile (ds : List Char) : (ds.takeWhile Char.isDigit).length ≤ ds.length :=
    (List.takeWhile_sublist _).length_le
  unfold exponentChars
  split
  · exact Nat.le_refl _
  · split
    · refine Nat.succ_le_succ ?_
      split
      · exact Nat.succ_le_succ (hwhile _)
      · exact Nat.succ_le_succ (hwhile _)
      · exact hwhile _
    · exact Nat.zero_le _

theorem head?_any_append {p : Char → Bool} (h : ∀ c ∈ more.head?, p c = false) (cs : List Char) :
    (cs ++ more).head?.any p = cs.head?.any p := by
  cases cs with
  | nil =>
    cases more with
    | nil => rfl
    | cons c cs => simp [h c rfl]
  | cons c cs => rfl

theorem numberToken_extends {text : List Char} {start : Position} (start' : Position)
    {token : Token} {last : Cursor} (h : numberToken text start cur = .ok (token, last))
    (hcur : Extends more cur cur') (hmore : Boundary more) :
    numberToken text start' cur' = .ok (token, cur') := by
  have hhead : cur'.rest.head?.any isIdentifierStart = cur.rest.head?.any isIdentifierStart := by
    rw [hcur]
    exact head?_any_append (fun c hc => not_isIdentifierStart_of_mem (hmore c hc)) _
  unfold numberToken at h ⊢
  rw [hhead]
  split at h
  · cases h
  next hstart =>
    rw [if_neg hstart]
    split at h
    next hread =>
      cases h
      rfl
    next => cases h

theorem readNumber_extends {front : List Char} {start : Position} (start' : Position)
    {token : Token} {last : Cursor} (h : readNumber front start cur = .ok (token, last))
    (hcur : Extends more cur cur') (hmore : Boundary more) :
    ∃ last', readNumber front start' cur' = .ok (token, last') ∧ Extends more last last' := by
  have hbody : ∀ c ∈ more.head?, isNumberBody c = false :=
    fun c hc => not_isNumberBody_of_mem (hmore c hc)
  have hwhile := hcur.skipWhile hbody
  have htake : cur'.rest.takeWhile isNumberBody = cur.rest.takeWhile isNumberBody := by
    rw [hcur, takeWhile_append_of_head hbody]
  have hexp : exponentChars (cur'.skipWhile isNumberBody).rest =
      exponentChars (cur.skipWhile isNumberBody).rest := by
    rw [hwhile, exponentChars_append hmore]
  have hlast := hwhile.skip (length_exponentChars _)
  unfold readNumber at h ⊢
  rw [htake, hexp]
  cases eq_of_numberToken h
  exact ⟨_, numberToken_extends start' h hlast hmore, hlast⟩

theorem eq_number_of_readNumber {front : List Char} {start : Position} {cur last : Cursor}
    {token : Token} (h : readNumber front start cur = .ok (token, last)) :
    ∃ x, token = .number x := by
  unfold readNumber numberToken at h
  dsimp only at h
  split at h
  · cases h
  · split at h
    · cases h
      exact ⟨_, rfl⟩
    · cases h

theorem readWord_extends (hcur : Extends more cur cur') (hmore : Boundary more) :
    (readWord cur').1 = (readWord cur).1 ∧ Extends more (readWord cur).2 (readWord cur').2 := by
  have hchar : ∀ c ∈ more.head?, isIdentifierChar c = false :=
    fun c hc => not_isIdentifierChar_of_mem (hmore c hc)
  refine ⟨?_, hcur.skipWhile hchar⟩
  unfold readWord
  rw [hcur, takeWhile_append_of_head hchar]

theorem startsWith_symbol_append (hmore : Boundary more) {cs : List Char} (hcs : cs ≠ [])
    (s : Symbol) : startsWith s.text.toList (cs ++ more) = startsWith s.text.toList cs := by
  have hlong : ∀ front : List Char, (∀ c ∈ front.tail, c ∉ boundaries) → ∀ cs : List Char, cs ≠ [] →
      startsWith front (cs ++ more) = startsWith front cs := by
    intro front
    induction front with
    | nil => exact fun _ cs _ => rfl
    | cons p front ih =>
      intro hfront cs hcs
      cases cs with
      | nil => exact absurd rfl hcs
      | cons c cs =>
        simp only [startsWith, List.cons_append, dropFront?]
        split
        next =>
          cases cs with
          | cons d ds =>
            exact ih (fun c hc => hfront c (List.mem_of_mem_tail hc)) (d :: ds) (by simp)
          | nil =>
            cases front with
            | nil => rfl
            | cons q front =>
              cases more with
              | nil => rfl
              | cons c more =>
                have hq : q ≠ c := fun heq => hfront q (by simp) (heq ▸ hmore c rfl)
                simp [dropFront?, hq]
        next => rfl
  have htail : s.text.toList.tail.all fun c => c ∉ boundaries := by cases s <;> decide
  exact hlong _ (fun c hc => of_decide_eq_true (List.all_eq_true.1 htail c hc)) cs hcs

theorem ofFront?_append (hmore : Boundary more) {cs : List Char} (hcs : cs ≠ []) :
    Symbol.ofFront? (cs ++ more) = Symbol.ofFront? cs := by
  unfold Symbol.ofFront?
  congr 1
  funext s
  exact startsWith_symbol_append hmore hcs s

theorem exists_of_ofFront? {cs : List Char} {s : Symbol} (h : Symbol.ofFront? cs = some s) :
    ∃ back, cs = s.text.toList ++ back := by
  have hs := List.find?_some h
  obtain ⟨back, hback⟩ := Option.isSome_iff_exists.1 hs
  exact ⟨back, dropFront?_eq_some_iff.1 hback⟩

theorem length_text_le_of_ofFront? {cs : List Char} {s : Symbol} (h : Symbol.ofFront? cs = some s) :
    s.text.length ≤ cs.length := by
  obtain ⟨back, rfl⟩ := exists_of_ofFront? h
  rw [List.length_append, String.length_toList]
  exact Nat.le_add_right _ _

theorem ofFront?_of_isIdentifierStart {c : Char} (h : isIdentifierStart c) (cs : List Char) :
    Symbol.ofFront? (c :: cs) = none := by
  refine List.find?_eq_none.2 fun s _ hstart => ?_
  obtain ⟨back, hback⟩ := Option.isSome_iff_exists.1 hstart
  rw [dropFront?_eq_some_iff] at hback
  have hfirst : s.text.toList.head?.any fun d => d.toNat < 128 ∧
      (d.isAlpha || d = '_' || d = '$') = false := by cases s <;> decide
  cases htext : s.text.toList with
  | nil =>
    rw [htext] at hfirst
    cases hfirst
  | cons d ds =>
    rw [htext] at hback hfirst
    cases hback
    rw [not_isIdentifierStart (of_decide_eq_true hfirst)] at h
    cases h

theorem readToken_quote {c : Char} (hc : c = '\'' ∨ c = '"') :
    readToken c cur = (readString c cur.position (cur.skip 1)).map fun (cs, next) =>
      (.string (.ofList cs), next) := by
  unfold readToken
  rw [if_pos hc]

theorem readToken_backtick (cur : Cursor) :
    readToken '\x60' cur = (readTemplate cur.position (cur.skip 1)).map fun (ps, next) =>
      (.template (Part.gather [] ps), next) := by
  unfold readToken
  rw [if_neg (by decide), if_pos rfl]

theorem readToken_number {c : Char} (hc : c.isDigit) :
    readToken c cur = readNumber [] cur.position cur := by
  have hne : ¬ (c = '\'' ∨ c = '"') ∧ c ≠ '\x60' := by
    refine ⟨?_, ?_⟩
    · rintro (rfl | rfl) <;> cases hc
    · rintro rfl
      cases hc
  unfold readToken
  rw [if_neg hne.1, if_neg hne.2, if_pos hc]

theorem readToken_fraction (h : (cur.skip 1).rest.head?.any Char.isDigit) :
    readToken '.' cur = readNumber ['0', '.'] cur.position (cur.skip 1) := by
  unfold readToken
  rw [if_neg (by decide), if_neg (by decide), if_neg (by decide), if_pos ⟨rfl, h⟩]

theorem not_fraction_of_readToken {c : Char} {s : Symbol} {last : Cursor}
    (h : readToken c cur = .ok (.symbol s, last)) :
    ¬ (c = '.' ∧ (cur.skip 1).rest.head?.any Char.isDigit) := by
  rintro ⟨rfl, hdigit⟩
  rw [readToken_fraction hdigit] at h
  obtain ⟨x, hx⟩ := eq_number_of_readNumber h
  cases hx

theorem readToken_of_ofFront? {c : Char} {cs : List Char} {s : Symbol} (hrest : cur.rest = c :: cs)
    (hs : Symbol.ofFront? cur.rest = some s)
    (hpoint : ¬ (c = '.' ∧ (cur.skip 1).rest.head?.any Char.isDigit)) :
    readToken c cur = .ok (.symbol s, cur.skip s.text.length) := by
  have hmark : s.text.toList.head?.any fun d =>
      d ≠ '\'' ∧ d ≠ '"' ∧ d ≠ '\x60' ∧ ¬ d.isDigit := by cases s <;> decide
  have hc : c ≠ '\'' ∧ c ≠ '"' ∧ c ≠ '\x60' ∧ ¬ c.isDigit := by
    obtain ⟨back, hback⟩ := exists_of_ofFront? hs
    rw [hrest] at hback
    cases htext : s.text.toList with
    | nil =>
      rw [htext] at hmark
      cases hmark
    | cons d ds =>
      rw [htext] at hback hmark
      cases hback
      exact of_decide_eq_true hmark
  unfold readToken
  rw [if_neg fun hquote => hquote.elim hc.1 hc.2.1, if_neg hc.2.2.1, if_neg hc.2.2.2,
    if_neg hpoint, hs]

theorem readToken_word {c : Char} {cs : List Char} (hc : isIdentifierStart c)
    (hrest : cur.rest = c :: cs) : readToken c cur = .ok (readWord cur) := by
  have hne : ¬ (c = '\'' ∨ c = '"') ∧ c ≠ '\x60' ∧ c ≠ '.' := by
    refine ⟨?_, ?_, ?_⟩
    · rintro (rfl | rfl) <;> rw [not_isIdentifierStart (by decide)] at hc <;> cases hc
    all_goals
      rintro rfl
      rw [not_isIdentifierStart (by decide)] at hc
      cases hc
  have hdigit : ¬ c.isDigit := fun hd => by
    rw [isIdentifierStart_of_isDigit hd] at hc
    cases hc
  unfold readToken
  rw [if_neg hne.1, if_neg hne.2.1, if_neg hdigit, if_neg fun hpoint => hne.2.2 hpoint.1, hrest,
    ofFront?_of_isIdentifierStart hc]
  dsimp only
  rw [if_pos hc]

theorem erase_template (ps : List (Char ⊕ CodeText)) :
    (Token.template (Part.gather [] ps)).erase = .template (Part.gather [] (erasePieces ps)) := by
  rw [Token.erase, Part.map_gather, erasePieces]

theorem readToken_extends {c : Char} {cs : List Char} {token : Token} {last : Cursor}
    (hrest : cur.rest = c :: cs) (h : readToken c cur = .ok (token, last))
    (hcur : Extends more cur cur') (hmore : Boundary more) :
    ∃ token' last', readToken c cur' = .ok (token', last') ∧ token'.erase = token.erase ∧
      Extends more last last' := by
  have hskip := hcur.skip_one hrest
  have hrest' := hcur.rest_cons hrest
  have hdigit : (cur'.skip 1).rest.head?.any Char.isDigit =
      (cur.skip 1).rest.head?.any Char.isDigit := by
    rw [hskip]
    exact head?_any_append (fun c hc => not_isDigit_of_mem (hmore c hc)) _
  have hsymbol : Symbol.ofFront? cur'.rest = Symbol.ofFront? cur.rest := by
    rw [hcur]
    exact ofFront?_append hmore (by simp [hrest])
  cases tokenRead_of_readToken h with
  | string hquote hr =>
    obtain ⟨last', hlast', hext⟩ := readString_extends cur'.position hr hskip
    exact ⟨_, last', by rw [readToken_quote hquote, hlast']; rfl, rfl, hext⟩
  | template hback hr =>
    subst hback
    obtain ⟨ps', last', hlast', hps', hext⟩ := readTemplate_extends cur'.position hr hskip
    refine ⟨_, last', by rw [readToken_backtick, hlast']; rfl, ?_, hext⟩
    rw [erase_template, erase_template, hps']
  | number hd hr =>
    obtain ⟨last', hlast', hext⟩ := readNumber_extends cur'.position hr hcur hmore
    exact ⟨token, last', by rw [readToken_number hd, hlast'], rfl, hext⟩
  | fraction hpoint hr =>
    obtain ⟨rfl, hd⟩ := hpoint
    obtain ⟨last', hlast', hext⟩ := readNumber_extends cur'.position hr hskip hmore
    exact ⟨token, last', by rw [readToken_fraction (hdigit.trans hd), hlast'], rfl, hext⟩
  | symbol hs =>
    have hpoint := not_fraction_of_readToken h
    have hle := length_text_le_of_ofFront? hs
    rw [← hdigit] at hpoint
    rw [← hsymbol] at hs
    exact ⟨_, _, readToken_of_ofFront? hrest' hs hpoint, rfl, hcur.skip hle⟩
  | word hstart =>
    obtain ⟨hword, hext⟩ := readWord_extends hcur hmore
    exact ⟨_, _, readToken_word hstart hrest', congrArg Token.erase hword, hext⟩

theorem readTokens_nil (h : cur.rest = []) : readTokens cur = .ok [] := by
  rw [readTokens]
  split
  next => rfl
  next heq => simp [h] at heq

theorem readTokens_cons {c : Char} {cs : List Char} (h : cur.rest = c :: cs) :
    readTokens cur =
      if isSeparator c then readTokens (cur.skip 1)
      else (do
        let (token, next) ← readToken c cur
        (readTokens next).map (⟨token, cur.position.span next.position⟩ :: ·)) := by
  rw [readTokens]
  split
  next heq => simp [h] at heq
  next heq =>
    rw [h] at heq
    cases heq
    split
    · rfl
    · split
      next hread => rw [hread]; rfl
      next hread => rw [hread]; rfl

theorem tokenize_of_readToken {c : Char} {cs : List Char} {token : Token} {next : Cursor}
    (hc : isSeparator c = false)
    (h : readToken c (.ofText (c :: cs)) = .ok (token, next)) (hnext : next.rest = []) :
    tokenize (.ofList (c :: cs)) = .ok [⟨token, (Position.start).span next.position⟩] := by
  unfold tokenize
  rw [String.toList_ofList, readTokens_cons rfl, hc, h]
  simp [ok_bind, readTokens_nil hnext, Except.map, Cursor.ofText]

/-- The tokens of a text come first when more text follows behind a boundary. -/
theorem readTokens_extends {ls : List Lexeme} (h : readTokens cur = .ok ls)
    (hcur : Extends more cur cur') (hmore : Boundary more) :
    ∃ q ls', spelling ls' = spelling ls ∧
      readTokens cur' = (readTokens ⟨q, more⟩).map (ls' ++ ·) := by
  fun_induction readTokens cur generalizing ls cur' with
  | case1 cur hrest =>
    cases h
    have hcur' : cur' = ⟨cur'.position, more⟩ := by
      have hmore' : cur'.rest = more := by rw [hcur, hrest]; rfl
      rw [← hmore']
    refine ⟨cur'.position, [], rfl, ?_⟩
    rw [← hcur']
    cases readTokens cur' <;> rfl
  | case2 cur c cs hrest hsep ih =>
    have hcur' := hcur.rest_cons hrest
    obtain ⟨q, ls', hls', heq⟩ := ih h (hcur.skip_one hrest)
    exact ⟨q, ls', hls', by rw [readTokens_cons hcur', if_pos hsep, heq]⟩
  | case3 => cases h
  | case4 cur c cs hrest hsep token next hread ih =>
    obtain ⟨ms, hms, rfl⟩ := map_eq_ok_iff.1 h
    have hcur' := hcur.rest_cons hrest
    obtain ⟨token', next', hread', htoken, hnext⟩ := readToken_extends hrest hread hcur hmore
    obtain ⟨q, ls', hls', heq⟩ := ih hms hnext
    refine ⟨q, ⟨token', cur'.position.span next'.position⟩ :: ls', ?_, ?_⟩
    · rw [spelling_cons, spelling_cons, hls', htoken]
    · rw [readTokens_cons hcur', if_neg hsep, hread', ok_bind]
      dsimp only
      rw [heq]
      cases readTokens ⟨q, more⟩ <;> rfl

end Lexer

end JsonStencil
