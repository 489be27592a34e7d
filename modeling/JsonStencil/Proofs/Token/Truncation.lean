import JsonStencil.Proofs.Text.Search
import JsonStencil.Proofs.Token.Layout

/-!
# Less text behind a token

A reader that ends in front of a part of the text takes the same from the text without that part. So
some tokens of a text in a row are the tokens of the text from the first of them to the last.
-/

namespace JsonStencil

/-- The span from the start of one span to the end of another. -/
def Span.upTo (a b : Span) : Span := ⟨a.line, a.column, a.start, b.stop⟩

/-- The span goes from the first of the tokens to the last. -/
def Spans (ls : List Lexeme) (span : Span) : Prop :=
  ∃ first last, ls.head? = some first ∧ ls.getLast? = some last ∧ span = first.span.upTo last.span

namespace Lexer

variable {more : List Char} {cur cur' last' : Cursor}

/-- What a reader takes in front of the part is in the shorter text. -/
theorem Extends.exists_rest {used : List Char} (h : Extends more cur cur')
    (hused : cur'.rest = used ++ last'.rest) (hmore : more.length ≤ last'.rest.length) :
    ∃ rest, cur.rest = used ++ rest ∧ last'.rest = rest ++ more := by
  rw [Extends, hused] at h
  rcases List.append_eq_append_iff.1 h with ⟨rest, hrest, hlast⟩ | ⟨back, hback, hlast⟩
  · exact ⟨rest, hrest, hlast⟩
  · have hlength := congrArg List.length hlast
    rw [List.length_append] at hlength
    obtain rfl : back = [] := List.length_eq_zero_iff.1 (by omega)
    rw [List.append_nil] at hback
    exact ⟨[], by rw [hback, List.append_nil], hlast.symm⟩

theorem Reads.shrinks {α : Type} {read : Cursor → Except LexicalError (α × Cursor)}
    {used : List Char} {result : Position → α} (h : Reads read used result)
    (hused : cur'.rest = used ++ last'.rest) (hcur : Extends more cur cur')
    (hmore : more.length ≤ last'.rest.length) :
    ∃ last, read cur = .ok (result cur.position, last) ∧ Extends more last last' := by
  obtain ⟨rest, hrest, hlast⟩ := hcur.exists_rest hused hmore
  obtain ⟨p, cs⟩ := cur
  obtain rfl : cs = used ++ rest := hrest
  exact ⟨⟨p.after used, rest⟩, h p rest, hlast⟩

theorem takeWhile_of_append {p : Char → Bool} {cs : List Char}
    (h : ((cs ++ more).takeWhile p).length ≤ cs.length) :
    cs.takeWhile p = (cs ++ more).takeWhile p := by
  rw [List.takeWhile_append] at h ⊢
  split
  next hall =>
    rw [if_pos hall, List.length_append] at h
    have hnil : (more.takeWhile p).length = 0 := by omega
    rw [List.length_eq_zero_iff.1 hnil, List.append_nil]
    exact (List.takeWhile_sublist p).eq_of_length hall
  next => rfl

theorem dropWhile_of_append {p : Char → Bool} {cs : List Char}
    (h : ((cs ++ more).takeWhile p).length ≤ cs.length) :
    (cs ++ more).dropWhile p = cs.dropWhile p ++ more := by
  have hsplit : cs.takeWhile p ++ (cs ++ more).dropWhile p =
      cs.takeWhile p ++ (cs.dropWhile p ++ more) := by
    rw [← List.append_assoc, List.takeWhile_append_dropWhile, takeWhile_of_append h,
      List.takeWhile_append_dropWhile]
  exact List.append_cancel_left hsplit

theorem exponentChars_of_append {cs : List Char}
    (h : (exponentChars (cs ++ more)).length ≤ cs.length) :
    exponentChars cs = exponentChars (cs ++ more) := by
  cases cs with
  | nil => exact (List.length_eq_zero_iff.1 (Nat.le_zero.1 h)).symm
  | cons c cs =>
    by_cases hc : c = 'e' ∨ c = 'E'
    · cases cs with
      | nil =>
        have hmark (ds : List Char) : ∃ es, exponentChars (c :: ds) = 'e' :: es := ⟨_, if_pos hc⟩
        obtain ⟨es, hes⟩ := hmark more
        rw [List.cons_append, List.nil_append, hes] at h ⊢
        obtain rfl : es = [] := List.length_eq_zero_iff.1 (by simpa using h)
        exact exponentChars_unsigned hc (by simp)
      | cons d ds =>
        by_cases hsign : d = '+' ∨ d = '-'
        · rw [List.cons_append, List.cons_append, exponentChars_signed hc hsign] at h ⊢
          rw [exponentChars_signed hc hsign, takeWhile_of_append]
          simpa using h
        · have hhead (es : List Char) :
              (d :: es).head? ≠ some '+' ∧ (d :: es).head? ≠ some '-' := by
            simpa using not_or.1 hsign
          rw [List.cons_append, List.cons_append, exponentChars_unsigned hc (hhead _)] at h ⊢
          rw [exponentChars_unsigned hc (hhead _), ← List.cons_append, takeWhile_of_append]
          simpa using h
    · simp [exponentChars, hc]

theorem Extends.length_rest (h : Extends more cur cur') :
    cur'.rest.length = cur.rest.length + more.length := by
  rw [h, List.length_append]

theorem Extends.skipWhile_of_le (h : Extends more cur cur') {p : Char → Bool}
    (hmore : more.length ≤ (cur'.skipWhile p).rest.length) :
    cur.rest.takeWhile p = cur'.rest.takeWhile p ∧
      Extends more (cur.skipWhile p) (cur'.skipWhile p) := by
  have hlength : ((cur.rest ++ more).takeWhile p).length ≤ cur.rest.length := by
    have hsplit := congrArg List.length (List.takeWhile_append_dropWhile (p := p) (l := cur'.rest))
    have hle : more.length ≤ (cur'.rest.dropWhile p).length := hmore
    rw [List.length_append, h.length_rest] at hsplit
    rw [← h]
    omega
  refine ⟨?_, ?_⟩
  · rw [h, takeWhile_of_append hlength]
  · show cur'.rest.dropWhile p = cur.rest.dropWhile p ++ more
    rw [h, dropWhile_of_append hlength]

theorem numberToken_shrinks {text : List Char} {start : Position} (start' : Position)
    {token : Token}
    (h : numberToken text start cur' = .ok (token, last')) (hcur : Extends more cur cur') :
    numberToken text start' cur = .ok (token, cur) := by
  unfold numberToken at h ⊢
  split at h
  next => cases h
  next hword =>
    have hword' : ¬ cur.rest.head?.any isIdentifierStart := by
      rw [hcur] at hword
      cases hrest : cur.rest with
      | nil => exact Bool.false_ne_true
      | cons c cs =>
        rw [hrest] at hword
        exact hword
    rw [if_neg hword']
    split at h
    next =>
      cases h
      rfl
    next => cases h

theorem readNumber_shrinks {front : List Char} {start : Position} (start' : Position)
    {token : Token} (h : readNumber front start cur' = .ok (token, last'))
    (hcur : Extends more cur cur') (hmore : more.length ≤ last'.rest.length) :
    ∃ last, readNumber front start' cur = .ok (token, last) ∧ Extends more last last' := by
  have hle := length_rest_of_readNumber h
  obtain ⟨htake, hwhile⟩ := hcur.skipWhile_of_le (Nat.le_trans hmore hle)
  unfold readNumber at h ⊢
  cases eq_of_numberToken h
  have hlength : (exponentChars (cur'.skipWhile isNumberBody).rest).length ≤
      (cur.skipWhile isNumberBody).rest.length := by
    have hexp := length_exponentChars (cur'.skipWhile isNumberBody).rest
    rw [Cursor.length_rest_skip] at hmore
    have hwhole := hwhile.length_rest
    omega
  have hexp : exponentChars (cur.skipWhile isNumberBody).rest =
      exponentChars (cur'.skipWhile isNumberBody).rest := by
    rw [hwhile] at hlength ⊢
    exact exponentChars_of_append hlength
  rw [htake, hexp]
  have hlast := hwhile.skip hlength
  exact ⟨_, numberToken_shrinks start' h hlast, hlast⟩

theorem startsWith_of_append {front cs : List Char} (h : startsWith front cs) (more : List Char) :
    startsWith front (cs ++ more) := by
  obtain ⟨back, hback⟩ := Option.isSome_iff_exists.1 h
  rw [dropFront?_eq_some_iff] at hback
  rw [hback, List.append_assoc, startsWith, dropFront?_append]
  rfl

/-- The longest symbol that a text starts with, of those that the shorter text has room for. -/
theorem ofFront?_of_append {cs : List Char} {s : Symbol}
    (h : Symbol.ofFront? (cs ++ more) = some s) (hlength : s.text.length ≤ cs.length) :
    Symbol.ofFront? cs = some s := by
  obtain ⟨hs, longer, shorter, hall, hlonger⟩ := List.find?_eq_some_iff_append.1 h
  refine List.find?_eq_some_iff_append.2 ⟨?_, longer, shorter, hall, fun t ht => ?_⟩
  · obtain ⟨back, hback⟩ := Option.isSome_iff_exists.1 hs
    rw [dropFront?_eq_some_iff] at hback
    rw [← String.length_toList] at hlength
    have hprefix : s.text.toList <+: cs :=
      List.prefix_of_prefix_length_le ⟨back, hback.symm⟩ (List.prefix_append cs more) hlength
    obtain ⟨rest, rfl⟩ := hprefix
    rw [startsWith, dropFront?_append]
    rfl
  · have hnot := hlonger t ht
    rw [Bool.not_eq_true'] at hnot ⊢
    exact Bool.eq_false_iff.2 fun hstart =>
      Bool.false_ne_true (hnot.symm.trans (startsWith_of_append hstart more))

theorem readWord_shrinks (hcur : Extends more cur cur')
    (hmore : more.length ≤ (readWord cur').2.rest.length) :
    (readWord cur).1 = (readWord cur').1 ∧ Extends more (readWord cur).2 (readWord cur').2 := by
  obtain ⟨htake, hwhile⟩ := hcur.skipWhile_of_le (p := isIdentifierChar) hmore
  refine ⟨?_, hwhile⟩
  unfold readWord
  rw [htake]

theorem head?_any_of_append {p : Char → Bool} {cs : List Char} (h : cs.head?.any p) :
    (cs ++ more).head?.any p := by
  cases cs with
  | nil => cases h
  | cons c cs => exact h

theorem readToken_shrinks {c : Char} {cs : List Char} {token : Token} (hrest : cur.rest = c :: cs)
    (hcur : Extends more cur cur') (h : readToken c cur' = .ok (token, last'))
    (hmore : more.length ≤ last'.rest.length) :
    ∃ token' last, readToken c cur = .ok (token', last) ∧ token'.erase = token.erase ∧
      Extends more last last' := by
  have hskip := hcur.skip_one hrest
  cases tokenRead_of_readToken h with
  | string hquote hr =>
    obtain ⟨used, hused, hreads⟩ := readString_reads hr
    obtain ⟨last, hlast, hext⟩ := (hreads cur.position).shrinks hused hskip hmore
    exact ⟨_, last, by rw [readToken_quote hquote, hlast]; rfl, rfl, hext⟩
  | template hback hr =>
    subst hback
    obtain ⟨used, pieces, -, hused, -, hreads⟩ := readTemplate_reads hr
    obtain ⟨last, hlast, hext⟩ := (hreads cur.position).shrinks hused hskip hmore
    obtain ⟨rfl, -⟩ := (hreads _).eq_of_eq_ok hused hr
    refine ⟨_, last, by rw [readToken_backtick, hlast]; rfl, ?_, hext⟩
    rw [erase_template, erase_template, erasePieces_place]
  | number hd hr =>
    obtain ⟨last, hlast, hext⟩ := readNumber_shrinks cur.position hr hcur hmore
    exact ⟨token, last, by rw [readToken_number hd, hlast], rfl, hext⟩
  | fraction hpoint hr =>
    obtain ⟨rfl, hd⟩ := hpoint
    obtain ⟨used, hused, -, -⟩ := readNumber_alone hr
    obtain ⟨rest, hrest', -⟩ := hskip.exists_rest hused hmore
    have hdigit : (cur.skip 1).rest.head?.any Char.isDigit := by
      rw [hrest']
      exact head?_any_of_append (head?_of_readNumber hr hused hd)
    obtain ⟨last, hlast, hext⟩ := readNumber_shrinks cur.position hr hskip hmore
    exact ⟨token, last, by rw [readToken_fraction hdigit, hlast], rfl, hext⟩
  | @symbol s hs =>
    have hpoint : ¬ (c = '.' ∧ (cur.skip 1).rest.head?.any Char.isDigit) := by
      rintro ⟨hc, hdigit⟩
      refine not_fraction_of_readToken h ⟨hc, ?_⟩
      rw [hskip]
      exact head?_any_of_append hdigit
    rw [Cursor.length_rest_skip] at hmore
    have hlength := hcur.length_rest
    have hpos := length_text_le_of_ofFront? hs
    have hle : s.text.length ≤ cur.rest.length := by omega
    rw [hcur] at hs
    exact ⟨_, _, readToken_of_ofFront? hrest (ofFront?_of_append hs hle) hpoint, rfl, hcur.skip hle⟩
  | word hstart =>
    obtain ⟨hword, hext⟩ := readWord_shrinks hcur hmore
    exact ⟨_, _, readToken_word hstart hrest, congrArg Token.erase hword, hext⟩

/-- The tokens behind some others are read from the place of the first of them. -/
theorem readTokens_behind {ls front back : List Lexeme} {l : Lexeme} (h : readTokens cur = .ok ls)
    (hls : ls = front ++ l :: back) :
    ∃ before rest q, cur.rest = before ++ rest ∧ l.span = (cur.position.after before).span q ∧
      readTokens ⟨cur.position.after before, rest⟩ = .ok (l :: back) := by
  fun_induction readTokens cur generalizing ls front with
  | case1 =>
    cases h
    exact absurd hls.symm (by simp)
  | case2 cur c cs hrest hsep ih =>
    obtain ⟨before, rest, q, hbefore, hspan, hread⟩ := ih h hls
    have hposition : (cur.skip 1).position = cur.position.after [c] := by
      rw [Cursor.skip, hrest]
      rfl
    rw [rest_skip_one hrest] at hbefore
    rw [hposition, ← Position.after_append] at hspan hread
    exact ⟨c :: before, rest, q, by rw [hrest, hbefore]; rfl, hspan, hread⟩
  | case3 => cases h
  | case4 cur c cs hrest hsep token next hread ih =>
    obtain ⟨ms, hms, rfl⟩ := map_eq_ok_iff.1 h
    obtain ⟨p, _⟩ := cur
    cases hrest
    cases front with
    | nil =>
      obtain ⟨rfl, rfl⟩ := List.cons.inj hls
      refine ⟨[], c :: cs, next.position, rfl, rfl, ?_⟩
      show readTokens ⟨p, c :: cs⟩ = _
      rw [readTokens_cons rfl, if_neg hsep, hread, ok_bind]
      exact h
    | cons m front =>
      obtain ⟨-, hms'⟩ := List.cons.inj hls
      obtain ⟨used, alone, rfl, hnext, -⟩ := readToken_alone hread
      obtain ⟨before, rest, q, hbefore, hspan, hread'⟩ := ih hms hms'
      rw [hnext, ← Position.after_append] at hspan hread'
      exact ⟨c :: used ++ before, rest, q, by simp [hbefore], hspan, hread'⟩

/-- The first tokens of a text are those of the text up to the last of them. -/
theorem readTokens_front {ls front back : List Lexeme} {l : Lexeme} (h : readTokens cur = .ok ls)
    (hls : ls = front ++ l :: back) :
    ∃ text rest, cur.rest = text ++ rest ∧ l.span.stop = (cur.position.after text).offset ∧
      ∀ q, ∃ ms, readTokens ⟨q, text⟩ = .ok ms ∧ spelling ms = spelling (front ++ [l]) := by
  fun_induction readTokens cur generalizing ls front with
  | case1 =>
    cases h
    exact absurd hls.symm (by simp)
  | case2 cur c cs hrest hsep ih =>
    obtain ⟨text, rest, htext, hstop, hread⟩ := ih h hls
    rw [rest_skip_one hrest] at htext
    have hposition : (cur.skip 1).position = cur.position.after [c] := by
      rw [Cursor.skip, hrest]
      rfl
    rw [hposition, ← Position.after_append] at hstop
    refine ⟨c :: text, rest, by rw [hrest, htext]; rfl, hstop, fun q => ?_⟩
    rw [readTokens_cons rfl, if_pos hsep]
    exact hread _
  | case3 => cases h
  | case4 cur c cs hrest hsep token next hread ih =>
    obtain ⟨ms, hms, rfl⟩ := map_eq_ok_iff.1 h
    obtain ⟨p, _⟩ := cur
    cases hrest
    obtain ⟨used, alone, rfl, hnext, -⟩ := readToken_alone hread
    have hshrink (text rest : List Char) (hrest : next.rest = text ++ rest) (q : Position) :
        ∃ token' q', readToken c ⟨q, c :: used ++ text⟩ = .ok (token', ⟨q', text⟩) ∧
          token'.erase = token.erase := by
      have hcur : Extends rest ⟨q, c :: used ++ text⟩ ⟨p, c :: (used ++ next.rest)⟩ := by
        show c :: (used ++ next.rest) = c :: used ++ text ++ rest
        rw [hrest, List.cons_append, List.cons_append, List.append_assoc]
      obtain ⟨token', ⟨q', left⟩, htoken, herase, hext⟩ := readToken_shrinks rfl hcur hread
        (by rw [hrest, List.length_append]; exact Nat.le_add_left _ _)
      rw [Extends, hrest] at hext
      obtain rfl : left = text := (List.append_cancel_right hext).symm
      exact ⟨token', q', htoken, herase⟩
    cases front with
    | nil =>
      obtain ⟨rfl, rfl⟩ := List.cons.inj hls
      refine ⟨c :: used, next.rest, rfl, by rw [hnext]; rfl, fun q => ?_⟩
      obtain ⟨token', q', htoken, herase⟩ := hshrink [] next.rest rfl q
      rw [List.append_nil] at htoken
      refine ⟨[⟨token', q.span q'⟩], ?_, by
        rw [List.nil_append, spelling_cons, spelling_cons, herase]⟩
      rw [readTokens_cons rfl, if_neg hsep, htoken, ok_bind]
      dsimp only
      rw [readTokens_nil rfl]
      rfl
    | cons m front =>
      obtain ⟨rfl, hms'⟩ := List.cons.inj hls
      obtain ⟨text, rest, htext, hstop, hread'⟩ := ih hms hms'
      rw [hnext, ← Position.after_append] at hstop
      refine ⟨c :: used ++ text, rest, by simp [htext], hstop, fun q => ?_⟩
      obtain ⟨token', q', htoken, herase⟩ := hshrink text rest htext q
      obtain ⟨ms', hms', hspelling⟩ := hread' q'
      refine ⟨⟨token', q.span q'⟩ :: ms', ?_, by
        rw [List.cons_append, spelling_cons, spelling_cons, hspelling, herase]⟩
      rw [List.cons_append] at htoken ⊢
      rw [readTokens_cons rfl, if_neg hsep, htoken, ok_bind]
      dsimp only
      rw [hms']
      rfl

end Lexer

/-- The tokens are those of the part of the text that the span is of. -/
def Lexed (cs : List Char) (span : Span) (ls : List Lexeme) : Prop :=
  ∃ i j, i ≤ j ∧ j ≤ cs.length ∧ span = .slice cs i j ∧
    ∃ ms, tokenize (.ofList ((cs.drop i).take (j - i))) = .ok ms ∧ spelling ms = spelling ls

theorem lexed_of_tokenize {source : String} {ls core : List Lexeme} {span : Span}
    (h : tokenize source = .ok ls) (hcore : core <:+: ls) (hspan : Spans core span) :
    Lexed source.toList span core := by
  obtain ⟨front, back, rfl⟩ := hcore
  obtain ⟨first, last, hfirst, hlast, rfl⟩ := hspan
  obtain ⟨rest, hrest⟩ := List.head?_eq_some_iff.1 hfirst
  obtain ⟨init, hinit⟩ := List.getLast?_eq_some_iff.1 hlast
  have hfirst' : front ++ core ++ back = front ++ first :: (rest ++ back) := by
    rw [hrest, List.append_assoc, List.cons_append]
  have hlast' : first :: (rest ++ back) = init ++ last :: back := by
    rw [← List.cons_append, ← hrest, hinit, List.append_assoc, List.singleton_append]
  obtain ⟨before, cs, q, hbefore, hstart, hread⟩ := Lexer.readTokens_behind h hfirst'
  obtain ⟨text, behind, htext, hstop, hlexes⟩ := Lexer.readTokens_front hread hlast'
  have hsource : source.toList = before ++ text ++ behind := by
    rw [List.append_assoc]
    exact hbefore.trans (congrArg _ htext)
  have hpart : ((before ++ text ++ behind).drop before.length).take
      (before.length + text.length - before.length) = text := by
    rw [Nat.add_sub_cancel_left, List.append_assoc, List.drop_left, List.take_left]
  rw [hsource]
  refine ⟨before.length, before.length + text.length, Nat.le_add_right _ _, ?_, ?_, ?_⟩
  · rw [List.length_append, List.length_append]
    exact Nat.le_add_right _ _
  · rw [← Span.behind_eq_slice, ← Span.span_after, Span.upTo, hstart, hstop, Position.after_append]
    rfl
  · obtain ⟨ms, hms, hspelling⟩ := hlexes .start
    refine ⟨ms, ?_, by rw [hspelling, hinit]⟩
    rw [hpart, tokenize, String.toList_ofList]
    exact hms

theorem Lexed.relocate {cs : List Char} {a b : Nat} {span : Span} {ls : List Lexeme}
    (h : Lexed ((cs.drop a).take (b - a)) span ls) (hab : a ≤ b) (hb : b ≤ cs.length) :
    Lexed cs (span.relocate (.slice cs a b)) (ls.map (·.relocate (.slice cs a b))) := by
  obtain ⟨i, j, hij, hj, rfl, ms, hms, hspelling⟩ := h
  rw [List.length_take, List.length_drop] at hj
  refine ⟨a + i, a + j, by omega, by omega, ?_, ms, ?_, ?_⟩
  · rw [Span.relocate_slice (by omega) (by omega)]
  · rw [List.drop_take, List.take_take, List.drop_drop, Nat.min_eq_left (by omega)] at hms
    rw [Nat.add_sub_add_left, hms]
  · rw [spelling_relocate, hspelling]

end JsonStencil
