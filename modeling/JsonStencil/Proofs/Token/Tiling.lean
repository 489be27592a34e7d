import JsonStencil.Proofs.Text.Places
import JsonStencil.Proofs.Token.Extension

/-!
# Tokens cover their source

The spans of the tokens of a source are the places of their texts, with blanks between them. The
text of a token alone has that token and no other, up to its place.
-/

namespace JsonStencil

open Lexer

/-- The token is that of a text behind another one: the text alone has it too, and what it holds as
code stands in the text. -/
structure Lexeme.Covers (before text : List Char) (l : Lexeme) : Prop where
  ne_nil : text ≠ []
  span_eq : l.span = .behind before text
  alone : ∃ m, tokenize (.ofList text) = .ok [m] ∧ m.relocate l.span = l
  holes : ∀ chunks code, l.token = .template chunks → .hole code ∈ chunks →
    ∃ front back, text = front ++ '$' :: '{' :: (code.source.toList ++ '}' :: back) ∧
      code.span = .behind (before ++ front ++ ['$', '{']) code.source.toList

theorem Lexeme.Covers.start_lt_stop {before text : List Char} {l : Lexeme}
    (h : l.Covers before text) : l.span.start < l.span.stop := by
  rw [h.span_eq]
  cases text with
  | nil => exact absurd rfl h.ne_nil
  | cons c cs =>
    have hpos := c.utf8Size_pos
    simp only [Span.behind, byteLength_cons]
    omega

/-- The tokens cover a text behind another one, but for blanks. -/
inductive Tiles : List Char → List Char → List Lexeme → Prop
  | nil (before : List Char) : Tiles before [] []
  | blank {before cs : List Char} {c : Char} {ls : List Lexeme} :
      isSeparator c → Tiles (before ++ [c]) cs ls → Tiles before (c :: cs) ls
  | token {before text cs : List Char} {l : Lexeme} {ls : List Lexeme} :
      l.Covers before text → Tiles (before ++ text) cs ls → Tiles before (text ++ cs) (l :: ls)

theorem Token.relocate_of_ne {t : Token} (h : ∀ chunks, t ≠ .template chunks) (base : Span) :
    t.relocate base = t := by
  cases t with
  | template chunks => exact absurd rfl (h chunks)
  | _ => rfl

namespace Lexer

variable {p : Position} {c : Char} {cs : List Char} {token : Token} {last : Cursor}

theorem Reads.alone {α : Type} {read : Cursor → Except LexicalError (α × Cursor)}
    {used : List Char} {result : Position → α} (h : Reads read used result) (p : Position) :
    read ⟨p, used⟩ = .ok (result p, ⟨p.after used, []⟩) := by
  simpa using h p []

theorem take_length_takeWhile (f : Char → Bool) (cs : List Char) :
    cs.take (cs.takeWhile f).length = cs.takeWhile f :=
  (List.prefix_iff_eq_take.1 (List.takeWhile_prefix f)).symm

theorem exponentChars_unsigned (hc : c = 'e' ∨ c = 'E')
    (hcs : cs.head? ≠ some '+' ∧ cs.head? ≠ some '-') :
    exponentChars (c :: cs) = 'e' :: cs.takeWhile Char.isDigit := by
  unfold exponentChars
  dsimp only
  rw [if_pos hc]
  split
  next => exact absurd rfl hcs.1
  next => exact absurd rfl hcs.2
  next => rfl

theorem exponentChars_signed (hc : c = 'e' ∨ c = 'E') {sign : Char}
    (hsign : sign = '+' ∨ sign = '-') (cs : List Char) :
    exponentChars (c :: sign :: cs) = 'e' :: sign :: cs.takeWhile Char.isDigit := by
  rcases hsign with rfl | rfl <;> simp [exponentChars, hc]

/-- An exponent is one by itself. -/
theorem exponentChars_take (cs : List Char) :
    exponentChars (cs.take (exponentChars cs).length) = exponentChars cs := by
  cases cs with
  | nil => rfl
  | cons c cs =>
    by_cases hc : c = 'e' ∨ c = 'E'
    · by_cases hsign : cs.head? = some '+' ∨ cs.head? = some '-'
      · obtain ⟨sign, ds, rfl, hsign'⟩ :
            ∃ sign ds, cs = sign :: ds ∧ (sign = '+' ∨ sign = '-') := by
          cases cs with
          | nil => simp at hsign
          | cons d ds => exact ⟨d, ds, rfl, by simpa using hsign⟩
        rw [exponentChars_signed hc hsign', List.length_cons, List.length_cons, List.take_succ_cons,
          List.take_succ_cons, take_length_takeWhile, exponentChars_signed hc hsign',
          List.takeWhile_idem]
      · have hhead := not_or.1 hsign
        have hwhile : (cs.takeWhile Char.isDigit).head? ≠ some '+' ∧
            (cs.takeWhile Char.isDigit).head? ≠ some '-' := by
          cases cs with
          | nil => simp
          | cons d ds =>
            rw [List.takeWhile_cons]
            split
            · exact hhead
            · simp
        rw [exponentChars_unsigned hc hhead, List.length_cons, List.take_succ_cons,
          take_length_takeWhile, exponentChars_unsigned hc hwhile, List.takeWhile_idem]
    · simp [exponentChars, hc]

/-- No digit or point starts an exponent. -/
theorem not_isNumberBody_of_exponent (cs : List Char) :
    ∀ c ∈ (cs.take (exponentChars cs).length).head?, isNumberBody c = false := by
  intro c hc
  cases cs with
  | nil => cases hc
  | cons d ds =>
    by_cases hmark : d = 'e' ∨ d = 'E'
    · have hcons : ∃ es, exponentChars (d :: ds) = 'e' :: es := ⟨_, if_pos hmark⟩
      obtain ⟨es, hes⟩ := hcons
      rw [hes, List.length_cons, List.take_succ_cons] at hc
      cases hc
      rcases hmark with rfl | rfl <;> rfl
    · simp [exponentChars, hmark] at hc

theorem numberToken_alone {text : List Char} {start : Position} {next : Cursor}
    (h : numberToken text start next = .ok (token, last)) (start' p : Position) :
    numberToken text start' ⟨p, []⟩ = .ok (token, ⟨p, []⟩) := by
  unfold numberToken at h ⊢
  split at h
  next => cases h
  next =>
    split at h
    next hread =>
      cases h
      rfl
    next => cases h

theorem readNumber_alone {front : List Char} {start : Position} {cur : Cursor}
    (h : readNumber front start cur = .ok (token, last)) :
    ∃ used, cur.rest = used ++ last.rest ∧ last.position = cur.position.after used ∧
      ∀ start' p, readNumber front start' ⟨p, used⟩ = .ok (token, ⟨p.after used, []⟩) := by
  obtain ⟨q, cs⟩ := cur
  unfold readNumber Cursor.skipWhile at h
  rw [eq_of_numberToken h]
  dsimp only at h ⊢
  have hexp := exponentChars_take (cs.dropWhile isNumberBody)
  have hhead := not_isNumberBody_of_exponent (cs.dropWhile isNumberBody)
  refine ⟨cs.takeWhile isNumberBody ++ (cs.dropWhile isNumberBody).take
    (exponentChars (cs.dropWhile isNumberBody)).length, ?_, ?_, fun start' p => ?_⟩
  · rw [Cursor.skip, List.append_assoc, List.take_append_drop, List.takeWhile_append_dropWhile]
  · rw [Cursor.skip, Position.after_append]
  · have htake := takeWhile_append_of_head hhead (cs.takeWhile isNumberBody)
    have hdrop := dropWhile_append_of_head hhead (cs.takeWhile isNumberBody)
    rw [List.takeWhile_idem] at htake
    have hnil : (cs.takeWhile isNumberBody).dropWhile isNumberBody = [] :=
      List.dropWhile_eq_nil_iff.2 (List.all_eq_true.1 List.all_takeWhile)
    rw [hnil, List.nil_append] at hdrop
    unfold readNumber Cursor.skipWhile
    dsimp only
    rw [htake, hdrop, hexp, Position.after_append]
    have hskip (q : Position) (ds : List Char) (n : Nat) :
        Cursor.skip n ⟨q, ds.take n⟩ = ⟨q.after (ds.take n), []⟩ := by
      simp [Cursor.skip, List.take_take]
    rw [hskip]
    exact numberToken_alone h _ _

theorem readWord_alone (cur : Cursor) :
    ∃ used, cur.rest = used ++ (readWord cur).2.rest ∧
      (readWord cur).2.position = cur.position.after used ∧
      ∀ p, readWord ⟨p, used⟩ = ((readWord cur).1, ⟨p.after used, []⟩) := by
  refine ⟨cur.rest.takeWhile isIdentifierChar, ?_, rfl, fun p => ?_⟩
  · exact List.takeWhile_append_dropWhile.symm
  · have hdrop : (cur.rest.takeWhile isIdentifierChar).dropWhile isIdentifierChar = [] :=
      List.dropWhile_eq_nil_iff.2 (List.all_eq_true.1 List.all_takeWhile)
    unfold readWord Cursor.skipWhile
    dsimp only
    rw [List.takeWhile_idem, hdrop]

theorem readWord_ne_template (cur : Cursor) (chunks : List TemplateChunk) :
    (readWord cur).1 ≠ .template chunks := by
  unfold readWord
  dsimp only
  split <;> nofun

theorem readToken_symbol (s : Symbol) (p : Position) :
    ∃ c cs, s.text.toList = c :: cs ∧
      readToken c ⟨p, c :: cs⟩ = .ok (.symbol s, ⟨p.after (c :: cs), []⟩) := by
  cases s <;> exact ⟨_, _, rfl, rfl⟩

/-- Code in a piece of a literal, by its place. -/
theorem Piece.eq_of_place_eq {x : Piece} {code : CodeText} (h : x.place p = .inr code) :
    ∃ front copied, x = .inr (front, copied) ∧ codeAt (p.after front) copied = code := by
  cases x with
  | inl c => cases h
  | inr hole => exact ⟨hole.1, hole.2, rfl, Sum.inr.inj h⟩

theorem Piece.relocate_place (q : Position) (front : List Char) (x : Piece) :
    Sum.map id (CodeText.relocate (p.span q)) (x.place (Position.start.after front)) =
      x.place (p.after front) := by
  cases x with
  | inl c => rfl
  | inr hole =>
    obtain ⟨inner, code⟩ := hole
    simp only [place, Sum.map_inr, codeAt, CodeText.relocate, ← Position.after_append,
      Span.relocate_span]

/-- The place of the holes of a token in its text. -/
def HolesIn (p : Position) (text : List Char) (token : Token) : Prop :=
  ∀ chunks code, token = .template chunks → .hole code ∈ chunks →
    ∃ front back, text = front ++ '$' :: '{' :: (code.source.toList ++ '}' :: back) ∧
      code.span = (p.after (front ++ ['$', '{'])).span
        (p.after (front ++ ['$', '{'] ++ code.source.toList))

theorem holesIn_template {used : List Char} {pieces : List Piece}
    (h : ∀ x ∈ pieces, x.Within used) :
    HolesIn p (c :: used)
      (.template (Part.gather [] (pieces.map (Piece.place (p.advance c))))) := by
  rintro _ code ⟨⟩ hcode
  obtain ⟨x, hx, hplace⟩ := List.mem_map.1 ((Part.hole_mem_gather []).1 hcode)
  obtain ⟨front, copied, rfl, rfl⟩ := Piece.eq_of_place_eq hplace
  obtain ⟨before, back, rfl, rfl⟩ := h _ hx front copied rfl
  refine ⟨c :: before, back, ?_, ?_⟩
  · simp [codeAt]
  · simp only [codeAt, String.toList_ofList, ← Position.after_append]
    rfl

theorem relocate_template (q : Position) (pieces : List Piece) :
    Token.relocate (p.span q)
        (.template (Part.gather [] (pieces.map (Piece.place (Position.start.advance c))))) =
      .template (Part.gather [] (pieces.map (Piece.place (p.advance c)))) := by
  rw [Token.relocate, Part.map_gather, List.map_map]
  congr 2
  exact List.map_congr_left fun x _ => Piece.relocate_place q [c] x

theorem exists_cons_of_length_lt {text rest : List Char} (h : c :: cs = text ++ rest)
    (hlt : rest.length < (c :: cs).length) : ∃ used, text = c :: used ∧ cs = used ++ rest := by
  cases text with
  | nil =>
    subst h
    exact absurd hlt (Nat.lt_irrefl _)
  | cons d used =>
    cases h
    exact ⟨used, rfl, rfl⟩

theorem holesIn_of_ne (h : ∀ chunks, token ≠ .template chunks) (p : Position) (text : List Char) :
    HolesIn p text token := fun chunks _ heq => absurd heq (h chunks)

/-- A number that starts with a digit takes it. -/
theorem head?_of_readNumber {front used : List Char} {start : Position} {cur : Cursor}
    (h : readNumber front start cur = .ok (token, last)) (hrest : cur.rest = used ++ last.rest)
    (hdigit : cur.rest.head?.any Char.isDigit) : used.head?.any Char.isDigit := by
  cases hcur : cur.rest with
  | nil =>
    rw [hcur] at hdigit
    cases hdigit
  | cons d ds =>
    rw [hcur] at hrest hdigit
    have hbody : isNumberBody d := by
      simp only [isNumberBody, Bool.or_eq_true]
      exact .inl hdigit
    have hlt : last.rest.length < (d :: ds).length := by
      refine Nat.lt_of_le_of_lt (length_rest_of_readNumber h) ?_
      show (cur.rest.dropWhile isNumberBody).length < _
      rw [hcur, List.dropWhile_cons, if_pos hbody]
      exact Nat.lt_succ_of_le (List.dropWhile_sublist _).length_le
    obtain ⟨used, rfl, -⟩ := exists_cons_of_length_lt hrest hlt
    exact hdigit

/-- A token is read alone from the text that it takes. -/
theorem readToken_alone (h : readToken c ⟨p, c :: cs⟩ = .ok (token, last)) :
    ∃ used alone, cs = used ++ last.rest ∧ last.position = p.after (c :: used) ∧
      readToken c ⟨.start, c :: used⟩ = .ok (alone, ⟨Position.start.after (c :: used), []⟩) ∧
      (∀ q, alone.relocate (p.span q) = token) ∧ HolesIn p (c :: used) token := by
  have hlt := length_rest_of_readToken rfl h
  cases tokenRead_of_readToken h with
  | @string s _ hquote hr =>
    obtain ⟨used, hused, hreads⟩ := readString_reads hr
    obtain ⟨-, hlast⟩ := (hreads _).eq_of_eq_ok hused hr
    refine ⟨used, .string (.ofList s), hused, hlast, ?_, fun q => rfl,
      holesIn_of_ne (fun _ heq => by cases heq) _ _⟩
    rw [readToken_quote hquote]
    exact map_eq_ok_iff.2 ⟨_, (hreads _).alone _, rfl⟩
  | template hback hr =>
    subst hback
    obtain ⟨used, pieces, -, hused, hwithin, hreads⟩ := readTemplate_reads hr
    obtain ⟨rfl, hlast⟩ := (hreads _).eq_of_eq_ok hused hr
    refine ⟨used,
      .template (Part.gather [] (pieces.map (Piece.place (Position.start.advance '\x60')))),
      hused, hlast, map_eq_ok_iff.2 ⟨_, (hreads _).alone _, rfl⟩, fun q => ?_,
      holesIn_template hwithin⟩
    exact relocate_template (p := p) (c := '\x60') q pieces
  | number hc hr =>
    obtain ⟨x, rfl⟩ := eq_number_of_readNumber hr
    obtain ⟨text, htext, hlast, halone⟩ := readNumber_alone hr
    obtain ⟨used, rfl, hused⟩ := exists_cons_of_length_lt htext hlt
    exact ⟨used, .number x, hused, hlast, (readToken_number hc).trans (halone _ _),
      fun q => rfl, holesIn_of_ne (fun _ heq => by cases heq) _ _⟩
  | fraction hpoint hr =>
    obtain ⟨rfl, hdigit⟩ := hpoint
    obtain ⟨x, rfl⟩ := eq_number_of_readNumber hr
    obtain ⟨used, hused, hlast, halone⟩ := readNumber_alone hr
    have hdigit' := head?_of_readNumber hr hused hdigit
    have hread : readToken '.' ⟨.start, '.' :: used⟩ = readNumber ['0', '.'] .start
        ⟨Position.start.advance '.', used⟩ := readToken_fraction hdigit'
    exact ⟨used, .number x, hused, hlast, hread.trans (halone _ _), fun q => rfl,
      holesIn_of_ne (fun _ heq => by cases heq) _ _⟩
  | @symbol s hs =>
    obtain ⟨back, hback⟩ := exists_of_ofFront? hs
    obtain ⟨d, used, htext, hread⟩ := readToken_symbol s .start
    have hlen : s.text.length = (d :: used).length := by rw [← String.length_toList, htext]
    rw [htext, List.cons_append] at hback
    cases hback
    have hskip : Cursor.skip s.text.length ⟨p, c :: (used ++ back)⟩ =
        ⟨p.after (c :: used), back⟩ := skip_append hlen.symm back
    exact ⟨used, .symbol s, by rw [hskip], by rw [hskip], hread, fun q => rfl,
      holesIn_of_ne (fun _ heq => by cases heq) _ _⟩
  | word hc =>
    obtain ⟨text, htext, hlast, halone⟩ := readWord_alone ⟨p, c :: cs⟩
    obtain ⟨used, rfl, hused⟩ := exists_cons_of_length_lt htext hlt
    have hword := readWord_ne_template ⟨p, c :: cs⟩
    exact ⟨used, _, hused, hlast, (readToken_word hc rfl).trans (congrArg _ (halone _)),
      fun q => Token.relocate_of_ne hword _, holesIn_of_ne hword _ _⟩

/-- The token read at a place covers the text that it takes there. -/
theorem covers_of_readToken {before : List Char} (hsep : isSeparator c = false)
    (h : readToken c ⟨Position.start.after before, c :: cs⟩ = .ok (token, last)) :
    ∃ text, c :: cs = text ++ last.rest ∧ last.position = Position.start.after (before ++ text) ∧
      Lexeme.Covers before text ⟨token, (Position.start.after before).span last.position⟩ := by
  obtain ⟨used, alone, rfl, hlast, halone, hrelocate, hholes⟩ := readToken_alone h
  have hlast' : last.position = Position.start.after (before ++ c :: used) :=
    hlast.trans (Position.after_append _ _ _).symm
  refine ⟨c :: used, rfl, hlast', ⟨List.cons_ne_nil c used, ?_, ?_, ?_⟩⟩
  · rw [hlast', Span.span_after]
  · have hspan := Span.relocate_span (Position.start.after before) last.position [] (c :: used)
    rw [← hlast] at hspan
    refine ⟨_, tokenize_of_readToken hsep halone rfl, ?_⟩
    exact (Lexeme.mk.injEq _ _ _ _).mpr ⟨hrelocate _, hspan⟩
  · intro chunks code htoken hcode
    obtain ⟨front, back, htext, hcodespan⟩ := hholes chunks code htoken hcode
    refine ⟨front, back, htext, ?_⟩
    rw [hcodespan, ← Position.after_append, ← Position.after_append]
    simp only [← List.append_assoc, Span.span_after]

theorem readTokens_tiles {cur : Cursor} {before : List Char} {ls : List Lexeme}
    (h : readTokens cur = .ok ls) (hcur : cur.position = Position.start.after before) :
    Tiles before cur.rest ls := by
  fun_induction readTokens cur generalizing before ls with
  | case1 cur hrest =>
    cases h
    rw [hrest]
    exact .nil before
  | case2 cur c cs hrest hsep ih =>
    have hskip : (cur.skip 1).position = Position.start.after (before ++ [c]) := by
      rw [Position.after_append, ← hcur, Cursor.skip, hrest]
      rfl
    have htiles := ih h hskip
    rw [rest_skip_one hrest] at htiles
    rw [hrest]
    exact .blank hsep htiles
  | case3 => cases h
  | case4 cur c cs hrest hsep token next hread ih =>
    obtain ⟨ms, hms, rfl⟩ := map_eq_ok_iff.1 h
    obtain ⟨p, _⟩ := cur
    cases hcur
    cases hrest
    obtain ⟨text, htext, hnext, hcovers⟩ :=
      covers_of_readToken (Bool.eq_false_iff.2 hsep) hread
    show Tiles before (c :: cs) _
    rw [htext]
    exact .token hcovers (ih hms hnext)

end Lexer

namespace Tiles

variable {before cs : List Char} {ls : List Lexeme}

theorem exists_covers (h : Tiles before cs ls) {l : Lexeme} (hl : l ∈ ls) :
    ∃ front text behind, cs = front ++ text ++ behind ∧ l.Covers (before ++ front) text := by
  induction h with
  | nil => cases hl
  | @blank before _ c _ _ _ ih =>
    obtain ⟨front, text, behind, rfl, hcovers⟩ := ih hl
    exact ⟨c :: front, text, behind, rfl, by simpa using hcovers⟩
  | @token before text' cs' _ _ hcovers' _ ih =>
    rcases List.mem_cons.1 hl with rfl | hl
    · exact ⟨[], text', cs', rfl, by simpa using hcovers'⟩
    · obtain ⟨front, text, behind, rfl, hcovers⟩ := ih hl
      exact ⟨text' ++ front, text, behind, by simp, by simpa using hcovers⟩

theorem le_start (h : Tiles before cs ls) {l : Lexeme} (hl : l ∈ ls) :
    byteLength before ≤ l.span.start := by
  obtain ⟨front, text, behind, -, hcovers⟩ := h.exists_covers hl
  rw [hcovers.span_eq, Span.behind, byteLength_append]
  exact Nat.le_add_right _ _

theorem pairwise (h : Tiles before cs ls) :
    ls.Pairwise fun l m => l.span.stop ≤ m.span.start := by
  induction h with
  | nil => exact .nil
  | blank _ _ ih => exact ih
  | token hcovers hrest ih =>
    refine List.pairwise_cons.2 ⟨fun m hm => ?_, ih⟩
    have hm := hrest.le_start hm
    rw [byteLength_append] at hm
    rw [hcovers.span_eq]
    exact hm

/-- What no token covers is a blank. -/
theorem covered_or_blank (h : Tiles before cs ls) {front behind : List Char} {c : Char}
    (hcs : cs = front ++ c :: behind) :
    isSeparator c ∨ ∃ l ∈ ls, l.span.start ≤ byteLength (before ++ front) ∧
      byteLength (before ++ front) < l.span.stop := by
  induction h generalizing front with
  | nil => simp at hcs
  | blank hsep _ ih =>
    cases front with
    | nil =>
      cases hcs
      exact .inl hsep
    | cons d front =>
      obtain ⟨rfl, hcs'⟩ := List.cons.inj hcs
      simpa using ih hcs'
  | @token before text cs' l ms hcovers _ ih =>
    have hbehind (front' : List Char) (heq : cs' = front' ++ c :: behind) :
        isSeparator c ∨ ∃ m ∈ l :: ms, m.span.start ≤ byteLength (before ++ (text ++ front')) ∧
          byteLength (before ++ (text ++ front')) < m.span.stop := by
      rw [← List.append_assoc]
      exact (ih heq).imp_right fun ⟨m, hm, hplace⟩ => ⟨m, List.mem_cons_of_mem _ hm, hplace⟩
    rcases List.append_eq_append_iff.1 hcs with ⟨front', rfl, hcs'⟩ | ⟨back, rfl, hback⟩
    · exact hbehind front' hcs'
    · cases back with
      | nil => simpa using hbehind [] hback.symm
      | cons d back =>
        refine .inr ⟨l, List.mem_cons_self, ?_⟩
        have hpos := d.utf8Size_pos
        rw [hcovers.span_eq]
        simp only [Span.behind, byteLength_append, byteLength_cons]
        omega

end Tiles

theorem tiles_of_tokenize {source : String} {ls : List Lexeme} (h : tokenize source = .ok ls) :
    Tiles [] source.toList ls :=
  readTokens_tiles h rfl

/-- The tokens of a source cover places of it in order, each with its text alone, and leave blanks
only. -/
theorem tokenize_tiles (source : String) (ls : List Lexeme) (h : tokenize source = .ok ls) :
    (∀ l ∈ ls, l.span.start < l.span.stop ∧
      ∃ before text behind, source.toList = before ++ text ++ behind ∧ l.Covers before text) ∧
    (ls.Pairwise fun l m => l.span.stop ≤ m.span.start) ∧
    ∀ before c behind, source.toList = before ++ c :: behind →
      c ∈ [' ', '\t', '\r', '\n'] ∨
        ∃ l ∈ ls, l.span.start ≤ byteLength before ∧ byteLength before < l.span.stop := by
  have htiles := tiles_of_tokenize h
  refine ⟨fun l hl => ?_, htiles.pairwise, fun before c behind hsource => ?_⟩
  · obtain ⟨before, text, behind, hsource, hcovers⟩ := htiles.exists_covers hl
    exact ⟨hcovers.start_lt_stop, before, text, behind, hsource, hcovers⟩
  · refine (htiles.covered_or_blank hsource).imp_left fun hsep => ?_
    simpa [isSeparator, or_assoc] using hsep

theorem tokenize_tiles_nested :
    let source := "é +\n \x60a$\x7b \x60$\x7bb\x7d\x60 \x7d\x60"
    ∃ ls, tokenize source = .ok ls ∧ ls.length = 3 ∧
      (ls.Pairwise fun l m => l.span.stop ≤ m.span.start) ∧
      ∀ l ∈ ls, ∃ before text behind, source.toList = before ++ text ++ behind ∧
        l.Covers before text := by
  intro source
  have hlength : (tokenize source).toOption.map List.length = some 3 := by decide +kernel
  cases h : tokenize source with
  | error e =>
    rw [h] at hlength
    cases hlength
  | ok ls =>
    obtain ⟨hcovers, hpairwise, -⟩ := tokenize_tiles source ls h
    rw [h] at hlength
    exact ⟨ls, rfl, Option.some.inj hlength, hpairwise, fun l hl => (hcovers l hl).2⟩

end JsonStencil
