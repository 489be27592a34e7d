import JsonStencil.Proofs.Grammar.Shape
import JsonStencil.Proofs.Token.Composition

/-!
# The code of template literals

The copy of the code in a template literal is made before the code is read, by a walk over frames
that knows strings, template literals and braces only. The walk follows the tokens of the code: it
comes back to the frames it started from exactly when their braces are balanced. So the code of an
expression is copied whole and the brace behind it closes it.
-/

namespace JsonStencil

open Lexer

theorem nesting_append (frames outer : List CodeFrame) :
    CodeFrame.nesting (frames ++ outer) = CodeFrame.nesting frames + CodeFrame.nesting outer :=
  List.countP_append

/-- Copying the text leads from one front of the frames to another, as long as `d` more template
literals may nest. -/
def Walks (d : Nat) (cs : List Char) (top top' : List CodeFrame) : Prop :=
  ∀ outer start q rest, CodeFrame.nesting outer + d ≤ maxNesting →
    ∃ q', copyCode start (top ++ outer) q (cs ++ rest) =
      (copyCode start (top' ++ outer) q' rest).map fun (copied, last) => (cs ++ copied, last)

namespace Walks

variable {d d' : Nat} {cs ds : List Char} {A B C : List CodeFrame}

theorem nil : Walks d [] A A := by
  intro outer start q rest _
  refine ⟨q, ?_⟩
  rw [List.nil_append]
  cases copyCode start (A ++ outer) q rest <;> rfl

theorem append (h : Walks d cs A B) (h' : Walks d ds B C) : Walks d (cs ++ ds) A C := by
  intro outer start q rest hd
  obtain ⟨q', heq⟩ := h outer start q (ds ++ rest) hd
  obtain ⟨q'', heq'⟩ := h' outer start q' rest hd
  refine ⟨q'', ?_⟩
  rw [List.append_assoc, heq, heq']
  cases copyCode start (C ++ outer) q'' rest <;> simp [Except.map]

theorem under (h : Walks d cs A B) (mid : List CodeFrame) (hd : CodeFrame.nesting mid + d ≤ d') :
    Walks d' cs (A ++ mid) (B ++ mid) := by
  intro outer start q rest hd'
  rw [List.append_assoc, List.append_assoc]
  refine h (mid ++ outer) start q rest ?_
  rw [nesting_append]
  omega

theorem cons {c : Char} (hA : A ≠ []) (hB : B ≠ [])
    (hstep : ∀ rest, CodeFrame.step c (cs ++ rest).head? A = B) (hd : CodeFrame.nesting B ≤ d)
    (h : Walks d cs B C) : Walks d (c :: cs) A C := by
  intro outer start q rest hdeep
  obtain ⟨q', heq⟩ := h outer start (q.advance c) rest hdeep
  refine ⟨q', ?_⟩
  obtain ⟨frame, inner, hframes⟩ := List.exists_cons_of_ne_nil hB
  have hnesting : ¬ maxNesting < CodeFrame.nesting (frame :: (inner ++ outer)) := by
    rw [← List.cons_append, ← hframes, nesting_append]
    omega
  rw [List.cons_append, copyCode, step_append hA, hstep, hframes, List.cons_append]
  dsimp only
  rw [if_neg hnesting, ← List.cons_append, ← hframes, heq]
  cases copyCode start (C ++ outer) q' rest <;> rfl

theorem of_step_eq (hA : A ≠ []) (hd : CodeFrame.nesting A ≤ d)
    (h : ∀ c ∈ cs, ∀ following, CodeFrame.step c following A = A) : Walks d cs A A := by
  induction cs with
  | nil => exact nil
  | cons c cs ih =>
    exact cons hA hA (fun _ => h c List.mem_cons_self _) hd
      (ih fun c hc => h c (List.mem_cons_of_mem _ hc))

end Walks

/-- The characters that code frames change at. -/
def Marks (c : Char) : Prop := c = '{' ∨ c = '}' ∨ c = '\'' ∨ c = '"' ∨ c = '\x60'

theorem Walks.plain {d opened : Nat} {cs : List Char} (hd : 1 ≤ d) (h : ∀ c ∈ cs, ¬ Marks c) :
    Walks d cs [.braces opened] [.braces opened] := by
  refine Walks.of_step_eq (by simp) hd fun c hc following => ?_
  have hc' := h c hc
  unfold Marks at hc'
  simp only [not_or] at hc'
  simp [CodeFrame.step, hc']

def EscapeTail (c : Char) : Prop := (hexDigit? c).isSome ∨ c = '+' ∨ c = '{' ∨ c = '}'

theorem isSome_hexDigit?_of_mem {cs : List Char} {n : Nat} (h : readHex? cs = some n) :
    ∀ c ∈ cs, (hexDigit? c).isSome := by
  have hall : ∀ (cs : List Char) (ds : List Nat), cs.mapM hexDigit? = some ds →
      ∀ c ∈ cs, (hexDigit? c).isSome := by
    intro cs
    induction cs with
    | nil => exact fun _ _ _ h => by cases h
    | cons c cs ih =>
      intro ds hds x hx
      rw [List.mapM_cons] at hds
      cases hc : hexDigit? c with
      | none => simp [hc] at hds
      | some e =>
        cases hcs : cs.mapM hexDigit? with
        | none => simp [hc, hcs] at hds
        | some es =>
          rcases List.mem_cons.1 hx with rfl | hx
          · simp [hc]
          · exact ih es hcs x hx
  unfold readHex? at h
  split at h
  · cases h
  · obtain ⟨ds, hds, -⟩ := Option.map_eq_some_iff.1 h
    exact hall cs ds hds

theorem escapeTail_of_charOfHex? {cs : List Char} {c : Char} (h : charOfHex? cs = some c) :
    ∀ x ∈ cs, EscapeTail x := by
  unfold charOfHex? at h
  split at h
  next cs =>
    obtain ⟨n, hn, -⟩ := Option.bind_eq_some_iff.1 h
    intro x hx
    rcases List.mem_cons.1 hx with rfl | hx
    · exact .inr (.inl rfl)
    · exact .inl (isSome_hexDigit?_of_mem hn x hx)
  next =>
    obtain ⟨n, hn, -⟩ := Option.bind_eq_some_iff.1 h
    exact fun x hx => .inl (isSome_hexDigit?_of_mem hn x hx)

theorem exists_of_readEscape {cur next : Cursor} {c : Char} (h : readEscape cur = .ok (c, next)) :
    ∃ e es, cur.rest = e :: (es ++ next.rest) ∧ ∀ x ∈ es, EscapeTail x := by
  rcases readEscape_cases h with
    ⟨cs, hrest, hc, rfl⟩ | ⟨cs, hrest, -, hc, rfl⟩ | ⟨d, cs, hrest, -, -, rfl⟩
  · have hhead := List.head?_dropWhile_not (· ≠ '}') cs
    have hsplit := List.takeWhile_append_dropWhile (p := (· ≠ '}')) (l := cs)
    generalize cs.takeWhile (· ≠ '}') = hex at hc hsplit ⊢
    generalize cs.dropWhile (· ≠ '}') = ys at hhead hsplit
    subst hsplit
    refine ⟨'u', '{' :: (hex ++ ys.take 1), ?_, fun x hx => ?_⟩
    · show cur.rest = _ :: (_ ++ cur.rest.drop _)
      rw [hrest]
      cases ys <;> simp [List.drop_append, List.drop_eq_nil_of_le]
    · rcases List.mem_cons.1 hx with rfl | hx
      · exact .inr (.inr (.inl rfl))
      · rcases List.mem_append.1 hx with hx | hx
        · exact escapeTail_of_charOfHex? hc x hx
        · cases ys with
          | nil => cases hx
          | cons y ys =>
            have hxy : x = y := by simpa using hx
            exact .inr (.inr (.inr (by simpa [hxy] using hhead)))
  · refine ⟨'u', cs.take 4, ?_, escapeTail_of_charOfHex? hc⟩
    show cur.rest = _ :: (_ ++ cur.rest.drop _)
    rw [hrest]
    simp
  · exact ⟨d, [], by rw [rest_skip_one hrest, hrest]; rfl, nofun⟩

theorem ne_of_escapeTail {c : Char} (h : EscapeTail c) :
    c ≠ '\\' ∧ c ≠ '\'' ∧ c ≠ '"' ∧ c ≠ '\x60' ∧ c ≠ '$' := by
  rcases h with h | rfl | rfl | rfl
  · refine ⟨?_, ?_, ?_, ?_, ?_⟩ <;> rintro rfl <;> cases h
  all_goals decide

namespace Walks

variable {d opened : Nat} {cs ds : List Char} {A B : List CodeFrame}

theorem escape {cur next : Cursor} {c : Char} (h : readEscape cur = .ok (c, next)) (hA : A ≠ [])
    (hd : CodeFrame.nesting A ≤ d)
    (hback : ∀ following, CodeFrame.step '\\' following A = .escaped :: A)
    (htail : ∀ c, EscapeTail c → ∀ following, CodeFrame.step c following A = A) :
    ∃ used, cur.rest = used ++ next.rest ∧ Walks d ('\\' :: used) A A := by
  obtain ⟨e, es, hrest, hes⟩ := exists_of_readEscape h
  have htails : Walks d es A A := of_step_eq hA hd fun c hc => htail c (hes c hc)
  have hfirst : Walks d (e :: es) (.escaped :: A) A :=
    cons (by simp) hA (fun _ => rfl) hd htails
  exact ⟨e :: es, hrest, cons hA (by simp) (fun _ => hback _) hd hfirst⟩

theorem readString {quote : Char} (hquote : quote = '\'' ∨ quote = '"') {start : Position}
    {cur last : Cursor} {s : List Char} (h : Lexer.readString quote start cur = .ok (s, last))
    (hd : 1 ≤ d) :
    ∃ used, cur.rest = used ++ last.rest ∧
      Walks d used [.quote quote, .braces opened] [.braces opened] := by
  have hne : quote ≠ '\\' := by rcases hquote with rfl | rfl <;> decide
  have hbraces : CodeFrame.nesting [.braces opened] ≤ d := hd
  have hquoted : CodeFrame.nesting [.quote quote, .braces opened] ≤ d := hd
  fun_induction Lexer.readString quote start cur generalizing s with
  | case1 => cases h
  | case2 cur cs hrest =>
    cases h
    refine ⟨[quote], by simp [Cursor.skip, hrest], ?_⟩
    exact cons (by simp) (by simp) (fun _ => by simp [CodeFrame.step, hne]) hbraces nil
  | case3 => cases h
  | case4 cur cs c next hesc hrest hc ih =>
    obtain ⟨ds, hr, rfl⟩ := map_cons_eq_ok_iff.1 h
    obtain ⟨used, hused, hwalk⟩ := ih hr
    obtain ⟨front, hfront, hwalk'⟩ := escape hesc (by simp)
      hquoted (fun _ => rfl) fun c hc following => by
        have := ne_of_escapeTail hc
        have hcq : c ≠ quote := by rcases hquote with rfl | rfl <;> simp [this]
        simp [CodeFrame.step, this, hcq]
    refine ⟨'\\' :: front ++ used, ?_, hwalk'.append hwalk⟩
    have hskip := rest_skip_one hrest
    rw [hskip] at hfront
    rw [hrest, hfront, hused]
    simp
  | case5 cur c cs hrest hc hesc ih =>
    obtain ⟨ds, hr, rfl⟩ := map_cons_eq_ok_iff.1 h
    obtain ⟨used, hused, hwalk⟩ := ih hr
    have hskip := rest_skip_one hrest
    refine ⟨c :: used, by rw [hrest, ← hskip, hused]; rfl, ?_⟩
    exact cons (by simp) (by simp) (fun _ => by simp [CodeFrame.step, hc, hesc]) hquoted hwalk

end Walks

/-- Code that is walked from its brace and back, with a number of template literals around it. -/
def CodeWalks (d : Nat) (source : String) : Prop :=
  1 ≤ d ∧ Walks d source.toList [.braces 0] [.braces 0]

namespace Walks

variable {d d' opened : Nat} {cs : List Char} {cur last : Cursor}

theorem inCode {copied used : List Char} (hd : d + 1 ≤ d') (hpos : 1 ≤ d)
    (hcopied : Walks d copied [.braces 0] [.braces 0])
    (hwalk : Walks d' used [.text, .braces opened] [.braces opened]) :
    Walks d' ('$' :: '{' :: (copied ++ '}' :: used)) [.text, .braces opened] [.braces opened] := by
  have htext : CodeFrame.nesting [.text, .braces opened] ≤ d' := by
    show 1 ≤ d'
    omega
  have hdeep : CodeFrame.nesting [.braces 0, .text, .braces opened] ≤ d' := by
    show 2 ≤ d'
    omega
  -- the code walks as it would by itself, on top of the frames of this literal
  have hinner : Walks d' copied [.braces 0, .text, .braces opened]
      [.braces 0, .text, .braces opened] :=
    hcopied.under [.text, .braces opened] (by show 1 + d ≤ d'; omega)
  have hclose : Walks d' ('}' :: used) [.braces 0, .text, .braces opened] [.braces opened] :=
    cons (by simp) (by simp) (fun _ => rfl) htext hwalk
  have hopen : Walks d' ('{' :: (copied ++ '}' :: used)) [.opening, .text, .braces opened]
      [.braces opened] :=
    cons (by simp) (by simp) (fun _ => rfl) hdeep (hinner.append hclose)
  exact cons (by simp) (by simp) (fun _ => rfl) htext hopen

theorem readTemplate (hd : d + 1 ≤ d') {start : Position}
    {ps : List (Char ⊕ CodeText)} (h : Lexer.readTemplate start cur = .ok (ps, last))
    (hcode : ∀ code, .inr code ∈ ps → CodeWalks d code.source) :
    ∃ used, used ≠ [] ∧ cur.rest = used ++ last.rest ∧
      Walks d' used [.text, .braces opened] [.braces opened] := by
  have hbraces : CodeFrame.nesting [.braces opened] ≤ d' := by
    show 1 ≤ d'
    omega
  have htext : CodeFrame.nesting [.text, .braces opened] ≤ d' := hbraces
  fun_induction Lexer.readTemplate start cur generalizing ps with
  | case1 => cases h
  | case2 cur cs hrest =>
    cases h
    refine ⟨['\x60'], by simp, by simp [Cursor.skip, hrest], ?_⟩
    exact cons (by simp) (by simp) (fun _ => rfl) hbraces nil
  | case3 => cases h
  | case4 cur cs hrest c next hesc ih =>
    obtain ⟨ds, hr, rfl⟩ := map_cons_eq_ok_iff.1 h
    obtain ⟨used, hne, hused, hwalk⟩ := ih hr fun code hc => hcode code (List.mem_cons_of_mem _ hc)
    obtain ⟨front, hfront, hwalk'⟩ := escape hesc (by simp) htext (fun _ => rfl)
      fun c hc following => by
        have := ne_of_escapeTail hc
        simp [CodeFrame.step, this]
    refine ⟨'\\' :: front ++ used, by simp, ?_, hwalk'.append hwalk⟩
    have hskip := rest_skip_one hrest
    rw [hskip] at hfront
    rw [hrest, hfront, hused]
    simp
  | case5 => cases h
  | case6 cur cs hrest copied next hcopy ih =>
    obtain ⟨ds, hr, rfl⟩ := map_cons_eq_ok_iff.1 h
    obtain ⟨used, hne, hused, hwalk⟩ := ih hr fun code hc => hcode code (List.mem_cons_of_mem _ hc)
    obtain ⟨hpos, hcopied⟩ := hcode (codeAt (cur.skip 2).position copied) List.mem_cons_self
    rw [codeAt, String.toList_ofList] at hcopied
    have hframes : InBraces [.braces 0] := ⟨[], 0, rfl⟩
    obtain ⟨hcs, -⟩ := copyCode_reads hframes hcopy
    refine ⟨'$' :: '{' :: (copied ++ '}' :: used), by simp, ?_, inCode hd hpos hcopied hwalk⟩
    rw [hrest, hcs, hused]
    simp
  | case7 cur c cs hback hesc hcode' hrest ih =>
    obtain ⟨ds, hr, rfl⟩ := map_cons_eq_ok_iff.1 h
    obtain ⟨used, hne, hused, hwalk⟩ := ih hr fun code hc => hcode code (List.mem_cons_of_mem _ hc)
    have hskip := rest_skip_one hrest
    rw [hskip] at hused
    refine ⟨c :: used, by simp, by rw [hrest, hused]; rfl, ?_⟩
    -- a dollar sign has its meaning from the next character, and the closing backtick is behind it
    refine cons (by simp) (by simp) (fun rest => ?_) htext hwalk
    have hdollar : ¬ (c = '$' ∧ (used ++ rest).head? = some '{') := by
      rintro ⟨hc, hhead⟩
      cases used with
      | nil => exact hne rfl
      | cons d used =>
        cases hhead
        exact hcode' _ hc hused
    simp only [CodeFrame.step, if_neg hback, if_neg hesc, if_neg hdollar]

theorem not_marks_of_digit {c : Char} (h : c.isDigit) : ¬ Marks c := by
  rintro (rfl | rfl | rfl | rfl | rfl) <;> cases h

theorem not_marks_of_isNumberBody {c : Char} (h : isNumberBody c) : ¬ Marks c := by
  rintro (rfl | rfl | rfl | rfl | rfl) <;> cases h

theorem not_marks_of_isIdentifierChar {c : Char} (h : isIdentifierChar c) : ¬ Marks c := by
  intro hc
  have hnot : isIdentifierChar c = false := by
    refine not_isIdentifierChar ?_
    rcases hc with rfl | rfl | rfl | rfl | rfl <;> decide
  rw [hnot] at h
  cases h

theorem not_marks_of_mem_exponent {cs : List Char} {c : Char}
    (h : c ∈ cs.take (exponentChars cs).length) : ¬ Marks c := by
  have hdigits {ds : List Char} (h : c ∈ ds.take (ds.takeWhile Char.isDigit).length) :
      c.isDigit := by
    have htake : ds.take (ds.takeWhile Char.isDigit).length = ds.takeWhile Char.isDigit :=
      (List.prefix_iff_eq_take.1 (List.takeWhile_prefix _)).symm
    rw [htake] at h
    exact List.all_eq_true.1 List.all_takeWhile c h
  unfold exponentChars at h
  split at h
  · cases h
  next d ds =>
    split at h
    next hmark =>
      rw [List.length_cons, List.take_succ_cons] at h
      rcases List.mem_cons.1 h with rfl | h
      · rcases hmark with rfl | rfl <;> rintro (h | h | h | h | h) <;> cases h
      · split at h
        next =>
          rw [List.length_cons, List.take_succ_cons] at h
          rcases List.mem_cons.1 h with rfl | h
          · rintro (h | h | h | h | h) <;> cases h
          · exact not_marks_of_digit (hdigits h)
        next =>
          rw [List.length_cons, List.take_succ_cons] at h
          rcases List.mem_cons.1 h with rfl | h
          · rintro (h | h | h | h | h) <;> cases h
          · exact not_marks_of_digit (hdigits h)
        next => exact not_marks_of_digit (hdigits h)
    next => cases h

theorem readNumber {front : List Char} {start : Position} {token : Token} (hd : 1 ≤ d)
    (h : Lexer.readNumber front start cur = .ok (token, last)) :
    ∃ used, cur.rest = used ++ last.rest ∧ Walks d used [.braces opened] [.braces opened] := by
  unfold Lexer.readNumber at h
  rw [eq_of_numberToken h]
  refine ⟨cur.rest.takeWhile isNumberBody ++ (cur.rest.dropWhile isNumberBody).take
    (exponentChars (cur.rest.dropWhile isNumberBody)).length, ?_, ?_⟩
  · show _ = _ ++ (cur.rest.dropWhile isNumberBody).drop
      (exponentChars (cur.rest.dropWhile isNumberBody)).length
    rw [List.append_assoc, List.take_append_drop, List.takeWhile_append_dropWhile]
  · refine plain hd fun c hc => ?_
    rcases List.mem_append.1 hc with hc | hc
    · exact not_marks_of_isNumberBody (List.all_eq_true.1 List.all_takeWhile c hc)
    · exact not_marks_of_mem_exponent hc

theorem readWord (hd : 1 ≤ d) :
    ∃ used, cur.rest = used ++ (Lexer.readWord cur).2.rest ∧
      Walks d used [.braces opened] [.braces opened] := by
  refine ⟨cur.rest.takeWhile isIdentifierChar, ?_, ?_⟩
  · exact (List.takeWhile_append_dropWhile).symm
  · exact plain hd fun c hc =>
      not_marks_of_isIdentifierChar (List.all_eq_true.1 List.all_takeWhile c hc)

theorem symbol (hd : 1 ≤ d) {s : Symbol} {opened' : Nat}
    (h : openBraces? opened [.symbol s] = some opened') :
    Walks d s.text.toList [.braces opened] [.braces opened'] := by
  have hplain (hs : ∀ c ∈ s.text.toList, ¬ Marks c) (heq : opened = opened') :
      Walks d s.text.toList [.braces opened] [.braces opened'] := heq ▸ plain hd hs
  cases s with
  | leftBrace =>
    cases h
    exact cons (by simp) (by simp) (fun _ => rfl) hd nil
  | rightBrace =>
    cases opened with
    | zero => cases h
    | succ opened =>
      cases h
      exact cons (by simp) (by simp) (fun _ => rfl) hd nil
  | _ =>
    cases h
    exact hplain (by simp [Symbol.text, Marks]) rfl

end Walks

namespace Walks

variable {d d' : Nat} {cur : Cursor}

theorem readToken (hd : d + 1 ≤ d') {c : Char} {cs : List Char}
    {token : Token} {last : Cursor} (hrest : cur.rest = c :: cs)
    (h : Lexer.readToken c cur = .ok (token, last)) {opened opened' : Nat}
    (hopen : openBraces? opened [token.erase] = some opened')
    (hcode : ∀ chunks, token.erase = .template chunks → ∀ code, .hole code ∈ chunks →
      CodeWalks d code.source) :
    ∃ used, cur.rest = used ++ last.rest ∧ Walks d' used [.braces opened] [.braces opened'] := by
  have hpos : 1 ≤ d' := by omega
  have hbraces (k : Nat) : CodeFrame.nesting [.braces k] ≤ d' := hpos
  have hskip : cur.rest = c :: (cur.skip 1).rest := by rw [rest_skip_one hrest, hrest]
  cases tokenRead_of_readToken h with
  | string hquote hr =>
    cases hopen
    obtain ⟨used, hused, hwalk⟩ := readString hquote hr hpos
    refine ⟨c :: used, by rw [hskip, hused]; rfl, ?_⟩
    refine cons (by simp) (by simp) (fun rest => ?_) ?_ hwalk
    · rcases hquote with rfl | rfl <;> rfl
    · exact hbraces opened
  | @template ps _ hback hr =>
    subst hback
    cases hopen
    rw [erase_template] at hcode
    have hcodes : ∀ code, .inr code ∈ ps → CodeWalks d code.source := by
      intro code hmem
      have herase : .inr code.erase ∈ erasePieces ps := List.mem_map.2 ⟨_, hmem, rfl⟩
      have hcode' : CodeWalks d code.erase.source :=
        hcode _ rfl _ ((Part.hole_mem_gather []).2 herase)
      exact hcode'
    obtain ⟨used, -, hused, hwalk⟩ := readTemplate hd hr hcodes
    refine ⟨'\x60' :: used, by rw [hskip, hused]; rfl, ?_⟩
    exact cons (by simp) (by simp) (fun _ => rfl) (hbraces opened) hwalk
  | number _ hr =>
    obtain ⟨x, rfl⟩ := eq_number_of_readNumber hr
    cases hopen
    exact readNumber hpos hr
  | fraction hpoint hr =>
    obtain ⟨rfl, -⟩ := hpoint
    obtain ⟨x, rfl⟩ := eq_number_of_readNumber hr
    cases hopen
    obtain ⟨used, hused, hwalk⟩ := readNumber hpos hr
    refine ⟨'.' :: used, by rw [hskip, hused]; rfl, ?_⟩
    exact cons (by simp) (by simp) (fun _ => rfl) (hbraces opened) hwalk
  | @symbol s hs =>
    refine ⟨s.text.toList, ?_, symbol hpos hopen⟩
    obtain ⟨back, hback⟩ := exists_of_ofFront? hs
    show cur.rest = _ ++ cur.rest.drop s.text.length
    rw [hback, ← String.length_toList, List.drop_left]
  | word =>
    have hword : openBraces? opened [(Lexer.readWord cur).1.erase] = some opened := by
      unfold Lexer.readWord
      dsimp only
      split <;> rfl
    have heq : some opened = some opened' := hword.symm.trans hopen
    cases heq
    exact readWord hpos

theorem readTokens (hd : d + 1 ≤ d') {ls : List Lexeme}
    (h : Lexer.readTokens cur = .ok ls) {opened opened' : Nat}
    (hopen : openBraces? opened (spelling ls) = some opened')
    (hcode : ∀ chunks, .template chunks ∈ spelling ls → ∀ code, .hole code ∈ chunks →
      CodeWalks d code.source) :
    Walks d' cur.rest [.braces opened] [.braces opened'] := by
  have hpos : 1 ≤ d' := by omega
  fun_induction Lexer.readTokens cur generalizing ls opened with
  | case1 cur hrest =>
    cases h
    cases hopen
    rw [hrest]
    exact nil
  | case2 cur c cs hrest hsep ih =>
    have hskip : cur.rest = c :: (cur.skip 1).rest := by rw [rest_skip_one hrest, hrest]
    have hc : ¬ Marks c := by rintro (rfl | rfl | rfl | rfl | rfl) <;> cases hsep
    have hsep' : Walks d' [c] [.braces opened] [.braces opened] := plain hpos (by simpa using hc)
    rw [hskip]
    exact append hsep' (ih h hopen hcode)
  | case3 => cases h
  | case4 cur c cs hrest hsep token next hread ih =>
    obtain ⟨ms, hms, rfl⟩ := map_eq_ok_iff.1 h
    rw [spelling_cons] at hopen hcode
    obtain ⟨mid, hmid, hopen'⟩ := openBraces?_cons hopen
    obtain ⟨used, hused, hwalk⟩ := readToken hd hrest hread hmid fun chunks heq =>
      hcode chunks (by simp [heq])
    rw [hused]
    exact hwalk.append (ih hms hopen' fun chunks hmem => hcode chunks (List.mem_cons_of_mem _ hmem))

end Walks

/-- The code of an expression is walked, with as many template literals in it as its budget. -/
theorem codeWalks_of_isCode {budget : Nat} {source : String}
    (h : Phrases.IsCode budget source) : CodeWalks budget source := by
  -- the template literals of a source have code of less budget, so their walks are known
  induction budget generalizing source with
  | zero =>
    obtain ⟨ls, e, -, he⟩ := h
    rw [Phrases.Expression] at he
    exact he.elim
  | succ budget ih =>
    obtain ⟨ls, e, hls, he⟩ := h
    have henclosed := (Phrases.expression_unary_encloses budget).1 he
    refine ⟨Nat.succ_pos _, Walks.readTokens (Nat.le_refl _) hls (henclosed.balanced 0) ?_⟩
    exact fun chunks hmem code hcode =>
      ih (henclosed.code chunks hmem code hcode)

theorem copyCode_of_walks {source : String}
    (h : Walks maxNesting source.toList [.braces 0] [.braces 0]) (start q : Position)
    (back : List Char) :
    ∃ q', copyCode start [.braces 0] q (source.toList ++ '}' :: back) =
      .ok (source.toList, ⟨q', back⟩) := by
  obtain ⟨q', heq⟩ := h [] start q ('}' :: back) (Nat.le_refl _)
  refine ⟨q'.advance '}', ?_⟩
  simp only [List.append_nil] at heq
  rw [heq, copyCode]
  simp [CodeFrame.step, Except.map]

/-- The code of an expression is copied up to the brace behind it. -/
theorem copyCode_of_isCode {source : String} (h : Phrases.IsCode maxNesting source)
    (start q : Position) (back : List Char) :
    ∃ q', copyCode start [.braces 0] q (source.toList ++ '}' :: back) =
      .ok (source.toList, ⟨q', back⟩) :=
  copyCode_of_walks (codeWalks_of_isCode h).2 start q back

end JsonStencil
