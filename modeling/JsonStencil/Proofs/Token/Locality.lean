import JsonStencil.Token.Lexer

/-!
# The text a reader takes

An escape, a quoted text, the code of a template literal and the literal itself are each read from
a front of the text that decides what is read: from the same front the same is read, wherever it
stands and whatever follows it.
-/

namespace JsonStencil

namespace Lexer

theorem rest_skip_one {cur : Cursor} {c : Char} {cs : List Char} (h : cur.rest = c :: cs) :
    (cur.skip 1).rest = cs := by
  simp [Cursor.skip, h]

theorem map_cons_eq_ok_iff {ε α β : Type} {x : Except ε (List α × β)} {a : α} {as : List α}
    {b : β} : (x.map fun (as, b) => (a :: as, b)) = .ok (as, b) ↔
      ∃ tail, x = .ok (tail, b) ∧ a :: tail = as := by
  rw [map_eq_ok_iff]
  constructor
  · rintro ⟨⟨tail, b'⟩, rfl, heq⟩
    cases heq
    exact ⟨tail, rfl, rfl⟩
  · rintro ⟨tail, rfl, rfl⟩
    exact ⟨_, rfl, rfl⟩

theorem skip_append {p : Position} {used : List Char} {n : Nat} (hn : used.length = n)
    (more : List Char) : Cursor.skip n ⟨p, used ++ more⟩ = ⟨p.after used, more⟩ := by
  simp [Cursor.skip, ← hn]

/-- From this front the reader always reads the same, but for the place of it. -/
def Reads {α : Type} (read : Cursor → Except LexicalError (α × Cursor)) (used : List Char)
    (result : Position → α) : Prop :=
  ∀ p more, read ⟨p, used ++ more⟩ = .ok (result p, ⟨p.after used, more⟩)

theorem Reads.eq_of_eq_ok {α : Type} {read : Cursor → Except LexicalError (α × Cursor)}
    {used : List Char} {result : Position → α} {cur last : Cursor} {a : α}
    (h : Reads read used result) (hrest : cur.rest = used ++ last.rest)
    (hread : read cur = .ok (a, last)) :
    a = result cur.position ∧ last.position = cur.position.after used := by
  obtain ⟨p, cs⟩ := cur
  dsimp only at hrest
  rw [hrest, h] at hread
  obtain ⟨ha, hlast⟩ := Prod.mk.inj (Except.ok.inj hread)
  exact ⟨ha.symm, (congrArg Cursor.position hlast).symm⟩

variable {cur last : Cursor}

theorem readEscape_reads {c : Char} {next : Cursor} (h : readEscape cur = .ok (c, next))
    (hnext : next.rest ≠ []) :
    ∃ used, cur.rest = used ++ next.rest ∧ Reads readEscape used fun _ => c := by
  rcases readEscape_cases h with
    ⟨cs, hrest, hc, rfl⟩ | ⟨cs, hrest, hbrace, hc, rfl⟩ | ⟨d, cs, hrest, hd, hc, rfl⟩
  · have hhead := List.head?_dropWhile_not (· ≠ '}') cs
    have hsplit := List.takeWhile_append_dropWhile (p := (· ≠ '}')) (l := cs)
    have hall := List.all_takeWhile (p := (· ≠ '}')) (l := cs)
    generalize cs.takeWhile (· ≠ '}') = hex at *
    generalize cs.dropWhile (· ≠ '}') = back at *
    subst hsplit
    have hskip : (cur.skip (hex.length + 3)).rest = back.drop 1 := by
      simp [Cursor.skip, hrest, List.drop_append]
    cases back with
    | nil => exact absurd hskip hnext
    | cons d back =>
      have hd : d = '}' := by simpa using hhead
      subst hd
      refine ⟨'u' :: '{' :: (hex ++ ['}']), ?_, fun p more => ?_⟩
      · rw [hrest, hskip]
        simp
      · have hwhile : (hex ++ '}' :: more).takeWhile (· ≠ '}') = hex := by
          rw [List.takeWhile_append_of_pos (List.all_eq_true.1 hall)]
          simp
        have hcur : Cursor.rest ⟨p, 'u' :: '{' :: (hex ++ ['}']) ++ more⟩ =
            'u' :: '{' :: (hex ++ '}' :: more) := by simp
        rw [readEscape_braces hcur (hwhile.symm ▸ hc), hwhile, skip_append (by simp)]
  · have hlen : 4 < cs.length := by
      have hpos := List.length_pos_iff.2 hnext
      rw [Cursor.length_rest_skip, hrest, List.length_cons] at hpos
      omega
    refine ⟨'u' :: cs.take 4, ?_, fun p more => ?_⟩
    · simp [Cursor.skip, hrest]
    · have htake : (cs.take 4 ++ more).take 4 = cs.take 4 := by
        rw [List.take_append_of_le_length (by simp; omega), List.take_take, Nat.min_self]
      have hhead : (cs.take 4 ++ more).head? ≠ some '{' := by
        cases cs with
        | nil => cases hlen
        | cons d cs => exact hbrace
      have hcur : Cursor.rest ⟨p, 'u' :: cs.take 4 ++ more⟩ = 'u' :: (cs.take 4 ++ more) := rfl
      have hused : ('u' :: cs.take 4).length = 5 := by simp; omega
      rw [readEscape_digits hcur hhead (htake.symm ▸ hc), skip_append hused]
  · refine ⟨[d], by simp [Cursor.skip, hrest], fun p more => ?_⟩
    have hcur : Cursor.rest ⟨p, [d] ++ more⟩ = d :: more := rfl
    rw [readEscape_char hcur hd hc]
    rfl

theorem readString_nil {quote : Char} {start : Position} (h : cur.rest = []) :
    readString quote start cur = fail .unterminatedString start cur := by
  rw [readString]
  split
  next => rfl
  next heq => simp [h] at heq

theorem readString_cons {quote c : Char} {start : Position} {cs : List Char}
    (h : cur.rest = c :: cs) :
    readString quote start cur =
      if c = quote then .ok ([], cur.skip 1)
      else if c = '\\' then do
        let (c, next) ← readEscape (cur.skip 1)
        (readString quote start next).map fun (cs, last) => (c :: cs, last)
      else (readString quote start (cur.skip 1)).map fun (cs, last) => (c :: cs, last) := by
  rw [readString]
  split
  next heq => simp [h] at heq
  next heq =>
    rw [h] at heq
    cases heq
    split
    · rfl
    · split
      · split
        next hesc => rw [hesc]; rfl
        next hesc => rw [hesc]; rfl
      · rfl

theorem readString_reads {quote : Char} {start : Position} {s : List Char}
    (h : readString quote start cur = .ok (s, last)) :
    ∃ used, cur.rest = used ++ last.rest ∧
      ∀ start', Reads (readString quote start') used fun _ => s := by
  fun_induction readString quote start cur generalizing s with
  | case1 => cases h
  | case2 cur cs hrest =>
    cases h
    refine ⟨[quote], by simp [Cursor.skip, hrest], fun start' p more => ?_⟩
    rw [List.singleton_append, readString_cons rfl, if_pos rfl]
    rfl
  | case3 => cases h
  | case4 cur cs c next hesc hrest hquote ih =>
    obtain ⟨ds, hr, rfl⟩ := map_cons_eq_ok_iff.1 h
    -- an escape at the end of the text might go on, but there the closing quote is missing
    have hnext : next.rest ≠ [] := fun hnil => by
      rw [readString_nil hnil] at hr
      cases hr
    obtain ⟨front, hfront, hescape⟩ := readEscape_reads hesc hnext
    obtain ⟨used, hused, hreads⟩ := ih hr
    refine ⟨'\\' :: (front ++ used), ?_, fun start' p more => ?_⟩
    · rw [rest_skip_one hrest, hused] at hfront
      rw [hrest, hfront]
      simp
    · rw [List.cons_append, List.append_assoc, readString_cons rfl, if_neg hquote, if_pos rfl]
      show (readEscape ⟨p.advance '\\', front ++ (used ++ more)⟩ >>= _) = _
      rw [hescape, ok_bind]
      dsimp only
      rw [hreads, ← Position.after_append]
      rfl
  | case5 cur c cs hrest hquote hesc ih =>
    obtain ⟨ds, hr, rfl⟩ := map_cons_eq_ok_iff.1 h
    obtain ⟨used, hused, hreads⟩ := ih hr
    refine ⟨c :: used, ?_, fun start' p more => ?_⟩
    · rw [rest_skip_one hrest] at hused
      rw [hrest, hused]
      rfl
    · rw [List.cons_append, readString_cons rfl, if_neg hquote, if_neg hesc]
      show Except.map _ (readString quote start' ⟨p.advance c, used ++ more⟩) = _
      rw [hreads]
      rfl

/-- A step does not look below the frames it works in. -/
theorem step_append {c : Char} {following : Option Char} {top : List CodeFrame} (h : top ≠ [])
    (outer : List CodeFrame) :
    CodeFrame.step c following (top ++ outer) = CodeFrame.step c following top ++ outer := by
  cases top with
  | nil => exact absurd rfl h
  | cons frame top =>
    cases frame <;> simp only [CodeFrame.step, List.cons_append] <;> (repeat' split) <;> rfl

/-- The frames of code that a brace closes. -/
def InBraces (frames : List CodeFrame) : Prop :=
  ∃ inner opened, frames = inner ++ [.braces opened]

theorem step_braces (c : Char) (following : Option Char) (opened : Nat) :
    (c = '}' ∧ ∀ following', CodeFrame.step c following' [.braces opened] = []) ∨
      InBraces (CodeFrame.step c following [.braces opened]) := by
  by_cases hclose : c = '}'
  · cases opened with
    | zero => exact .inl ⟨hclose, fun _ => by simp [CodeFrame.step, hclose]⟩
    | succ opened => exact .inr ⟨[], opened, by simp [CodeFrame.step, hclose]⟩
  · refine .inr ?_
    simp only [CodeFrame.step, if_neg hclose]
    split
    · exact ⟨[], _, rfl⟩
    · split
      · exact ⟨[_], _, rfl⟩
      · split
        · exact ⟨[_], _, rfl⟩
        · exact ⟨[], _, rfl⟩

theorem InBraces.step {frames : List CodeFrame} (h : InBraces frames) (c : Char)
    (following : Option Char) :
    (c = '}' ∧ ∀ following', CodeFrame.step c following' frames = []) ∨
      InBraces (CodeFrame.step c following frames) := by
  obtain ⟨inner, opened, rfl⟩ := h
  cases inner with
  | nil => exact step_braces c following opened
  | cons frame inner =>
    rw [step_append (List.cons_ne_nil frame inner)]
    exact .inr ⟨_, _, rfl⟩

/-- The code in braces is copied as it stands, up to the brace that closes it. -/
theorem copyCode_reads {start position : Position} {frames : List CodeFrame}
    {cs copied : List Char} (hframes : InBraces frames)
    (h : copyCode start frames position cs = .ok (copied, last)) :
    cs = copied ++ '}' :: last.rest ∧ ∀ start',
      Reads (fun cur => copyCode start' frames cur.position cur.rest) (copied ++ ['}'])
        fun _ => copied := by
  induction cs generalizing frames position copied with
  | nil => cases h
  | cons c cs ih =>
    rw [copyCode] at h
    rcases hframes.step c cs.head? with ⟨rfl, hclose⟩ | hinner
    · rw [hclose] at h
      cases h
      refine ⟨rfl, fun start' p more => ?_⟩
      show copyCode start' frames p ('}' :: more) = _
      rw [copyCode, hclose]
      rfl
    · obtain ⟨inner, opened, hstep⟩ := hinner
      obtain ⟨frame, outer, hne⟩ : ∃ frame outer, inner ++ [.braces opened] = frame :: outer :=
        List.exists_cons_of_ne_nil (by simp)
      rw [hstep, hne] at h
      dsimp only at h
      split at h
      · cases h
      next hdeep =>
        obtain ⟨ds, hr, rfl⟩ := map_cons_eq_ok_iff.1 h
        obtain ⟨rfl, hreads⟩ := ih (hne ▸ ⟨inner, opened, rfl⟩) hr
        refine ⟨rfl, fun start' p more => ?_⟩
        have hhead : (ds ++ ['}'] ++ more).head? = (ds ++ '}' :: last.rest).head? := by
          cases ds <;> rfl
        show copyCode start' frames p (c :: (ds ++ ['}'] ++ more)) = _
        rw [copyCode, hhead, hstep, hne]
        dsimp only
        rw [if_neg hdeep]
        have hrest := hreads start' (p.advance c) more
        dsimp only at hrest
        rw [hrest]
        rfl

theorem readTemplate_nil {start : Position} (h : cur.rest = []) :
    readTemplate start cur = fail .unterminatedTemplate start cur := by
  rw [readTemplate]
  split
  next => rfl
  all_goals next heq => simp [h] at heq

theorem readTemplate_backtick {start : Position} {cs : List Char} (h : cur.rest = '\x60' :: cs) :
    readTemplate start cur = .ok ([], cur.skip 1) := by
  rw [readTemplate]
  split
  next heq => simp [h] at heq
  next => rfl
  next heq => simp [h] at heq
  next heq => simp [h] at heq
  next hne _ _ heq =>
    rw [h] at heq
    cases heq
    exact (hne rfl).elim

theorem readTemplate_escape {start : Position} {cs : List Char} (h : cur.rest = '\\' :: cs) :
    readTemplate start cur = (do
      let (c, next) ← readEscape (cur.skip 1)
      (readTemplate start next).map fun (ps, last) => (.inl c :: ps, last)) := by
  rw [readTemplate]
  split
  next heq => simp [h] at heq
  next heq => simp [h] at heq
  next =>
    split
    next hesc => rw [hesc]; rfl
    next hesc => rw [hesc]; rfl
  next heq => simp [h] at heq
  next _ hne _ heq =>
    rw [h] at heq
    cases heq
    exact (hne rfl).elim

theorem readTemplate_code {start : Position} {cs : List Char} (h : cur.rest = '$' :: '{' :: cs) :
    readTemplate start cur = (do
      let (copied, next) ← copyCode start [.braces 0] (cur.skip 2).position cs
      (readTemplate start next).map fun (ps, last) =>
        (.inr (codeAt (cur.skip 2).position copied) :: ps, last)) := by
  rw [readTemplate]
  split
  next heq => simp [h] at heq
  next heq => simp [h] at heq
  next heq => simp [h] at heq
  next heq =>
    rw [h] at heq
    cases heq
    split
    next hcode => rw [hcode]; rfl
    next hcode => rw [hcode]; rfl
  next hne heq =>
    rw [h] at heq
    cases heq
    exact (hne _ rfl rfl).elim

theorem readTemplate_char {start : Position} {c : Char} {cs : List Char} (h : cur.rest = c :: cs)
    (hback : c ≠ '\x60') (hesc : c ≠ '\\') (hcode : ∀ ds, c = '$' → cs ≠ '{' :: ds) :
    readTemplate start cur =
      (readTemplate start (cur.skip 1)).map fun (ps, last) => (.inl c :: ps, last) := by
  rw [readTemplate]
  split
  next heq => simp [h] at heq
  next heq =>
    rw [h] at heq
    cases heq
    exact absurd rfl hback
  next heq =>
    rw [h] at heq
    cases heq
    exact absurd rfl hesc
  next heq =>
    rw [h] at heq
    cases heq
    exact absurd rfl (hcode _ rfl)
  next heq =>
    rw [h] at heq
    cases heq
    rfl

/-- A character of a template literal, or code in it behind the text in front of it. -/
abbrev Piece := Char ⊕ (List Char × List Char)

namespace Piece

def place (p : Position) : Piece → Char ⊕ CodeText :=
  Sum.map id fun hole => codeAt (p.after hole.1) hole.2

/-- The piece with more text in front. -/
def after (front : List Char) : Piece → Piece := Sum.map id fun hole => (front ++ hole.1, hole.2)

theorem place_after (p : Position) (front : List Char) (x : Piece) :
    (x.after front).place p = x.place (p.after front) := by
  cases x with
  | inl c => rfl
  | inr hole => simp [after, place, Position.after_append]

theorem map_place_after (p : Position) (front : List Char) (pieces : List Piece) :
    (pieces.map (after front)).map (place p) = pieces.map (place (p.after front)) := by
  simp [place_after]

/-- Code stands in the text between a dollar sign with a brace and the closing brace. -/
def Within (text : List Char) (x : Piece) : Prop :=
  ∀ front code, x = .inr (front, code) →
    ∃ before back, front = before ++ ['$', '{'] ∧ text = front ++ code ++ '}' :: back

theorem within_char (text : List Char) (c : Char) : Within text (.inl c) := nofun

theorem Within.after {text : List Char} {x : Piece} (h : Within text x) (front : List Char) :
    Within (front ++ text) (x.after front) := by
  cases x with
  | inl c => nofun
  | inr hole =>
    obtain ⟨inner, code⟩ := hole
    rintro _ _ ⟨⟩
    obtain ⟨before, back, rfl, rfl⟩ := h inner code rfl
    exact ⟨front ++ before, back, by simp, by simp⟩

theorem forall_within_after {text : List Char} {pieces : List Piece}
    (h : ∀ x ∈ pieces, x.Within text) (front : List Char) :
    ∀ x ∈ pieces.map (Piece.after front), x.Within (front ++ text) := by
  intro x hx
  obtain ⟨y, hy, rfl⟩ := List.mem_map.1 hx
  exact (h y hy).after front

end Piece

theorem readTemplate_reads {start : Position} {ps : List (Char ⊕ CodeText)}
    (h : readTemplate start cur = .ok (ps, last)) :
    ∃ (used : List Char) (pieces : List Piece), used ≠ [] ∧ cur.rest = used ++ last.rest ∧
      (∀ x ∈ pieces, x.Within used) ∧
      ∀ start', Reads (readTemplate start') used fun p => pieces.map (Piece.place p) := by
  fun_induction readTemplate start cur generalizing ps with
  | case1 => cases h
  | case2 cur cs hrest =>
    cases h
    have hnone : ∀ x ∈ ([] : List Piece), x.Within ['\x60'] := fun _ hx => by cases hx
    refine ⟨['\x60'], [], by simp, by simp [Cursor.skip, hrest], hnone, fun start' p more => ?_⟩
    rw [List.singleton_append, readTemplate_backtick rfl]
    rfl
  | case3 => cases h
  | case4 cur cs hrest c next hesc ih =>
    obtain ⟨ds, hr, rfl⟩ := map_cons_eq_ok_iff.1 h
    have hnext : next.rest ≠ [] := fun hnil => by
      rw [readTemplate_nil hnil] at hr
      cases hr
    obtain ⟨front, hfront, hescape⟩ := readEscape_reads hesc hnext
    obtain ⟨used, pieces, -, hused, hwithin, hreads⟩ := ih hr
    refine ⟨'\\' :: front ++ used, .inl c :: pieces.map (Piece.after ('\\' :: front)), by simp, ?_,
      List.forall_mem_cons.2 ⟨Piece.within_char _ c, Piece.forall_within_after hwithin _⟩,
      fun start' p more => ?_⟩
    · rw [rest_skip_one hrest, hused] at hfront
      rw [hrest, hfront]
      simp
    · rw [List.append_assoc, List.cons_append, readTemplate_escape rfl]
      show (readEscape ⟨p.advance '\\', front ++ (used ++ more)⟩ >>= _) = _
      rw [hescape, ok_bind]
      dsimp only
      rw [hreads, List.map_cons, Piece.map_place_after, Position.after_append]
      rfl
  | case5 => cases h
  | case6 cur cs hrest copied next hcode ih =>
    obtain ⟨ds, hr, rfl⟩ := map_cons_eq_ok_iff.1 h
    have hframes : InBraces [.braces 0] := ⟨[], 0, rfl⟩
    obtain ⟨hcs, hcopy⟩ := copyCode_reads hframes hcode
    obtain ⟨used, pieces, -, hused, hwithin, hreads⟩ := ih hr
    have hfirst : Piece.Within ('$' :: '{' :: (copied ++ ['}']) ++ used)
        (.inr (['$', '{'], copied)) := by
      rintro _ _ ⟨⟩
      exact ⟨[], used, rfl, by simp⟩
    refine ⟨'$' :: '{' :: (copied ++ ['}']) ++ used,
      .inr (['$', '{'], copied) :: pieces.map (Piece.after ('$' :: '{' :: (copied ++ ['}']))),
      by simp, ?_, List.forall_mem_cons.2 ⟨hfirst, Piece.forall_within_after hwithin _⟩,
      fun start' p more => ?_⟩
    · rw [hrest, hcs, hused]
      simp
    · rw [List.append_assoc, List.cons_append, List.cons_append, readTemplate_code rfl]
      have hcopy' := hcopy start' ((p.advance '$').advance '{') (used ++ more)
      dsimp only at hcopy'
      show (copyCode start' [.braces 0] ((p.advance '$').advance '{')
        (copied ++ ['}'] ++ (used ++ more)) >>= _) = _
      rw [hcopy', ok_bind]
      dsimp only
      rw [hreads, List.map_cons, Piece.map_place_after,
        Position.after_append p ('$' :: '{' :: (copied ++ ['}']))]
      rfl
  | case7 cur c cs hback hesc hcode hrest ih =>
    obtain ⟨ds, hr, rfl⟩ := map_cons_eq_ok_iff.1 h
    obtain ⟨used, pieces, hne, hused, hwithin, hreads⟩ := ih hr
    rw [rest_skip_one hrest] at hused
    refine ⟨[c] ++ used, .inl c :: pieces.map (Piece.after [c]), by simp,
      by rw [hrest, hused]; rfl,
      List.forall_mem_cons.2 ⟨Piece.within_char _ c, Piece.forall_within_after hwithin _⟩,
      fun start' p more => ?_⟩
    have hcode' : ∀ es, c = '$' → used ++ more ≠ '{' :: es := by
      intro es hc heq
      cases used with
      | nil => exact hne rfl
      | cons d used =>
        cases heq
        exact hcode _ hc hused
    rw [List.append_assoc, List.singleton_append, readTemplate_char rfl hback hesc hcode']
    show Except.map _ (readTemplate start' ⟨p.advance c, used ++ more⟩) = _
    dsimp only
    rw [hreads, List.map_cons, Piece.map_place_after, Position.after_append p [c]]
    rfl

end Lexer

end JsonStencil
