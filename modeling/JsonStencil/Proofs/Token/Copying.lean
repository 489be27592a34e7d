import JsonStencil.Proofs.Token.Tiling
import JsonStencil.Proofs.Token.Walk
import Mathlib.Data.List.MinMax

/-!
# Copying code again

The code of a template literal is copied without being read. What reads as tokens with balanced
braces is copied whole all the same: its strings and symbols are walked as they are read, and the
code of its template literals is what was copied there before, with one more literal around it.
-/

namespace JsonStencil

namespace Lexer

namespace CodeFrame

/-- The number of template literals that are open. -/
def literals (frames : List CodeFrame) : Nat := frames.countP (· matches .text)

/-- The greatest number of template literals that are open at once along code. -/
def literalNesting (frames : List CodeFrame) : List Char → Nat
  | [] => literals frames
  | c :: cs => max (literals frames) (literalNesting (step c cs.head? frames) cs)

theorem literals_le_literalNesting (frames : List CodeFrame) (cs : List Char) :
    literals frames ≤ literalNesting frames cs := by
  cases cs with
  | nil => exact Nat.le_refl _
  | cons c cs => exact Nat.le_max_left _ _

/-- The frames of code with the template literals it stands in. -/
inductive Code : List CodeFrame → Prop
  | outermost (opened : Nat) : Code [.braces opened]
  | nested (opened : Nat) {outer : List CodeFrame} :
      Code outer → Code (.braces opened :: .text :: outer)

/-- The frames that a character is met in. -/
inductive Reached : List CodeFrame → Prop
  | code {frames : List CodeFrame} : Code frames → Reached frames
  | quote (q : Char) {frames : List CodeFrame} : Code frames → Reached (.quote q :: frames)
  | quoteEscape (q : Char) {frames : List CodeFrame} :
      Code frames → Reached (.escaped :: .quote q :: frames)
  | text {frames : List CodeFrame} : Code frames → Reached (.text :: frames)
  | textEscape {frames : List CodeFrame} : Code frames → Reached (.escaped :: .text :: frames)
  | opening {frames : List CodeFrame} : Code frames → Reached (.opening :: .text :: frames)

variable {frames outer : List CodeFrame} {c : Char} {following : Option Char}

theorem Code.nesting_eq (h : Code frames) : nesting frames = literals frames + 1 := by
  induction h with
  | outermost => rfl
  | nested opened _ ih => simpa [nesting, literals] using ih

theorem Code.inBraces (h : Code frames) : InBraces frames := by
  induction h with
  | outermost opened => exact ⟨[], opened, rfl⟩
  | nested opened _ ih =>
    obtain ⟨inner, k, rfl⟩ := ih
    exact ⟨.braces opened :: .text :: inner, k, rfl⟩

theorem Reached.inBraces (h : Reached frames) : InBraces frames := by
  have hcons {frame : CodeFrame} {frames : List CodeFrame} (h : InBraces frames) :
      InBraces (frame :: frames) := by
    obtain ⟨inner, k, rfl⟩ := h
    exact ⟨frame :: inner, k, rfl⟩
  cases h with
  | code h => exact h.inBraces
  | quote _ h | text h => exact hcons h.inBraces
  | quoteEscape _ h | textEscape h | opening h => exact hcons (hcons h.inBraces)

theorem Reached.ne_nil (h : Reached frames) : frames ≠ [] := by
  obtain ⟨inner, k, rfl⟩ := h.inBraces
  simp

theorem Reached.nesting_le (h : Reached frames) : nesting frames ≤ literals frames + 1 := by
  cases h with
  | code h => exact Nat.le_of_eq h.nesting_eq
  | quote _ h | quoteEscape _ h => simpa [nesting, literals] using Nat.le_of_eq h.nesting_eq
  | text h | textEscape h | opening h =>
    have hcode := h.nesting_eq
    simp [nesting, literals] at hcode ⊢
    omega

theorem Code.step_cases (h : Code frames) (c : Char) (following : Option Char) :
    step c following frames = [] ∧ frames = [.braces 0] ∨ Reached (step c following frames) := by
  have hbraces (opened : Nat) {outer : List CodeFrame} (hcode : ∀ k, Code (.braces k :: outer))
      (houter : outer = [] ∨ Reached outer) :
      step c following (.braces opened :: outer) = [] ∧ .braces opened :: outer = [.braces 0] ∨
        Reached (step c following (.braces opened :: outer)) := by
    simp only [step]
    split
    · split
      next hzero =>
        subst hzero
        exact houter.imp_left fun hnil => ⟨hnil, hnil ▸ rfl⟩
      next => exact .inr (.code (hcode _))
    · split
      · exact .inr (.code (hcode _))
      · split
        · exact .inr (.quote _ (hcode _))
        · split
          · exact .inr (.text (hcode _))
          · exact .inr (.code (hcode _))
  cases h with
  | outermost opened => exact hbraces opened .outermost (.inl rfl)
  | nested opened houter => exact hbraces opened (.nested · houter) (.inr (.text houter))

/-- Every step leads to frames that are met, or closes the outermost brace. -/
theorem Reached.step_cases (h : Reached frames) (c : Char) (following : Option Char) :
    step c following frames = [] ∧ frames = [.braces 0] ∨ Reached (step c following frames) := by
  cases h with
  | code h => exact h.step_cases c following
  | quote q h =>
    refine .inr ?_
    simp only [step]
    split
    · exact .quoteEscape q h
    · split
      · exact .code h
      · exact .quote q h
  | quoteEscape q h => exact .inr (.quote q h)
  | text h =>
    refine .inr ?_
    simp only [step]
    split
    · exact .textEscape h
    · split
      · exact .code h
      · split
        · exact .opening h
        · exact .text h
  | textEscape h => exact .inr (.text h)
  | opening h => exact .inr (.code (.nested 0 h))

/-- A step to braces is the same whatever follows. -/
theorem step_eq_of_braces {opened : Nat} (h : step c following frames = .braces opened :: outer)
    (following' : Option Char) : step c following' frames = .braces opened :: outer := by
  cases frames with
  | nil => cases h
  | cons frame frames =>
    cases frame with
    | text =>
      simp only [step] at h ⊢
      split at h
      · cases h
      · split at h
        next hesc hback => rw [if_neg hesc, if_pos hback, h]
        next => split at h <;> cases h
    | _ => exact h

end CodeFrame

open CodeFrame

section Copy

variable {start q : Position} {frames : List CodeFrame} {c : Char} {cs ds copied : List Char}
variable {last : Cursor}

theorem eq_of_copyCode_nil (hframes : Reached frames)
    (h : copyCode start frames q cs = .ok ([], last)) : frames = [.braces 0] := by
  cases cs with
  | nil => cases h
  | cons c cs =>
    rcases hframes.step_cases c cs.head? with ⟨-, heq⟩ | hnext
    · exact heq
    · rw [copyCode] at h
      split at h
      next hnil => exact absurd hnil hnext.ne_nil
      next =>
        split at h
        · cases h
        · obtain ⟨_, _, heq⟩ := map_cons_eq_ok_iff.1 h
          cases heq

theorem copyCode_cons (hframes : Reached frames)
    (h : copyCode start frames q cs = .ok (c :: ds, last)) :
    ∃ cs', cs = c :: cs' ∧ Reached (step c cs'.head? frames) ∧
      copyCode start (step c cs'.head? frames) (q.advance c) cs' = .ok (ds, last) := by
  cases cs with
  | nil => cases h
  | cons c' cs =>
    rw [copyCode] at h
    split at h
    next => cases h
    next hstep =>
      split at h
      · cases h
      · obtain ⟨_, hcopy, heq⟩ := map_cons_eq_ok_iff.1 h
        cases heq
        rw [← hstep] at hcopy
        rcases hframes.step_cases c cs.head? with ⟨hnil, -⟩ | hnext
        · cases hnil.symm.trans hstep
        · exact ⟨cs, rfl, hnext, hcopy⟩

end Copy

end Lexer

open Lexer CodeFrame

/-- What was copied is walked again with as much room as its template literals need. -/
theorem walks_of_copyCode {start q : Position} {frames : List CodeFrame} {cs copied : List Char}
    {last : Cursor} (hframes : Reached frames)
    (h : copyCode start frames q cs = .ok (copied, last)) {n : Nat}
    (hn : literalNesting frames copied ≤ n) : Walks (n + 1) copied frames [.braces 0] := by
  induction copied generalizing frames q cs with
  | nil =>
    rw [eq_of_copyCode_nil hframes h]
    exact .nil
  | cons c ds ih =>
    obtain ⟨cs, rfl, hnext, hcopy⟩ := copyCode_cons hframes h
    obtain ⟨hcs, -⟩ := copyCode_reads hnext.inBraces hcopy
    -- the last step goes back to the outermost brace, so it does not look at what follows
    have hstep (rest : List Char) :
        step c (ds ++ rest).head? frames = step c cs.head? frames := by
      cases ds with
      | nil =>
        have hlast := eq_of_copyCode_nil hnext hcopy
        rw [hlast, step_eq_of_braces hlast]
      | cons d ds => rw [hcs, List.cons_append, List.cons_append, List.head?_cons, List.head?_cons]
    have hself := hstep []
    rw [List.append_nil] at hself
    rw [literalNesting, hself] at hn
    have hrest : literalNesting (step c cs.head? frames) ds ≤ n :=
      Nat.le_trans (Nat.le_max_right _ _) hn
    have hroom : CodeFrame.nesting (step c cs.head? frames) ≤ n + 1 :=
      Nat.le_trans hnext.nesting_le
        (Nat.succ_le_succ (Nat.le_trans (literals_le_literalNesting _ ds) hrest))
    exact .cons hframes.ne_nil hnext.ne_nil hstep hroom (ih hnext hcopy hrest)

/-- The code stood in front of its closing brace and was copied from there. -/
def CodeText.Copied (code : CodeText) : Prop :=
  ∃ start q cs copied last, copyCode start [.braces 0] q cs = .ok (copied, last) ∧
    code.source = .ofList copied

/-- How many template literals are open in the code at once. The code need not read as tokens. -/
def CodeText.literalNesting (code : CodeText) : Nat :=
  CodeFrame.literalNesting [.braces 0] code.source.toList

/-- How deeply template literals nest in a token. -/
def Token.literalNesting : Token → Nat
  | .template chunks => (chunks.map fun
      | .text _ => 0
      | .hole code => code.literalNesting).foldr max 0 + 1
  | _ => 0

theorem CodeText.Copied.codeWalks {code : CodeText} (h : code.Copied) {d : Nat}
    (hd : code.literalNesting < d) : CodeWalks d code.source := by
  obtain ⟨start, q, cs, copied, last, hcopy, hsource⟩ := h
  obtain ⟨n, rfl⟩ := Nat.exists_eq_add_one_of_ne_zero (Nat.ne_of_gt (Nat.zero_lt_of_lt hd))
  rw [CodeText.literalNesting, hsource, String.toList_ofList] at hd
  refine ⟨Nat.succ_pos n, ?_⟩
  rw [hsource, String.toList_ofList]
  exact walks_of_copyCode (.code (.outermost 0)) hcopy (Nat.le_of_lt_succ hd)

theorem Token.literalNesting_lt {chunks : List TemplateChunk} {code : CodeText}
    (hcode : .hole code ∈ chunks) : code.literalNesting < (Token.template chunks).literalNesting :=
  Nat.lt_succ_of_le
    (List.le_max_of_le' 0 (List.mem_map.2 ⟨_, hcode, rfl⟩) (Nat.le_refl _))

section Copied

variable {cur last : Cursor} {code : CodeText}

theorem copied_of_readTemplate {start : Position} {ps : List (Char ⊕ CodeText)}
    (h : readTemplate start cur = .ok (ps, last)) (hcode : .inr code ∈ ps) : code.Copied := by
  fun_induction readTemplate start cur generalizing ps with
  | case1 => cases h
  | case2 =>
    cases h
    cases hcode
  | case3 => cases h
  | case4 _ _ _ _ _ _ ih | case7 _ _ _ _ _ _ _ ih =>
    obtain ⟨ds, hr, rfl⟩ := map_cons_eq_ok_iff.1 h
    exact ih hr (by simpa using hcode)
  | case5 => cases h
  | case6 cur cs hrest copied next hcopy ih =>
    obtain ⟨ds, hr, rfl⟩ := map_cons_eq_ok_iff.1 h
    rcases List.mem_cons.1 hcode with heq | hmem
    · cases heq
      exact ⟨_, _, _, copied, next, hcopy, rfl⟩
    · exact ih hr hmem

theorem copied_of_readToken {c : Char} {chunks : List TemplateChunk}
    (h : readToken c cur = .ok (.template chunks, last)) (hcode : .hole code ∈ chunks) :
    code.Copied := by
  generalize htoken : Token.template chunks = token at h
  cases tokenRead_of_readToken h with
  | template _ hr =>
    cases htoken
    exact copied_of_readTemplate hr ((Part.hole_mem_gather []).1 hcode)
  | string => cases htoken
  | number _ hr | fraction _ hr =>
    obtain ⟨x, rfl⟩ := eq_number_of_readNumber hr
    cases htoken
  | symbol => cases htoken
  | word => exact absurd htoken.symm (readWord_ne_template cur chunks)

theorem copied_of_readTokens {ls : List Lexeme} (h : readTokens cur = .ok ls) {l : Lexeme}
    (hl : l ∈ ls) {chunks : List TemplateChunk} (hchunks : l.token = .template chunks)
    (hcode : .hole code ∈ chunks) : code.Copied := by
  fun_induction readTokens cur generalizing ls with
  | case1 =>
    cases h
    cases hl
  | case2 _ _ _ _ _ ih => exact ih h hl
  | case3 => cases h
  | case4 cur c cs hrest hsep token next hread ih =>
    obtain ⟨ms, hms, rfl⟩ := map_eq_ok_iff.1 h
    rcases List.mem_cons.1 hl with rfl | hl
    · cases hchunks
      exact copied_of_readToken hread hcode
    · exact ih hms hl

end Copied

/-- The tokens of a source are walked in one more template literal than their code. -/
theorem codeWalks_of_tokenize {source : String} {ls : List Lexeme} (h : tokenize source = .ok ls)
    {d : Nat} (hd : ∀ l ∈ ls, l.token.literalNesting ≤ d) {chunks : List TemplateChunk}
    (hchunks : .template chunks ∈ spelling ls) {code : CodeText} (hcode : .hole code ∈ chunks) :
    CodeWalks d code.source := by
  obtain ⟨l, hl, herase⟩ := List.mem_map.1 hchunks
  cases htoken : l.token with
  | template chunks' =>
    rw [htoken] at herase
    cases herase
    obtain ⟨chunk, hmem, heq⟩ := List.mem_map.1 hcode
    cases chunk with
    | text s => cases heq
    | hole code' =>
      cases heq
      have hlt : code'.literalNesting < d :=
        Nat.lt_of_lt_of_le (htoken ▸ Token.literalNesting_lt hmem) (hd l hl)
      exact (copied_of_readTokens h hl htoken hmem).codeWalks hlt
  | _ =>
    rw [htoken] at herase
    cases herase

/-- Tokens with balanced braces are copied up to the brace behind them. -/
theorem copyCode_of_tokenize {source : String} {ls : List Lexeme} (h : tokenize source = .ok ls)
    (hbraces : openBraces? 0 (spelling ls) = some 0)
    (hnesting : ∀ l ∈ ls, l.token.literalNesting < maxNesting) (start q : Position)
    (back : List Char) :
    ∃ q', copyCode start [.braces 0] q (source.toList ++ '}' :: back) =
      .ok (source.toList, ⟨q', back⟩) := by
  have hbelow (l : Lexeme) (hl : l ∈ ls) : l.token.literalNesting ≤ maxNesting - 1 :=
    Nat.le_pred_of_lt (hnesting l hl)
  refine copyCode_of_walks (Walks.readTokens (d := maxNesting - 1) ?_ h hbraces ?_) start q back
  · exact Nat.le_refl _
  · exact fun chunks hchunks code hcode => codeWalks_of_tokenize h hbelow hchunks hcode

end JsonStencil
