import JsonStencil.Proofs.Token.Tiling

/-!
# Tokens laid out in a text

The tokens of a text stand in it one behind the other. The tokens of the code in a template literal
stand in the text of the literal once they are moved there.
-/

namespace JsonStencil

/-- The token has the span of some characters of the text, and its code has a span among them. -/
structure Lexeme.At (cs : List Char) (i j : Nat) (l : Lexeme) : Prop where
  lt : i < j
  span_eq : l.span = .slice cs i j
  holes : ∀ chunks code, l.token = .template chunks → .hole code ∈ chunks →
    ∃ a b, i ≤ a ∧ a ≤ b ∧ b ≤ j ∧ code.span = .slice cs a b ∧
      code.source.toList = (cs.drop a).take (b - a)

/-- The tokens stand in the text between two places. -/
inductive LaidOut (cs : List Char) (hi : Nat) : Nat → List Lexeme → Prop
  | nil {lo : Nat} : lo ≤ hi → LaidOut cs hi lo []
  | cons {lo i j : Nat} {l : Lexeme} {ls : List Lexeme} :
      lo ≤ i → l.At cs i j → LaidOut cs hi j ls → LaidOut cs hi lo (l :: ls)

namespace LaidOut

variable {cs : List Char} {lo hi : Nat} {ls : List Lexeme}

theorem le (h : LaidOut cs hi lo ls) : lo ≤ hi := by
  induction h with
  | nil hle => exact hle
  | cons hlo hl _ ih => exact Nat.le_trans hlo (Nat.le_trans (Nat.le_of_lt hl.lt) ih)

theorem of_le (h : LaidOut cs hi lo ls) {hi' : Nat} (hle : hi ≤ hi') : LaidOut cs hi' lo ls := by
  induction h with
  | nil hlo => exact .nil (Nat.le_trans hlo hle)
  | cons hlo hl _ ih => exact .cons hlo hl ih

theorem of_ge (h : LaidOut cs hi lo ls) {lo' : Nat} (hle : lo' ≤ lo) : LaidOut cs hi lo' ls := by
  cases h with
  | nil hlo => exact .nil (Nat.le_trans hle hlo)
  | cons hlo hl hls => exact .cons (Nat.le_trans hle hlo) hl hls

theorem uncons {l : Lexeme} (h : LaidOut cs hi lo (l :: ls)) :
    ∃ i j, lo ≤ i ∧ l.At cs i j ∧ LaidOut cs hi j ls := by
  cases h with
  | cons hlo hl hls => exact ⟨_, _, hlo, hl, hls⟩

end LaidOut

theorem Lexeme.Covers.at {before text : List Char} {l : Lexeme} (h : l.Covers before text)
    (back : List Char) :
    l.At (before ++ text ++ back) before.length (before.length + text.length) := by
  refine ⟨?_, ?_, fun chunks code htoken hcode => ?_⟩
  · exact Nat.lt_add_of_pos_right (List.length_pos_iff.2 h.ne_nil)
  · rw [h.span_eq, Span.behind_eq_slice]
  · obtain ⟨front, back', rfl, hspan⟩ := h.holes chunks code htoken hcode
    have hwhole : before ++ (front ++ '$' :: '{' :: (code.source.toList ++ '}' :: back')) ++ back =
        before ++ front ++ ['$', '{'] ++ code.source.toList ++ ('}' :: back' ++ back) := by simp
    have hlength : (before ++ front ++ ['$', '{']).length = before.length + front.length + 2 := by
      simp [Nat.add_assoc]
    refine ⟨before.length + front.length + 2,
      before.length + front.length + 2 + code.source.toList.length, ?_, ?_, ?_, ?_, ?_⟩
    · omega
    · omega
    · simp only [List.length_append, List.length_cons]
      omega
    · rw [hwhole, ← hlength, hspan, Span.behind_eq_slice]
    · rw [hwhole, ← hlength, Nat.add_sub_cancel_left, List.append_assoc _ code.source.toList,
        List.drop_left, List.take_left]

namespace LaidOut

variable {cs : List Char} {lo hi : Nat} {ls : List Lexeme}

theorem of_tiles {before whole : List Char} (h : Tiles before cs ls)
    (hwhole : whole = before ++ cs) : LaidOut whole whole.length before.length ls := by
  induction h with
  | nil before => exact .nil (by simp [hwhole])
  | @blank before cs c ls _ _ ih =>
    have hrest := ih (by rw [hwhole]; simp)
    exact hrest.of_ge (by simp)
  | @token before text cs l ls hcovers _ ih =>
    have hwhole' : whole = before ++ text ++ cs := by rw [hwhole, List.append_assoc]
    have hrest := ih hwhole'
    rw [List.length_append] at hrest
    exact .cons (Nat.le_refl _) (hwhole' ▸ hcovers.at cs) hrest

theorem of_tokenize {source : String} (h : tokenize source = .ok ls) :
    LaidOut source.toList source.toList.length 0 ls :=
  of_tiles (tiles_of_tokenize h) rfl

end LaidOut

theorem exists_of_hole_mem_relocate {base : Span} {t : Token} {chunks : List TemplateChunk}
    {code : CodeText} (ht : t.relocate base = .template chunks) (hcode : .hole code ∈ chunks) :
    ∃ chunks' code', t = .template chunks' ∧ .hole code' ∈ chunks' ∧
      code = code'.relocate base := by
  cases t with
  | template chunks' =>
    cases ht
    obtain ⟨chunk, hmem, heq⟩ := List.mem_map.1 hcode
    cases chunk with
    | text s => cases heq
    | hole code' =>
      cases heq
      exact ⟨chunks', code', rfl, hmem, rfl⟩
  | _ => cases ht

/-- A token of a part of a text is one of the text, once it is moved to the part. -/
theorem Lexeme.At.relocate {cs : List Char} {a b i j : Nat} {l : Lexeme}
    (h : l.At ((cs.drop a).take (b - a)) i j) (hj : j ≤ b - a) :
    (l.relocate (.slice cs a b)).At cs (a + i) (a + j) := by
  have hlt := h.lt
  refine ⟨by omega, ?_, fun chunks code htoken hcode => ?_⟩
  · show l.span.relocate _ = _
    rw [h.span_eq, Span.relocate_slice (by omega) hj]
  · obtain ⟨chunks', code', htoken', hcode', rfl⟩ := exists_of_hole_mem_relocate htoken hcode
    obtain ⟨a', b', hia, hab, hbj, hspan, hsource⟩ := h.holes chunks' code' htoken' hcode'
    refine ⟨a + a', a + b', by omega, by omega, by omega, ?_, ?_⟩
    · show code'.span.relocate _ = _
      rw [hspan, Span.relocate_slice (by omega) (by omega)]
    · show code'.source.toList = _
      rw [hsource, List.drop_take, List.take_take, List.drop_drop, Nat.add_sub_add_left,
        Nat.min_eq_left (by omega)]

theorem LaidOut.relocate {cs : List Char} {a b lo hi : Nat} {ls : List Lexeme}
    (h : LaidOut ((cs.drop a).take (b - a)) hi lo ls) (hhi : hi ≤ b - a) :
    LaidOut cs (a + hi) (a + lo) (ls.map (·.relocate (.slice cs a b))) := by
  induction h with
  | nil hle => exact .nil (by omega)
  | cons hlo hl hls ih =>
    have hle := hls.le
    exact .cons (by omega) (hl.relocate (by omega)) ih

/-- The tokens of code stand where its span tells. -/
theorem LaidOut.of_code {cs : List Char} {a b : Nat} {code : CodeText} {ls : List Lexeme}
    (hab : a ≤ b) (hspan : code.span = .slice cs a b)
    (hsource : code.source.toList = (cs.drop a).take (b - a)) (h : tokenize code.source = .ok ls) :
    LaidOut cs b a (ls.map (·.relocate code.span)) := by
  have hlength : ((cs.drop a).take (b - a)).length ≤ b - a := by
    rw [List.length_take]
    exact Nat.min_le_left _ _
  have hcode := of_tokenize h
  rw [hsource] at hcode
  rw [hspan]
  exact (hcode.relocate hlength).of_le (by omega)

end JsonStencil
