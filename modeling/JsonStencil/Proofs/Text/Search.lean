import JsonStencil.Text.Search
import Mathlib.Data.List.Infix

/-!
# The leftmost occurrence

A cut is made where the delimiter first occurs, so a text is cut off by a delimiter behind it when
the delimiter occurs nowhere before, whatever follows. The parts of a text have the delimiter
between them and nowhere in them. A range of bytes between two cuts is the text between them.
-/

namespace JsonStencil

variable {delimiter front cs before after part : List Char}

theorem dropFront?_append (front rest : List Char) : dropFront? front (front ++ rest) = some rest :=
  dropFront?_eq_some_iff.2 rfl

theorem dropFront?_eq_none_iff : dropFront? front cs = none ↔ ¬ front <+: cs := by
  rw [Option.eq_none_iff_forall_ne_some]
  constructor
  · rintro h ⟨rest, hrest⟩
    exact h rest (dropFront?_eq_some_iff.2 hrest.symm)
  · intro h rest hrest
    exact h ⟨rest, (dropFront?_eq_some_iff.1 hrest).symm⟩

theorem cut?_eq_none_iff : cut? delimiter cs = none ↔ ¬ delimiter <:+: cs := by
  induction cs with
  | nil => simp [cut?, dropFront?_eq_none_iff]
  | cons c cs ih =>
    rw [cut?, List.infix_cons_iff, not_or, ← dropFront?_eq_none_iff, ← ih]
    cases dropFront? delimiter (c :: cs) <;> simp

/-- No occurrence of the delimiter is left of the cut. -/
theorem length_le_of_cut? (h : cut? delimiter cs = some (before, after)) {front back : List Char}
    (hcs : cs = front ++ delimiter ++ back) : before.length ≤ front.length := by
  induction cs generalizing before front with
  | nil =>
    have hlength := congrArg List.length (eq_append_of_cut? h)
    simp only [List.length_append, List.length_nil] at hlength
    omega
  | cons c cs ih =>
    rw [cut?] at h
    cases hfront : dropFront? delimiter (c :: cs) with
    | some rest =>
      rw [hfront] at h
      cases h
      exact Nat.zero_le _
    | none =>
      rw [hfront] at h
      obtain ⟨⟨before', after'⟩, hcut, heq⟩ := Option.map_eq_some_iff.1 h
      cases heq
      cases front with
      | nil => exact absurd ⟨back, hcs.symm⟩ (dropFront?_eq_none_iff.1 hfront)
      | cons d front =>
        have htail := (List.cons.inj hcs).2
        exact Nat.succ_le_succ (ih hcut htail)

theorem not_infix_of_cut? (hd : delimiter ≠ []) (h : cut? delimiter cs = some (before, after)) :
    ¬ delimiter <:+: before := by
  rintro ⟨front, back, hbefore⟩
  have hcs : cs = front ++ delimiter ++ (back ++ delimiter ++ after) := by
    rw [eq_append_of_cut? h, ← hbefore]
    simp only [List.append_assoc]
  have hle := length_le_of_cut? h hcs
  have hlength := congrArg List.length hbefore
  have hpos := List.length_pos_iff.2 hd
  simp only [List.length_append] at hlength
  omega

theorem cut?_of_prefix (h : delimiter <+: cs) : ∃ after, cut? delimiter cs = some ([], after) := by
  obtain ⟨rest, rfl⟩ := h
  cases hcut : cut? delimiter (delimiter ++ rest) with
  | none => exact absurd (List.infix_append' [] delimiter rest) (cut?_eq_none_iff.1 hcut)
  | some found =>
    obtain ⟨before, after⟩ := found
    have hle : before.length ≤ ([] : List Char).length := length_le_of_cut? hcut rfl
    exact ⟨after, by rw [List.length_eq_zero_iff.1 (Nat.le_zero.1 hle)]⟩

section SplitOn

theorem splitOn_of_cut?_eq_none (h : cut? delimiter cs = none) : splitOn delimiter cs = [cs] := by
  rw [splitOn]
  split
  next => rfl
  next =>
    split
    next => rfl
    next hcut => cases h.symm.trans hcut

theorem splitOn_of_cut? (hd : delimiter ≠ []) (h : cut? delimiter cs = some (before, after)) :
    splitOn delimiter cs = before :: splitOn delimiter after := by
  rw [splitOn, dif_neg hd]
  split
  next hcut => cases hcut.symm.trans h
  next hcut =>
    cases hcut.symm.trans h
    rfl

theorem splitOn_ne_nil (delimiter cs : List Char) : splitOn delimiter cs ≠ [] := by
  rw [splitOn]
  repeat' split
  all_goals exact List.cons_ne_nil _ _

theorem intercalate_splitOn (delimiter cs : List Char) :
    delimiter.intercalate (splitOn delimiter cs) = cs := by
  fun_induction splitOn delimiter cs with
  | case1 => exact List.intercalate_singleton
  | case2 => exact List.intercalate_singleton
  | case3 cs hd before after hcut ih =>
    rw [List.intercalate_cons_of_ne_nil (splitOn_ne_nil _ _), ih, eq_append_of_cut? hcut]

theorem not_infix_of_mem_splitOn (hd : delimiter ≠ []) (h : part ∈ splitOn delimiter cs) :
    ¬ delimiter <:+: part := by
  fun_induction splitOn delimiter cs with
  | case1 cs hnil => exact absurd hnil hd
  | case2 cs _ hcut =>
    rw [List.mem_singleton.1 h]
    exact cut?_eq_none_iff.1 hcut
  | case3 cs _ before after hcut ih =>
    rcases List.mem_cons.1 h with rfl | h
    · exact not_infix_of_cut? hd hcut
    · exact ih h

end SplitOn

/-- A delimiter put behind the text occurs nowhere before. -/
def Closes (delimiter cs : List Char) : Prop :=
  ∀ front back, cs ++ delimiter = front ++ delimiter ++ back → cs.length ≤ front.length

theorem closes_of_cut? (h : cut? delimiter cs = some (before, after)) :
    Closes delimiter before := by
  intro front back hfront
  have hcs : cs = front ++ delimiter ++ (back ++ after) := by
    rw [eq_append_of_cut? h, hfront, List.append_assoc]
  exact length_le_of_cut? h hcs

theorem Closes.cut?_eq (h : Closes delimiter cs) (after : List Char) :
    cut? delimiter (cs ++ delimiter ++ after) = some (cs, after) := by
  cases hcut : cut? delimiter (cs ++ delimiter ++ after) with
  | none => exact absurd ⟨cs, after, rfl⟩ (cut?_eq_none_iff.1 hcut)
  | some found =>
    obtain ⟨before, rest⟩ := found
    have happend := eq_append_of_cut? hcut
    have hle : before.length ≤ cs.length := length_le_of_cut? hcut rfl
    -- the occurrence that was found ends no later than the one behind the text
    have hprefix : before ++ delimiter <+: cs ++ delimiter := by
      refine List.prefix_of_prefix_length_le ⟨rest, happend.symm⟩ ⟨after, rfl⟩ ?_
      simpa using hle
    obtain ⟨back, hback⟩ := hprefix
    have hlength : cs.length ≤ before.length := h before back hback.symm
    rw [List.append_assoc, List.append_assoc] at happend
    obtain ⟨rfl, hrest⟩ := List.append_inj happend (Nat.le_antisymm hlength hle)
    rw [List.append_cancel_left hrest]

instance (delimiter cs : List Char) : Decidable (Closes delimiter cs) :=
  decidable_of_iff (cut? delimiter (cs ++ delimiter) = some (cs, []))
    ⟨closes_of_cut?, fun h => by simpa using h.cut?_eq []⟩

theorem eq_nil_of_byteLength (h : byteLength cs = 0) : cs = [] := by
  cases cs with
  | nil => rfl
  | cons c cs =>
    have hpos := c.utf8Size_pos
    rw [byteLength_cons] at h
    omega

theorem splitBytes?_append (front back : List Char) :
    splitBytes? (byteLength front) (front ++ back) = some (front, back) := by
  induction front with
  | nil => cases back <;> rfl
  | cons c front ih =>
    have hpos := c.utf8Size_pos
    rw [List.cons_append, splitBytes?, byteLength_cons, if_neg (by omega), if_neg (by omega),
      Nat.add_sub_cancel_left, ih]
    rfl

theorem byteRange?_append (front middle back : List Char) :
    byteRange? (byteLength front) (byteLength front + byteLength middle) (front ++ middle ++ back) =
      some middle := by
  rw [byteRange?, if_neg (by omega), List.append_assoc, splitBytes?_append]
  dsimp only
  rw [Nat.add_sub_cancel_left, splitBytes?_append]
  rfl

end JsonStencil
