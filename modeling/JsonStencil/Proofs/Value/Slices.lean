import JsonStencil.Proofs.Value.Indexing
import JsonStencil.Value.Methods

/-!
# Slices of arrays

The bounds of a slice are positions of the array, whatever the arguments are. A slice up to a bound
and the slice from it on are the array, and so are three slices at two bounds in order.
-/

namespace JsonStencil

attribute [local instance (high)] instPowNat

namespace Binary64

variable {x : Binary64} {n : Nat}

theorem toIndex_of_point? (hn : n < 2 ^ precision) (h : x.point? = some (.inr (n * one : Nat))) :
    x.toIndex = n := by
  have hposition := (Value.position?_eq_some_iff hn).2 h
  rw [Value.position?, Option.ite_none_right_eq_some] at hposition
  exact Option.some.inj hposition.2

theorem isLt_zero_of_point?_neg (hn : 0 < n) (h : (-x).point? = some (.inr (n * one : Nat))) :
    x.isLt (.zero false) := by
  cases x with
  | nan => cases h
  | infinity negative => cases h
  | finite negative quanta hq =>
    obtain ⟨hunits, hsign⟩ := point?_finite_iff.1 h
    have hpos := Nat.mul_pos hn one_pos
    refine isLt_zero_iff.2 ⟨?_, by omega⟩
    simpa using hsign.resolve_right (Nat.ne_of_gt hn)

end Binary64

namespace Value

open Binary64

section SliceBound

variable {length default n : Nat} {v : Value}

theorem sliceBound_le (h : default ≤ length) (arg : Option Value) :
    sliceBound length default arg ≤ length := by
  cases arg with
  | none => exact h
  | some v =>
    rw [sliceBound]
    split
    · exact Nat.sub_le _ _
    · exact Nat.min_le_right _ _

theorem sliceBound_of_equal (hn : n ≤ length) (hlength : length < 2 ^ precision)
    (h : v.toNumber.equal (.ofNat n)) : sliceBound length default (some v) = n := by
  have hlt := Nat.lt_of_le_of_lt hn hlength
  have hpoint := (equal_ofNat_iff hlt).1 h
  rw [sliceBound, isLt_zero_of_point? hpoint, if_neg Bool.false_ne_true,
    toIndex_of_point? hlt hpoint]
  exact Nat.min_eq_left hn

theorem sliceBound_of_equal_neg (hpos : 0 < n) (hn : n ≤ length) (hlength : length < 2 ^ precision)
    (h : (-v.toNumber).equal (.ofNat n)) : sliceBound length default (some v) = length - n := by
  have hlt := Nat.lt_of_le_of_lt hn hlength
  have hpoint := (equal_ofNat_iff hlt).1 h
  rw [sliceBound, if_pos (isLt_zero_of_point?_neg hpos hpoint), toIndex_of_point? hlt hpoint]

end SliceBound

/-- The items from one position up to another, where both are positions in this order. -/
def between? (items : List Value) (start stop : Nat) : Option (List Value) :=
  if start ≤ stop ∧ stop ≤ items.length then some ((items.take stop).drop start) else none

section Slice

variable {items : List Value}

theorem arrayMethod_slice (items args : List Value) :
    arrayMethod items "slice" args =
      .ok (.array ((items.take (sliceBound items.length items.length args[1]?)).drop
        (sliceBound items.length 0 args[0]?))) := rfl

theorem arrayMethod_slice_between (v w : Value) :
    arrayMethod items "slice" [v, w] =
      .ok (.array ((items.take (sliceBound items.length 0 (some w))).drop
        (sliceBound items.length 0 (some v)))) := rfl

theorem arrayMethod_slice_from (v : Value) :
    arrayMethod items "slice" [v] =
      .ok (.array (items.drop (sliceBound items.length 0 (some v)))) := by
  have hslice : arrayMethod items "slice" [v] =
      .ok (.array ((items.take items.length).drop (sliceBound items.length 0 (some v)))) := rfl
  rw [hslice, List.take_length]

theorem arrayMethod_slice_upTo (hsize : items.length < 2 ^ precision) (v : Value) :
    arrayMethod items "slice" [.number (.zero false), v] =
      .ok (.array (items.take (sliceBound items.length 0 (some v)))) := by
  have hstart : sliceBound items.length 0 (some (.number (.zero false))) = 0 :=
    sliceBound_of_equal (Nat.zero_le _) hsize (by decide +kernel)
  rw [arrayMethod_slice_between, hstart, List.drop_zero]

theorem drop_take_eq_nil {start stop : Nat} (h : stop ≤ start) :
    (items.take stop).drop start = [] :=
  List.drop_eq_nil_of_le (Nat.le_trans (List.length_take_le _ _) h)

theorem take_append_drop_take {start stop : Nat} (h : start ≤ stop) :
    items.take start ++ (items.take stop).drop start ++ items.drop stop = items := by
  have hfront : items.take start = (items.take stop).take start := by
    rw [List.take_take, Nat.min_eq_left h]
  rw [hfront, List.take_append_drop, List.take_append_drop]

/-- Slices have their bounds within the array. A slice up to a bound and the one from it on are the
array, which is cut where a whole number says, from the end if it is negative. Between two bounds
lies what the slices up to the first and from the second leave, or nothing. -/
theorem slice_partition (hsize : items.length < 2 ^ (53 : Nat)) (a b : Value) :
    (∀ args : List Value, ∃ part,
      (if sliceBound items.length items.length args[1]? ≤ sliceBound items.length 0 args[0]?
        then some []
        else between? items (sliceBound items.length 0 args[0]?)
          (sliceBound items.length items.length args[1]?)) = some part ∧
      arrayMethod items "slice" args = .ok (.array part)) ∧
    ∃ front part back rest : List Value,
      arrayMethod items "slice" [.number (.zero false), a] = .ok (.array front) ∧
      arrayMethod items "slice" [a] = .ok (.array rest) ∧
      arrayMethod items "slice" [a, b] = .ok (.array part) ∧
      arrayMethod items "slice" [b] = .ok (.array back) ∧
      front ++ rest = items ∧ (part = [] ∨ front ++ part ++ back = items) ∧
      (∀ n ≤ items.length, a.toNumber.equal (.ofNat n) → front = items.take n) ∧
      ∀ n ≤ items.length, 0 < n → (-a.toNumber).equal (.ofNat n) →
        front = items.take (items.length - n) := by
  constructor
  · intro args
    have hstop : sliceBound items.length items.length args[1]? ≤ items.length :=
      sliceBound_le (Nat.le_refl _) _
    split
    next hcrossed => exact ⟨[], rfl, by rw [arrayMethod_slice, drop_take_eq_nil hcrossed]⟩
    next hordered =>
      exact ⟨_, if_pos ⟨Nat.le_of_not_le hordered, hstop⟩, arrayMethod_slice items args⟩
  · refine ⟨_, _, _, _, arrayMethod_slice_upTo hsize a, arrayMethod_slice_from a,
      arrayMethod_slice_between a b, arrayMethod_slice_from b, List.take_append_drop _ _, ?_, ?_,
      ?_⟩
    · rcases Nat.le_total (sliceBound items.length 0 (some a))
        (sliceBound items.length 0 (some b)) with h | h
      · exact .inr (take_append_drop_take h)
      · exact .inl (drop_take_eq_nil h)
    · intro n hn hequal
      rw [sliceBound_of_equal hn hsize hequal]
    · intro n hn hpos hequal
      rw [sliceBound_of_equal_neg hpos hn hsize hequal]

theorem slice_partition_text :
    let items : List Value := [.string "a", .string "b", .string "c"]
    items.length < 2 ^ (53 : Nat) ∧ (-(Value.string " -2 ").toNumber).equal (.ofNat 2) ∧
      arrayMethod items "slice" [.number (.zero false), .string " -2 "] =
        .ok (.array [.string "a"]) ∧
      arrayMethod items "slice" [.string " -2 "] = .ok (.array [.string "b", .string "c"]) := by
  intro items
  have hsize : items.length < 2 ^ (53 : Nat) := by decide
  have htwo : (-(Value.string " -2 ").toNumber).equal (.ofNat 2) := by decide +kernel
  obtain ⟨-, front, part, back, rest, hfront, hrest, -, -, hjoin, -, -, hneg⟩ :=
    slice_partition hsize (.string " -2 ") .null
  have hcut : front = [.string "a"] := hneg 2 (by decide) (by decide) htwo
  subst hcut
  have hbehind : rest = [.string "b", .string "c"] := List.append_cancel_left hjoin
  subst hbehind
  exact ⟨hsize, htwo, hfront, hrest⟩

end Slice

end Value

end JsonStencil
