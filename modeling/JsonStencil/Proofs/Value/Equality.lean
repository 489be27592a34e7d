import JsonStencil.Proofs.Value.Leaves
import Mathlib.Data.List.Perm.Subperm

/-!
# Equality of values

Equality compares arrays item by item and objects key by key, so the order of the entries of an
object never matters. It is symmetric and transitive, and a value equals itself as long as no
not-a-number is in it.
-/

namespace JsonStencil

namespace Binary64

/-- Where a number lies, the infinities being the two ends. Not-a-number lies nowhere. -/
def point? : Binary64 → Option (Bool ⊕ Int)
  | .nan => none
  | .infinity negative => some (.inl negative)
  | .finite negative quanta _ => some (.inr (signed negative quanta))

theorem equal_iff {x y : Binary64} : x.equal y ↔ ∃ p, x.point? = some p ∧ y.point? = some p := by
  cases x with
  | nan => simp [equal, compare?, point?]
  | infinity s =>
    cases y with
    | nan => simp [equal, compare?, point?]
    | infinity t => cases s <;> cases t <;> decide
    | finite t q hq => cases s <;> simp [equal, compare?, point?]
  | finite s p hp =>
    cases y with
    | nan => simp [equal, compare?, point?]
    | infinity t => cases t <;> simp [equal, compare?, point?]
    | finite t q hq =>
      simp only [equal, compare?, point?, Option.some.injEq, decide_eq_true_iff,
        Std.LawfulEqCmp.compare_eq_iff_eq]
      simp [eq_comm]

theorem equal_self_iff {x : Binary64} : x.equal x ↔ x.isNaN = false := by
  cases x <;> simp [equal_iff, point?, isNaN]

end Binary64

namespace Value

open Entries (keys get?)

section Parts

variable {items items' : List Value} {entries entries' : List (String × Value)}

/-- Equal arrays are as long as each other and have equal items at each position. -/
theorem equal_array_iff : (Value.array items).equal (.array items') ↔
    items.length = items'.length ∧
      ∀ (i : Nat) (v w : Value), items[i]? = some v → items'[i]? = some w → v.equal w := by
  rw [equal]
  induction items generalizing items' with
  | nil => cases items' <;> simp [itemsEqual]
  | cons item items ih =>
    cases items' with
    | nil => simp [itemsEqual]
    | cons item' items' =>
      rw [itemsEqual, Bool.and_eq_true, ih, List.length_cons, List.length_cons,
        Nat.add_right_cancel_iff]
      constructor
      · rintro ⟨hfirst, hlength, hrest⟩
        refine ⟨hlength, fun i v w hv hw => ?_⟩
        cases i with
        | zero =>
          cases hv
          cases hw
          exact hfirst
        | succ i => exact hrest i v w hv hw
      · rintro ⟨hlength, hall⟩
        exact ⟨hall 0 _ _ rfl rfl, hlength, fun i => hall (i + 1)⟩

theorem entriesWithin_eq_all : entriesWithin entries entries' =
    entries.all fun entry => (get? entries' entry.1).any entry.2.equal := by
  induction entries with
  | nil => rfl
  | cons entry entries ih =>
    rw [entriesWithin, ih, List.all_cons]
    cases get? entries' entry.1 <;> rfl

theorem equal_object : (Value.object entries).equal (.object entries') =
    (decide (entries.length = entries'.length) &&
      entries.all fun entry => (get? entries' entry.1).any entry.2.equal) := by
  rw [equal, entriesWithin_eq_all]

theorem mem_of_get? {key : String} {v : Value} (h : get? entries key = some v) :
    (key, v) ∈ entries := by
  obtain ⟨before, behind, rfl, -⟩ := List.lookup_eq_some_iff.1 h
  exact List.mem_append_cons_self

/-- Equal objects with distinct keys have the same keys and equal values under each. -/
theorem equal_object_iff (hkeys : (keys entries).Nodup) (hkeys' : (keys entries').Nodup) :
    (Value.object entries).equal (.object entries') ↔ (keys entries).Perm (keys entries') ∧
      ∀ key v w, (key, v) ∈ entries → (key, w) ∈ entries' → v.equal w := by
  rw [equal_object, Bool.and_eq_true, decide_eq_true_iff, List.all_eq_true]
  constructor
  · rintro ⟨hlength, hall⟩
    have hfound : ∀ entry ∈ entries, ∃ w, (entry.1, w) ∈ entries' ∧ entry.2.equal w := by
      intro entry hentry
      obtain ⟨w, hw, hequal⟩ := (Option.any_eq_true _ _).1 (hall entry hentry)
      exact ⟨w, mem_of_get? hw, hequal⟩
    have hsubset : keys entries ⊆ keys entries' := by
      intro key hkey
      obtain ⟨entry, hentry, rfl⟩ := List.mem_map.1 hkey
      obtain ⟨w, hw, -⟩ := hfound entry hentry
      exact List.mem_map.2 ⟨_, hw, rfl⟩
    refine ⟨(List.subperm_of_subset hkeys hsubset).perm_of_length_le ?_, ?_⟩
    · simp [keys, hlength]
    · intro key v w hv hw
      obtain ⟨w', hw', hequal⟩ := hfound _ hv
      cases (get?_of_mem hkeys' hw).symm.trans (get?_of_mem hkeys' hw')
      exact hequal
  · rintro ⟨hperm, hequal⟩
    refine ⟨by simpa [keys] using hperm.length_eq, fun entry hentry => ?_⟩
    obtain ⟨⟨key, w⟩, hw, hkey⟩ :=
      List.mem_map.1 (hperm.subset (List.mem_map.2 ⟨entry, hentry, rfl⟩))
    cases hkey
    rw [get?_of_mem hkeys' hw]
    exact hequal _ _ _ hentry hw

end Parts

/-- What equality sees of a leaf. It sees nothing of not-a-number. -/
inductive Atom where
  | null
  | bool (b : Bool)
  | number (place : Bool ⊕ Int)
  | string (s : String)
  | routine (r : Routine)

def atom? : Value → Option Atom
  | .null => some .null
  | .bool b => some (.bool b)
  | .number x => x.point?.map .number
  | .string s => some (.string s)
  | .function f => some (.routine f.routine)
  | .array _ | .object _ => none

theorem equal_iff_atom {v w : Value} (h : v.isLeaf ∨ w.isLeaf) :
    v.equal w ↔ ∃ p, v.atom? = some p ∧ w.atom? = some p := by
  cases v with
  | number x =>
    cases w with
    | number y =>
      rw [equal, Binary64.equal_iff, atom?, atom?]
      constructor
      · rintro ⟨p, hx, hy⟩
        exact ⟨.number p, congrArg (Option.map Atom.number) hx,
          congrArg (Option.map Atom.number) hy⟩
      · rintro ⟨p, hx, hy⟩
        obtain ⟨q, hq, rfl⟩ := Option.map_eq_some_iff.1 hx
        obtain ⟨q', hq', heq⟩ := Option.map_eq_some_iff.1 hy
        cases heq
        exact ⟨q, hq, hq'⟩
    | _ => simp [equal, atom?]
  | array items => cases w <;> simp_all [equal, atom?, isLeaf]
  | object entries => cases w <;> simp_all [equal, atom?, isLeaf]
  | _ =>
    cases w with
    | number y => simp [equal, atom?]
    | _ => simp [equal, atom?, eq_comm]

theorem isLeaf_of_atom {v : Value} {p : Atom} (h : v.atom? = some p) : v.isLeaf := by
  cases v <;> first | rfl | cases h

theorem equal_symm {v w : Value} (hv : v.distinctKeys) (hw : w.distinctKeys) (h : v.equal w) :
    w.equal v := by
  induction v using Value.induction generalizing w with
  | null | bool | number | string | function =>
    obtain ⟨p, hp, hp'⟩ := (equal_iff_atom (.inl rfl)).1 h
    exact (equal_iff_atom (.inr rfl)).2 ⟨p, hp', hp⟩
  | array items ih =>
    cases w with
    | array items' =>
      rw [distinctKeys_array] at hv hw
      rw [equal_array_iff] at h ⊢
      refine ⟨h.1.symm, fun i v w hv' hw' => ?_⟩
      exact ih _ (List.mem_of_getElem? hw') (hv _ (List.mem_of_getElem? hw'))
        (hw _ (List.mem_of_getElem? hv')) (h.2 i w v hw' hv')
    | _ => cases h
  | object entries ih =>
    cases w with
    | object entries' =>
      rw [distinctKeys_object] at hv hw
      rw [equal_object_iff hv.1 hw.1] at h
      rw [equal_object_iff hw.1 hv.1]
      refine ⟨h.1.symm, fun key v w hv' hw' => ?_⟩
      exact ih _ hw' (hv.2 _ hw') (hw.2 _ hv') (h.2 key w v hw' hv')
    | _ => cases h

theorem equal_trans {u v w : Value} (hu : u.distinctKeys) (hv : v.distinctKeys)
    (hw : w.distinctKeys) (h : u.equal v) (h' : v.equal w) : u.equal w := by
  induction u using Value.induction generalizing v w with
  | null | bool | number | string | function =>
    obtain ⟨p, hp, hp'⟩ := (equal_iff_atom (.inl rfl)).1 h
    obtain ⟨q, hq, hq'⟩ := (equal_iff_atom (.inl (isLeaf_of_atom hp'))).1 h'
    cases hp'.symm.trans hq
    exact (equal_iff_atom (.inl rfl)).2 ⟨p, hp, hq'⟩
  | array items ih =>
    cases v with
    | array items' =>
      cases w with
      | array items'' =>
        rw [distinctKeys_array] at hu hv hw
        rw [equal_array_iff] at h h' ⊢
        refine ⟨h.1.trans h'.1, fun i u w hu' hw' => ?_⟩
        obtain ⟨hi, -⟩ := List.getElem?_eq_some_iff.1 hu'
        have hv' := List.getElem?_eq_getElem (h.1 ▸ hi)
        exact ih _ (List.mem_of_getElem? hu') (hu _ (List.mem_of_getElem? hu'))
          (hv _ (List.mem_of_getElem? hv')) (hw _ (List.mem_of_getElem? hw')) (h.2 i _ _ hu' hv')
          (h'.2 i _ _ hv' hw')
      | _ => cases h'
    | _ => cases h
  | object entries ih =>
    cases v with
    | object entries' =>
      cases w with
      | object entries'' =>
        rw [distinctKeys_object] at hu hv hw
        rw [equal_object_iff hu.1 hv.1] at h
        rw [equal_object_iff hv.1 hw.1] at h'
        rw [equal_object_iff hu.1 hw.1]
        refine ⟨h.1.trans h'.1, fun key u w hu' hw' => ?_⟩
        obtain ⟨⟨key', v⟩, hv', hkey⟩ :=
          List.mem_map.1 (h.1.subset (List.mem_map.2 ⟨_, hu', rfl⟩))
        cases hkey
        exact ih _ hu' (hu.2 _ hu') (hv.2 _ hv') (hw.2 _ hw') (h.2 _ _ _ hu' hv')
          (h'.2 _ _ _ hv' hw')
      | _ => cases h'
    | _ => cases h

/-- Two values made from one by leaves in the places of its leaves are compared leaf by leaf. -/
theorem equal_mapLeaves_iff {g h : Value → Value} {v : Value} (hv : v.distinctKeys) :
    (v.mapLeaves g).equal (v.mapLeaves h) ↔ ∀ w ∈ v.leaves, (g w).equal (h w) := by
  induction v using Value.induction with
  | null | bool | number | string | function =>
    rw [leaves_of_isLeaf rfl, List.forall_mem_singleton, mapLeaves_of_isLeaf rfl,
      mapLeaves_of_isLeaf rfl]
  | array items ih =>
    rw [distinctKeys_array] at hv
    rw [mapLeaves_array, mapLeaves_array, equal_array_iff, leaves_array, List.forall_mem_flatMap]
    constructor
    · rintro ⟨-, hall⟩ item hitem
      obtain ⟨i, hi⟩ := List.getElem?_of_mem hitem
      exact (ih item hitem (hv item hitem)).1 (hall i _ _ (by simp [hi]) (by simp [hi]))
    · intro hall
      refine ⟨by simp, fun i v w hv' hw' => ?_⟩
      rw [List.getElem?_map] at hv' hw'
      obtain ⟨item, hi, rfl⟩ := Option.map_eq_some_iff.1 hv'
      rw [hi] at hw'
      cases hw'
      have hitem := List.mem_of_getElem? hi
      exact (ih item hitem (hv item hitem)).2 (hall item hitem)
  | object entries ih =>
    rw [distinctKeys_object] at hv
    have hkeys (f : Value → Value) : (keys (Entries.mapValues f entries)).Nodup := by
      rw [Entries.keys_mapValues]
      exact hv.1
    rw [mapLeaves_object, mapLeaves_object, equal_object_iff (hkeys _) (hkeys _), leaves_object,
      List.forall_mem_flatMap]
    constructor
    · rintro ⟨-, hall⟩ entry hentry
      refine (ih entry hentry (hv.2 entry hentry)).1 (hall entry.1 _ _ ?_ ?_)
      · exact List.mem_map.2 ⟨entry, hentry, rfl⟩
      · exact List.mem_map.2 ⟨entry, hentry, rfl⟩
    · intro hall
      refine ⟨by simp, fun key v w hv' hw' => ?_⟩
      obtain ⟨⟨key, u⟩, hu, heq⟩ := List.mem_map.1 hv'
      obtain ⟨⟨key', u'⟩, hu', heq'⟩ := List.mem_map.1 hw'
      cases heq
      cases heq'
      cases (get?_of_mem hv.1 hu).symm.trans (get?_of_mem hv.1 hu')
      exact (ih _ hu (hv.2 _ hu)).2 (hall _ hu)

/-- No not-a-number is in the value. -/
def nanFree : Value → Bool := all fun
  | .number x => !x.isNaN
  | _ => true

theorem nanFree_iff {v : Value} : v.nanFree ↔ ∀ w ∈ v.leaves, w.equal w := by
  simp only [nanFree, all, leaves, List.all_eq_true, List.mem_filter, and_imp]
  refine forall₂_congr fun w _ => ?_
  cases w with
  | number x => simp [equal, isLeaf, Binary64.equal_self_iff]
  | _ => simp [equal, isLeaf]

theorem equal_self_iff {v : Value} (hv : v.distinctKeys) : v.equal v ↔ v.nanFree := by
  have h := equal_mapLeaves_iff (g := id) (h := id) hv
  rw [mapLeaves_id] at h
  rw [h, nanFree_iff]
  rfl

/-- The entries of objects in the value are put into another order, at any depth. -/
inductive Reordered : Value → Value → Prop
  | refl (v : Value) : Reordered v v
  | trans {u v w : Value} : Reordered u v → Reordered v w → Reordered u w
  | entries {entries entries' : List (String × Value)} :
      entries.Perm entries' → Reordered (.object entries) (.object entries')
  | item {before behind : List Value} {v w : Value} : Reordered v w →
      Reordered (.array (before ++ v :: behind)) (.array (before ++ w :: behind))
  | entry {before behind : List (String × Value)} {key : String} {v w : Value} : Reordered v w →
      Reordered (.object (before ++ (key, v) :: behind)) (.object (before ++ (key, w) :: behind))

theorem itemsEqual_replace {v w : Value} (h : v.equal = w.equal)
    (before behind items : List Value) :
    itemsEqual (before ++ v :: behind) items = itemsEqual (before ++ w :: behind) items := by
  induction before generalizing items with
  | nil => cases items <;> simp [itemsEqual, h]
  | cons item before ih => cases items <;> simp [itemsEqual, ih]

/-- The order of entries does not show in any comparison. -/
theorem Reordered.equal_eq {v v' : Value} (h : Reordered v v') : v.equal = v'.equal := by
  induction h with
  | refl => rfl
  | trans _ _ ih ih' => exact ih.trans ih'
  | entries hperm =>
    funext w
    cases w with
    | object entries => rw [equal_object, equal_object, hperm.length_eq, hperm.all_eq]
    | _ => rfl
  | item _ ih =>
    funext w
    cases w with
    | array items => rw [equal, equal, itemsEqual_replace ih]
    | _ => rfl
  | entry _ ih =>
    funext w
    cases w with
    | object entries => simp [equal_object, ih]
    | _ => rfl

/-- Equality of values with distinct keys is a partial equivalence and blind to the order of
entries. -/
theorem equal_laws {a b c : Value} (ha : a.distinctKeys) (hb : b.distinctKeys)
    (hc : c.distinctKeys) :
    (a.equal b → b.equal a) ∧ (a.equal b → b.equal c → a.equal c) ∧ (a.equal a ↔ a.nanFree) ∧
      ∀ a', Reordered a a' → a'.equal b = a.equal b :=
  ⟨equal_symm ha hb, equal_trans ha hb hc, equal_self_iff ha, fun _ h => congrFun h.equal_eq.symm b⟩

theorem equal_laws_nested :
    let inner : Value := .object [("p", .number (.zero false)), ("q", .function ⟨"f", .host 0⟩)]
    let inner' : Value := .object [("q", .function ⟨"f", .host 0⟩), ("p", .number (.zero true))]
    let a : Value := .object [("x", .array [.null, inner]), ("y", .string "s")]
    let b : Value := .object [("y", .string "s"), ("x", .array [.null, inner'])]
    let c : Value := .object [("y", .string "s"), ("x", .array [.null, inner])]
    a.distinctKeys ∧ b.distinctKeys ∧ c.distinctKeys ∧ a.equal b ∧ b.equal c ∧
      b.equal a ∧ a.equal c ∧ a.equal a ∧ c.equal b := by
  intro inner inner' a b c
  have ha : a.distinctKeys := by decide
  have hb : b.distinctKeys := by decide
  have hc : c.distinctKeys := by decide
  have hab : a.equal b := by decide +kernel
  have hbc : b.equal c := by decide +kernel
  obtain ⟨hsymm, htrans, hself, horder⟩ := equal_laws ha hb hc
  refine ⟨ha, hb, hc, hab, hbc, hsymm hab, htrans hab hbc, hself.2 (by decide), ?_⟩
  rw [horder c (.entries (List.Perm.swap _ _ _))]
  exact hab

end Value

end JsonStencil
