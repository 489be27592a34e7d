import JsonStencil.Proofs.Failures
import JsonStencil.Proofs.Value.Equality
import JsonStencil.Value.Methods
import JsonStencil.Builtin
import JsonStencil.Operator

/-!
# Serial numbers in values

A builtin carries the serial number of its look-up. Nothing but equality sees that number, and
equality sees only whether two are the same, so operations work on values with other numbers as they
do on the values themselves, as long as different numbers stay different.
-/

namespace JsonStencil

namespace Routine

def rename (f : Nat → Nat) : Routine → Routine
  | .host serial => .host serial
  | .builtin b serial => .builtin b (f serial)

/-- Whether the routine is of the host or was looked up before the serial number came. -/
def isOlder (n : Nat) : Routine → Bool
  | .host _ => true
  | .builtin _ serial => serial < n

end Routine

/-- Serial numbers from `n` on, moved on by `d`. -/
def later (n d k : Nat) : Nat := if k < n then k else k + d

section Later

variable {n d k : Nat}

theorem later_of_lt (h : k < n) : later n d k = k := if_pos h

theorem later_of_le (h : n ≤ k) : later n d k = k + d := if_neg (Nat.not_lt.2 h)

theorem later_injective (n d : Nat) : Function.Injective (later n d) := by
  intro k l h
  unfold later at h
  split_ifs at h <;> omega

end Later

namespace Value

open Entries (keys get? mapValues)

def renameLeaf (f : Nat → Nat) : Value → Value
  | .function g => .function ⟨g.name, g.routine.rename f⟩
  | v => v

/-- The value with other serial numbers in its builtins. -/
def rename (f : Nat → Nat) : Value → Value := mapLeaves (renameLeaf f)

section Rename

variable (f : Nat → Nat)

@[simp] theorem rename_null : Value.null.rename f = .null := rfl

@[simp] theorem rename_bool (b : Bool) : (Value.bool b).rename f = .bool b := rfl

@[simp] theorem rename_number (x : Binary64) : (Value.number x).rename f = .number x := rfl

@[simp] theorem rename_string (s : String) : (Value.string s).rename f = .string s := rfl

@[simp] theorem rename_function (g : Function) :
    (Value.function g).rename f = .function ⟨g.name, g.routine.rename f⟩ := rfl

@[simp] theorem rename_array (items : List Value) :
    (Value.array items).rename f = .array (items.map (rename f)) := mapLeaves_array items

@[simp] theorem rename_object (entries : List (String × Value)) :
    (Value.object entries).rename f = .object (mapValues (rename f) entries) :=
  mapLeaves_object entries

theorem rename_rename (g : Nat → Nat) (v : Value) : (v.rename f).rename g = v.rename (g ∘ f) := by
  induction v using Value.induction with
  | null | bool | number | string => rfl
  | function h => cases hr : h.routine <;> simp [Routine.rename, hr]
  | array items ih => simpa using ih
  | object entries ih => simpa [mapValues] using ih

/-- The value with its builtins known by their names alone. -/
def byName (v : Value) : Value := v.rename fun _ => 0

theorem byName_rename (v : Value) : (v.rename f).byName = v.byName := rename_rename f _ v

@[simp] theorem isNull_rename (v : Value) : (v.rename f).isNull = v.isNull := by
  cases v <;> simp [isNull]

@[simp] theorem isTruthy_rename (v : Value) : (v.rename f).isTruthy = v.isTruthy := by
  cases v <;> simp [isTruthy]

@[simp] theorem toNumber_rename (v : Value) : (v.rename f).toNumber = v.toNumber := by
  cases v <;> simp [toNumber]

@[simp] theorem ofOption_map (v : Option Value) :
    ofOption (v.map (rename f)) = (ofOption v).rename f := by
  cases v <;> rfl

theorem itemDisplays_map {items : List Value}
    (h : ∀ item ∈ items, (item.rename f).display = item.display) :
    itemDisplays (items.map (rename f)) = itemDisplays items := by
  induction items with
  | nil => rfl
  | cons item items ih =>
    rw [List.map_cons, itemDisplays, itemDisplays, isNull_rename, h item List.mem_cons_self,
      ih fun item hitem => h item (List.mem_cons_of_mem _ hitem)]

theorem display_rename (v : Value) : (v.rename f).display = v.display := by
  induction v using Value.induction with
  | null | bool | number | string | function => rfl
  | array items ih => rw [rename_array, display, display, itemDisplays_map f ih]
  | object entries => rw [rename_object, display, display]

@[simp] theorem itemDisplays_rename (items : List Value) :
    itemDisplays (items.map (rename f)) = itemDisplays items :=
  itemDisplays_map f fun item _ => display_rename f item

@[simp] theorem joinDisplays_rename (separator : String) (items : List Value) :
    joinDisplays separator (items.map (rename f)) = joinDisplays separator items := by
  rw [joinDisplays, itemDisplays_rename, joinDisplays]

@[simp] theorem propertyName_rename (v : Value) : (v.rename f).propertyName = v.propertyName := by
  cases v with
  | string s => rfl
  | _ => exact display_rename f _

end Rename

theorem itemsEqual_map {f : Nat → Nat} {items : List Value}
    (h : ∀ item ∈ items, ∀ w, (item.rename f).equal (w.rename f) = item.equal w)
    (items' : List Value) :
    itemsEqual (items.map (rename f)) (items'.map (rename f)) = itemsEqual items items' := by
  induction items generalizing items' with
  | nil => cases items' <;> rfl
  | cons item items ih =>
    cases items' with
    | nil => rfl
    | cons item' items' =>
      rw [List.map_cons, List.map_cons, itemsEqual, itemsEqual, h item List.mem_cons_self,
        ih fun item hitem => h item (List.mem_cons_of_mem _ hitem)]

/-- Different serial numbers that stay different do not change what is equal. -/
theorem equal_rename {f : Nat → Nat} (hf : Function.Injective f) (v w : Value) :
    (v.rename f).equal (w.rename f) = v.equal w := by
  have hroutine (r s : Routine) : r.rename f = s.rename f ↔ r = s := by
    cases r <;> cases s <;> simp [Routine.rename, hf.eq_iff]
  induction v using Value.induction generalizing w with
  | null | bool | number | string => cases w <;> simp [equal]
  | function g => cases w <;> simp [equal, hroutine]
  | array items ih =>
    cases w with
    | array items' => rw [rename_array, rename_array, equal, equal, itemsEqual_map ih]
    | _ => simp [equal]
  | object entries ih =>
    cases w with
    | object entries' =>
      have hwithin : ∀ entry ∈ entries,
          (get? (mapValues (rename f) entries') entry.1).any (entry.2.rename f).equal =
            (get? entries' entry.1).any entry.2.equal := by
        intro entry hentry
        rw [Entries.get?_mapValues]
        cases get? entries' entry.1 with
        | none => rfl
        | some w => exact ih entry hentry w
      rw [rename_object, rename_object, equal_object, equal_object, mapValues, List.length_map,
        mapValues, List.length_map, List.all_map, ← mapValues]
      congr 1
      rw [Bool.eq_iff_iff, List.all_eq_true, List.all_eq_true]
      exact forall₂_congr fun entry hentry => Bool.eq_iff_iff.1 (hwithin entry hentry)
    | _ => simp [equal]

/-- The builtins in a value were looked up before the serial number came. -/
def olderThan (n : Nat) : Value → Bool := all fun
  | .function g => g.routine.isOlder n
  | _ => true

theorem olderThan_iff {n : Nat} {v : Value} :
    v.olderThan n ↔ ∀ g, .function g ∈ v.leaves → g.routine.isOlder n := by
  simp only [olderThan, all, List.all_eq_true, leaves, List.mem_filter]
  constructor
  · exact fun h g hg => h _ hg.1
  · intro h w hw
    cases w with
    | function g => exact h g ⟨hw, rfl⟩
    | _ => rfl

/-- What a value is while `n` is the next serial number. -/
structure Settled (n : Nat) (v : Value) : Prop where
  keys : v.distinctKeys
  older : v.olderThan n

section Settled

variable {n m : Nat} {v : Value} {items : List Value} {entries : List (String × Value)}

theorem Settled.mono (h : v.Settled n) (hnm : n ≤ m) : v.Settled m := by
  refine ⟨h.keys, olderThan_iff.2 fun g hg => ?_⟩
  have hn := olderThan_iff.1 h.older g hg
  cases hr : g.routine with
  | host serial => rfl
  | builtin b serial =>
    simp only [hr, Routine.isOlder, decide_eq_true_iff] at hn ⊢
    omega

theorem settled_array_iff : (Value.array items).Settled n ↔ ∀ item ∈ items, item.Settled n := by
  have holder : (Value.array items).olderThan n ↔ ∀ item ∈ items, item.olderThan n := by
    rw [olderThan, all_array]
    exact and_iff_right rfl
  refine ⟨fun h item hitem => ⟨?_, ?_⟩, fun h => ⟨?_, ?_⟩⟩
  · exact distinctKeys_array.1 h.keys item hitem
  · exact holder.1 h.older item hitem
  · exact distinctKeys_array.2 fun item hitem => (h item hitem).keys
  · exact holder.2 fun item hitem => (h item hitem).older

theorem settled_object_iff : (Value.object entries).Settled n ↔
    (keys entries).Nodup ∧ ∀ entry ∈ entries, entry.2.Settled n := by
  have holder : (Value.object entries).olderThan n ↔ ∀ entry ∈ entries, entry.2.olderThan n := by
    rw [olderThan, all_object]
    exact and_iff_right rfl
  refine ⟨fun h => ⟨(distinctKeys_object.1 h.keys).1, fun entry hentry => ⟨?_, ?_⟩⟩,
    fun h => ⟨?_, ?_⟩⟩
  · exact (distinctKeys_object.1 h.keys).2 entry hentry
  · exact holder.1 h.older entry hentry
  · exact distinctKeys_object.2 ⟨h.1, fun entry hentry => (h.2 entry hentry).keys⟩
  · exact holder.2 fun entry hentry => (h.2 entry hentry).older

@[simp] theorem settled_null : Value.null.Settled n := ⟨rfl, rfl⟩

@[simp] theorem settled_bool (b : Bool) : (Value.bool b).Settled n := ⟨rfl, rfl⟩

@[simp] theorem settled_number (x : Binary64) : (Value.number x).Settled n := ⟨rfl, rfl⟩

@[simp] theorem settled_string (s : String) : (Value.string s).Settled n := ⟨rfl, rfl⟩

theorem settled_ofOption {v : Option Value} (h : ∀ w ∈ v, w.Settled n) :
    (ofOption v).Settled n := by
  cases v with
  | none => exact settled_null
  | some w => exact h w rfl

theorem settled_function (g : Function) :
    (Value.function g).Settled n ↔ g.routine.isOlder n := by
  refine ⟨fun h => olderThan_iff.1 h.older g (List.mem_singleton_self _), fun h => ⟨rfl, ?_⟩⟩
  exact olderThan_iff.2 fun g' hg' => by
    cases List.mem_singleton.1 hg'
    exact h

/-- Numbers that a renaming leaves alone keep a value as it is. -/
theorem rename_of_olderThan {f : Nat → Nat} (hf : ∀ k < n, f k = k) (h : v.olderThan n) :
    v.rename f = v := by
  refine (mapLeaves_congr v fun w hw => ?_).trans (mapLeaves_id v)
  cases w with
  | function g =>
    have hg := olderThan_iff.1 h g hw
    cases hr : g.routine with
    | host serial => rw [renameLeaf, hr, Routine.rename, ← hr, id]
    | builtin b serial =>
      rw [hr, Routine.isOlder, decide_eq_true_iff] at hg
      rw [renameLeaf, hr, Routine.rename, hf serial hg, ← hr, id]
  | _ => rfl

/-- A value with later numbers equals the value itself only if it has none that were moved. -/
theorem equal_rename_later_iff {d : Nat} (hkeys : v.distinctKeys) (hnan : v.nanFree) :
    v.equal (v.rename (later n d)) ↔ d = 0 ∨ v.olderThan n := by
  have hleaf (r : Routine) : r = r.rename (later n d) ↔ d = 0 ∨ r.isOlder n := by
    cases r with
    | host serial => simp [Routine.rename, Routine.isOlder]
    | builtin b serial =>
      simp only [Routine.rename, Routine.isOlder, later, Routine.builtin.injEq, true_and,
        decide_eq_true_iff]
      split <;> omega
  -- both values are made from one, and its leaves are compared in place
  have hself := equal_mapLeaves_iff (g := id) (h := renameLeaf (later n d)) hkeys
  rw [mapLeaves_id] at hself
  rw [rename, hself, olderThan_iff]
  rw [nanFree_iff] at hnan
  constructor
  · intro h
    refine or_iff_not_imp_left.2 fun hd g hg => ?_
    have hg' : g.routine = g.routine.rename (later n d) := of_decide_eq_true (h _ hg)
    exact ((hleaf _).1 hg').resolve_left hd
  · intro h w hw
    cases w with
    | function g => exact decide_eq_true ((hleaf _).2 (h.imp_right fun hall => hall g hw))
    | _ => exact hnan _ hw

end Settled

end Value

end JsonStencil
