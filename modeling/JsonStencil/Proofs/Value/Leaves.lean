import JsonStencil.Proofs.Entries
import JsonStencil.Proofs.Value.Pointer

/-!
# The leaves of a value

The nodes of a value that are no arrays and no objects. Other values put in their places leave the
keys and positions that lead to them as they are.
-/

namespace JsonStencil

namespace Value

theorem induction {motive : Value → Prop} (null : motive .null) (bool : ∀ b, motive (.bool b))
    (number : ∀ x, motive (.number x)) (string : ∀ s, motive (.string s))
    (function : ∀ f, motive (.function f))
    (array : ∀ items, (∀ item ∈ items, motive item) → motive (.array items))
    (object : ∀ entries, (∀ entry ∈ entries, motive entry.2) → motive (.object entries))
    (v : Value) : motive v := by
  induction hsize : sizeOf v using Nat.strongRecOn generalizing v with
  | ind size ih =>
    subst hsize
    cases v with
    | null => exact null
    | bool b => exact bool b
    | number x => exact number x
    | string s => exact string s
    | function f => exact function f
    | array items => exact array items fun item h => ih _ (sizeOf_lt_array h) item rfl
    | object entries => exact object entries fun entry h => ih _ (sizeOf_lt_object h) entry.2 rfl

def isLeaf : Value → Bool
  | .array _ | .object _ => false
  | _ => true

/-- The values in a value that are no arrays and no objects, in document order. -/
def leaves (v : Value) : List Value := v.nodes.filter isLeaf

theorem leaves_of_isLeaf {v : Value} (h : v.isLeaf) : v.leaves = [v] := by
  cases v <;> first | rfl | cases h

@[simp] theorem leaves_array (items : List Value) :
    (Value.array items).leaves = items.flatMap leaves := by
  rw [leaves, nodes_array, List.filter_cons_of_neg (by simp [isLeaf]), List.filter_flatMap]
  rfl

@[simp] theorem leaves_object (entries : List (String × Value)) :
    (Value.object entries).leaves = entries.flatMap fun entry => entry.2.leaves := by
  rw [leaves, nodes_object, List.filter_cons_of_neg (by simp [isLeaf]), List.filter_flatMap]
  rfl

/-- The functions in a value in document order. -/
def functions (v : Value) : List Function :=
  v.leaves.filterMap fun
    | .function f => some f
    | _ => none

@[simp] theorem functions_array (items : List Value) :
    (Value.array items).functions = items.flatMap functions := by
  rw [functions, leaves_array, List.filterMap_flatMap]
  rfl

@[simp] theorem functions_object (entries : List (String × Value)) :
    (Value.object entries).functions = entries.flatMap fun entry => entry.2.functions := by
  rw [functions, leaves_object, List.filterMap_flatMap]
  rfl

mutual

/-- The value with something else in the place of each leaf. -/
def mapLeaves (g : Value → Value) : Value → Value
  | .array items => .array (mapItemLeaves g items)
  | .object entries => .object (mapEntryLeaves g entries)
  | v => g v

def mapItemLeaves (g : Value → Value) : List Value → List Value
  | [] => []
  | item :: items => item.mapLeaves g :: mapItemLeaves g items

def mapEntryLeaves (g : Value → Value) : List (String × Value) → List (String × Value)
  | [] => []
  | (key, v) :: entries => (key, v.mapLeaves g) :: mapEntryLeaves g entries

end

theorem distinctKeys_array {items : List Value} :
    (Value.array items).distinctKeys ↔ ∀ item ∈ items, item.distinctKeys := by
  rw [distinctKeys, all_array]
  exact and_iff_right rfl

theorem distinctKeys_object {entries : List (String × Value)} :
    (Value.object entries).distinctKeys ↔
      (Entries.keys entries).Nodup ∧ ∀ entry ∈ entries, entry.2.distinctKeys := by
  rw [distinctKeys, all_object, decide_eq_true_iff]

section MapLeaves

variable {g h : Value → Value}

theorem mapLeaves_of_isLeaf {v : Value} (hv : v.isLeaf) : v.mapLeaves g = g v := by
  cases v <;> first | rfl | cases hv

@[simp] theorem mapLeaves_array (items : List Value) :
    (Value.array items).mapLeaves g = .array (items.map (mapLeaves g)) := by
  rw [mapLeaves]
  congr 1
  induction items with
  | nil => rfl
  | cons item items ih => rw [mapItemLeaves, ih, List.map_cons]

@[simp] theorem mapLeaves_object (entries : List (String × Value)) :
    (Value.object entries).mapLeaves g = .object (Entries.mapValues (mapLeaves g) entries) := by
  rw [mapLeaves]
  congr 1
  induction entries with
  | nil => rfl
  | cons entry entries ih =>
    rw [mapEntryLeaves, ih]
    rfl

theorem mapLeaves_congr (v : Value) (hv : ∀ w ∈ v.leaves, g w = h w) :
    v.mapLeaves g = v.mapLeaves h := by
  induction v using Value.induction with
  | null | bool | number | string | function => exact hv _ (List.mem_singleton_self _)
  | array items ih =>
    rw [leaves_array] at hv
    rw [mapLeaves_array, mapLeaves_array]
    congr 1
    refine List.map_congr_left fun item hitem => ih item hitem fun w hw => ?_
    exact hv w (List.mem_flatMap.2 ⟨item, hitem, hw⟩)
  | object entries ih =>
    rw [leaves_object] at hv
    rw [mapLeaves_object, mapLeaves_object]
    congr 1
    refine List.map_congr_left fun entry hentry => Prod.ext rfl (ih entry hentry fun w hw => ?_)
    exact hv w (List.mem_flatMap.2 ⟨entry, hentry, hw⟩)

theorem mapLeaves_id (v : Value) : v.mapLeaves id = v := by
  induction v using Value.induction with
  | null | bool | number | string | function => rfl
  | array items ih =>
    rw [mapLeaves_array, List.map_congr_left ih, List.map_id']
  | object entries ih =>
    have hentries : ∀ entry ∈ entries, Prod.map id (mapLeaves id) entry = entry :=
      fun entry hentry => Prod.ext rfl (ih entry hentry)
    rw [mapLeaves_object, Entries.mapValues, List.map_congr_left hentries, List.map_id']

section Paths

variable {path : List String} {soleKey soleKey' : Option String}

theorem paths_itemSites {items : List Value} (hitems : ∀ item ∈ items, ∀ path soleKey soleKey',
    ((item.mapLeaves g).sitesAt path soleKey).map (·.path) =
      (item.sitesAt path soleKey').map (·.path)) (position : Nat) :
    (itemSites path position (items.map (mapLeaves g))).map (·.path) =
      (itemSites path position items).map (·.path) := by
  induction items generalizing position with
  | nil => rfl
  | cons item items ih =>
    have hrest := ih (fun item h => hitems item (List.mem_cons_of_mem _ h)) (position + 1)
    rw [List.map_cons, itemSites, itemSites, List.map_append, List.map_append, hrest,
      hitems item List.mem_cons_self]

theorem paths_entrySites {entries : List (String × Value)} (hentries : ∀ entry ∈ entries,
    ∀ path soleKey soleKey', ((entry.2.mapLeaves g).sitesAt path soleKey).map (·.path) =
      (entry.2.sitesAt path soleKey').map (·.path)) :
    (entrySites path soleKey (Entries.mapValues (mapLeaves g) entries)).map (·.path) =
      (entrySites path soleKey' entries).map (·.path) := by
  induction entries with
  | nil => rfl
  | cons entry entries ih =>
    have hrest := ih fun entry h => hentries entry (List.mem_cons_of_mem _ h)
    rw [entrySites, List.map_append, ← hrest, ← hentries entry List.mem_cons_self,
      ← List.map_append]
    rfl

/-- Leaves in the places of leaves are listed under the same keys and positions. -/
theorem paths_sitesAt_mapLeaves (hg : ∀ v, v.isLeaf → (g v).isLeaf) (v : Value) :
    ((v.mapLeaves g).sitesAt path soleKey).map (·.path) =
      (v.sitesAt path soleKey').map (·.path) := by
  have hleaf {w : Value} (hw : w.isLeaf) (path : List String) (soleKey : Option String) :
      (w.sitesAt path soleKey).map (·.path) = [path] := by
    cases w <;> first | rfl | cases hw
  induction v using Value.induction generalizing path soleKey soleKey' with
  | null | bool | number | string | function => exact hleaf (hg _ rfl) path soleKey
  | array items ih =>
    rw [mapLeaves_array, sitesAt, sitesAt, List.map_cons, List.map_cons,
      paths_itemSites fun item h _ _ _ => ih item h]
  | object entries ih =>
    rw [mapLeaves_object, sitesAt, sitesAt, List.map_cons, List.map_cons,
      paths_entrySites fun entry h _ _ _ => ih entry h]

end Paths

end MapLeaves

end Value

end JsonStencil
