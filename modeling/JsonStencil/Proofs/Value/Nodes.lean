import JsonStencil.Value.Basic

/-!
# The nodes of a value

A value and all the values in it, and what can be asked of them: whether there are functions among
them, which texts and numbers they hold, and how deep they go.
-/

namespace JsonStencil

namespace Value

mutual

/-- A value and the values in it at any depth. -/
def nodes : Value → List Value
  | .array items => .array items :: itemNodes items
  | .object entries => .object entries :: entryNodes entries
  | v => [v]

def itemNodes : List Value → List Value
  | [] => []
  | item :: items => item.nodes ++ itemNodes items

def entryNodes : List (String × Value) → List Value
  | [] => []
  | (_, v) :: entries => v.nodes ++ entryNodes entries

end

theorem nodes_array (items : List Value) :
    (Value.array items).nodes = .array items :: items.flatMap nodes := by
  rw [nodes]
  congr 1
  induction items with
  | nil => rfl
  | cons item items ih => rw [itemNodes, ih, List.flatMap_cons]

theorem nodes_object (entries : List (String × Value)) :
    (Value.object entries).nodes =
      .object entries :: entries.flatMap fun entry => entry.2.nodes := by
  rw [nodes]
  congr 1
  induction entries with
  | nil => rfl
  | cons entry entries ih => rw [entryNodes, ih, List.flatMap_cons]

mutual

/-- How far below a value its deepest nodes are. -/
def height : Value → Nat
  | .array items => itemsHeight items
  | .object entries => entriesHeight entries
  | _ => 0

def itemsHeight : List Value → Nat
  | [] => 0
  | item :: items => max (item.height + 1) (itemsHeight items)

def entriesHeight : List (String × Value) → Nat
  | [] => 0
  | (_, v) :: entries => max (v.height + 1) (entriesHeight entries)

end

section Parts

variable {items : List Value} {item : Value} {entries : List (String × Value)}
  {entry : String × Value}

theorem height_lt_array (h : item ∈ items) : item.height < (Value.array items).height := by
  rw [height]
  induction items with
  | nil => cases h
  | cons first items ih =>
    rw [itemsHeight]
    rcases List.mem_cons.1 h with rfl | h
    · exact Nat.le_max_left _ _
    · exact Nat.lt_of_lt_of_le (ih h) (Nat.le_max_right _ _)

theorem height_lt_object (h : entry ∈ entries) :
    entry.2.height < (Value.object entries).height := by
  rw [height]
  induction entries with
  | nil => cases h
  | cons first entries ih =>
    rw [entriesHeight]
    rcases List.mem_cons.1 h with rfl | h
    · exact Nat.le_max_left _ _
    · exact Nat.lt_of_lt_of_le (ih h) (Nat.le_max_right _ _)

theorem sizeOf_lt_array (h : item ∈ items) : sizeOf item < sizeOf (Value.array items) := by
  have := List.sizeOf_lt_of_mem h
  simp only [array.sizeOf_spec]
  omega

theorem sizeOf_lt_object (h : entry ∈ entries) :
    sizeOf entry.2 < sizeOf (Value.object entries) := by
  have := List.sizeOf_lt_of_mem h
  obtain ⟨key, v⟩ := entry
  simp only [object.sizeOf_spec, Prod.mk.sizeOf_spec] at *
  omega

end Parts

def all (test : Value → Bool) (v : Value) : Bool := v.nodes.all test

section All

variable {test : Value → Bool}

theorem all_array {items : List Value} : (Value.array items).all test ↔
    test (.array items) ∧ ∀ item ∈ items, item.all test := by
  simp [all, nodes_array, List.all_flatMap]

theorem all_object {entries : List (String × Value)} : (Value.object entries).all test ↔
    test (.object entries) ∧ ∀ entry ∈ entries, entry.2.all test := by
  simp [all, nodes_object, List.all_flatMap]

theorem sole_entry {key : String} {v : Value} (h : (Value.object [(key, v)]).all test) :
    v.all test ∧ v.height < (Value.object [(key, v)]).height :=
  ⟨(all_object.1 h).2 _ List.mem_cons_self, height_lt_object (List.mem_singleton_self (key, v))⟩

end All

def functionFree : Value → Bool := all fun v => v.kind ≠ .function

/-- Whether a document can hold the value: it has no functions, its numbers are finite, and the keys
of each object are distinct. -/
def isData : Value → Bool :=
  all fun
    | .function _ => false
    | .number x => x.isFinite
    | .object entries => (Entries.keys entries).Nodup
    | _ => true

theorem functionFree_of_isData {v : Value} (h : v.isData) : v.functionFree := by
  refine List.all_eq_true.2 fun w hw => ?_
  have htest := List.all_eq_true.1 h w hw
  cases w <;> first | rfl | cases htest

/-- The strings of a value and the keys of its objects. -/
def texts (v : Value) : List String :=
  v.nodes.flatMap fun
    | .string s => [s]
    | .object entries => Entries.keys entries
    | _ => []

/-- The keys of objects that have no other one. -/
def soleKeys (v : Value) : List String :=
  v.nodes.flatMap fun
    | .object [(key, _)] => [key]
    | _ => []

section Texts

variable {v w : Value} {items : List Value} {entries : List (String × Value)}
  {entry : String × Value}

theorem nodes_subset_array (h : w ∈ items) : w.nodes ⊆ (Value.array items).nodes := by
  intro node hnode
  rw [nodes_array]
  exact List.mem_cons_of_mem _ (List.mem_flatMap.2 ⟨w, h, hnode⟩)

theorem nodes_subset_object (h : entry ∈ entries) :
    entry.2.nodes ⊆ (Value.object entries).nodes := by
  intro node hnode
  rw [nodes_object]
  exact List.mem_cons_of_mem _ (List.mem_flatMap.2 ⟨entry, h, hnode⟩)

theorem texts_subset (h : w.nodes ⊆ v.nodes) : w.texts ⊆ v.texts := by
  intro s hs
  obtain ⟨node, hnode, hs⟩ := List.mem_flatMap.1 hs
  exact List.mem_flatMap.2 ⟨node, h hnode, hs⟩

theorem soleKeys_subset (h : w.nodes ⊆ v.nodes) : w.soleKeys ⊆ v.soleKeys := by
  intro s hs
  obtain ⟨node, hnode, hs⟩ := List.mem_flatMap.1 hs
  exact List.mem_flatMap.2 ⟨node, h hnode, hs⟩

theorem key_mem_texts (h : entry ∈ entries) : entry.1 ∈ (Value.object entries).texts := by
  simp only [texts, nodes_object, List.flatMap_cons]
  exact List.mem_append_left _ (List.mem_map_of_mem h)

theorem mem_soleKeys {key : String} : key ∈ (Value.object [(key, v)]).soleKeys := by
  simp [soleKeys, nodes_object]

end Texts

end Value

end JsonStencil
