import JsonStencil.Proofs.Numeric.FloatText
import JsonStencil.Proofs.Text.Search
import JsonStencil.Proofs.Value.Nodes
import JsonStencil.Template.Source

/-!
# Pointers into a value

The values in a value in document order, each with the keys and positions that lead to it. A pointer
is the text of these. It is read back as the same keys and positions, and following them through
distinct keys gives the value that they lead to.
-/

namespace JsonStencil

namespace CompileError

/-- A key or position without the escapes of a pointer. A tilde stands in escapes only. -/
def unescapeSegment? : List Char → Option (List Char)
  | [] => some []
  | '~' :: '0' :: cs => (unescapeSegment? cs).map ('~' :: ·)
  | '~' :: '1' :: cs => (unescapeSegment? cs).map ('/' :: ·)
  | '~' :: _ => none
  | c :: cs => (unescapeSegment? cs).map (c :: ·)

/-- The keys and positions that a pointer names, each of them behind a slash. -/
def readPath? (pointer : String) : Option (List String) :=
  match pointer.toList with
  | [] => some []
  | '/' :: cs => (cs.splitOn '/').mapM fun segment => (unescapeSegment? segment).map .ofList
  | _ => none

def escapedSegment (segment : String) : List Char := (pathSegment segment).tail

theorem unescapeSegment?_cons {c : Char} (h : c ≠ '~') (cs : List Char) :
    unescapeSegment? (c :: cs) = (unescapeSegment? cs).map (c :: ·) := by
  conv_lhs => unfold unescapeSegment?
  split <;> simp_all

theorem unescapeSegment?_escapedSegment (segment : String) :
    unescapeSegment? (escapedSegment segment) = some segment.toList := by
  rw [escapedSegment, pathSegment, List.tail_cons]
  induction segment.toList with
  | nil => rfl
  | cons c cs ih =>
    rw [List.flatMap_cons]
    split_ifs with htilde hslash
    · simp [unescapeSegment?, ih, htilde]
    · simp [unescapeSegment?, ih, hslash]
    · rw [List.singleton_append, unescapeSegment?_cons htilde, ih, Option.map_some]

theorem slash_notMem_escapedSegment (segment : String) : '/' ∉ escapedSegment segment := by
  rw [escapedSegment, pathSegment, List.tail_cons, List.mem_flatMap]
  rintro ⟨c, -, hc⟩
  split_ifs at hc with htilde hslash
  · simp at hc
  · simp at hc
  · exact hslash (List.mem_singleton.1 hc).symm

theorem flatMap_pathSegment (segment : String) (path : List String) :
    (segment :: path).flatMap pathSegment =
      '/' :: ['/'].intercalate ((segment :: path).map escapedSegment) := by
  induction path generalizing segment with
  | nil => simp [escapedSegment, pathSegment]
  | cons next path ih =>
    rw [List.flatMap_cons, ih, List.map_cons, List.map_cons, List.map_cons,
      List.intercalate_cons_cons]
    simp [escapedSegment, pathSegment]

theorem readPath?_pathText (path : List String) : readPath? (pathText path) = some path := by
  rw [readPath?, pathText, String.toList_ofList]
  cases path with
  | nil => rfl
  | cons segment path =>
    have hslash : ∀ cs ∈ (segment :: path).map escapedSegment, '/' ∉ cs := by
      intro cs hcs
      obtain ⟨s, -, rfl⟩ := List.mem_map.1 hcs
      exact slash_notMem_escapedSegment s
    have hmap (path : List String) : ((path.map escapedSegment).mapM fun segment =>
        (unescapeSegment? segment).map String.ofList) = some path := by
      induction path with
      | nil => rfl
      | cons s path ih => simp [List.mapM_cons, unescapeSegment?_escapedSegment, ih]
    have hsplit := List.splitOn_intercalate '/' hslash (List.cons_ne_nil _ _)
    rw [flatMap_pathSegment]
    simp only [hsplit, hmap]

end CompileError

namespace Value

/-- A value in another one: the keys and positions that lead to it, and its key if it is the only
entry of an object. -/
structure Site where
  path : List String
  value : Value
  soleKey : Option String

def soleKey? : List (String × Value) → Option String
  | [(key, _)] => some key
  | _ => none

theorem eq_singleton_of_soleKey? {entries : List (String × Value)} {key : String}
    (h : soleKey? entries = some key) : ∃ v, entries = [(key, v)] := by
  match entries, h with
  | [(_, v)], rfl => exact ⟨v, rfl⟩

mutual

/-- A value under a path and all values in it, in document order. -/
def sitesAt (path : List String) (soleKey : Option String) : Value → List Site
  | .array items => ⟨path, .array items, soleKey⟩ :: itemSites path 0 items
  | .object entries =>
    ⟨path, .object entries, soleKey⟩ :: entrySites path (soleKey? entries) entries
  | v => [⟨path, v, soleKey⟩]

def itemSites (path : List String) (position : Nat) : List Value → List Site
  | [] => []
  | item :: items =>
    item.sitesAt (path ++ [toString position]) none ++ itemSites path (position + 1) items

def entrySites (path : List String) (soleKey : Option String) :
    List (String × Value) → List Site
  | [] => []
  | (key, v) :: entries => v.sitesAt (path ++ [key]) soleKey ++ entrySites path soleKey entries

end

def sites (v : Value) : List Site := v.sitesAt [] none

/-- A position as it is written in digits, without zeros in front. -/
def writtenPosition? (cs : List Char) : Option Nat :=
  (Decimal.readNat? cs).filter fun n => Nat.toDigits 10 n = cs

/-- What stands in a value under some keys and positions. -/
def follow? : List String → Value → Option Value
  | [], v => some v
  | key :: path, .object entries => (Entries.get? entries key).bind (follow? path)
  | position :: path, .array items =>
    (writtenPosition? position.toList).bind fun i => items[i]?.bind (follow? path)
  | _ :: _, _ => none

def distinctKeys : Value → Bool :=
  all fun
    | .object entries => (Entries.keys entries).Nodup
    | _ => true

theorem writtenPosition?_toString (n : Nat) : writtenPosition? (toString n).toList = some n := by
  simp [writtenPosition?, Decimal.readNat?_toDigits]

theorem get?_of_mem {entries : List (String × Value)} (h : (Entries.keys entries).Nodup)
    {key : String} {v : Value} (hv : (key, v) ∈ entries) : Entries.get? entries key = some v := by
  obtain ⟨before, behind, rfl⟩ := List.append_of_mem hv
  rw [Entries.keys, List.map_append, List.map_cons] at h
  refine List.lookup_eq_some_iff.2 ⟨before, behind, rfl, fun entry hentry => ?_⟩
  have hne := (List.nodup_append.1 h).2.2 entry.1 (List.mem_map_of_mem hentry) key
    List.mem_cons_self
  simpa using Ne.symm hne

section Follow

variable {n : Site} {path : List String} {soleKey : Option String}

theorem mem_itemSites {position : Nat} {items : List Value}
    (h : n ∈ itemSites path position items) :
    ∃ i, ∃ item : Value, items[i]? = some item ∧
      n ∈ item.sitesAt (path ++ [toString (position + i)]) none := by
  induction items generalizing position with
  | nil => cases h
  | cons item items ih =>
    rcases List.mem_append.1 h with h | h
    · exact ⟨0, item, rfl, h⟩
    · obtain ⟨i, item, hitem, h⟩ := ih h
      exact ⟨i + 1, item, hitem, by rwa [← Nat.add_assoc, Nat.add_right_comm]⟩

theorem mem_entrySites {entries : List (String × Value)} (h : n ∈ entrySites path soleKey entries) :
    ∃ entry ∈ entries, n ∈ entry.2.sitesAt (path ++ [entry.1]) soleKey := by
  induction entries with
  | nil => cases h
  | cons entry entries ih =>
    rcases List.mem_append.1 h with h | h
    · exact ⟨entry, List.mem_cons_self, h⟩
    · obtain ⟨entry, hentry, h⟩ := ih h
      exact ⟨entry, List.mem_cons_of_mem _ hentry, h⟩

/-- The way to a value goes on below the path that the listing starts from. -/
theorem follow?_of_mem_sitesAt {v : Value} {path : List String} {soleKey : Option String}
    (hkeys : v.distinctKeys) (h : n ∈ v.sitesAt path soleKey) :
    ∃ rest, n.path = path ++ rest ∧ v.follow? rest = some n.value := by
  have hself (hn : n = ⟨path, v, soleKey⟩) :
      ∃ rest, n.path = path ++ rest ∧ v.follow? rest = some n.value :=
    ⟨[], by rw [hn, List.append_nil], by rw [hn, follow?.eq_1]⟩
  match v, hkeys, h with
  | .array items, hkeys, h =>
    rcases List.mem_cons.1 h with h | h
    · exact hself h
    · obtain ⟨i, item, hitem, h⟩ := mem_itemSites h
      have hmem := List.mem_of_getElem? hitem
      obtain ⟨rest, hpath, hvalue⟩ := follow?_of_mem_sitesAt ((all_array.1 hkeys).2 item hmem) h
      refine ⟨toString i :: rest, by simp [hpath], ?_⟩
      rw [follow?, writtenPosition?_toString, Option.bind_some, hitem, Option.bind_some, hvalue]
  | .object entries, hkeys, h =>
    rcases List.mem_cons.1 h with h | h
    · exact hself h
    · obtain ⟨hnodup, hkeys⟩ := all_object.1 hkeys
      obtain ⟨⟨key, w⟩, hentry, h⟩ := mem_entrySites h
      obtain ⟨rest, hpath, hvalue⟩ := follow?_of_mem_sitesAt (hkeys _ hentry) h
      refine ⟨key :: rest, by simp [hpath], ?_⟩
      rw [follow?, get?_of_mem (of_decide_eq_true hnodup) hentry, Option.bind_some, hvalue]
  | .null, _, h | .bool _, _, h | .number _, _, h | .string _, _, h | .function _, _, h =>
    exact hself (List.mem_singleton.1 h)
termination_by sizeOf v
decreasing_by
  · exact sizeOf_lt_array hmem
  · exact sizeOf_lt_object hentry

end Follow

/-- A pointer to a value leads to that value. -/
theorem follow?_of_mem_sites {v : Value} (hkeys : v.distinctKeys) {n : Site} (h : n ∈ v.sites) :
    v.follow? n.path = some n.value := by
  obtain ⟨rest, hpath, hvalue⟩ := follow?_of_mem_sitesAt hkeys h
  rwa [hpath, List.nil_append]

end Value

end JsonStencil
