/-!
# Ordered entries

Entries are pairs of a key and a value in insertion order. A key that is inserted again keeps its
position and takes the new value, so keys stay distinct.
-/

namespace JsonStencil

abbrev Entries (α : Type) := List (String × α)

namespace Entries

variable {α : Type}

def keys (entries : Entries α) : List String := entries.map (·.1)

def values (entries : Entries α) : List α := entries.map (·.2)

def get? (entries : Entries α) (key : String) : Option α := List.lookup key entries

def insert (key : String) (value : α) : Entries α → Entries α
  | [] => [(key, value)]
  | (k, v) :: entries =>
    if k = key then (k, value) :: entries else (k, v) :: insert key value entries

def ofPairs (pairs : List (String × α)) : Entries α :=
  pairs.foldl (fun entries pair => entries.insert pair.1 pair.2) []

def remove (entries : Entries α) (key : String) : Entries α := entries.filter (·.1 ≠ key)

theorem keys_insert (key : String) (value : α) (entries : Entries α) :
    (entries.insert key value).keys =
      if key ∈ entries.keys then entries.keys else entries.keys ++ [key] := by
  induction entries with
  | nil => rfl
  | cons entry entries ih =>
    obtain ⟨k, v⟩ := entry
    by_cases h : k = key
    · simp [insert, keys, h]
    · have ih' := ih
      simp only [keys, List.mem_map] at ih'
      by_cases hm : ∃ a ∈ entries, a.1 = key <;> simp_all [insert, keys, Ne.symm h]

theorem nodup_keys_insert {key : String} {value : α} {entries : Entries α}
    (h : entries.keys.Nodup) : (entries.insert key value).keys.Nodup := by
  rw [keys_insert]
  split
  · exact h
  · next hk =>
    rw [List.nodup_append]
    exact ⟨h, by simp, fun a ha b hb hab => hk (by simp_all)⟩

theorem nodup_keys_ofPairs (pairs : List (String × α)) : (ofPairs pairs).keys.Nodup := by
  suffices ∀ entries : Entries α, entries.keys.Nodup →
      (pairs.foldl (fun entries pair => entries.insert pair.1 pair.2) entries).keys.Nodup from
    this [] List.nodup_nil
  induction pairs with
  | nil => exact fun _ h => h
  | cons pair pairs ih => exact fun _ h => ih _ (nodup_keys_insert h)

theorem insert_eq_append {key : String} {value : α} {entries : Entries α}
    (h : key ∉ entries.keys) : entries.insert key value = entries ++ [(key, value)] := by
  induction entries with
  | nil => rfl
  | cons entry entries ih =>
    obtain ⟨k, v⟩ := entry
    simp only [keys, List.map_cons, List.mem_cons, not_or] at h
    rw [insert, if_neg (Ne.symm h.1), ih h.2, List.cons_append]

theorem ofPairs_eq_self {pairs : List (String × α)} (h : (keys pairs).Nodup) :
    ofPairs pairs = pairs := by
  -- the entries met so far are all in front, and none of them is met again
  suffices ∀ entries : Entries α, (keys (entries ++ pairs)).Nodup →
      pairs.foldl (fun entries pair => entries.insert pair.1 pair.2) entries = entries ++ pairs from
    this [] h
  clear h
  induction pairs with
  | nil => exact fun entries _ => (List.append_nil entries).symm
  | cons pair pairs ih =>
    intro entries h
    have hnew : pair.1 ∉ entries.keys := by
      intro hm
      simp only [keys, List.map_append, List.map_cons] at h hm
      exact (List.nodup_append.1 h).2.2 _ hm _ List.mem_cons_self rfl
    rw [List.foldl_cons, insert_eq_append hnew, ih _ (by simpa using h), List.append_assoc]
    rfl

end Entries

end JsonStencil
