import JsonStencil.Builtin
import JsonStencil.Proofs.Value.Indexing
import Mathlib.Data.List.Nodup

/-!
# Keys and values of collections

An array or object has as many keys as values, which is its length. Its keys are distinct, each of
them leads to the value at the same place, and inserting the values under the keys gives the object
again.
-/

namespace JsonStencil

attribute [local instance (high)] instPowNat

theorem Binary64.toSafeInt?_ofNat {n : Nat} (h : n < 2 ^ precision) :
    (ofNat n).toSafeInt? = some n := by
  rw [ofNat_eq_finite h, toSafeInt?, Nat.mul_div_cancel _ one_pos,
    if_pos ⟨Nat.mul_mod_left _ _, h⟩]
  rfl

namespace Entries

variable {α : Type} {entries : Entries α} {i : Nat} {key : String} {v : α}

theorem zip_keys_values (entries : Entries α) : entries.keys.zip entries.values = entries := by
  rw [keys, values, List.zip_map', List.map_id']

theorem mem_of_getElem? (hkey : entries.keys[i]? = some key) (hv : entries.values[i]? = some v) :
    (key, v) ∈ entries := by
  rw [keys, List.getElem?_map, Option.map_eq_some_iff] at hkey
  rw [values, List.getElem?_map, Option.map_eq_some_iff] at hv
  obtain ⟨entry, hentry, rfl⟩ := hkey
  obtain ⟨entry', hentry', rfl⟩ := hv
  cases hentry.symm.trans hentry'
  exact List.mem_of_getElem? hentry

end Entries

namespace Value

section Positions

theorem readPosition?_toString (i : Nat) : readPosition? (toString i) = some i :=
  readPosition?_of_toDigits Nat.toList_repr

theorem toString_injective : Function.Injective (toString : Nat → String) := by
  intro i j h
  have hread := readPosition?_toString i
  rw [h, readPosition?_toString j] at hread
  exact (Option.some.inj hread).symm

theorem toString_ne_length (i : Nat) : toString i ≠ "length" := by
  intro h
  have hread := readPosition?_toString i
  rw [h] at hread
  cases hread

theorem getProperty_toString {items : List Value} {i : Nat} {item : Value}
    (h : items[i]? = some item) : (Value.array items).getProperty (toString i) = .ok item := by
  rw [getProperty_array (toString_ne_length i), readPosition?_toString, Option.bind_some, h]
  rfl

end Positions

/-- An array or object with the number of its items or entries. The entries of an object are what
insertions one after the other make. -/
inductive Collection : Nat → Value → Prop
  | array (items : List Value) : Collection items.length (.array items)
  | object (pairs : List (String × Value)) :
      Collection (Entries.ofPairs pairs).length (.object (Entries.ofPairs pairs))

/-- Keys and values are as many as the length tells, the keys are distinct, and each value is found
under the key at its place. -/
theorem keys_values_laws {n : Nat} {v : Value} (hv : Collection n v) (hn : n < 2 ^ (53 : Nat)) :
    ∃ (names : List String) (items : List Value) (x : Binary64),
      Builtin.keys.apply [v] = .ok (.array (names.map .string)) ∧
      Builtin.values.apply [v] = .ok (.array items) ∧
      Builtin.len.apply [v] = .ok (.number x) ∧
      names.length = n ∧ items.length = n ∧ x.toSafeInt? = some n ∧ names.Nodup ∧
      (∀ (i : Nat) (name : String) (item : Value),
        names[i]? = some name → items[i]? = some item →
          v.getIndex (.string name) = .ok item ∧ v.getProperty name = .ok item) ∧
      ∀ entries, v = .object entries → Entries.ofPairs (names.zip items) = entries := by
  have hlength := Binary64.toSafeInt?_ofNat hn
  cases hv with
  | array items =>
    refine ⟨(List.range items.length).map toString, items, .ofNat items.length, ?_, rfl, rfl, ?_,
      rfl, hlength, ?_, ?_, nofun⟩
    · rw [List.map_map]
      rfl
    · rw [List.length_map, List.length_range]
    · exact List.Nodup.map toString_injective List.nodup_range
    · intro i name item hname hitem
      rw [List.getElem?_map, Option.map_eq_some_iff] at hname
      obtain ⟨j, hj, rfl⟩ := hname
      obtain ⟨hi, rfl⟩ := List.getElem?_eq_some_iff.1 hj
      rw [List.getElem_range]
      exact ⟨getProperty_toString hitem, getProperty_toString hitem⟩
  | object pairs =>
    have hnodup := Entries.nodup_keys_ofPairs pairs
    generalize Entries.ofPairs pairs = entries at hnodup hlength ⊢
    refine ⟨entries.keys, entries.values, .ofNat entries.length, rfl, rfl, rfl, ?_, ?_, hlength,
      hnodup, ?_, ?_⟩
    · exact List.length_map _
    · exact List.length_map _
    · intro i name item hname hitem
      have hfound := get?_of_mem hnodup (Entries.mem_of_getElem? hname hitem)
      have hproperty : (Value.object entries).getProperty name = .ok item := by
        rw [getProperty, hfound]
        rfl
      exact ⟨hproperty, hproperty⟩
    · rintro entries' heq
      cases heq
      rw [Entries.zip_keys_values, Entries.ofPairs_eq_self hnodup]

theorem keys_values_laws_length :
    let v : Value := .object [("length", .null), ("1", .bool true)]
    Collection 2 v ∧ 2 < 2 ^ (53 : Nat) ∧
      Builtin.keys.apply [v] = .ok (.array [.string "length", .string "1"]) ∧
      Builtin.values.apply [v] = .ok (.array [.null, .bool true]) ∧
      v.getIndex (.string "length") = .ok .null ∧ v.getProperty "1" = .ok (.bool true) := by
  intro v
  have hv : Collection 2 v :=
    .object [("length", .bool false), ("1", .bool true), ("length", .null)]
  have hn : 2 < 2 ^ (53 : Nat) := by decide
  obtain ⟨names, items, -, hkeys, hvalues, -, -, -, -, -, hfind, -⟩ := keys_values_laws hv hn
  have hnames : names = ["length", "1"] := by
    have hmap : names.map Value.string = ["length", "1"].map Value.string := by
      injection hkeys with hkeys
      injection hkeys with hkeys
      exact hkeys.symm
    exact List.map_injective_iff.2 (fun _ _ h => string.inj h) hmap
  subst hnames
  cases hvalues
  exact ⟨hv, hn, hkeys, rfl, (hfind 0 _ _ rfl rfl).1, (hfind 1 _ _ rfl rfl).2⟩

end Value

end JsonStencil
