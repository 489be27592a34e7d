import JsonStencil.Entries

/-!
# Entries that are inserted, removed and mapped

What stands under a key after other entries were inserted or removed, and mapping of values under
unchanged keys.
-/

namespace JsonStencil.Entries

section Lookup

variable {α : Type} {entries : Entries α} {key name : String}

theorem get?_cons (key : String) (entry : String × α) (entries : Entries α) :
    get? (entry :: entries) key = if key = entry.1 then some entry.2 else get? entries key := by
  obtain ⟨k, v⟩ := entry
  by_cases h : key = k
  · simp [get?, h]
  · simp [get?, List.lookup_cons, beq_eq_false_iff_ne.2 h, h]

theorem get?_insert (v : α) :
    get? (insert key v entries) name = if name = key then some v else get? entries name := by
  induction entries with
  | nil => exact get?_cons name (key, v) []
  | cons entry entries ih =>
    obtain ⟨k, w⟩ := entry
    rw [insert]
    by_cases hk : k = key
    · subst hk
      rw [if_pos rfl, get?_cons, get?_cons]
      by_cases hname : name = k
      · rw [if_pos hname, if_pos hname]
      · rw [if_neg hname, if_neg hname, if_neg hname]
    · rw [if_neg hk, get?_cons, get?_cons, ih]
      by_cases hname : name = k
      · rw [if_pos hname, if_neg (hname ▸ hk), if_pos hname]
      · rw [if_neg hname, if_neg hname]

theorem get?_remove_of_ne (h : name ≠ key) :
    get? (remove entries key) name = get? entries name := by
  induction entries with
  | nil => rfl
  | cons entry entries ih =>
    rw [remove] at ih ⊢
    by_cases hk : entry.1 = key
    · rw [List.filter_cons_of_neg (by simpa using hk), ih, get?_cons, if_neg (hk ▸ h)]
    · rw [List.filter_cons_of_pos (by simpa using hk), get?_cons, get?_cons, ih]

theorem mem_insert {v : α} {entry : String × α} (h : entry ∈ insert key v entries) :
    entry = (key, v) ∨ entry ∈ entries := by
  induction entries with
  | nil => exact .inl (List.mem_singleton.1 h)
  | cons first entries ih =>
    rw [insert] at h
    split at h
    next hk =>
      rcases List.mem_cons.1 h with rfl | h
      · exact .inl (by rw [hk])
      · exact .inr (List.mem_cons_of_mem _ h)
    · rcases List.mem_cons.1 h with rfl | h
      · exact .inr List.mem_cons_self
      · exact (ih h).imp_right (List.mem_cons_of_mem _)

theorem mem_ofPairs {pairs : List (String × α)} {entry : String × α} (h : entry ∈ ofPairs pairs) :
    entry ∈ pairs := by
  suffices ∀ entries : Entries α,
      entry ∈ pairs.foldl (fun entries pair => entries.insert pair.1 pair.2) entries →
        entry ∈ entries ∨ entry ∈ pairs from (this [] h).resolve_left List.not_mem_nil
  clear h
  induction pairs with
  | nil => exact fun _ h => .inl h
  | cons pair pairs ih =>
    intro entries h
    rcases ih _ h with h | h
    · rcases mem_insert h with rfl | h
      · exact .inr List.mem_cons_self
      · exact .inl h
    · exact .inr (List.mem_cons_of_mem _ h)

end Lookup

section MapValues

variable {α β : Type} (f : α → β) (entries : Entries α)

def mapValues : Entries β := entries.map (Prod.map id f)

@[simp] theorem keys_mapValues : (mapValues f entries).keys = entries.keys := by
  simp [mapValues, keys, Function.comp_def]

theorem mapValues_cons (entry : String × α) :
    mapValues f (entry :: entries) = (entry.1, f entry.2) :: mapValues f entries := rfl

@[simp] theorem get?_mapValues (key : String) :
    get? (mapValues f entries) key = (get? entries key).map f := by
  induction entries with
  | nil => rfl
  | cons entry entries ih =>
    rw [mapValues_cons, get?_cons, get?_cons, ih]
    split <;> rfl

theorem insert_mapValues (key : String) (v : α) :
    insert key (f v) (mapValues f entries) = mapValues f (insert key v entries) := by
  induction entries with
  | nil => rfl
  | cons entry entries ih =>
    rw [mapValues_cons, insert, insert, ih]
    split <;> rfl

theorem ofPairs_mapValues (pairs : List (String × α)) :
    ofPairs (mapValues f pairs) = mapValues f (ofPairs pairs) := by
  suffices ∀ entries : Entries α,
      (mapValues f pairs).foldl (fun entries pair => insert pair.1 pair.2 entries)
          (mapValues f entries) =
        mapValues f (pairs.foldl (fun entries pair => insert pair.1 pair.2 entries) entries) from
    this []
  induction pairs with
  | nil => exact fun _ => rfl
  | cons pair pairs ih =>
    intro entries
    rw [List.foldl_cons, ← ih, ← insert_mapValues]
    rfl

end MapValues

end JsonStencil.Entries
