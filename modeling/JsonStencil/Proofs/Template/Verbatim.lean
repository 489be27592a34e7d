import JsonStencil.Proofs.Template.Meaning

/-!
# Templates that stand for a fixed value

The form of a value has no placeholders and no calls. A template with this form compiles, and every
call of it gives the value back.
-/

namespace JsonStencil

namespace Template

/-- The parts of a text without placeholders. -/
def verbatim (s : String) : List (Part Placeholder) := Part.gather [] (s.toList.map .inl)

theorem verbatim_eq (s : String) : verbatim s = if s.toList.isEmpty then [] else [.text s] := by
  have hgather := Part.gather_chars (α := Placeholder) s.toList [] []
  rw [List.append_nil] at hgather
  simp [verbatim, hgather, Part.gather, Part.ofReversed]

theorem verbatim_inj {s t : String} : verbatim s = verbatim t ↔ s = t := by
  refine ⟨fun h => ?_, fun h => h ▸ rfl⟩
  have hpieces := congrArg (List.flatMap Part.pieces) h
  rw [verbatim, verbatim, Part.flatMap_pieces_gather, Part.flatMap_pieces_gather] at hpieces
  exact String.toList_inj.1 (List.map_injective_iff.2 (fun _ _ => Sum.inl.inj) hpieces)

namespace Form

mutual

/-- The form of a value that stands for itself. -/
def ofValue : Value → Form
  | .null => .null
  | .bool b => .bool b
  | .number x => .number x
  | .string s => .text (verbatim s)
  | .array items => .array (ofItems items)
  | .object entries => .object (ofEntries entries)
  | .function _ => .null

def ofItems : List Value → List Form
  | [] => []
  | item :: items => ofValue item :: ofItems items

def ofEntries : List (String × Value) → List (List (Part Placeholder) × Form)
  | [] => []
  | (key, v) :: entries => (verbatim key, ofValue v) :: ofEntries entries

end

theorem ofItems_eq_map (items : List Value) : ofItems items = items.map ofValue := by
  induction items with
  | nil => rfl
  | cons item items ih => rw [ofItems, ih, List.map_cons]

theorem ofEntries_eq_map (entries : List (String × Value)) :
    ofEntries entries = entries.map fun entry => (verbatim entry.1, ofValue entry.2) := by
  induction entries with
  | nil => rfl
  | cons entry entries ih => rw [ofEntries, ih, List.map_cons]

end Form

section Plain

theorem holes_verbatim (s : String) : holes (verbatim s) = [] := by
  rw [verbatim_eq]
  split <;> rfl

namespace Form

mutual

theorem plain_ofValue : ∀ v : Value, (ofValue v).placeholders = [] ∧ (ofValue v).callNames = []
  | .null => ⟨rfl, rfl⟩
  | .bool _ => ⟨rfl, rfl⟩
  | .number _ => ⟨rfl, rfl⟩
  | .string s => ⟨holes_verbatim s, rfl⟩
  | .function _ => ⟨rfl, rfl⟩
  | .array items => plain_ofItems items
  | .object entries => plain_ofEntries entries

theorem plain_ofItems : ∀ items : List Value,
    itemPlaceholders (ofItems items) = [] ∧ itemCallNames (ofItems items) = []
  | [] => ⟨rfl, rfl⟩
  | item :: items => by
    simp [ofItems, itemPlaceholders, itemCallNames, plain_ofValue item, plain_ofItems items]

theorem plain_ofEntries : ∀ entries : List (String × Value),
    entryPlaceholders (ofEntries entries) = [] ∧ entryCallNames (ofEntries entries) = []
  | [] => ⟨rfl, rfl⟩
  | (key, v) :: entries => by
    simp [ofEntries, entryPlaceholders, entryCallNames, holes_verbatim, plain_ofValue v,
      plain_ofEntries entries]

end

end Form

end Plain

section Meaning

variable {σ : Type} (env : Environment σ)

theorem textMeaning_verbatim (s : String) : textMeaning env (verbatim s) = pure (.string s) := by
  rw [verbatim_eq]
  split
  next h =>
    have hs : s = "" := by simpa using h
    subst hs
    rfl
  next => simp only [textMeaning, joinedMeaning, pure_bind, String.append_empty]

namespace Form

open Value

mutual

theorem meaning_ofValue : ∀ v : Value, v.isData → (ofValue v).meaning env = pure v
  | .null, _ => rfl
  | .bool b, _ => rfl
  | .number (.finite ..), _ => rfl
  | .string s, _ => textMeaning_verbatim env s
  | .array items, h => by
    simp only [ofValue, meaning, meaning_ofItems items (all_array.1 h).2, pure_bind]
  | .object entries, h => by
    obtain ⟨hkeys, hentries⟩ := all_object.1 h
    simp only [ofValue, meaning, meaning_ofEntries entries hentries, pure_bind]
    rw [Entries.ofPairs_eq_self (of_decide_eq_true hkeys)]

theorem meaning_ofItems : ∀ items : List Value, (∀ item ∈ items, item.isData) →
    itemMeanings env (ofItems items) = pure items
  | [], _ => rfl
  | item :: items, h => by
    obtain ⟨hitem, hitems⟩ := List.forall_mem_cons.1 h
    simp only [ofItems, itemMeanings, meaning_ofValue item hitem, meaning_ofItems items hitems,
      pure_bind]

theorem meaning_ofEntries : ∀ entries : List (String × Value),
    (∀ entry ∈ entries, entry.2.isData) → entryMeanings env (ofEntries entries) = pure entries
  | [], _ => rfl
  | (key, v) :: entries, h => by
    obtain ⟨hv, hentries⟩ := List.forall_mem_cons.1 h
    simp only [ofEntries, entryMeanings, textMeaning_verbatim, meaning_ofValue v hv,
      meaning_ofEntries entries hentries, pure_bind]
    rfl

end

end Form

end Meaning

theorem eq_ok_of_cause {σ α : Type} {x : Evaluation σ α} {a : α} {w : World σ}
    (h : Evaluation.cause x w = .ok a w) : x w = .ok a w := by
  simp only [Evaluation.cause, EStateM.adaptExcept] at h
  cases hx : x w with
  | error e t =>
    rw [hx] at h
    cases h
  | ok b t =>
    rw [hx] at h
    cases h
    rfl

/-- A template with the form of a value compiles, and every call gives the value and leaves the
world as it was. -/
theorem compile_of_form_eq {o : TemplateOptions} {template v : Value}
    (hfree : template.functionFree) (hheight : template.height ≤ maxTemplateDepth)
    (hform : form o template = .ofValue v) (hv : v.isData) :
    ∃ exe, Executable.compile o template = .ok exe ∧
      ∀ (σ : Type) (env : Environment σ) (w : World σ), exe.call env w = .ok v w := by
  obtain ⟨cs, hcs⟩ := exists_source (o := o) [] hfree (by omega : 0 + template.height ≤ _)
  have hspells : Spells (Phrases.Expression (budgetAt 1 0)) cs (form o template).tree := by
    obtain ⟨hplaceholders, hnames⟩ := Form.plain_ofValue v
    refine spells_source (Nat.le_refl 1) (by decide) hcs ?_ ?_
    · simp [hform, hplaceholders]
    · simp [hform, hnames]
  rw [hform] at hspells
  obtain ⟨e, he, htree⟩ := hspells.parse_eq_ok (by decide)
  refine ⟨_, compile_eq_ok hcs he, fun σ env w => eq_ok_of_cause ?_⟩
  rw [cause_call ⟨.ofList cs, e⟩ htree env, Form.meaning_ofValue env v hv]
  rfl

end Template

end JsonStencil
