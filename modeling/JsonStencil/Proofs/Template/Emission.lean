import JsonStencil.Proofs.Value.Nodes
import JsonStencil.SyntaxError
import JsonStencil.Template.Source
import Mathlib.Logic.Basic

/-!
# The source of a template by its cases

A template is a scalar, a list, an object whose keys stand as they are, an object under an escaped
key, or a call of a list or of another value. Its source is equal to the source of these parts put
together, and it has one unless it nests too deeply or holds a function.
-/

namespace JsonStencil

namespace Template

open Value

variable {o : TemplateOptions} {path : List String} {depth position : Nat} {cs : List Char}

/-- The cases of an induction over the parts of a template. -/
theorem induction (o : TemplateOptions) {motive : Value → Prop}
    (null : motive .null) (bool : ∀ b, motive (.bool b)) (number : ∀ x, motive (.number x))
    (string : ∀ s, motive (.string s)) (function : ∀ f, motive (.function f))
    (array : ∀ items, (∀ item ∈ items, motive item) → motive (.array items))
    (object : ∀ entries, (∀ key v, entries = [(key, v)] → keyRole o key = .property) →
      (∀ entry ∈ entries, motive entry.2) → motive (.object entries))
    (escaped : ∀ key name v, keyRole o key = .escaped name → motive v → motive (.object [(key, v)]))
    (callItems : ∀ key name items, keyRole o key = .call name → (∀ item ∈ items, motive item) →
      motive (.object [(key, .array items)]))
    (call : ∀ key name v, keyRole o key = .call name → (∀ items, v ≠ .array items) → motive v →
      motive (.object [(key, v)]))
    (v : Value) : motive v := by
  induction hsize : sizeOf v using Nat.strongRecOn generalizing v with
  | ind size ih =>
    subst hsize
    replace ih : ∀ w : Value, sizeOf w < sizeOf v → motive w := fun w hw => ih _ hw w rfl
    cases v with
    | null => exact null
    | bool b => exact bool b
    | number x => exact number x
    | string s => exact string s
    | function f => exact function f
    | array items => exact array items fun item hitem => ih item (sizeOf_lt_array hitem)
    | object entries =>
      -- only an object with a single entry can be something else than it seems
      by_cases hrole : ∃ key v, entries = [(key, v)] ∧ keyRole o key ≠ .property
      · obtain ⟨key, v, rfl, hrole⟩ := hrole
        have hlt : sizeOf v < sizeOf (Value.object [(key, v)]) :=
          sizeOf_lt_object (List.mem_singleton_self (key, v))
        cases hkey : keyRole o key with
        | property => exact (hrole hkey).elim
        | escaped name => exact escaped key name v hkey (ih v hlt)
        | call name =>
          by_cases hv : ∃ items, v = .array items
          · obtain ⟨items, rfl⟩ := hv
            exact callItems key name items hkey fun item hitem =>
              ih item (Nat.lt_trans (sizeOf_lt_array hitem) hlt)
          · exact call key name v hkey (fun items h => hv ⟨items, h⟩) (ih v hlt)
      · refine object entries (fun key v h => ?_) fun entry hentry =>
          ih entry.2 (sizeOf_lt_object hentry)
        exact Classical.not_not.1 fun hne => hrole ⟨key, v, h, hne⟩

section Equations

/-- A source that is only looked for within the depth limit. -/
theorem within_eq_ok_iff {x : Except CompileError (List Char)} :
    (if maxTemplateDepth < depth then .error (.tooDeep maxTemplateDepth) else x) = .ok cs ↔
      depth ≤ maxTemplateDepth ∧ x = .ok cs := by
  split <;> simp <;> omega

theorem source_null : source o path depth .null = .ok cs ↔
    depth ≤ maxTemplateDepth ∧ "null".toList = cs :=
  within_eq_ok_iff.trans (by rw [Except.ok.injEq])

theorem source_bool {b : Bool} : source o path depth (.bool b) = .ok cs ↔
    depth ≤ maxTemplateDepth ∧ (toString b).toList = cs :=
  within_eq_ok_iff.trans (by rw [Except.ok.injEq])

theorem source_number {x : Binary64} : source o path depth (.number x) = .ok cs ↔
    depth ≤ maxTemplateDepth ∧ numberSource x = cs :=
  within_eq_ok_iff.trans (by rw [Except.ok.injEq])

theorem source_string {s : String} : source o path depth (.string s) = .ok cs ↔
    depth ≤ maxTemplateDepth ∧ (textSource o s).chars = cs :=
  within_eq_ok_iff.trans (by rw [Except.ok.injEq])

theorem source_function {f : Function} : source o path depth (.function f) ≠ .ok cs := by
  intro h
  cases (within_eq_ok_iff.1 h).2

theorem source_array {items : List Value} : source o path depth (.array items) = .ok cs ↔
    depth ≤ maxTemplateDepth ∧ ∃ sources, itemSources o path depth 0 items = .ok sources ∧
      '[' :: commaSeparated sources ++ [']'] = cs :=
  within_eq_ok_iff.trans (by rw [map_eq_ok_iff])

/-- An object whose entries are all written as they are. -/
theorem source_object {entries : List (String × Value)}
    (h : ∀ key v, entries = [(key, v)] → keyRole o key = .property) :
    source o path depth (.object entries) = .ok cs ↔
      depth ≤ maxTemplateDepth ∧ ∃ sources, entrySources o path depth entries = .ok sources ∧
        braced (commaSeparated sources) = cs := by
  match entries with
  | [] => exact within_eq_ok_iff.trans (by rw [map_eq_ok_iff])
  | [(key, v)] =>
    rw [source.eq_def, within_eq_ok_iff]
    refine and_congr_right fun _ => ?_
    simp [h key v rfl, entrySources, map_eq_ok_iff, bind_eq_ok_iff, commaSeparated]
  | first :: second :: entries => exact within_eq_ok_iff.trans (by rw [map_eq_ok_iff])

theorem source_escaped {key : String} {name : List Char} {v : Value}
    (h : keyRole o key = .escaped name) : source o path depth (.object [(key, v)]) = .ok cs ↔
      depth ≤ maxTemplateDepth ∧ ∃ s, source o (key :: path) (depth + 1) v = .ok s ∧
        braced (entrySource (keySource o (.ofList name)) s) = cs := by
  rw [source.eq_def, within_eq_ok_iff]
  refine and_congr_right fun _ => ?_
  simp [h, map_eq_ok_iff]

theorem source_call_array {key : String} {name : List Char} {items : List Value}
    (h : keyRole o key = .call name) :
    source o path depth (.object [(key, .array items)]) = .ok cs ↔
      depth ≤ maxTemplateDepth ∧ ∃ sources,
        itemSources o (key :: path) (depth + 1) 0 items = .ok sources ∧
          name ++ '(' :: commaSeparated sources ++ [')'] = cs := by
  rw [source.eq_def, within_eq_ok_iff]
  refine and_congr_right fun _ => ?_
  simp [h, map_eq_ok_iff]

theorem source_call {key : String} {name : List Char} {v : Value}
    (h : keyRole o key = .call name) (hv : ∀ items, v ≠ .array items) :
    source o path depth (.object [(key, v)]) = .ok cs ↔
      depth ≤ maxTemplateDepth ∧ ∃ s, source o (key :: path) (depth + 1) v = .ok s ∧
        name ++ '(' :: commaSeparated [s] ++ [')'] = cs := by
  rw [source.eq_def, within_eq_ok_iff]
  refine and_congr_right fun _ => ?_
  simp [h, map_eq_ok_iff, commaSeparated]

end Equations

theorem itemSources_cons {item : Value} {items : List Value} {sources : List (List Char)} :
    itemSources o path depth position (item :: items) = .ok sources ↔
      ∃ s rest, source o (toString position :: path) (depth + 1) item = .ok s ∧
        itemSources o path depth (position + 1) items = .ok rest ∧ s :: rest = sources := by
  simp [itemSources, bind_eq_ok_iff]

theorem entrySources_cons {entry : String × Value} {entries : List (String × Value)}
    {sources : List (List Char)} :
    entrySources o path depth (entry :: entries) = .ok sources ↔
      ∃ s rest, source o (entry.1 :: path) (depth + 1) entry.2 = .ok s ∧
        entrySources o path depth entries = .ok rest ∧
        entrySource (keySource o entry.1) s :: rest = sources := by
  simp [entrySources, bind_eq_ok_iff]

theorem exists_itemSources {items : List Value} (path : List String) (position : Nat)
    (h : ∀ item ∈ items, ∀ path, ∃ cs, source o path (depth + 1) item = .ok cs) :
    ∃ sources, itemSources o path depth position items = .ok sources := by
  induction items generalizing position with
  | nil => exact ⟨[], rfl⟩
  | cons item items ih =>
    obtain ⟨s, hs⟩ := h item List.mem_cons_self (toString position :: path)
    obtain ⟨rest, hrest⟩ := ih (position + 1) fun item hm => h item (List.mem_cons_of_mem _ hm)
    exact ⟨s :: rest, itemSources_cons.2 ⟨s, rest, hs, hrest, rfl⟩⟩

theorem exists_entrySources {entries : List (String × Value)} (path : List String)
    (h : ∀ entry ∈ entries, ∀ path, ∃ cs, source o path (depth + 1) entry.2 = .ok cs) :
    ∃ sources, entrySources o path depth entries = .ok sources := by
  induction entries with
  | nil => exact ⟨[], rfl⟩
  | cons entry entries ih =>
    obtain ⟨s, hs⟩ := h entry List.mem_cons_self (entry.1 :: path)
    obtain ⟨rest, hrest⟩ := ih fun entry hm => h entry (List.mem_cons_of_mem _ hm)
    exact ⟨_, entrySources_cons.2 ⟨s, rest, hs, hrest, rfl⟩⟩

/-- A template without functions that ends within the depth limit has a source. -/
theorem exists_source (path : List String) {depth : Nat} {v : Value} (hf : v.functionFree)
    (hd : depth + v.height ≤ maxTemplateDepth) : ∃ cs, source o path depth v = .ok cs := by
  have hdepth : depth ≤ maxTemplateDepth := by omega
  induction v using induction o generalizing path depth with
  | null => exact ⟨_, source_null.2 ⟨hdepth, rfl⟩⟩
  | bool b => exact ⟨_, source_bool.2 ⟨hdepth, rfl⟩⟩
  | number x => exact ⟨_, source_number.2 ⟨hdepth, rfl⟩⟩
  | string s => exact ⟨_, source_string.2 ⟨hdepth, rfl⟩⟩
  | function f => cases hf
  | array items ih =>
    obtain ⟨-, hf⟩ := all_array.1 hf
    obtain ⟨sources, hs⟩ := exists_itemSources path 0 fun item hm path =>
      have hlt := height_lt_array hm
      ih item hm path (hf item hm) (by omega : depth + 1 + item.height ≤ _) (by omega)
    exact ⟨_, source_array.2 ⟨hdepth, sources, hs, rfl⟩⟩
  | object entries hrole ih =>
    obtain ⟨-, hf⟩ := all_object.1 hf
    obtain ⟨sources, hs⟩ := exists_entrySources path fun entry hm path =>
      have hlt := height_lt_object hm
      ih entry hm path (hf entry hm) (by omega : depth + 1 + entry.2.height ≤ _) (by omega)
    exact ⟨_, (source_object hrole).2 ⟨hdepth, sources, hs, rfl⟩⟩
  | escaped key name v hrole ih =>
    obtain ⟨hf, hlt⟩ := sole_entry hf
    obtain ⟨s, hs⟩ := ih (key :: path) hf (by omega : depth + 1 + v.height ≤ _) (by omega)
    exact ⟨_, (source_escaped hrole).2 ⟨hdepth, s, hs, rfl⟩⟩
  | callItems key name items hrole ih =>
    obtain ⟨hf, hlt⟩ := sole_entry hf
    obtain ⟨-, hf⟩ := all_array.1 hf
    obtain ⟨sources, hs⟩ := exists_itemSources (key :: path) 0 fun item hm path =>
      have hlt' := height_lt_array hm
      ih item hm path (hf item hm) (by omega : depth + 1 + 1 + item.height ≤ _) (by omega)
    exact ⟨_, (source_call_array hrole).2 ⟨hdepth, sources, hs, rfl⟩⟩
  | call key name v hrole hv ih =>
    obtain ⟨hf, hlt⟩ := sole_entry hf
    obtain ⟨s, hs⟩ := ih (key :: path) hf (by omega : depth + 1 + v.height ≤ _) (by omega)
    exact ⟨_, (source_call hrole hv).2 ⟨hdepth, s, hs, rfl⟩⟩

section Unique

variable {path' : List String} {depth' position' : Nat} {cs' : List Char}

theorem itemSources_unique {items : List Value} {sources sources' : List (List Char)}
    (h : itemSources o path depth position items = .ok sources)
    (h' : itemSources o path' depth' position' items = .ok sources')
    (hitems : ∀ item ∈ items, ∀ {path depth cs path' depth' cs'},
      source o path depth item = .ok cs → source o path' depth' item = .ok cs' → cs = cs') :
    sources = sources' := by
  induction items generalizing position position' sources sources' with
  | nil => exact Except.ok.inj (h.symm.trans h')
  | cons item items ih =>
    obtain ⟨s, rest, hs, hrest, rfl⟩ := itemSources_cons.1 h
    obtain ⟨s', rest', hs', hrest', rfl⟩ := itemSources_cons.1 h'
    rw [hitems item List.mem_cons_self hs hs',
      ih hrest hrest' fun item hm => hitems item (List.mem_cons_of_mem _ hm)]

theorem entrySources_unique {entries : List (String × Value)} {sources sources' : List (List Char)}
    (h : entrySources o path depth entries = .ok sources)
    (h' : entrySources o path' depth' entries = .ok sources')
    (hentries : ∀ entry ∈ entries, ∀ {path depth cs path' depth' cs'},
      source o path depth entry.2 = .ok cs → source o path' depth' entry.2 = .ok cs' → cs = cs') :
    sources = sources' := by
  induction entries generalizing sources sources' with
  | nil => exact Except.ok.inj (h.symm.trans h')
  | cons entry entries ih =>
    obtain ⟨s, rest, hs, hrest, rfl⟩ := entrySources_cons.1 h
    obtain ⟨s', rest', hs', hrest', rfl⟩ := entrySources_cons.1 h'
    rw [hentries entry List.mem_cons_self hs hs',
      ih hrest hrest' fun entry hm => hentries entry (List.mem_cons_of_mem _ hm)]

/-- The source of a template does not depend on where the template stands. -/
theorem source_unique {v : Value} (h : source o path depth v = .ok cs)
    (h' : source o path' depth' v = .ok cs') : cs = cs' := by
  induction v using induction o generalizing path path' depth depth' cs cs' with
  | null => exact (source_null.1 h).2.symm.trans (source_null.1 h').2
  | bool b => exact (source_bool.1 h).2.symm.trans (source_bool.1 h').2
  | number x => exact (source_number.1 h).2.symm.trans (source_number.1 h').2
  | string s => exact (source_string.1 h).2.symm.trans (source_string.1 h').2
  | function f => exact (source_function h).elim
  | array items ih =>
    obtain ⟨-, sources, hs, rfl⟩ := source_array.1 h
    obtain ⟨-, sources', hs', rfl⟩ := source_array.1 h'
    rw [itemSources_unique hs hs' ih]
  | object entries hrole ih =>
    obtain ⟨-, sources, hs, rfl⟩ := (source_object hrole).1 h
    obtain ⟨-, sources', hs', rfl⟩ := (source_object hrole).1 h'
    rw [entrySources_unique hs hs' ih]
  | escaped key name v hrole ih =>
    obtain ⟨-, s, hs, rfl⟩ := (source_escaped hrole).1 h
    obtain ⟨-, s', hs', rfl⟩ := (source_escaped hrole).1 h'
    rw [ih hs hs']
  | callItems key name items hrole ih =>
    obtain ⟨-, sources, hs, rfl⟩ := (source_call_array hrole).1 h
    obtain ⟨-, sources', hs', rfl⟩ := (source_call_array hrole).1 h'
    rw [itemSources_unique hs hs' ih]
  | call key name v hrole hv ih =>
    obtain ⟨-, s, hs, rfl⟩ := (source_call hrole hv).1 h
    obtain ⟨-, s', hs', rfl⟩ := (source_call hrole hv).1 h'
    rw [ih hs hs']

end Unique

end Template

end JsonStencil
