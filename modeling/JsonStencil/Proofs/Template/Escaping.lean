import JsonStencil.Proofs.Template.Rendering
import JsonStencil.Proofs.Template.Verbatim
import Mathlib.Data.List.Nodup

/-!
# Escaping values

Under the standard options every value has a template that stands for it. An escape before every
left delimiter keeps it text, once the escapes before it are doubled, and another sigil keeps an
object from being a call.
-/

namespace JsonStencil

namespace Template

/-- Doubles the escapes directly before every left delimiter, behind some of them, and adds one. -/
def escapeChars : Nat → List Char → List Char
  | run, '\x7b' :: '\x7b' :: cs =>
    List.replicate (2 * run + 1) '\\' ++ '\x7b' :: '\x7b' :: escapeChars 0 cs
  | run, '\\' :: cs => escapeChars (run + 1) cs
  | run, c :: cs => List.replicate run '\\' ++ c :: escapeChars 0 cs
  | run, [] => List.replicate run '\\'

/-- Escaping is writing a text without placeholders. -/
theorem escapeChars_eq (run : Nat) (cs : List Char) :
    escapeChars run cs = Delimiters.standard.changeRuns (fun n => 2 * n + 1) id
      (Delimiters.standard.run run ++ cs) := by
  have hleft (run : Nat) (cs : List Char) : Delimiters.standard.changeRuns (fun n => 2 * n + 1) id
      (Delimiters.standard.run run ++ (Delimiters.standard.left.toList ++ cs)) = _ :=
    Delimiters.changeRuns_left run cs
  have hlast (run : Nat) : Delimiters.standard.changeRuns (fun n => 2 * n + 1) id
      (Delimiters.standard.run run) = _ := Delimiters.changeRuns_last run
  fun_induction escapeChars run cs with
  | case1 run cs ih =>
    rw [ih]
    exact (hleft run cs).symm
  | case2 run cs ih =>
    rw [ih]
    simp [Delimiters.run, Delimiters.standard, List.replicate_succ']
  | case3 run c cs hopen hescape ih =>
    have hclosed : ¬ Delimiters.standard.left.toList <+: c :: cs := by
      rintro ⟨rest, hrest⟩
      cases hrest
      exact hopen rest rfl rfl
    rw [ih]
    exact (Delimiters.changeRuns_char run hescape hclosed).symm
  | case4 run =>
    rw [List.append_nil]
    exact (hlast run).symm

theorem head?_escapeChars {cs : List Char} {c : Char} (h : (escapeChars 0 cs).head? = some c) :
    c = '\\' ∨ cs.head? = some c := by
  by_cases hc : c = '\\'
  · exact .inl hc
  · refine .inr ?_
    obtain ⟨rest, hrest⟩ := List.head?_eq_some_iff.1 h
    rw [escapeChars_eq] at hrest
    have hprefix : [c] <+: Delimiters.standard.changeRuns (fun n => 2 * n + 1) id cs ++ [] :=
      ⟨rest, by rw [List.append_nil]; exact hrest.symm⟩
    rcases Delimiters.prefix_of_changeRuns (fun _ => Nat.succ_pos _) (fun _ => Iff.rfl) cs
      (fun hmem => hc (List.mem_singleton.1 hmem).symm) hprefix with ⟨front, rfl⟩ | ⟨v, hcs, hv⟩
    · rfl
    · rw [List.prefix_nil.1 hv, List.append_nil] at hcs
      rw [← hcs, List.head?_cons]

def escapeText (s : String) : String := .ofList (escapeChars 0 s.toList)

theorem segments_escapeText (s : String) : segments .standard (escapeText s) = verbatim s := by
  rw [← Delimiters.options_standard, Delimiters.segments_options, escapeText,
    String.toList_ofList, escapeChars_eq]
  exact congrArg (Part.gather []) (Delimiters.pieces_changeRuns_id s.toList 0)

/-- The only key of an object gets one more sigil when it goes on behind one. -/
def escapeSoleKey (key : String) : String :=
  match key.toList with
  | '$' :: _ :: _ => .ofList ('$' :: (escapeText key).toList)
  | _ => escapeText key

mutual

/-- The template that stands for a value. -/
def escape : Value → Value
  | .string s => .string (escapeText s)
  | .array items => .array (escapeItems items)
  | .object [(key, v)] => .object [(escapeSoleKey key, escape v)]
  | .object entries => .object (escapeEntries entries)
  | v => v

def escapeItems : List Value → List Value
  | [] => []
  | item :: items => escape item :: escapeItems items

def escapeEntries : List (String × Value) → List (String × Value)
  | [] => []
  | (key, v) :: entries => (escapeText key, escape v) :: escapeEntries entries

end

theorem keyRole_of_head {key : String} (h : key.toList.head? ≠ some '$') :
    keyRole .standard key = .property := by
  have hnone : dropFront? ['$'] key.toList = none := by
    cases hkey : key.toList with
    | nil => rfl
    | cons c cs =>
      have hne : '$' ≠ c := by
        rintro rfl
        exact h (by rw [hkey, List.head?_cons])
      exact if_neg hne
  have hsigil : TemplateOptions.standard.sigil.toList = ['$'] := rfl
  rw [keyRole, if_neg (by decide), hsigil, hnone]

theorem keyRole_sigil {name : List Char} (h : name.head? = some '$') :
    keyRole .standard (.ofList ('$' :: name)) = .escaped name := by
  obtain ⟨rest, rfl⟩ := List.head?_eq_some_iff.1 h
  have hsigil : TemplateOptions.standard.sigil.toList = ['$'] := rfl
  have hdrop : dropFront? ['$'] ('$' :: '$' :: rest) = some ('$' :: rest) := rfl
  have hstarts : startsWith ['$'] ('$' :: rest) = true := rfl
  rw [keyRole, if_neg (by decide), String.toList_ofList, hsigil, hdrop]
  simp only [hstarts, if_true]

theorem keyRole_escapeText {key : String} (h : ∀ c cs, key.toList ≠ '$' :: c :: cs) :
    keyRole .standard (escapeText key) = .property := by
  by_cases hkey : key.toList = ['$']
  · rw [escapeText, hkey]
    rfl
  · refine keyRole_of_head fun hhead => ?_
    rw [escapeText, String.toList_ofList] at hhead
    rcases head?_escapeChars hhead with hc | hc
    · cases hc
    · obtain ⟨rest, hrest⟩ := List.head?_eq_some_iff.1 hc
      cases rest with
      | nil => exact hkey hrest
      | cons c cs => exact h c cs hrest

theorem form_escapeSoleKey (key : String) (v : Value) :
    form .standard (.object [(escapeSoleKey key, v)]) =
      .object [(verbatim key, form .standard v)] := by
  unfold escapeSoleKey
  split
  next c cs hkey =>
    have hhead : (escapeText key).toList.head? = some '$' := by
      rw [escapeText, String.toList_ofList, hkey]
      simp [escapeChars]
    rw [form_escaped (keyRole_sigil hhead), String.ofList_toList, segments_escapeText]
  next hkey =>
    have hrole := keyRole_escapeText hkey
    rw [form_object (by simp [hrole]), entryForms, entryForms, segments_escapeText]

mutual

theorem form_escape : ∀ v : Value, form .standard (escape v) = .ofValue v
  | .null | .bool _ | .number _ | .function _ => rfl
  | .string s => by
    rw [escape, form, segments_escapeText, Form.ofValue]
  | .array items => by
    rw [escape, form, form_escapeItems items, Form.ofValue]
  | .object [(key, v)] => by
    rw [escape, form_escapeSoleKey, form_escape v]
    rfl
  | .object [] => rfl
  | .object (first :: second :: entries) => by
    rw [escape, form_object, form_escapeEntries (first :: second :: entries), Form.ofValue]
    · simp [escapeEntries]
    · simp

theorem form_escapeItems : ∀ items : List Value,
    itemForms .standard (escapeItems items) = Form.ofItems items
  | [] => rfl
  | item :: items => by
    rw [escapeItems, itemForms, form_escape item, form_escapeItems items, Form.ofItems]

theorem form_escapeEntries : ∀ entries : List (String × Value),
    entryForms .standard (escapeEntries entries) = Form.ofEntries entries
  | [] => rfl
  | (key, v) :: entries => by
    rw [escapeEntries, entryForms, segments_escapeText, form_escape v, form_escapeEntries entries,
      Form.ofEntries]

end

theorem escapeText_injective {s t : String} (h : escapeText s = escapeText t) : s = t := by
  rw [← verbatim_inj, ← segments_escapeText s, h, segments_escapeText t]

theorem keys_escapeEntries (entries : List (String × Value)) :
    Entries.keys (escapeEntries entries) = (Entries.keys entries).map escapeText := by
  induction entries with
  | nil => rfl
  | cons entry entries ih =>
    simp only [Entries.keys, escapeEntries, List.map_cons] at ih ⊢
    rw [ih]

open Value

mutual

theorem height_escape : ∀ v : Value, (escape v).height = v.height
  | .null | .bool _ | .number _ | .string _ | .function _ => rfl
  | .array items => height_escapeItems items
  | .object [(key, v)] => by
    rw [escape, height, height, entriesHeight, entriesHeight, height_escape v]
    rfl
  | .object [] => rfl
  | .object (first :: second :: entries) => height_escapeEntries (first :: second :: entries)

theorem height_escapeItems : ∀ items : List Value,
    itemsHeight (escapeItems items) = itemsHeight items
  | [] => rfl
  | item :: items => by
    rw [escapeItems, itemsHeight, itemsHeight, height_escape item, height_escapeItems items]

theorem height_escapeEntries : ∀ entries : List (String × Value),
    entriesHeight (escapeEntries entries) = entriesHeight entries
  | [] => rfl
  | (key, v) :: entries => by
    rw [escapeEntries, entriesHeight, entriesHeight, height_escape v, height_escapeEntries entries]

end

mutual

theorem isData_escape : ∀ v : Value, v.isData → (escape v).isData
  | .null, h | .bool _, h | .number _, h | .function _, h => h
  | .string s, _ => rfl
  | .array items, h => all_array.2 ⟨rfl, isData_escapeItems items (all_array.1 h).2⟩
  | .object [(key, v)], h => by
    refine all_object.2 ⟨by simp [Entries.keys], fun entry hentry => ?_⟩
    rw [List.mem_singleton.1 hentry]
    exact isData_escape v (sole_entry h).1
  | .object [], h => h
  | .object (first :: second :: entries), h => by
    obtain ⟨hkeys, hentries⟩ := all_object.1 h
    refine all_object.2 ⟨?_, isData_escapeEntries (first :: second :: entries) hentries⟩
    refine decide_eq_true ?_
    rw [keys_escapeEntries]
    exact List.Nodup.map (fun _ _ => escapeText_injective) (of_decide_eq_true hkeys)

theorem isData_escapeItems : ∀ items : List Value, (∀ item ∈ items, item.isData) →
    ∀ item ∈ escapeItems items, item.isData
  | [], _ => by simp [escapeItems]
  | item :: items, h => by
    obtain ⟨hitem, hitems⟩ := List.forall_mem_cons.1 h
    exact List.forall_mem_cons.2 ⟨isData_escape item hitem, isData_escapeItems items hitems⟩

theorem isData_escapeEntries : ∀ entries : List (String × Value),
    (∀ entry ∈ entries, entry.2.isData) → ∀ entry ∈ escapeEntries entries, entry.2.isData
  | [], _ => by simp [escapeEntries]
  | (key, v) :: entries, h => by
    obtain ⟨hv, hentries⟩ := List.forall_mem_cons.1 h
    exact List.forall_mem_cons.2 ⟨isData_escape v hv, isData_escapeEntries entries hentries⟩

end

/-- Every value has a template that compiles and that every call turns into the value. -/
theorem compile_escape (v : Value) (hdata : v.isData) (hheight : v.height ≤ maxTemplateDepth) :
    ∃ exe, Executable.compile .standard (escape v) = .ok exe ∧
      ∀ (σ : Type) (env : Environment σ) (w : World σ), exe.call env w = .ok v w :=
  compile_of_form_eq (functionFree_of_isData (isData_escape v hdata))
    ((height_escape v).trans_le hheight) (form_escape v) hdata

theorem compile_escape_call :
    let v : Value := .object [("$upper", .array [.string "\\\x7b\x7b name \x7d\x7d"])]
    ∃ exe, Executable.compile .standard (escape v) = .ok exe ∧
      ∀ (σ : Type) (env : Environment σ) (w : World σ), exe.call env w = .ok v w :=
  compile_escape _ (by decide) (by decide)

end Template

end JsonStencil
