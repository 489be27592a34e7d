import JsonStencil.Proofs.Text.Search
import JsonStencil.Value.Methods

/-!
# Splitting and joining texts

The parts of a text that is split have the delimiter between them and nowhere in them. Joining puts
them together again, there are several exactly if the delimiter occurs, and replacing puts another
text behind the first.
-/

namespace JsonStencil

theorem intercalate_nil_singletons (cs : List Char) : [].intercalate (cs.map ([·])) = cs := by
  induction cs with
  | nil => rfl
  | cons c cs ih =>
    cases cs with
    | nil => rfl
    | cons d cs =>
      rw [List.map_cons, List.intercalate_cons_of_ne_nil (by simp), ih]
      rfl

theorem startsWith_iff {front cs : List Char} : startsWith front cs ↔ front <+: cs := by
  rw [startsWith, Option.isSome_iff_exists]
  refine exists_congr fun rest => ?_
  rw [dropFront?_eq_some_iff, eq_comm]

namespace Value

/-- The parts of a text around a delimiter, and its characters for an empty delimiter. -/
def parts (s delimiter : String) : List String :=
  (if delimiter = "" then s.toList.map ([·]) else splitOn delimiter.toList s.toList).map .ofList

theorem splitText_eq_parts (s delimiter : String) :
    splitText s delimiter = (parts s delimiter).map .string := by
  unfold splitText parts
  split
  · rw [List.map_map, List.map_map]
    rfl
  · rw [List.map_map]
    rfl

/-- The parts with the delimiter between them are the text. -/
theorem intercalate_parts (s delimiter : String) :
    delimiter.intercalate (parts s delimiter) = s := by
  have htexts (parts : List (List Char)) :
      (delimiter.intercalate (parts.map .ofList)).toList = delimiter.toList.intercalate parts := by
    rw [String.toList_intercalate, List.map_map]
    simp [Function.comp_def]
  rw [← String.toList_inj, parts, htexts]
  split
  next h =>
    subst h
    exact intercalate_nil_singletons s.toList
  next => exact intercalate_splitOn _ _

section Parts

variable {s d part : String} {before after : List Char}

theorem parts_of_cut?_eq_none (hd : d ≠ "") (h : cut? d.toList s.toList = none) :
    parts s d = [s] := by
  rw [parts, if_neg hd, splitOn_of_cut?_eq_none h, List.map_singleton, String.ofList_toList]

theorem parts_of_cut? (hd : d ≠ "") (h : cut? d.toList s.toList = some (before, after)) :
    parts s d = .ofList before :: parts (.ofList after) d := by
  have hne : d.toList ≠ [] := by simpa using hd
  rw [parts, if_neg hd, splitOn_of_cut? hne h, parts, if_neg hd, String.toList_ofList,
    List.map_cons]

theorem parts_ne_nil (hd : d ≠ "") : parts s d ≠ [] := by
  rw [parts, if_neg hd]
  simpa using splitOn_ne_nil _ _

theorem not_infix_of_mem_parts (hd : d ≠ "") (h : part ∈ parts s d) :
    ¬ d.toList <:+: part.toList := by
  rw [parts, if_neg hd] at h
  obtain ⟨cs, hcs, rfl⟩ := List.mem_map.1 h
  rw [String.toList_ofList]
  exact not_infix_of_mem_splitOn (by simpa using hd) hcs

end Parts

@[simp] theorem itemDisplays_strings (texts : List String) :
    itemDisplays (texts.map .string) = texts := by
  induction texts with
  | nil => rfl
  | cons s texts ih =>
    rw [List.map_cons, itemDisplays, ih]
    rfl

section Methods

variable (patterns : PatternLanguage)

theorem stringMethod_split (s d : String) :
    stringMethod patterns s "split" [.string d] = .ok (.array ((parts s d).map .string)) := by
  rw [← splitText_eq_parts]
  rfl

theorem stringMethod_includes (s d : String) :
    stringMethod patterns s "includes" [.string d] =
      .ok (.bool (occursIn d.toList s.toList)) := rfl

theorem stringMethod_startsWith (s d : String) :
    stringMethod patterns s "startsWith" [.string d] =
      .ok (.bool (startsWith d.toList s.toList)) := rfl

theorem stringMethod_replace (s d t : String) :
    stringMethod patterns s "replace" [.string d, .string t] =
      .ok (.string (.ofList (replaceFirst d.toList t.toList s.toList))) := rfl

theorem arrayMethod_join (texts : List String) (d : String) :
    arrayMethod (texts.map .string) "join" [.string d] = .ok (.string (d.intercalate texts)) := by
  have hjoin : arrayMethod (texts.map .string) "join" [.string d] =
      .ok (.string (joinDisplays d (texts.map .string))) := rfl
  rw [hjoin, joinDisplays, itemDisplays_strings]

/-- Joining what splitting gives with the same delimiter gives the text again. A delimiter that is
not empty occurs in no part, and in the text exactly if there are several parts. It is replaced
behind the first part, which is empty if the text starts with it. -/
theorem split_laws (s d t : String) : ∃ texts : List String,
    stringMethod patterns s "split" [.string d] = .ok (.array (texts.map .string)) ∧
    arrayMethod (texts.map .string) "join" [.string d] = .ok (.string s) ∧
    (d ≠ "" →
      (∀ part ∈ texts, ¬ d.toList <:+: part.toList) ∧
      stringMethod patterns s "includes" [.string d] = .ok (.bool (1 < texts.length)) ∧
      ∃ first rest, texts = first :: rest ∧
        stringMethod patterns s "replace" [.string d, .string t] =
          .ok (.string (if rest = [] then s else first ++ t ++ d.intercalate rest)) ∧
        (stringMethod patterns s "startsWith" [.string d] = .ok (.bool true) → first = "")) := by
  refine ⟨parts s d, stringMethod_split patterns s d, ?_, fun hd => ⟨?_, ?_⟩⟩
  · rw [arrayMethod_join, intercalate_parts]
  · exact fun part => not_infix_of_mem_parts hd
  have hfront (h : Except.ok (.bool (startsWith d.toList s.toList)) =
      (Except.ok (.bool true) : Except Fault Value)) :
      ∃ after, cut? d.toList s.toList = some ([], after) := by
    injection h with h
    injection h with h
    exact cut?_of_prefix (startsWith_iff.1 h)
  rw [stringMethod_includes, stringMethod_startsWith, stringMethod_replace, occursIn, replaceFirst]
  cases hcut : cut? d.toList s.toList with
  | none =>
    rw [parts_of_cut?_eq_none hd hcut]
    refine ⟨rfl, s, [], rfl, ?_, fun h => ?_⟩
    · rw [if_pos rfl, String.ofList_toList]
    · obtain ⟨after, hafter⟩ := hfront h
      cases hcut.symm.trans hafter
  | some found =>
    obtain ⟨before, after⟩ := found
    have hrest : parts (.ofList after) d ≠ [] := parts_ne_nil hd
    rw [parts_of_cut? hd hcut]
    refine ⟨?_, _, _, rfl, ?_, fun h => ?_⟩
    · have hseveral : 1 < (String.ofList before :: parts (.ofList after) d).length :=
        Nat.succ_lt_succ (List.length_pos_iff.2 hrest)
      rw [decide_eq_true hseveral]
      rfl
    · rw [if_neg hrest, intercalate_parts, String.ofList_append, String.ofList_append,
        String.ofList_toList]
    · obtain ⟨after', hafter⟩ := hfront h
      cases hcut.symm.trans hafter
      rfl

end Methods

theorem split_laws_overlapping :
    let patterns : PatternLanguage := fun pattern => .error pattern
    stringMethod patterns "ééé" "split" [.string "éé"] = .ok (.array [.string "", .string "é"]) ∧
      arrayMethod [.string "", .string "é"] "join" [.string "éé"] = .ok (.string "ééé") ∧
      "éé" ≠ "" ∧ (∀ part ∈ ["", "é"], ¬ "éé".toList <:+: part.toList) ∧
      stringMethod patterns "ééé" "includes" [.string "éé"] = .ok (.bool true) ∧
      stringMethod patterns "ééé" "replace" [.string "éé", .string "-"] = .ok (.string "-é") ∧
      stringMethod patterns "ééé" "startsWith" [.string "éé"] = .ok (.bool true) := by
  intro patterns
  obtain ⟨texts, hsplit, hjoin, hlaws⟩ := split_laws patterns "ééé" "éé" "-"
  have hne : "éé" ≠ "" := by decide
  have hparts : splitText "ééé" "éé" = ["", "é"].map .string := by cbv
  have htexts : texts = ["", "é"] := by
    rw [stringMethod_split, ← splitText_eq_parts, hparts] at hsplit
    injection hsplit with hsplit
    injection hsplit with hsplit
    exact (List.map_injective_iff.2 (fun _ _ h => string.inj h) hsplit).symm
  subst htexts
  obtain ⟨habsent, hincludes, first, rest, hfirst, hreplace, -⟩ := hlaws hne
  cases hfirst
  exact ⟨hsplit, hjoin, hne, habsent, hincludes, hreplace, rfl⟩

end Value

end JsonStencil
