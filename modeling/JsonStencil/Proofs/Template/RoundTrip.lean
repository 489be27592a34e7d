import JsonStencil.Proofs.Template.Verbatim
import Mathlib.Data.List.Infix

/-!
# Templates without placeholders and calls

A template in which no text has a left delimiter and no object is a call stands for itself, whatever
its texts hold besides.
-/

namespace JsonStencil

namespace Placeholder

theorem infix_of_splitRun {left escape cs rest opened : List Char} {n : Nat}
    (hrun : splitRun escape cs = (n, rest)) (hopened : dropFront? left rest = some opened) :
    left <:+: cs := by
  have happend := eq_append_of_splitRun escape cs
  rw [hrun, dropFront?_eq_some_iff.1 hopened] at happend
  exact ⟨_, opened, by rw [happend, List.append_assoc]⟩

theorem pieces_of_not_infix {left right escape : List Char} {hl : left ≠ []} {start : Nat}
    {cs : List Char} (h : ¬ left <:+: cs) : pieces left right escape hl start cs = cs.map .inl := by
  fun_induction pieces left right escape hl start cs with
  | case1 => rfl
  | case2 start c tail n rest hrun behind hclosed ih =>
    have happend := eq_append_of_splitRun escape (c :: tail)
    rw [hrun] at happend
    rw [ih fun hin => h (happend ▸ hin.trans (List.suffix_append _ _).isInfix), happend,
      List.map_append]
  | case3 _ _ _ _ _ hrun _ _ hopened | case4 _ _ _ _ _ hrun _ _ hopened =>
    exact (h (infix_of_splitRun hrun hopened)).elim
  | case5 start c tail _ _ hclosed ih =>
    rw [ih fun hin => h (hin.trans (List.suffix_cons _ _).isInfix), List.map_cons]
  | case6 => rfl
  | case7 _ _ _ _ _ opened hopened =>
    exact (h ⟨[], opened, (dropFront?_eq_some_iff.1 hopened).symm⟩).elim

end Placeholder

namespace Template

variable {o : TemplateOptions}

/-- Whether a text has no placeholders under the options, which is so without delimiters. -/
def Undelimited (o : TemplateOptions) (s : String) : Prop :=
  o.left = "" ∨ o.right = "" ∨ ¬ o.left.toList <:+: s.toList

/-- Whether an object with only this key is no call. -/
def Uncalled (o : TemplateOptions) (key : String) : Prop :=
  o.sigil = "" ∨ ¬ o.sigil.toList <+: key.toList ∨ key = o.sigil

instance (s : String) : Decidable (Undelimited o s) := inferInstanceAs (Decidable (_ ∨ _ ∨ _))

instance (key : String) : Decidable (Uncalled o key) := inferInstanceAs (Decidable (_ ∨ _ ∨ _))

theorem segments_of_undelimited {s : String} (h : Undelimited o s) :
    segments o s = verbatim s := by
  unfold segments
  split
  next hd =>
    rcases h with h | h | h
    · simp [h] at hd
    · simp [h] at hd
    · rw [Placeholder.pieces_of_not_infix h, verbatim]
  next => rfl

theorem keyRole_of_uncalled {key : String} (h : Uncalled o key) : keyRole o key = .property := by
  unfold keyRole
  split
  · rfl
  next hsigil =>
    cases hrest : dropFront? o.sigil.toList key.toList with
    | none => rfl
    | some rest =>
      have hkey := dropFront?_eq_some_iff.1 hrest
      rcases h with h | h | rfl
      · exact (hsigil h).elim
      · exact (h ⟨rest, hkey.symm⟩).elim
      · have hnil : rest = [] := by simpa using hkey
        simp [hnil]

theorem form_eq_ofValue {v : Value} (htexts : ∀ s ∈ v.texts, Undelimited o s)
    (hkeys : ∀ key ∈ v.soleKeys, Uncalled o key) : form o v = .ofValue v := by
  induction v using induction o with
  | null | bool | number => rfl
  | function => rfl
  | string s =>
    have hs := segments_of_undelimited (htexts s List.mem_cons_self)
    rw [form, hs]
    rfl
  | array items ih =>
    have hitems : itemForms o items = Form.ofItems items := by
      rw [itemForms_eq_map, Form.ofItems_eq_map]
      refine List.map_congr_left fun item hm => ?_
      have hsubset := Value.nodes_subset_array hm
      exact ih item hm (fun s hs => htexts s (Value.texts_subset hsubset hs)) fun key hkey =>
        hkeys key (Value.soleKeys_subset hsubset hkey)
    rw [form, hitems]
    rfl
  | object entries hrole ih =>
    have hentries : entryForms o entries = Form.ofEntries entries := by
      rw [entryForms_eq_map, Form.ofEntries_eq_map]
      refine List.map_congr_left fun entry hm => ?_
      have hsubset := Value.nodes_subset_object hm
      have hv := ih entry hm (fun s hs => htexts s (Value.texts_subset hsubset hs)) fun key hkey =>
        hkeys key (Value.soleKeys_subset hsubset hkey)
      rw [segments_of_undelimited (htexts entry.1 (Value.key_mem_texts hm)), hv]
    rw [form_object hrole, hentries]
    rfl
  | escaped key name v hrole | callItems key name v hrole | call key name v hrole =>
    have hproperty := keyRole_of_uncalled (hkeys key Value.mem_soleKeys)
    rw [hrole] at hproperty
    cases hproperty

/-- A template without placeholders and calls compiles, and every call gives the template back. -/
theorem compile_roundTrip (o : TemplateOptions) (v : Value) (hdata : v.isData)
    (hheight : v.height ≤ maxTemplateDepth) (htexts : ∀ s ∈ v.texts, Undelimited o s)
    (hkeys : ∀ key ∈ v.soleKeys, Uncalled o key) :
    ∃ exe, Executable.compile o v = .ok exe ∧
      ∀ (σ : Type) (env : Environment σ) (w : World σ), exe.call env w = .ok v w :=
  compile_of_form_eq (Value.functionFree_of_isData hdata) hheight (form_eq_ofValue htexts hkeys)
    hdata

theorem compile_roundTrip_quoted :
    let template : Value := .object [("\\\\", .string "it's \x60$\x7b x \x7d\x60\n"),
      ("$", .array [.number (.zero true), .string "\x7b $"])]
    ∃ exe, Executable.compile .standard template = .ok exe ∧
      ∀ (σ : Type) (env : Environment σ) (w : World σ), exe.call env w = .ok template w :=
  compile_roundTrip .standard _ (by decide) (by decide) (by decide) (by decide)

end Template

end JsonStencil
