import JsonStencil.Proofs.Template.Spells

/-!
# The source of a template and its tree

The source of a template spells the tree of its form. Every level of the template takes one level of
nesting off the budget, and what the placeholders need comes below the deepest level.
-/

namespace JsonStencil

namespace Template

open Phrases

variable {o : TemplateOptions} {budget : Nat}

theorem textSource_eq (o : TemplateOptions) (s : String) :
    textSource o s = match textForm (segments o s) with
      | .literal t => .quoted (quote t)
      | .placeholder p => .computed p.source.toList
      | .joined => .computed (templateLiteral (segments o s)) := by
  unfold textSource
  split
  next hs => rw [hs, textForm]
  next hs => rw [hs, textForm]
  next p hs =>
    rw [if_pos (spansWhole_of_segments_eq hs)]
    simp only [hs, textForm]
  next hnil htext hhole =>
    have hform : textForm (segments o s) = .joined := by
      unfold textForm
      split
      next hs => exact (hnil hs).elim
      next hs => exact (htext _ hs).elim
      next hs => exact (hhole _ hs).elim
      next => rfl
    rw [hform]

theorem exists_pieces (o : TemplateOptions) (s : String) :
    ∃ ps : List (Char ⊕ Placeholder), segments o s = Part.gather [] ps := by
  unfold segments
  split <;> exact ⟨_, rfl⟩

theorem spells_literal (hle : budget ≤ maxNesting) {s : String}
    (h : ∀ p ∈ holes (segments o s), Spells (Expression budget) p.source.toList p.expression) :
    Spells (Expression (budget + 1)) (templateLiteral (segments o s))
      (.template ((segments o s).map (Part.map Placeholder.expression)) .blank) := by
  obtain ⟨ps, hps⟩ := exists_pieces o s
  have hholes : ∀ p, .inr p ∈ ps → Spells (Expression budget) p.source.toList p.expression := by
    intro p hp
    refine h p (mem_holes.2 ?_)
    rw [hps]
    exact (Part.hole_mem_gather []).2 hp
  rw [hps]
  exact Spells.template hle hholes

theorem spells_text (hle : budget ≤ maxNesting) {s : String}
    (h : ∀ p ∈ holes (segments o s), Spells (Expression budget) p.source.toList p.expression) :
    Spells (Expression (budget + 1)) (textSource o s).chars (textTree (segments o s)) := by
  rw [textSource_eq, textTree]
  cases hform : textForm (segments o s) with
  | literal t => exact .quote budget t
  | placeholder p =>
    have hp : p ∈ holes (segments o s) := mem_holes.2 (by simp [eq_of_textForm hform])
    exact (h p hp).mono (Nat.le_succ _)
  | joined => exact spells_literal hle h

theorem spells_entry {key : String} {k e : Expr} {cs : List Char}
    (hkey : Spells (Expression budget) (textSource o key).chars k)
    (hvalue : Spells (Expression budget) cs e) :
    Spells (Entry (Expression budget)) (entrySource (keySource o key) cs)
      ⟨keyOf (segments o key) k, e, .blank⟩ := by
  rw [keySource, keyOf]
  rw [textSource_eq] at hkey ⊢
  cases hform : textForm (segments o key) with
  | literal t => exact .named t hvalue
  | placeholder p =>
    rw [hform] at hkey
    exact .computed hkey hvalue
  | joined =>
    rw [hform] at hkey
    exact .computed hkey hvalue

section Lists

variable {path : List String} {depth position : Nat} {sources : List (List Char)}

theorem spells_itemSources {items : List Value} {tree : Value → Expr}
    (h : itemSources o path depth position items = .ok sources)
    (hitems : ∀ item ∈ items, ∀ {path cs}, source o path (depth + 1) item = .ok cs →
      Spells (Expression budget) cs (tree item)) :
    List.Forall₂ (Spells (Expression budget)) sources (items.map tree) := by
  induction items generalizing position sources with
  | nil =>
    cases h
    exact .nil
  | cons item items ih =>
    obtain ⟨s, rest, hs, hrest, rfl⟩ := itemSources_cons.1 h
    exact .cons (hitems item List.mem_cons_self hs)
      (ih hrest fun item hm => hitems item (List.mem_cons_of_mem _ hm))

theorem spells_entrySources {entries : List (String × Value)} (key : String → Expr)
    (tree : Value → Expr) (h : entrySources o path depth entries = .ok sources)
    (hentries : ∀ entry ∈ entries, ∀ {path cs}, source o path (depth + 1) entry.2 = .ok cs →
      Spells (Expression budget) (textSource o entry.1).chars (key entry.1) ∧
        Spells (Expression budget) cs (tree entry.2)) :
    List.Forall₂ (Spells (Entry (Expression budget))) sources (entries.map fun entry =>
      ⟨keyOf (segments o entry.1) (key entry.1), tree entry.2, .blank⟩) := by
  induction entries generalizing sources with
  | nil =>
    cases h
    exact .nil
  | cons entry entries ih =>
    obtain ⟨s, rest, hs, hrest, rfl⟩ := entrySources_cons.1 h
    obtain ⟨hkey, hvalue⟩ := hentries entry List.mem_cons_self hs
    exact .cons (spells_entry hkey hvalue)
      (ih hrest fun entry hm => hentries entry (List.mem_cons_of_mem _ hm))

end Lists

/-- The budget of a template at a depth, above that of its placeholders. -/
def budgetAt (budget depth : Nat) : Nat := budget + (maxTemplateDepth + 1 - depth)

theorem budgetAt_eq_succ {depth : Nat} (h : depth ≤ maxTemplateDepth) :
    budgetAt budget depth = budgetAt budget (depth + 1) + 1 := by
  unfold budgetAt
  omega

theorem budgetAt_succ_le (budget depth : Nat) :
    budgetAt budget (depth + 1) ≤ budgetAt budget depth := by
  unfold budgetAt
  omega

/-- Sources are only made within the depth limit, which leaves room above the placeholders. -/
theorem lt_budgetAt_of_source (budget : Nat) {path : List String} {depth : Nat} {v : Value}
    {cs : List Char} (h : source o path depth v = .ok cs) : budget < budgetAt budget depth := by
  unfold source at h
  split at h
  · cases h
  · unfold budgetAt
    omega

/-- The source of a template at a depth spells its tree within the budget of that depth. -/
theorem spells_source (hpos : 1 ≤ budget) (hle : budget ≤ maxNesting) {path : List String}
    {depth : Nat} {v : Value} {cs : List Char} (h : source o path depth v = .ok cs)
    (hp : ∀ p ∈ (form o v).placeholders, Spells (Expression budget) p.source.toList p.expression)
    (hn : ∀ name ∈ (form o v).callNames, IsIdentifier name) :
    Spells (Expression (budgetAt budget depth)) cs (form o v).tree := by
  -- the budget is that of the depth, and any depth may be met in a part
  induction v using induction o generalizing path depth cs with
  | null =>
    obtain ⟨hdepth, rfl⟩ := source_null.1 h
    rw [budgetAt_eq_succ hdepth]
    exact .null _
  | bool b =>
    obtain ⟨hdepth, rfl⟩ := source_bool.1 h
    rw [budgetAt_eq_succ hdepth]
    exact .bool _ b
  | number x =>
    obtain ⟨hdepth, rfl⟩ := source_number.1 h
    refine (Spells.number 0 x).mono ?_
    unfold budgetAt
    omega
  | string s =>
    obtain ⟨hdepth, rfl⟩ := source_string.1 h
    exact (spells_text hle hp).mono (lt_budgetAt_of_source budget h)
  | function f => exact (source_function h).elim
  | array items ih =>
    obtain ⟨hdepth, sources, hs, rfl⟩ := source_array.1 h
    rw [budgetAt_eq_succ hdepth, form, Form.tree, Form.itemTrees_eq_map, itemForms_eq_map,
      List.map_map]
    refine .array (spells_itemSources hs fun item hm _ _ hitem => ih item hm hitem ?_ ?_)
    · exact fun p hpm => hp p (mem_itemPlaceholders.2 ⟨item, hm, hpm⟩)
    · exact fun name hnm => hn name (mem_itemCallNames.2 ⟨item, hm, hnm⟩)
  | object entries hrole ih =>
    obtain ⟨hdepth, sources, hs, rfl⟩ := (source_object hrole).1 h
    rw [form_object hrole] at hp hn ⊢
    rw [budgetAt_eq_succ hdepth, Form.tree, Form.entryTrees_eq_map, entryForms_eq_map, List.map_map]
    refine .object (spells_entrySources (fun key => textTree (segments o key))
      (fun v => (form o v).tree) hs fun entry hm _ _ hv => ⟨?_, ih entry hm hv ?_ ?_⟩)
    · have hkey := spells_text hle fun p hpm =>
        hp p (mem_entryPlaceholders.2 ⟨entry, hm, .inl hpm⟩)
      exact hkey.mono (lt_budgetAt_of_source budget hv)
    · exact fun p hpm => hp p (mem_entryPlaceholders.2 ⟨entry, hm, .inr hpm⟩)
    · exact fun name hnm => hn name (mem_entryCallNames.2 ⟨entry, hm, hnm⟩)
  | escaped key name v hrole ih =>
    obtain ⟨hdepth, s, hs, rfl⟩ := (source_escaped hrole).1 h
    rw [form_escaped hrole] at hp hn ⊢
    simp only [Form.placeholders, Form.entryPlaceholders, Form.callNames, Form.entryCallNames,
      List.append_nil, List.mem_append] at hp hn
    rw [budgetAt_eq_succ hdepth]
    have hkey := spells_text hle fun p hpm => hp p (.inl hpm)
    have hv := ih hs (fun p hpm => hp p (.inr hpm)) hn
    exact .single (spells_entry (hkey.mono (lt_budgetAt_of_source budget hs)) hv)
  | callItems key name items hrole ih =>
    obtain ⟨hdepth, sources, hs, rfl⟩ := (source_call_array hrole).1 h
    rw [form_call_array hrole] at hp hn ⊢
    simp only [Form.callNames, List.mem_cons, forall_eq_or_imp] at hn
    obtain ⟨hname, hn⟩ := hn
    rw [budgetAt_eq_succ hdepth, Form.tree, Form.itemTrees_eq_map, itemForms_eq_map, List.map_map]
    -- listed arguments lie two levels down in the template and one in the tree
    have hcall := Spells.call hname (spells_itemSources hs fun item hm _ _ hitem =>
      (ih item hm hitem
        (fun p hpm => hp p (mem_itemPlaceholders.2 ⟨item, hm, hpm⟩))
        (fun name hnm => hn name (mem_itemCallNames.2 ⟨item, hm, hnm⟩))).mono
          (budgetAt_succ_le budget (depth + 1)))
    rw [String.toList_ofList] at hcall
    exact hcall
  | call key name v hrole hv ih =>
    obtain ⟨hdepth, s, hs, rfl⟩ := (source_call hrole hv).1 h
    rw [form_call hrole hv] at hp hn ⊢
    simp only [Form.placeholders, Form.itemPlaceholders, Form.callNames, Form.itemCallNames,
      List.append_nil, List.mem_cons, forall_eq_or_imp] at hp hn
    obtain ⟨hname, hn⟩ := hn
    rw [budgetAt_eq_succ hdepth]
    have hcall := Spells.call hname (.cons (ih hs hp hn) .nil)
    rw [String.toList_ofList] at hcall
    exact hcall

end Template

end JsonStencil
