import JsonStencil.Proofs.Failures
import JsonStencil.Proofs.Template.Emission
import JsonStencil.Proofs.Value.Pointer

/-!
# Which templates have no source

The values of a template are visited in document order, all but the lists that are arguments of a
call. A template has no source exactly if a value that is visited is too deep or a function. The
first of these is the one that is reported, and a pointer in the report leads to it.
-/

namespace JsonStencil

namespace Template

open Value

variable {o : TemplateOptions}

/-- A key that is the sigil in front of a name, which does not start with the sigil again. -/
def IsCallKey (o : TemplateOptions) (key : String) : Prop :=
  o.sigil ≠ "" ∧ ∃ name, name ≠ [] ∧ key.toList = o.sigil.toList ++ name ∧
    ¬ o.sigil.toList <+: name

theorem isCallKey_iff {key : String} : IsCallKey o key ↔ ∃ name, keyRole o key = .call name := by
  unfold keyRole
  split
  next hsigil => simp [IsCallKey, hsigil]
  next hsigil =>
    have hcut (rest : List Char) : dropFront? o.sigil.toList key.toList = some rest ↔
        key.toList = o.sigil.toList ++ rest := dropFront?_eq_some_iff
    simp only [IsCallKey, ← hcut, startsWith, ← dropFront?_eq_none_iff]
    cases dropFront? o.sigil.toList key.toList with
    | none => simp
    | some name =>
      cases name with
      | nil => simp
      | cons c cs => cases hagain : dropFront? o.sigil.toList (c :: cs) <;> simp [hsigil, hagain]

instance (key : String) : Decidable (IsCallKey o key) :=
  decidable_of_iff ((match keyRole o key with | .call _ => true | _ => false) = true) <| by
    rw [isCallKey_iff]
    cases keyRole o key <;> simp

/-- Whether a list is not a value of its own but the arguments of a call. -/
def isArguments (o : TemplateOptions) (n : Site) : Bool :=
  n.value.kind = .array && n.soleKey.any fun key => IsCallKey o key

theorem isArguments_iff {n : Site} :
    isArguments o n ↔
      n.value.kind = .array ∧ ∃ key, n.soleKey = some key ∧ ∃ name, keyRole o key = .call name := by
  simp [isArguments, Option.any_eq_true, isCallKey_iff]

/-- The values of a template that have a source of their own, in document order. -/
def visited (o : TemplateOptions) (template : Value) : List Site :=
  template.sites.filter fun n => !isArguments o n

/-- Whether a value has no source at its place, whatever is in it. -/
def IsRefused (n : Site) : Prop := maxTemplateDepth < n.path.length ∨ n.value.kind = .function

def fault? (n : Site) : Option CompileError :=
  if maxTemplateDepth < n.path.length then some (.tooDeep maxTemplateDepth)
  else if n.value.kind = .function then some (.unsupported .function n.path)
  else none

def firstFault (o : TemplateOptions) (ns : List Site) : Option CompileError :=
  (ns.filter fun n => !isArguments o n).findSome? fault?

section FirstFault

variable {n : Site} {ns ms : List Site}

theorem firstFault_append : firstFault o (ns ++ ms) = (firstFault o ns).or (firstFault o ms) := by
  rw [firstFault, List.filter_append, List.findSome?_append, firstFault, firstFault]

theorem firstFault_cons (h : isArguments o n = false) :
    firstFault o (n :: ns) = (fault? n).or (firstFault o ns) := by
  rw [firstFault, List.filter_cons_of_pos (by simp [h]), List.findSome?_cons, firstFault]
  cases fault? n <;> rfl

theorem firstFault_arguments (h : isArguments o n) : firstFault o (n :: ns) = firstFault o ns := by
  rw [firstFault, List.filter_cons_of_neg (by simp [h]), firstFault]

end FirstFault

section Source

variable {path : List String} {position : Nat} {soleKey : Option String}

theorem failure_itemSources {items : List Value} (h : ∀ item ∈ items, ∀ path : List String,
      failure? (source o path path.length item) = firstFault o (item.sitesAt path.reverse none)) :
    failure? (itemSources o path path.length position items) =
      firstFault o (itemSites path.reverse position items) := by
  induction items generalizing position with
  | nil => rfl
  | cons item items ih =>
    have hitem := h item List.mem_cons_self (toString position :: path)
    rw [List.length_cons, List.reverse_cons] at hitem
    rw [itemSources, failure?_both, ih fun item hm => h item (List.mem_cons_of_mem _ hm), hitem,
      itemSites, firstFault_append]

theorem failure_entrySources {entries : List (String × Value)}
    (h : ∀ entry ∈ entries, ∀ path : List String,
      failure? (source o path path.length entry.2) =
        firstFault o (entry.2.sitesAt path.reverse soleKey)) :
    failure? (entrySources o path path.length entries) =
      firstFault o (entrySites path.reverse soleKey entries) := by
  induction entries with
  | nil => rfl
  | cons entry entries ih =>
    have hentry := h entry List.mem_cons_self (entry.1 :: path)
    rw [List.length_cons, List.reverse_cons] at hentry
    rw [entrySources, failure?_both, ih fun entry hm => h entry (List.mem_cons_of_mem _ hm), hentry,
      entrySites, firstFault_append]

/-- A value that is too deep is reported before all in it, and of others only what is in them. -/
theorem failure_source_of_below {v : Value} {below : List Site}
    (hroot : isArguments o ⟨path.reverse, v, soleKey⟩ = false) (hv : v.kind ≠ .function)
    (hsites : v.sitesAt path.reverse soleKey = ⟨path.reverse, v, soleKey⟩ :: below)
    (h : ¬ maxTemplateDepth < path.length →
      failure? (source o path path.length v) = firstFault o below) :
    failure? (source o path path.length v) = firstFault o (v.sitesAt path.reverse soleKey) := by
  rw [hsites, firstFault_cons hroot, fault?, if_neg hv, List.length_reverse]
  by_cases hdepth : maxTemplateDepth < path.length
  · rw [source_of_deep hdepth, if_pos hdepth]
    rfl
  · rw [h hdepth, if_neg hdepth, Option.none_or]

theorem failure_source_object {depth : Nat} {entries : List (String × Value)}
    (hrole : ∀ key v, entries = [(key, v)] → keyRole o key = .property)
    (hdepth : ¬ maxTemplateDepth < depth) :
    failure? (source o path depth (.object entries)) =
      failure? (entrySources o path depth entries) := by
  match entries with
  | [] => rw [source, if_neg hdepth, failure?_map]; simp
  | [(key, v)] =>
    rw [source, if_neg hdepth, hrole key v rfl, entrySources, failure?_both]
    dsimp only
    rw [failure?_map, entrySources, failure?, Option.or_none]
  | first :: second :: entries => rw [source, if_neg hdepth, failure?_map]; simp

/-- The source fails as the first value that is visited in the template is refused. Everywhere, and
among the arguments of a call as well, the depth is the length of the path. -/
theorem failure_source {v : Value} (hroot : isArguments o ⟨path.reverse, v, soleKey⟩ = false) :
    failure? (source o path path.length v) = firstFault o (v.sitesAt path.reverse soleKey) := by
  have hvalue {path : List String} {v : Value} {soleKey : Option String}
      (h : v.kind = .array → ∀ key, soleKey = some key → ∀ name, keyRole o key ≠ .call name) :
      isArguments o ⟨path, v, soleKey⟩ = false := by
    rw [Bool.eq_false_iff, ne_eq, isArguments_iff]
    rintro ⟨hkind, key, hkey, name, hname⟩
    exact h hkind key hkey name hname
  induction v using induction o generalizing path soleKey with
  | null | bool | number | string =>
    refine failure_source_of_below hroot (by simp [Value.kind])
      (show _ = _ :: [] by simp [sitesAt]) fun hdepth => ?_
    rw [source, if_neg hdepth]
    rfl
  | function f =>
    rw [source, sitesAt, firstFault_cons hroot, fault?, List.length_reverse]
    · split <;> rfl
    · simp
    · simp
  | array items ih =>
    refine failure_source_of_below hroot (by simp [Value.kind]) (by rw [sitesAt]) fun hdepth => ?_
    rw [source, if_neg hdepth, failure?_map]
    exact failure_itemSources fun item hitem path => ih item hitem (hvalue (by simp))
  | object entries hrole ih =>
    refine failure_source_of_below hroot (by simp [Value.kind]) (by rw [sitesAt]) fun hdepth => ?_
    rw [failure_source_object hrole hdepth]
    refine failure_entrySources fun entry hentry path =>
      ih entry hentry (hvalue fun _ key hkey name => ?_)
    obtain ⟨v, rfl⟩ := eq_singleton_of_soleKey? hkey
    simp [hrole key v rfl]
  | escaped key name v hrole ih =>
    refine failure_source_of_below hroot (by simp [Value.kind]) (by rw [sitesAt]) fun hdepth => ?_
    have hv : failure? (source o (key :: path) (path.length + 1) v) =
        firstFault o (v.sitesAt (path.reverse ++ [key]) (some key)) := by
      rw [← List.reverse_cons]
      exact ih (hvalue (by simp [hrole]))
    rw [source, if_neg hdepth, hrole]
    dsimp only
    rw [failure?_map, hv, soleKey?, entrySites, entrySites, List.append_nil]
  | callItems key name items hrole ih =>
    refine failure_source_of_below hroot (by simp [Value.kind]) (by rw [sitesAt]) fun hdepth => ?_
    have hitems : failure? (itemSources o (key :: path) (path.length + 1) 0 items) =
        firstFault o (itemSites (path.reverse ++ [key]) 0 items) := by
      rw [← List.reverse_cons]
      exact failure_itemSources fun item hitem path => ih item hitem (hvalue (by simp))
    rw [source, if_neg hdepth, hrole]
    dsimp only
    -- the list itself is passed over
    rw [failure?_map, hitems, soleKey?, entrySites, entrySites, List.append_nil, sitesAt,
      firstFault_arguments (isArguments_iff.2 ⟨rfl, key, rfl, name, hrole⟩)]
  | call key name v hrole hv ih =>
    refine failure_source_of_below hroot (by simp [Value.kind]) (by rw [sitesAt]) fun hdepth => ?_
    have hargument : failure? (source o (key :: path) (path.length + 1) v) =
        firstFault o (v.sitesAt (path.reverse ++ [key]) (some key)) := by
      rw [← List.reverse_cons]
      refine ih (hvalue fun hkind => ?_)
      cases v <;> cases hkind
      exact (hv _ rfl).elim
    rw [source.eq_def, if_neg hdepth]
    dsimp only
    rw [hrole]
    dsimp only
    split
    next items => exact (hv items rfl).elim
    next => rw [failure?_map, hargument, soleKey?, entrySites, entrySites, List.append_nil]

end Source

section Visited

variable {n : Site}

theorem fault?_isSome_iff : (fault? n).isSome ↔ IsRefused n := by
  rw [fault?, IsRefused]
  split_ifs <;> simp_all

theorem fault?_eq_some_iff {e : CompileError} : fault? n = some e ↔
    maxTemplateDepth < n.path.length ∧ e = .tooDeep maxTemplateDepth ∨
      n.path.length ≤ maxTemplateDepth ∧ (∃ f, n.value = .function f) ∧
        e = .unsupported .function n.path := by
  have hkind : n.value.kind = .function ↔ ∃ f, n.value = .function f := by
    cases n.value <;> simp [Value.kind]
  rw [fault?, ← hkind]
  split_ifs with hdepth hf
  · simp [hdepth, Nat.not_le.2 hdepth, eq_comm]
  · simp [hdepth, Nat.not_lt.1 hdepth, hf, eq_comm]
  · simp [hdepth, hf]

theorem failure?_templateSource (o : TemplateOptions) (template : Value) :
    failure? (template.templateSource o) = (visited o template).findSome? fault? := by
  have hroot : isArguments o ⟨[], template, none⟩ = false := Bool.and_false _
  rw [Value.templateSource, failure?_map]
  exact failure_source hroot

end Visited

/-- A template has no source exactly if a value that is visited is too deep or a function. The error
is that of the first such value, and its pointer leads to the function. -/
theorem templateSource_fails (o : TemplateOptions) (template : Value)
    (hkeys : template.distinctKeys) :
    ((∃ e, template.templateSource o = .error e) ↔ ∃ n ∈ visited o template, IsRefused n) ∧
      ∀ e, template.templateSource o = .error e →
        ∃ before n after, visited o template = before ++ n :: after ∧
          (∀ earlier ∈ before, ¬ IsRefused earlier) ∧
          (maxTemplateDepth < n.path.length ∧ e = .tooDeep maxTemplateDepth ∨
            n.path.length ≤ maxTemplateDepth ∧ e = .unsupported .function n.path ∧
              CompileError.readPath? (CompileError.pathText n.path) = some n.path ∧
              ∃ f, n.value = .function f ∧ template.follow? n.path = some (.function f)) := by
  constructor
  · simp only [← failure?_eq_some_iff, failure?_templateSource, ← fault?_isSome_iff]
    rw [← Option.isSome_iff_exists, List.findSome?_isSome_iff]
  · intro e he
    rw [← failure?_eq_some_iff, failure?_templateSource] at he
    obtain ⟨before, n, after, hvisited, hfault, hbefore⟩ := List.findSome?_eq_some_iff.1 he
    refine ⟨before, n, after, hvisited, fun earlier hearlier => ?_, ?_⟩
    · rw [← fault?_isSome_iff, hbefore earlier hearlier]
      simp
    · have hsite : n ∈ template.sites := by
        have hmem : n ∈ visited o template := by rw [hvisited]; simp
        exact (List.mem_filter.1 hmem).1
      have hfollow := follow?_of_mem_sites hkeys hsite
      rcases fault?_eq_some_iff.1 hfault with h | ⟨hdepth, ⟨f, hf⟩, rfl⟩
      · exact .inl h
      · rw [hf] at hfollow
        exact .inr ⟨hdepth, rfl, CompileError.readPath?_pathText n.path, f, hf, hfollow⟩

theorem templateSource_fails_in_arguments :
    let template : Value := .object [("a/b", .object [("$max", .array [.null,
      .function ⟨"f", .host 0⟩])]), ("", .function ⟨"g", .host 1⟩)]
    template.templateSource .standard = .error (.unsupported .function ["a/b", "$max", "1"]) ∧
      CompileError.readPath? "/a~1b/$max/1" = some ["a/b", "$max", "1"] ∧
      ∃ f, template.follow? ["a/b", "$max", "1"] = some (.function f) := by
  intro template
  have he : template.templateSource .standard =
    .error (.unsupported .function ["a/b", "$max", "1"]) := rfl
  obtain ⟨before, n, after, -, -, h⟩ := (templateSource_fails .standard template (by decide)).2 _ he
  rcases h with ⟨-, h⟩ | ⟨-, h, hread, f, -, hfollow⟩
  · cases h
  · obtain ⟨-, hpath⟩ := CompileError.unsupported.inj h
    rw [← hpath] at hread hfollow
    exact ⟨he, hread, f, hfollow⟩

end Template

end JsonStencil
