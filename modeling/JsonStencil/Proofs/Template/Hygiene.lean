import JsonStencil.Proofs.Template.Meaning

/-!
# The shape of compiled templates

Placeholders are written as they are, so one that is no expression by itself may change the shape of
what is around it. When the parts of a template compile by themselves, the expression of the
template has the shape of the template, with the expressions of the parts in it.
-/

namespace JsonStencil

namespace Template

open Phrases

variable {o : TemplateOptions} {v : Value} {exe : Executable}

theorem source_of_compile (h : Executable.compile o v = .ok exe) :
    ∃ cs, source o [] 0 v = .ok cs ∧ Expr.parse (.ofList cs) = .ok exe.expression := by
  unfold Executable.compile Value.templateSource at h
  cases hcs : source o [] 0 v with
  | error e =>
    rw [hcs] at h
    cases h
  | ok cs =>
    refine ⟨cs, rfl, ?_⟩
    rw [hcs] at h
    simp only [Except.map, Executable.ofSource] at h
    cases he : Expr.parse (.ofList cs) with
    | error fault =>
      rw [he] at h
      cases h
    | ok e =>
      rw [he] at h
      cases h
      rfl

/-- The expression that a template compiles to by itself, null when it does not compile. -/
def standalone (o : TemplateOptions) (v : Value) : Expr :=
  match Executable.compile o v with
  | .ok exe => exe.expression.erase
  | .error _ => .null .blank

/-- The source of a template spells, wherever it stands, what the template compiles to by itself. -/
theorem spells_standalone (hok : (Executable.compile o v).isOk) {path : List String} {depth : Nat}
    {cs : List Char} (h : source o path depth v = .ok cs) :
    Spells (Expression maxNesting) cs (standalone o v) := by
  obtain ⟨exe, hexe⟩ := exists_of_isOk hok
  obtain ⟨cs', hcs', he⟩ := source_of_compile hexe
  rw [standalone, hexe, source_unique h hcs']
  simpa using Spells.of_parse he

theorem erase_expression {budget : Nat} {cs : List Char} {e : Expr}
    (h : Executable.compile o v = .ok exe) (hcs : source o [] 0 v = .ok cs)
    (hspells : Spells (Expression budget) cs e) : exe.expression.erase = e := by
  obtain ⟨cs', hcs', he⟩ := source_of_compile h
  rw [source_unique hcs' hcs] at he
  rcases hspells.parse_eq with ⟨fault, hfault, -⟩ | ⟨e', he', rfl⟩
  · cases hfault.symm.trans he
  · rw [Except.ok.inj (he.symm.trans he')]

theorem erase_array {items : List Value} (h : Executable.compile o (.array items) = .ok exe)
    (hitems : ∀ item ∈ items, (Executable.compile o item).isOk) :
    exe.expression.erase = .array (items.map (standalone o)) .blank := by
  obtain ⟨cs, hcs, -⟩ := source_of_compile h
  obtain ⟨-, sources, hs, rfl⟩ := source_array.1 hcs
  exact erase_expression h hcs (.array (spells_itemSources hs fun item hm _ _ hitem =>
    spells_standalone (hitems item hm) hitem))

/-- The entries that an object says it has. An escaped key lacks a sigil, and a call has none. -/
def plainEntries? (o : TemplateOptions) : List (String × Value) → Option (List (String × Value))
  | [(key, v)] =>
    match keyRole o key with
    | .property => some [(key, v)]
    | .escaped name => some [(.ofList name, v)]
    | .call _ => none
  | entries => some entries

theorem plainEntries?_cases {entries plain : List (String × Value)}
    (h : plainEntries? o entries = some plain) :
    (plain = entries ∧ ∀ key v, entries = [(key, v)] → keyRole o key = .property) ∨
      ∃ key name v, entries = [(key, v)] ∧ keyRole o key = .escaped name ∧
        plain = [(.ofList name, v)] := by
  unfold plainEntries? at h
  split at h
  next key v =>
    cases hrole : keyRole o key with
    | property =>
      simp only [hrole, Option.some.injEq] at h
      refine .inl ⟨h.symm, fun key' v' heq => ?_⟩
      cases heq
      exact hrole
    | escaped name =>
      simp only [hrole, Option.some.injEq] at h
      exact .inr ⟨key, name, v, rfl, hrole, h.symm⟩
    | call name => simp [hrole] at h
  next hmany =>
    cases h
    exact .inl ⟨rfl, fun key v heq => (hmany key v heq).elim⟩

theorem length_of_plainEntries? {entries plain : List (String × Value)}
    (h : plainEntries? o entries = some plain) : plain.length = entries.length := by
  rcases plainEntries?_cases h with ⟨rfl, -⟩ | ⟨_, _, _, rfl, -, rfl⟩ <;> rfl

theorem erase_object {entries plain : List (String × Value)}
    (hplain : plainEntries? o entries = some plain)
    (h : Executable.compile o (.object entries) = .ok exe)
    (hok : ∀ entry ∈ plain, (Executable.compile o (.string entry.1)).isOk ∧
      (Executable.compile o entry.2).isOk) :
    exe.expression.erase = .object (plain.map fun entry =>
      ⟨keyOf (segments o entry.1) (standalone o (.string entry.1)), standalone o entry.2,
        .blank⟩) .blank := by
  obtain ⟨cs, hcs, -⟩ := source_of_compile h
  have hspells {path : List String} {depth : Nat} {cs : List Char} {entry : String × Value}
      (hm : entry ∈ plain) (hv : source o path depth entry.2 = .ok cs) :
      Spells (Expression maxNesting) (textSource o entry.1).chars (standalone o (.string entry.1)) ∧
        Spells (Expression maxNesting) cs (standalone o entry.2) := by
    have htext : source o [] 0 (.string entry.1) = .ok (textSource o entry.1).chars :=
      source_string.2 ⟨Nat.zero_le _, rfl⟩
    exact ⟨spells_standalone (hok entry hm).1 htext, spells_standalone (hok entry hm).2 hv⟩
  rcases plainEntries?_cases hplain with ⟨rfl, hrole⟩ | ⟨key, name, v, rfl, hrole, rfl⟩
  · obtain ⟨-, sources, hs, rfl⟩ := (source_object hrole).1 hcs
    exact erase_expression h hcs (.object (spells_entrySources (fun s => standalone o (.string s))
      (standalone o) hs fun entry hm _ _ hv => hspells hm hv))
  · obtain ⟨-, s, hs, rfl⟩ := (source_escaped hrole).1 hcs
    obtain ⟨hkey, hv⟩ := hspells (List.mem_singleton_self (String.ofList name, v)) hs
    exact erase_expression h hcs (.single (spells_entry hkey hv))

/-- The arguments that a call lists: the items of an array, or a single value. -/
def arguments : Value → List Value
  | .array items => items
  | v => [v]

theorem erase_call {key : String} {name : List Char} (hrole : keyRole o key = .call name)
    (hname : IsIdentifier (.ofList name)) (h : Executable.compile o (.object [(key, v)]) = .ok exe)
    (hargs : ∀ arg ∈ arguments v, (Executable.compile o arg).isOk) :
    exe.expression.erase =
      .call (.identifier (.ofList name) .blank) ((arguments v).map (standalone o)) .blank := by
  obtain ⟨cs, hcs, -⟩ := source_of_compile h
  have hsources : ∃ sources, name ++ '(' :: commaSeparated sources ++ [')'] = cs ∧
      List.Forall₂ (Spells (Expression maxNesting)) sources ((arguments v).map (standalone o)) := by
    by_cases hv : ∃ items, v = .array items
    · obtain ⟨items, rfl⟩ := hv
      obtain ⟨-, sources, hs, hcs⟩ := (source_call_array hrole).1 hcs
      exact ⟨sources, hcs, spells_itemSources hs fun item hm _ _ hitem =>
        spells_standalone (hargs item hm) hitem⟩
    · have hother : ∀ items, v ≠ .array items := fun items h => hv ⟨items, h⟩
      have harguments : arguments v = [v] := by
        cases v with
        | array items => exact (hother items rfl).elim
        | _ => rfl
      obtain ⟨-, s, hs, hcs⟩ := (source_call hrole hother).1 hcs
      rw [harguments] at hargs ⊢
      exact ⟨[s], hcs, .cons (spells_standalone (hargs v List.mem_cons_self) hs) .nil⟩
  obtain ⟨sources, rfl, hsources⟩ := hsources
  have hcall := Spells.call hname hsources
  rw [String.toList_ofList] at hcall
  exact erase_expression h hcs hcall

/-- The expression is what the template compiles to by itself, spans apart. -/
def CompilesTo (o : TemplateOptions) (v : Value) (e : Expr) : Prop :=
  ∃ exe, Executable.compile o v = .ok exe ∧ e.erase = exe.expression.erase

theorem compilesTo_of_erase (hok : (Executable.compile o v).isOk) {e : Expr}
    (h : e.erase = standalone o v) : CompilesTo o v e := by
  obtain ⟨exe, hexe⟩ := exists_of_isOk hok
  rw [standalone, hexe] at h
  exact ⟨exe, hexe, h⟩

theorem forall₂_of_map_eq {α β γ : Type} {f : β → γ} {g : α → γ} {as : List α} {bs : List β}
    (h : bs.map f = as.map g) : List.Forall₂ (fun a b => f b = g a) as bs := by
  have heq : List.Forall₂ (· = ·) (as.map g) (bs.map f) := by
    rw [h]
    exact List.forall₂_refl _
  rw [List.forall₂_map_left_iff, List.forall₂_map_right_iff] at heq
  exact heq.imp fun _ _ => Eq.symm

theorem forall₂_compilesTo {items : List Value} {es : List Expr}
    (hok : ∀ item ∈ items, (Executable.compile o item).isOk)
    (h : es.map Expr.erase = items.map (standalone o)) : List.Forall₂ (CompilesTo o) items es := by
  have hall := (List.forall₂_and_left _ _).2 ⟨hok, forall₂_of_map_eq h⟩
  exact hall.imp fun _ _ hitem => compilesTo_of_erase hitem.1 hitem.2

/-- The expression of a compiled template has the shape of the template when the parts compile by
themselves: items, keys and values of entries, and arguments. -/
theorem compile_shape (o : TemplateOptions) :
    (∀ items exe, Executable.compile o (.array items) = .ok exe →
      (∀ item ∈ items, (Executable.compile o item).isOk) →
      ∃ es span, exe.expression = .array es span ∧ List.Forall₂ (CompilesTo o) items es) ∧
    (∀ entries plain exe, plainEntries? o entries = some plain →
      Executable.compile o (.object entries) = .ok exe →
      (∀ entry ∈ plain, (Executable.compile o (.string entry.1)).isOk ∧
        (Executable.compile o entry.2).isOk) →
      ∃ es span, exe.expression = .object es span ∧ es.length = entries.length ∧
        List.Forall₂ (fun entry e => CompilesTo o entry.2 e.value) plain es) ∧
    (∀ key v name exe, keyRole o key = .call name → IsIdentifier (.ofList name) →
      Executable.compile o (.object [(key, v)]) = .ok exe →
      (∀ arg ∈ arguments v, (Executable.compile o arg).isOk) →
      ∃ args place span, exe.expression = .call (.identifier (.ofList name) place) args span ∧
        List.Forall₂ (CompilesTo o) (arguments v) args) := by
  refine ⟨fun items exe h hok => ?_, fun entries plain exe hplain h hok => ?_,
    fun key v name exe hrole hname h hok => ?_⟩
  · obtain ⟨es, span, hexe, hes⟩ := Expr.eq_array_of_erase (erase_array h hok)
    exact ⟨es, span, hexe, forall₂_compilesTo hok hes⟩
  · obtain ⟨es, span, hexe, hes⟩ := Expr.eq_object_of_erase (erase_object hplain h hok)
    have hall := (List.forall₂_and_left _ _).2 ⟨hok, forall₂_of_map_eq hes⟩
    refine ⟨es, span, hexe, ?_, hall.imp fun entry e hentry => ?_⟩
    · rw [← hall.length_eq, length_of_plainEntries? hplain]
    · exact compilesTo_of_erase hentry.1.2 (congrArg ObjectEntry.value hentry.2)
  · obtain ⟨args, place, span, hexe, hes⟩ :=
      Expr.eq_call_of_erase (erase_call hrole hname h hok)
    exact ⟨args, place, span, hexe, forall₂_compilesTo hok hes⟩

theorem compile_shape_standard :
    let hole : Value := .string "\x7b\x7b a \x7d\x7d"
    (∃ exe, Executable.compile .standard (.array [hole, .null]) = .ok exe ∧
      ∃ es span, exe.expression = .array es span ∧
        List.Forall₂ (CompilesTo .standard) [hole, .null] es) ∧
    (∃ exe, Executable.compile .standard (.object [("$$\x7b\x7b a \x7d\x7d", hole)]) = .ok exe ∧
      ∃ es span, exe.expression = .object es span ∧ es.length = 1 ∧
        List.Forall₂ (fun entry e => CompilesTo .standard entry.2 e.value)
          [("$\x7b\x7b a \x7d\x7d", hole)] es) ∧
    (∃ exe, Executable.compile .standard (.object [("$f", .array [hole, hole])]) = .ok exe ∧
      ∃ args place span, exe.expression = .call (.identifier "f" place) args span ∧
        List.Forall₂ (CompilesTo .standard) [hole, hole] args) := by
  intro hole
  obtain ⟨harray, hobject, hcall⟩ := compile_shape .standard
  obtain ⟨list, hlist⟩ := exists_of_isOk
    (by decide +kernel : (Executable.compile .standard (.array [hole, .null])).isOk)
  obtain ⟨object, hescaped⟩ := exists_of_isOk (by decide +kernel :
    (Executable.compile .standard (.object [("$$\x7b\x7b a \x7d\x7d", hole)])).isOk)
  obtain ⟨call, hcalled⟩ := exists_of_isOk (by decide +kernel :
    (Executable.compile .standard (.object [("$f", .array [hole, hole])])).isOk)
  exact ⟨⟨list, hlist, harray _ list hlist (by decide +kernel)⟩,
    ⟨object, hescaped, hobject _ _ object (by rfl) hescaped (by decide +kernel)⟩,
    ⟨call, hcalled, hcall "$f" (.array [hole, hole]) ['f'] call (by rfl) (by decide +kernel)
      hcalled (by decide +kernel)⟩⟩

def callArity? : Expr → Option (String × Nat)
  | .call (.identifier name _) args _ => some (name, args.length)
  | _ => none

/-- A placeholder that is no expression by itself makes two arguments of the one that is listed. -/
theorem call_of_comma :
    let listed : Value := .array [.string "\x7b\x7b 1, 2 \x7d\x7d"]
    ∃ exe args place span, Executable.compile .standard (.object [("$f", listed)]) = .ok exe ∧
      exe.expression = .call (.identifier "f" place) args span ∧
        args.length ≠ (arguments listed).length := by
  intro listed
  have harity : (Executable.compile .standard (.object [("$f", listed)])).toOption.bind
      (fun exe => callArity? exe.expression) = some ("f", 2) := by decide +kernel
  cases hexe : Executable.compile .standard (.object [("$f", listed)]) with
  | error fault =>
    rw [hexe] at harity
    cases harity
  | ok exe =>
    rw [hexe] at harity
    change callArity? exe.expression = some ("f", 2) at harity
    unfold callArity? at harity
    split at harity
    next name place args span he =>
      simp only [Option.some.injEq, Prod.mk.injEq] at harity
      obtain ⟨rfl, hlength⟩ := harity
      refine ⟨exe, args, place, span, rfl, he, ?_⟩
      rw [hlength]
      decide
    next => cases harity

end Template

end JsonStencil
