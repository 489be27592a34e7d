import JsonStencil.Expr.Parser
import JsonStencil.Proofs.Expr.Erase
import JsonStencil.Proofs.Template.Emission
import JsonStencil.Proofs.Template.Segments

/-!
# What templates say

The form of a template has its texts taken apart and its calls told from its objects. It stands for
an expression tree with the expressions of its placeholders in it.
-/

namespace JsonStencil

namespace Template

/-- What a template says, apart from how it is written. -/
inductive Form where
  | null
  | bool (b : Bool)
  | number (x : Binary64)
  | text (parts : List (Part Placeholder))
  | array (items : List Form)
  | object (entries : List (List (Part Placeholder) × Form))
  | call (name : String) (args : List Form)

mutual

/-- The form of a template. A function says nothing. -/
def form (o : TemplateOptions) : Value → Form
  | .null => .null
  | .bool b => .bool b
  | .number x => .number x
  | .string s => .text (segments o s)
  | .function _ => .null
  | .array items => .array (itemForms o items)
  | .object [(key, value)] =>
    match keyRole o key with
    | .property => .object [(segments o key, form o value)]
    | .escaped name => .object [(segments o (.ofList name), form o value)]
    | .call name =>
      match value with
      | .array items => .call (.ofList name) (itemForms o items)
      | value => .call (.ofList name) [form o value]
  | .object entries => .object (entryForms o entries)

def itemForms (o : TemplateOptions) : List Value → List Form
  | [] => []
  | item :: items => form o item :: itemForms o items

def entryForms (o : TemplateOptions) :
    List (String × Value) → List (List (Part Placeholder) × Form)
  | [] => []
  | (key, v) :: entries => (segments o key, form o v) :: entryForms o entries

end

theorem itemForms_eq_map (o : TemplateOptions) (items : List Value) :
    itemForms o items = items.map (form o) := by
  induction items with
  | nil => rfl
  | cons item items ih => rw [itemForms, ih, List.map_cons]

theorem entryForms_eq_map (o : TemplateOptions) (entries : List (String × Value)) :
    entryForms o entries = entries.map fun entry => (segments o entry.1, form o entry.2) := by
  induction entries with
  | nil => rfl
  | cons entry entries ih => rw [entryForms, ih, List.map_cons]

section Equations

variable {o : TemplateOptions}

theorem form_object {entries : List (String × Value)}
    (h : ∀ key v, entries = [(key, v)] → keyRole o key = .property) :
    form o (.object entries) = .object (entryForms o entries) := by
  match entries with
  | [] => rw [form]; simp
  | [(key, v)] => simp [form, h key v rfl, entryForms]
  | first :: second :: entries => rw [form]; simp

theorem form_escaped {key : String} {name : List Char} {v : Value}
    (h : keyRole o key = .escaped name) :
    form o (.object [(key, v)]) = .object [(segments o (.ofList name), form o v)] := by
  simp [form, h]

theorem form_call_array {key : String} {name : List Char} {items : List Value}
    (h : keyRole o key = .call name) :
    form o (.object [(key, .array items)]) = .call (.ofList name) (itemForms o items) := by
  simp [form, h]

theorem form_call {key : String} {name : List Char} {v : Value}
    (h : keyRole o key = .call name) (hv : ∀ items, v ≠ .array items) :
    form o (.object [(key, v)]) = .call (.ofList name) [form o v] := by
  rw [form, h]
  simp

end Equations

end Template

def Expr.signed (negative : Bool) (e : Expr) : Expr :=
  if negative then .unary .minus e .blank else e

def Expr.ofNumber : Binary64 → Expr
  | .nan => .identifier "NaN" .blank
  | .infinity negative => .signed negative (.identifier "Infinity" .blank)
  | .finite negative quanta h => .signed negative (.number (.finite false quanta h) .blank)

/-- The expression of a placeholder, null when its source is none. -/
def Placeholder.expression (p : Placeholder) : Expr :=
  match Expr.parse p.source with
  | .ok e => e.erase
  | .error _ => .null .blank

def Part.hole? {α : Type} : Part α → Option α
  | .text _ => none
  | .hole a => some a

namespace Template

def holes (parts : List (Part Placeholder)) : List Placeholder := parts.filterMap Part.hole?

theorem mem_holes {parts : List (Part Placeholder)} {p : Placeholder} :
    p ∈ holes parts ↔ .hole p ∈ parts := by
  simp only [holes, List.mem_filterMap]
  constructor
  · rintro ⟨part, hpart, hp⟩
    cases part with
    | text t => cases hp
    | hole q =>
      cases hp
      exact hpart
  · exact fun h => ⟨_, h, rfl⟩

/-- What a text is: a text without placeholders, a placeholder, or texts and placeholders. -/
inductive TextForm where
  | literal (s : String)
  | placeholder (p : Placeholder)
  | joined

def textForm : List (Part Placeholder) → TextForm
  | [] => .literal ""
  | [.text s] => .literal s
  | [.hole p] => .placeholder p
  | _ => .joined

theorem eq_of_textForm {parts : List (Part Placeholder)} {p : Placeholder}
    (h : textForm parts = .placeholder p) : parts = [.hole p] := by
  unfold textForm at h
  split at h <;> cases h
  rfl

def textTree (parts : List (Part Placeholder)) : Expr :=
  match textForm parts with
  | .literal s => .string s .blank
  | .placeholder p => p.expression
  | .joined => .template (parts.map (Part.map Placeholder.expression)) .blank

/-- The key that a text with an expression is, which is named when the text has no placeholders. -/
def keyOf (parts : List (Part Placeholder)) (e : Expr) : PropertyKey Expr :=
  match textForm parts with
  | .literal s => .named s
  | _ => .computed e

namespace Form

mutual

/-- The placeholders of a template in its texts and in the keys of its objects. -/
def placeholders : Form → List Placeholder
  | .text parts => holes parts
  | .array items => itemPlaceholders items
  | .object entries => entryPlaceholders entries
  | .call _ args => itemPlaceholders args
  | _ => []

def itemPlaceholders : List Form → List Placeholder
  | [] => []
  | item :: items => item.placeholders ++ itemPlaceholders items

def entryPlaceholders : List (List (Part Placeholder) × Form) → List Placeholder
  | [] => []
  | (key, f) :: entries => holes key ++ f.placeholders ++ entryPlaceholders entries

end

mutual

def callNames : Form → List String
  | .array items => itemCallNames items
  | .object entries => entryCallNames entries
  | .call name args => name :: itemCallNames args
  | _ => []

def itemCallNames : List Form → List String
  | [] => []
  | item :: items => item.callNames ++ itemCallNames items

def entryCallNames : List (List (Part Placeholder) × Form) → List String
  | [] => []
  | (_, f) :: entries => f.callNames ++ entryCallNames entries

end

mutual

def tree : Form → Expr
  | .null => .null .blank
  | .bool b => .bool b .blank
  | .number x => .ofNumber x
  | .text parts => textTree parts
  | .array items => .array (itemTrees items) .blank
  | .object entries => .object (entryTrees entries) .blank
  | .call name args => .call (.identifier name .blank) (itemTrees args) .blank

def itemTrees : List Form → List Expr
  | [] => []
  | item :: items => item.tree :: itemTrees items

def entryTrees : List (List (Part Placeholder) × Form) → List (ObjectEntry Expr)
  | [] => []
  | (key, f) :: entries => ⟨keyOf key (textTree key), f.tree, .blank⟩ :: entryTrees entries

end

theorem itemTrees_eq_map (items : List Form) : itemTrees items = items.map tree := by
  induction items with
  | nil => rfl
  | cons item items ih => rw [itemTrees, ih, List.map_cons]

theorem entryTrees_eq_map (entries : List (List (Part Placeholder) × Form)) :
    entryTrees entries = entries.map fun entry =>
      ⟨keyOf entry.1 (textTree entry.1), entry.2.tree, .blank⟩ := by
  induction entries with
  | nil => rfl
  | cons entry entries ih => rw [entryTrees, ih, List.map_cons]

end Form

section Membership

variable {o : TemplateOptions} {p : Placeholder} {name : String}

theorem mem_itemPlaceholders {items : List Value} :
    p ∈ Form.itemPlaceholders (itemForms o items) ↔
      ∃ item ∈ items, p ∈ (form o item).placeholders := by
  induction items with
  | nil => simp [itemForms, Form.itemPlaceholders]
  | cons item items ih => simp [itemForms, Form.itemPlaceholders, ih]

theorem mem_entryPlaceholders {entries : List (String × Value)} :
    p ∈ Form.entryPlaceholders (entryForms o entries) ↔
      ∃ entry ∈ entries, p ∈ holes (segments o entry.1) ∨ p ∈ (form o entry.2).placeholders := by
  induction entries with
  | nil => simp [entryForms, Form.entryPlaceholders]
  | cons entry entries ih => simp [entryForms, Form.entryPlaceholders, ih, or_assoc]

theorem mem_itemCallNames {items : List Value} :
    name ∈ Form.itemCallNames (itemForms o items) ↔
      ∃ item ∈ items, name ∈ (form o item).callNames := by
  induction items with
  | nil => simp [itemForms, Form.itemCallNames]
  | cons item items ih => simp [itemForms, Form.itemCallNames, ih]

theorem mem_entryCallNames {entries : List (String × Value)} :
    name ∈ Form.entryCallNames (entryForms o entries) ↔
      ∃ entry ∈ entries, name ∈ (form o entry.2).callNames := by
  induction entries with
  | nil => simp [entryForms, Form.entryCallNames]
  | cons entry entries ih => simp [entryForms, Form.entryCallNames, ih]

end Membership

end Template

end JsonStencil
