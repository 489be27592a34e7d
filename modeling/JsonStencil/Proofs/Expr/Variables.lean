import JsonStencil.Proofs.Expr.Identity

/-!
# The variables of an expression

The names that an expression reads as variables. Evaluation asks a context for no other names, so
contexts that agree on these cannot be told apart.
-/

namespace JsonStencil

namespace Context

/-- Each of the names has the same value in both contexts, or none in either. -/
def AgreeOn (names : List String) (c c' : Context) : Prop :=
  ∀ name ∈ names, c.get? name = c'.get? name

variable {c c' : Context} {names names' : List String}

theorem agreeOn_append :
    AgreeOn (names ++ names') c c' ↔ AgreeOn names c c' ∧ AgreeOn names' c c' :=
  List.forall_mem_append

theorem agreeOn_set {name : String} (h : name ∉ names) (v : Value) :
    AgreeOn names (c.set name v) c := by
  intro other hother
  have hne : other ≠ name := fun heq => h (heq ▸ hother)
  exact (Entries.get?_insert v).trans (if_neg hne)

theorem agreeOn_remove {name : String} (h : name ∉ names) : AgreeOn names (c.remove name) c := by
  intro other hother
  exact Entries.get?_remove_of_ne fun heq => h (heq ▸ hother)

end Context

namespace Expr

open Context Evaluation

mutual

/-- The names that an expression reads as variables. The names of members and of properties with a
value of their own are not among them. -/
def freeNames : Expr → List String
  | .null _ | .bool _ _ | .number _ _ | .string _ _ => []
  | .template parts _ => partNames parts
  | .identifier name _ => [name]
  | .array items _ => itemNames items
  | .object entries _ => entryNames entries
  | .call callee args _ => callee.freeNames ++ itemNames args
  | .member owner _ _ => owner.freeNames
  | .index owner position _ => owner.freeNames ++ position.freeNames
  | .unary _ operand _ => operand.freeNames
  | .binary _ left right _ | .logical _ left right _ => left.freeNames ++ right.freeNames
  | .conditional condition onTrue onFalse _ =>
    condition.freeNames ++ (onTrue.freeNames ++ onFalse.freeNames)

def partNames : List (Part Expr) → List String
  | [] => []
  | .text _ :: parts => partNames parts
  | .hole e :: parts => e.freeNames ++ partNames parts

def itemNames : List Expr → List String
  | [] => []
  | e :: items => e.freeNames ++ itemNames items

def entryNames : List (ObjectEntry Expr) → List String
  | [] => []
  | ⟨.named _, e, _⟩ :: entries => e.freeNames ++ entryNames entries
  | ⟨.computed key, e, _⟩ :: entries => key.freeNames ++ (e.freeNames ++ entryNames entries)

end

section Agree

variable {σ : Type} {host : Nat → List Value → HostCall σ Value} {patterns : PatternLanguage}
  {c c' : Context}

theorem lookUp_congr {name : String} (h : c.get? name = c'.get? name) (span : Span) :
    lookUp ⟨c, host, patterns⟩ name span = lookUp ⟨c', host, patterns⟩ name span := by
  funext serial
  simp only [lookUp, Environment.resolve?, h]

theorem applyCall_congr (callee : Expr) :
    applyCall ⟨c, host, patterns⟩ callee = applyCall ⟨c', host, patterns⟩ callee := by
  cases callee <;> rfl

mutual

/-- Contexts that agree on the names of an expression give it the same value, or the same error. -/
theorem eval_congr : ∀ e : Expr, AgreeOn e.freeNames c c' →
    e.eval ⟨c, host, patterns⟩ = e.eval ⟨c', host, patterns⟩
  | .null _, _ | .bool _ _, _ | .number _ _, _ | .string _ _, _ => rfl
  | .identifier name span, h => lookUp_congr (h name (List.mem_singleton_self name)) span
  | .template parts _, h => by
    rw [freeNames] at h
    rw [eval, eval, evalParts_congr parts h]
  | .array items _, h => by
    rw [freeNames] at h
    rw [eval, eval, evalItems_congr items h]
  | .object entries _, h => by
    rw [freeNames] at h
    rw [eval, eval, evalEntries_congr entries h]
  | .member owner _ _, h => by
    rw [freeNames] at h
    rw [eval, eval, eval_congr owner h]
  | .index owner position _, h => by
    rw [freeNames, agreeOn_append] at h
    rw [eval, eval, eval_congr owner h.1, eval_congr position h.2]
  | .call callee args span, h => by
    rw [freeNames, agreeOn_append] at h
    -- the receiver of a method is evaluated in place of the member that names it
    have htarget : callee.callTarget.eval ⟨c, host, patterns⟩ =
        callee.callTarget.eval ⟨c', host, patterns⟩ := by
      have hcallee := eval_congr callee h.1
      cases callee with
      | member owner property place => exact eval_congr owner h.1
      | _ => exact hcallee
    have happly : applyCall ⟨c, host, patterns⟩ callee = applyCall ⟨c', host, patterns⟩ callee :=
      applyCall_congr callee
    rw [eval_call_eq, eval_call_eq, htarget, evalItems_congr args h.2, happly]
  | .unary _ operand _, h => by
    rw [freeNames] at h
    rw [eval, eval, eval_congr operand h]
  | .binary _ left right _, h | .logical _ left right _, h => by
    rw [freeNames, agreeOn_append] at h
    rw [eval, eval, eval_congr left h.1, eval_congr right h.2]
  | .conditional condition onTrue onFalse _, h => by
    rw [freeNames, agreeOn_append, agreeOn_append] at h
    rw [eval, eval, eval_congr condition h.1, eval_congr onTrue h.2.1, eval_congr onFalse h.2.2]

theorem evalItems_congr : ∀ items : List Expr, AgreeOn (itemNames items) c c' →
    evalItems ⟨c, host, patterns⟩ items = evalItems ⟨c', host, patterns⟩ items
  | [], _ => rfl
  | e :: items, h => by
    rw [itemNames, agreeOn_append] at h
    rw [evalItems, evalItems, eval_congr e h.1, evalItems_congr items h.2]

theorem evalParts_congr : ∀ parts : List (Part Expr), AgreeOn (partNames parts) c c' →
    evalParts ⟨c, host, patterns⟩ parts = evalParts ⟨c', host, patterns⟩ parts
  | [], _ => rfl
  | .text _ :: parts, h => by
    rw [partNames] at h
    rw [evalParts, evalParts, evalParts_congr parts h]
  | .hole e :: parts, h => by
    rw [partNames, agreeOn_append] at h
    rw [evalParts, evalParts, eval_congr e h.1, evalParts_congr parts h.2]

theorem evalEntries_congr : ∀ entries : List (ObjectEntry Expr),
    AgreeOn (entryNames entries) c c' →
    evalEntries ⟨c, host, patterns⟩ entries = evalEntries ⟨c', host, patterns⟩ entries
  | [], _ => rfl
  | ⟨.named _, e, _⟩ :: entries, h => by
    rw [entryNames, agreeOn_append] at h
    rw [evalEntries, evalEntries, eval_congr e h.1, evalEntries_congr entries h.2]
  | ⟨.computed key, e, _⟩ :: entries, h => by
    rw [entryNames, agreeOn_append, agreeOn_append] at h
    rw [evalEntries, evalEntries, eval_congr key h.1, eval_congr e h.2.1,
      evalEntries_congr entries h.2.2]

end

/-- Contexts that agree on the names of an expression cannot be told apart by it, and neither can
contexts in which variables of other names are added, changed or removed: from one world evaluation
comes to the same value or error, and leaves the same world. What routines remember belongs to the
world and to no context. Deterministic routines give one outcome in any worlds, with builtins known
by their names. -/
theorem eval_eq_of_agreeOn {e : Expr} (h : AgreeOn e.freeNames c c') :
    (∀ s, e.eval ⟨c, host, patterns⟩ s = e.eval ⟨c', host, patterns⟩ s) ∧
      (∀ n, (⟨c, host, patterns⟩ : Environment σ).Deterministic n →
        ∀ s t, n ≤ s.serial → n ≤ t.serial →
          (outcome (e.eval ⟨c, host, patterns⟩ s)).map Value.byName =
            (outcome (e.eval ⟨c', host, patterns⟩ t)).map Value.byName) ∧
      ∀ name, name ∉ e.freeNames →
        (∀ v s, e.eval ⟨c.set name v, host, patterns⟩ s = e.eval ⟨c', host, patterns⟩ s) ∧
          ∀ s, e.eval ⟨c.remove name, host, patterns⟩ s = e.eval ⟨c', host, patterns⟩ s := by
  have hall {c₁ : Context} (h₁ : AgreeOn e.freeNames c₁ c) (s : World σ) :
      e.eval ⟨c₁, host, patterns⟩ s = e.eval ⟨c', host, patterns⟩ s := by
    rw [eval_congr e h₁, eval_congr e h]
  refine ⟨hall fun _ _ => rfl, fun n henv s t hs ht => ?_, fun name hname => ⟨fun v => ?_, ?_⟩⟩
  · rw [outcome_eval henv e hs ht, hall fun _ _ => rfl]
  · exact hall (agreeOn_set hname v)
  · exact hall (agreeOn_remove hname)

/-- A shorthand property, a template, a call of a method `trim` and a call of a function of the
host, which counts its calls, read four variables. -/
theorem eval_eq_of_agreeOn_object :
    let line : Span := ⟨1, 1, 0, 36⟩
    let e : Expr := .object
      [⟨.named "o", .identifier "o" line, line⟩,
        ⟨.named "x", .call (.member (.identifier "s" line) "trim" line) [] line, line⟩,
        ⟨.computed (.template [.hole (.identifier "max" line)] line),
          .call (.identifier "f" line) [] line, line⟩] line
    let f : Value := .function ⟨"f", .host 0⟩
    let c : Context :=
      ⟨[("x", .bool true), ("s", .string " a "), ("trim", .null), ("f", f), ("o", .null)]⟩
    let c' : Context := ⟨[("o", .null), ("s", .string " a "), ("f", f), ("min", .bool false)]⟩
    let host : Nat → List Value → HostCall Nat Value := fun _ _ k => .ok (.ofNat k) (k + 1)
    let patterns : PatternLanguage := fun pattern => .error pattern
    AgreeOn e.freeNames c c' ∧
      e.eval ⟨c, host, patterns⟩ ⟨0, 7⟩ = e.eval ⟨c', host, patterns⟩ ⟨0, 7⟩ ∧
      e.eval ⟨c.set "len" .null, host, patterns⟩ ⟨0, 7⟩ = e.eval ⟨c', host, patterns⟩ ⟨0, 7⟩ ∧
        e.eval ⟨c.remove "x", host, patterns⟩ ⟨0, 7⟩ = e.eval ⟨c', host, patterns⟩ ⟨0, 7⟩ := by
  intro line e f c c' host patterns
  have hnames : e.freeNames = ["o", "s", "max", "f"] := by
    simp [e, freeNames, entryNames, partNames, itemNames]
  have hagree : AgreeOn e.freeNames c c' := by
    rw [hnames]
    simp only [AgreeOn, List.forall_mem_cons]
    exact ⟨rfl, rfl, rfl, rfl, nofun⟩
  obtain ⟨hsame, -, hother⟩ := @eval_eq_of_agreeOn Nat host patterns c c' e hagree
  exact ⟨hagree, hsame _, (hother "len" (by simp [hnames])).1 .null _,
    (hother "x" (by simp [hnames])).2 _⟩

end Agree

end Expr

end JsonStencil
