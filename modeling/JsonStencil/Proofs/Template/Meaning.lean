import JsonStencil.Proofs.Template.Tree

/-!
# The meaning of a template

A template is interpreted without a source: a text is its placeholder or is joined from its parts,
a list and an object are made of the meanings of what they hold, and a call applies what its name
stands for. A compiled template has this meaning whenever its source does not nest too deeply.
-/

namespace JsonStencil

open Evaluation

variable {σ : Type}

def nameMeaning (env : Environment σ) (name : String) : Meaning σ Value := fun w =>
  match env.resolve? name w.serial with
  | some (v, serial) => .ok v { w with serial }
  | none => .error (.undefined name) w

/-- What a function does, in the state of the host. Its name is put in front of its errors. -/
def functionMeaning (env : Environment σ) (f : Function) (args : List Value) : Meaning σ Value :=
  fun w =>
    match env.callFunction f args w.state with
    | .ok v state => .ok v { w with state }
    | .error e state => .error (.inCall f.name e.fault) { w with state }

def applyMeaning (env : Environment σ) (name : String) (target : Value) (args : List Value) :
    Meaning σ Value :=
  match target with
  | .function f => functionMeaning env f args
  | v => throw (.notFunction (some name) v.kind)

/-- The value of a number, which is what its name stands for when it is not finite. -/
def numberMeaning (env : Environment σ) : Binary64 → Meaning σ Value
  | .nan => nameMeaning env "NaN"
  | .infinity false => nameMeaning env "Infinity"
  | .infinity true => do
    let v ← nameMeaning env "Infinity"
    Meaning.ofOperation (UnaryOp.minus.apply v)
  | x => pure (.number x)

def Placeholder.meaning (env : Environment σ) (p : Placeholder) : Meaning σ Value :=
  match Expr.parse p.source with
  | .ok e => cause (e.eval env)
  | .error _ => pure .null

namespace Template

def joinedMeaning (env : Environment σ) : List (Part Placeholder) → Meaning σ String
  | [] => pure ""
  | .text s :: parts => return s ++ (← joinedMeaning env parts)
  | .hole p :: parts => do
    let v ← p.meaning env
    return v.display ++ (← joinedMeaning env parts)

/-- A text that is one placeholder means its value, and any other a text. -/
def textMeaning (env : Environment σ) : List (Part Placeholder) → Meaning σ Value
  | [.hole p] => p.meaning env
  | parts => return .string (← joinedMeaning env parts)

namespace Form

mutual

/-- The value that a template stands for. Parts take their turn from left to right, a key before its
value and the name of a call before the arguments. -/
def meaning (env : Environment σ) : Form → Meaning σ Value
  | .null => pure .null
  | .bool b => pure (.bool b)
  | .number x => numberMeaning env x
  | .text parts => textMeaning env parts
  | .array items => return .array (← itemMeanings env items)
  | .object entries => return .object (Entries.ofPairs (← entryMeanings env entries))
  | .call name args => do
    let target ← nameMeaning env name
    let values ← itemMeanings env args
    applyMeaning env name target values

def itemMeanings (env : Environment σ) : List Form → Meaning σ (List Value)
  | [] => pure []
  | item :: items => do
    let v ← item.meaning env
    let vs ← itemMeanings env items
    return v :: vs

def entryMeanings (env : Environment σ) :
    List (List (Part Placeholder) × Form) → Meaning σ (List (String × Value))
  | [] => pure []
  | (key, f) :: entries => do
    let k ← textMeaning env key
    let v ← f.meaning env
    let rest ← entryMeanings env entries
    return (k.propertyName, v) :: rest

end

end Form

section Evaluation

variable (env : Environment σ)

theorem cause_eval_signed (negative : Bool) (e : Expr) :
    cause ((Expr.signed negative e).eval env) =
      if negative then cause (e.eval env) >>= fun v => Meaning.ofOperation (UnaryOp.minus.apply v)
      else cause (e.eval env) := by
  cases negative with
  | false => rfl
  | true =>
    simp only [Expr.signed, if_true, Expr.eval, cause_bind, cause_ofOperation]

theorem cause_eval_name (name : String) (span : Span) :
    cause ((Expr.identifier name span).eval env) = nameMeaning env name := by
  funext w
  simp only [Expr.eval, cause, EStateM.adaptExcept, lookUp, nameMeaning]
  cases env.resolve? name w.serial <;> rfl

theorem cause_eval_ofNumber (x : Binary64) :
    cause ((Expr.ofNumber x).eval env) = numberMeaning env x := by
  cases x with
  | nan => exact cause_eval_name env "NaN" .blank
  | infinity negative =>
    rw [Expr.ofNumber, cause_eval_signed, cause_eval_name]
    cases negative <;> rfl
  | finite negative quanta h =>
    rw [Expr.ofNumber, cause_eval_signed]
    cases negative <;> rfl

theorem cause_callValue_eq (name : String) (target : Value) (args : List Value) (span : Span) :
    cause (callValue env (.identifier name .blank) target args span) =
      applyMeaning env name target args := by
  cases target with
  | function f =>
    rw [callValue, cause_ofCall, applyMeaning]
    funext w
    simp only [Meaning.ofCall, HostCall.named, EStateM.adaptExcept, functionMeaning]
    cases env.callFunction f args w.state <;> rfl
  | _ => rfl

theorem cause_eval_expression (p : Placeholder) :
    cause (p.expression.eval env) = p.meaning env := by
  unfold Placeholder.expression Placeholder.meaning
  cases Expr.parse p.source with
  | ok e => exact e.cause_eval_erase env
  | error fault => rfl

theorem cause_evalParts (parts : List (Part Placeholder)) :
    cause (Expr.evalParts env (parts.map (Part.map Placeholder.expression))) =
      joinedMeaning env parts := by
  induction parts with
  | nil => rfl
  | cons part parts ih =>
    cases part with
    | text s =>
      simp only [List.map_cons, Part.map, Expr.evalParts, joinedMeaning, cause_bind, cause_pure, ih]
    | hole p =>
      simp only [List.map_cons, Part.map, Expr.evalParts, joinedMeaning, cause_bind, cause_pure, ih,
        cause_eval_expression]

theorem cause_eval_textTree (parts : List (Part Placeholder)) :
    cause ((textTree parts).eval env) = textMeaning env parts := by
  match parts with
  | [] => rfl
  | [.text s] =>
    simp only [textTree, textForm, Expr.eval, cause_pure, textMeaning, joinedMeaning, pure_bind,
      String.append_empty]
  | [.hole p] => exact cause_eval_expression env p
  | first :: second :: parts =>
    have hform : textForm (first :: second :: parts) = .joined := by cases first <;> rfl
    have hjoined : textMeaning env (first :: second :: parts) = (do
        return .string (← joinedMeaning env (first :: second :: parts))) := by
      cases first <;> rfl
    simp only [textTree, hform, hjoined, Expr.eval, cause_bind, cause_pure, cause_evalParts]

theorem cause_evalEntries_cons (key : List (Part Placeholder)) (e : Expr)
    (entries : List (ObjectEntry Expr)) :
    cause (Expr.evalEntries env (⟨keyOf key (textTree key), e, .blank⟩ :: entries)) = (do
      let k ← textMeaning env key
      let v ← cause (e.eval env)
      let rest ← cause (Expr.evalEntries env entries)
      return (k.propertyName, v) :: rest) := by
  cases hform : textForm key with
  | literal s =>
    have hkey : textMeaning env key = pure (.string s) := by
      rw [← cause_eval_textTree, textTree, hform]
      rfl
    simp only [keyOf, hform, hkey, Expr.evalEntries, cause_bind, cause_pure, pure_bind]
    rfl
  | placeholder | joined =>
    simp only [keyOf, hform, Expr.evalEntries, cause_bind, cause_pure, cause_eval_textTree]

namespace Form

mutual

theorem cause_eval_tree : ∀ f : Form, cause (f.tree.eval env) = f.meaning env
  | .null => rfl
  | .bool _ => rfl
  | .number x => cause_eval_ofNumber env x
  | .text parts => cause_eval_textTree env parts
  | .array items => by
    simp only [tree, meaning, Expr.eval, cause_bind, cause_pure, cause_evalItems items]
  | .object entries => by
    simp only [tree, meaning, Expr.eval, cause_bind, cause_pure, cause_evalEntries entries]
  | .call name args => by
    rw [tree, Expr.eval_call env _ _ rfl]
    simp only [meaning, cause_bind, cause_eval_name, cause_evalItems args, cause_callValue_eq]

theorem cause_evalItems : ∀ items : List Form,
    cause (Expr.evalItems env (itemTrees items)) = itemMeanings env items
  | [] => rfl
  | item :: items => by
    simp only [itemTrees, itemMeanings, Expr.evalItems, cause_bind, cause_pure,
      cause_eval_tree item, cause_evalItems items]

theorem cause_evalEntries : ∀ entries : List (List (Part Placeholder) × Form),
    cause (Expr.evalEntries env (entryTrees entries)) = entryMeanings env entries
  | [] => rfl
  | (key, f) :: entries => by
    simp only [entryTrees, entryMeanings, cause_evalEntries_cons, cause_eval_tree f,
      cause_evalEntries entries]

end

end Form

end Evaluation

section Compile

theorem exists_of_isOk {ε α : Type} {x : Except ε α} (h : x.isOk) : ∃ a, x = .ok a := by
  cases x with
  | ok a => exact ⟨a, rfl⟩
  | error e => cases h

variable {o : TemplateOptions} {v : Value} {cs : List Char}

theorem compile_eq (h : source o [] 0 v = .ok cs) :
    Executable.compile o v =
      (Executable.ofSource (.ofList cs)).mapError (.badSource (.ofList cs)) := by
  simp only [Executable.compile, Value.templateSource, h, Except.map]

theorem compile_eq_ok {e : Expr} (h : source o [] 0 v = .ok cs)
    (he : Expr.parse (.ofList cs) = .ok e) : Executable.compile o v = .ok ⟨.ofList cs, e⟩ := by
  rw [compile_eq h, Executable.ofSource, he]
  rfl

theorem cause_call (exe : Executable) {f : Form} (h : exe.expression.erase = f.tree)
    (env : Environment σ) : cause (exe.call env) = f.meaning env := by
  rw [← Form.cause_eval_tree, ← h, Expr.cause_eval_erase, Executable.call]

end Compile

end Template

end JsonStencil
