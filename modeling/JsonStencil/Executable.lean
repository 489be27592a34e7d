import JsonStencil.Expr.Eval
import JsonStencil.Expr.Parser
import JsonStencil.Template.Source

/-!
# Executables

A template is compiled once, to a source text and the expression it spells, and then called with
any number of contexts.
-/

namespace JsonStencil

structure Executable where
  source : String
  expression : Expr

/-- Why a template cannot be compiled: it has no source, or its source is no expression. -/
inductive TemplateError where
  | noSource (error : CompileError)
  | badSource (source : String) (error : SyntaxError)

namespace Executable

def ofSource (source : String) : Except SyntaxError Executable :=
  (Expr.parse source).map fun e => ⟨source, e⟩

def compile (o : TemplateOptions) (template : Value) : Except TemplateError Executable :=
  match template.templateSource o with
  | .error e => .error (.noSource e)
  | .ok source => (ofSource source).mapError (.badSource source)

def call {σ : Type} (exe : Executable) (env : Environment σ) : Evaluation σ Value :=
  exe.expression.eval env

/-- Calls with the members of a document as variables. These hold no functions, so that serial
numbers may start anywhere. -/
def callJson (exe : Executable) (patterns : PatternLanguage) (json : Json) :
    Except CallError Value :=
  match Context.ofJson json with
  | .error fault => .error (.plain fault)
  | .ok context => (outcome (exe.call (.ofContext patterns context) ⟨0, ()⟩)).mapError .placed

end Executable

end JsonStencil
