import JsonStencil.Template.Options
import JsonStencil.Outer.Toml.Reader

/-!
# Options from settings

Options are read from the tables `string` and `object` of a document. What is missing keeps its
standard value and other keys are passed over. A table may also be an array of its values in order.
-/

namespace JsonStencil

namespace Toml

def textOr? (standard : String) : Option TomlNode → Option String
  | none => some standard
  | some (.text s) => some s
  | some _ => none

def group? (names : List String) : Option TomlNode → Option (List (Option TomlNode))
  | none | some .date => some (names.map fun _ => none)
  | some (.table _ entries) => some (names.map (Entries.get? entries))
  | some (.tables items) =>
    some ((List.range names.length).map fun i => items[i]?.map (.table .header))
  | some (.array items) => some ((List.range names.length).map (items[·]?))
  | some _ => none

end Toml

namespace TemplateOptions

/-- Why options cannot be taken from settings. -/
inductive SettingsError where
  | invalid
  | unreadable (path : String)
  deriving DecidableEq, Repr

def SettingsError.message : SettingsError → String
  | .invalid => "invalid compile options"
  | .unreadable path => "failed to read " ++ path

def ofTable? (settings : TomlTable) : Option TemplateOptions := do
  let strings ← Toml.group? ["left", "right", "escape"] (Entries.get? settings "string")
  let objects ← Toml.group? ["call"] (Entries.get? settings "object")
  return {
    left := ← Toml.textOr? standard.left (strings[0]?.join)
    right := ← Toml.textOr? standard.right (strings[1]?.join)
    escape := ← Toml.textOr? standard.escape (strings[2]?.join)
    sigil := ← Toml.textOr? standard.sigil (objects[0]?.join) }

def ofSettings (text : String) : Except SettingsError TemplateOptions :=
  match (Toml.read? text).bind ofTable? with
  | some options => .ok options
  | none => .error .invalid

end TemplateOptions

end JsonStencil
