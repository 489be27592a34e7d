import JsonStencil.Entries

/-!
# TOML documents

A document is a tree of tables. How a table came about decides whether later lines may still add to
it: headers may open tables that only other headers imply, and dotted keys tables that only dotted
keys made.
-/

namespace JsonStencil

/-- How a table came about: implied by a longer header, by a header of its own, by dotted keys, or
written in braces. -/
inductive TableKind where
  | implied | header | dotted | inline
  deriving DecidableEq, Repr

/-- A value in a document. Numbers and truth values are kept without their content. -/
inductive TomlNode where
  | text (s : String)
  | scalar
  | date
  | array (items : List TomlNode)
  | table (kind : TableKind) (entries : List (String × TomlNode))
  /-- The tables of repeated headers in double brackets. -/
  | tables (items : List (List (String × TomlNode)))
  deriving Inhabited

abbrev TomlTable := List (String × TomlNode)

namespace TomlTable

/-- Changes the table at the end of a path. Missing tables on the way are made, only tables of kinds
that are `open?` are entered, and of repeated tables the last one. -/
def updateAt (made : TableKind) (open? : TableKind → Bool)
    (change : TableKind → TomlTable → Option TomlTable) :
    List String → TableKind → TomlTable → Option TomlTable
  | [], kind, table => change kind table
  | key :: path, _, table =>
    match Entries.get? table key with
    | none =>
      (updateAt made open? change path made []).map fun inner =>
        Entries.insert key (.table made inner) table
    | some (.table kind inner) =>
      if open? kind then
        (updateAt made open? change path kind inner).map fun inner =>
          Entries.insert key (.table kind inner) table
      else none
    | some (.tables items) =>
      (updateAt made open? change path .header (items.getLast?.getD [])).map fun inner =>
        Entries.insert key (.tables (items.dropLast ++ [inner])) table
    | some _ => none

/-- Adds a value under a dotted key, given as its leading keys and the last one. Leading keys have
to lead to a table of dotted keys, and the last one has to be new. -/
def addDotted (path : List String) (key : String) (node : TomlNode) (table : TomlTable) :
    Option TomlTable :=
  let change (kind : TableKind) (inner : TomlTable) : Option TomlTable :=
    if path ≠ [] ∧ kind ≠ .dotted then none
    else if (Entries.get? inner key).isSome then none
    else some (inner ++ [(key, node)])
  updateAt .dotted (fun kind => kind = .implied || kind = .dotted) change path .header table

def entered (kind : TableKind) : Bool := kind ≠ .inline

def openTable (path : List String) (key : String) (table : TomlTable) : Option TomlTable :=
  let change (_ : TableKind) (inner : TomlTable) : Option TomlTable :=
    match Entries.get? inner key with
    | none => some (inner ++ [(key, .table .header [])])
    | some (.table .implied entries) => some (Entries.insert key (.table .header entries) inner)
    | some _ => none
  updateAt .implied entered change path .header table

/-- Opens one more of the tables of a header in double brackets. -/
def openRepeated (path : List String) (key : String) (table : TomlTable) : Option TomlTable :=
  let change (_ : TableKind) (inner : TomlTable) : Option TomlTable :=
    match Entries.get? inner key with
    | none => some (inner ++ [(key, .tables [[]])])
    | some (.tables items) => some (Entries.insert key (.tables (items ++ [[]])) inner)
    | some _ => none
  updateAt .implied entered change path .header table

/-- Adds a value under a dotted key to the table of the last header. -/
def addBelow (header path : List String) (key : String) (node : TomlNode) (table : TomlTable) :
    Option TomlTable :=
  updateAt .implied entered (fun _ inner => addDotted path key node inner) header .header table

end TomlTable

end JsonStencil
