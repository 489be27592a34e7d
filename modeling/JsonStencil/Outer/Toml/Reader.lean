import JsonStencil.Outer.Toml.Node
import JsonStencil.Outer.Toml.Scalar

/-!
# Reading TOML documents

A document is read line by line. Strings may run over lines in triple quotes, and arrays in
brackets. A text that breaks the notation, or sets a key twice, is no document.
-/

namespace JsonStencil.Toml

def isLineSpace (c : Char) : Bool := c = ' ' || c = '\t'

def skipLineSpace (cs : List Char) : List Char := cs.dropWhile isLineSpace

def isControl (c : Char) : Bool := (c.toNat < 0x20 && c ≠ '\t') || c.toNat = 0x7f

def afterNewline? : List Char → Option (List Char)
  | '\n' :: cs => some cs
  | '\r' :: '\n' :: cs => some cs
  | _ => none

/-- Drops blanks and a comment up to the end of the line, which stays. -/
def dropComment? (cs : List Char) : Option (List Char) :=
  match skipLineSpace cs with
  | '#' :: rest =>
    let comment := rest.takeWhile fun c => c ≠ '\n' && c ≠ '\r'
    if comment.any isControl then none else some (rest.drop comment.length)
  | rest => some rest

/-- Drops blanks, comments and line ends, in `n` steps at most. -/
def skipLines? : Nat → List Char → Option (List Char)
  | 0, cs => some cs
  | n + 1, cs =>
    match dropComment? cs with
    | none => none
    | some rest =>
      match afterNewline? rest with
      | some rest => skipLines? n rest
      | none => some rest

/-! ## Strings -/

def shortEscape? : Char → Option Char
  | 'b' => some '\x08'
  | 't' => some '\t'
  | 'n' => some '\n'
  | 'f' => some '\x0c'
  | 'r' => some '\r'
  | '"' => some '"'
  | '\\' => some '\\'
  | _ => none

def codeEscape? (width : Nat) (cs : List Char) : Option (Char × List Char) :=
  if cs.length < width then none
  else ((readHex? (cs.take width)).bind charOfNat?).map fun c => (c, cs.drop width)

def readEscape? : List Char → Option (Char × List Char)
  | 'u' :: cs => codeEscape? 4 cs
  | 'U' :: cs => codeEscape? 8 cs
  | c :: cs => (shortEscape? c).map fun e => (e, cs)
  | [] => none

/-- Reads the rest of a string in double quotes, in `n` steps at most. -/
def readBasic? : Nat → List Char → Option (List Char × List Char)
  | 0, _ => none
  | _ + 1, [] => none
  | _ + 1, '"' :: rest => some ([], rest)
  | n + 1, '\\' :: rest =>
    match readEscape? rest with
    | none => none
    | some (c, rest) => (readBasic? n rest).map fun (cs, rest) => (c :: cs, rest)
  | n + 1, c :: rest =>
    if isControl c then none else (readBasic? n rest).map fun (cs, rest) => (c :: cs, rest)

def readLiteral? (cs : List Char) : Option (List Char × List Char) :=
  let body := cs.takeWhile (· ≠ '\'')
  if body.any isControl then none
  else match cs.drop body.length with
    | _ :: rest => some (body, rest)
    | [] => none

/-- The end of a string in triple quotes: the last three of up to five quotes. -/
def closing? (quote : Char) (cs : List Char) : Option (List Char × List Char) :=
  let run := min 5 (cs.takeWhile (· = quote)).length
  if run < 3 then none else some (List.replicate (run - 3) quote, cs.drop run)

def isFolded (c : Char) : Bool := isLineSpace c || c = '\n' || c = '\r'

/-- Reads the rest of a string in triple quotes, in `n` steps at most. Only double quotes allow
escapes, and a backslash at the end of a line joins it to the next text. -/
def readLong? (quote : Char) : Nat → List Char → Option (List Char × List Char)
  | 0, _ => none
  | n + 1, cs =>
    match closing? quote cs with
    | some found => some found
    | none =>
      match afterNewline? cs with
      | some rest => (readLong? quote n rest).map fun (cs, rest) => ('\n' :: cs, rest)
      | none =>
        match cs with
        | [] => none
        | c :: rest =>
          if c = '\\' ∧ quote = '"' then
            match afterNewline? (skipLineSpace rest) with
            | some rest => readLong? quote n (rest.dropWhile isFolded)
            | none =>
              match readEscape? rest with
              | none => none
              | some (c, rest) => (readLong? quote n rest).map fun (cs, rest) => (c :: cs, rest)
          else if isControl c then none
          else (readLong? quote n rest).map fun (cs, rest) => (c :: cs, rest)

def dropNewline (cs : List Char) : List Char := (afterNewline? cs).getD cs

def readString? (cs : List Char) : Option (List Char × List Char) :=
  match cs with
  | '"' :: '"' :: '"' :: rest => readLong? '"' (rest.length + 1) (dropNewline rest)
  | '\'' :: '\'' :: '\'' :: rest => readLong? '\'' (rest.length + 1) (dropNewline rest)
  | '"' :: rest => readBasic? (rest.length + 1) rest
  | '\'' :: rest => readLiteral? rest
  | _ => none

/-! ## Keys -/

def isBareKeyChar (c : Char) : Bool := c.isAlphanum || c = '_' || c = '-'

/-- Reads one key: a bare word, or a string on one line. -/
def readKey? (cs : List Char) : Option (String × List Char) :=
  match cs with
  | '"' :: rest => (readBasic? (rest.length + 1) rest).map fun (key, rest) => (.ofList key, rest)
  | '\'' :: rest => (readLiteral? rest).map fun (key, rest) => (.ofList key, rest)
  | cs =>
    let word := cs.takeWhile isBareKeyChar
    if word.isEmpty then none else some (.ofList word, cs.drop word.length)

/-- Reads a dotted key of up to `n + 1` keys, as its leading keys and the last one. -/
def readKeys? : Nat → List Char → Option ((List String × String) × List Char)
  | 0, _ => none
  | n + 1, cs =>
    match readKey? (skipLineSpace cs) with
    | none => none
    | some (key, rest) =>
      match skipLineSpace rest with
      | '.' :: rest =>
        (readKeys? n rest).map fun ((path, last), rest) => ((key :: path, last), rest)
      | rest => some (([], key), rest)

/-! ## Values -/

def isWordChar (c : Char) : Bool :=
  c.isAlphanum || c = '_' || c = '-' || c = '+' || c = '.' || c = ':'

/-- The word that a value starts with. A blank between a day and a time belongs to it. -/
def valueWord (cs : List Char) : List Char :=
  let word := cs.takeWhile isWordChar
  match cs.drop word.length with
  | ' ' :: c :: rest =>
    if isDay word ∧ c.isDigit then word ++ ' ' :: (c :: rest).takeWhile isWordChar else word
  | _ => word

def readWord? (cs : List Char) : Option (TomlNode × List Char) :=
  let word := valueWord cs
  let rest := cs.drop word.length
  if isTruth word || isInteger word || isFloat word then some (.scalar, rest)
  else if isDate word then some (.date, rest)
  else none

mutual

/-- Reads a value, in `n` steps at most. -/
def readValue? : Nat → List Char → Option (TomlNode × List Char)
  | 0, _ => none
  | n + 1, cs =>
    match cs with
    | '[' :: rest => (readItems? n rest).map fun (items, rest) => (.array items, rest)
    | '{' :: rest =>
      match skipLineSpace rest with
      | '}' :: rest => some (.table .inline [], rest)
      | rest => (readPairs? n [] rest).map fun (table, rest) => (.table .inline table, rest)
    | cs =>
      match readString? cs with
      | some (text, rest) => some (.text (.ofList text), rest)
      | none => if cs.head? = some '"' ∨ cs.head? = some '\'' then none else readWord? cs

def readItems? : Nat → List Char → Option (List TomlNode × List Char)
  | 0, _ => none
  | n + 1, cs =>
    match skipLines? (cs.length + 1) cs with
    | none => none
    | some (']' :: rest) => some ([], rest)
    | some cs =>
      match readValue? n cs with
      | none => none
      | some (item, rest) =>
        match skipLines? (rest.length + 1) rest with
        | some (',' :: rest) => (readItems? n rest).map fun (items, rest) => (item :: items, rest)
        | some (']' :: rest) => some ([item], rest)
        | _ => none

/-- Reads the pairs of a table in braces behind those already in it. -/
def readPairs? : Nat → TomlTable → List Char → Option (TomlTable × List Char)
  | 0, _, _ => none
  | n + 1, table, cs =>
    match readKeys? (cs.length + 1) cs with
    | some ((path, key), '=' :: rest) =>
      match readValue? n (skipLineSpace rest) with
      | none => none
      | some (node, rest) =>
        match TomlTable.addDotted path key node table, skipLineSpace rest with
        | some table, ',' :: rest => readPairs? n table rest
        | some table, '}' :: rest => some (table, rest)
        | _, _ => none
    | _ => none

end

/-! ## Documents -/

/-- Reads what is on a line behind its blanks: a header or a pair, which go into the document, or
nothing. The path of the last header comes with the document. -/
def readStatement? (header : List String) (document : TomlTable) (cs : List Char) :
    Option ((List String × TomlTable) × List Char) :=
  match cs with
  | '[' :: '[' :: rest =>
    match readKeys? (rest.length + 1) rest with
    | some ((path, key), ']' :: ']' :: rest) =>
      (document.openRepeated path key).map fun document => ((path ++ [key], document), rest)
    | _ => none
  | '[' :: rest =>
    match readKeys? (rest.length + 1) rest with
    | some ((path, key), ']' :: rest) =>
      (document.openTable path key).map fun document => ((path ++ [key], document), rest)
    | _ => none
  | cs =>
    match readKeys? (cs.length + 1) cs with
    | some ((path, key), '=' :: rest) =>
      match readValue? (rest.length + 1) (skipLineSpace rest) with
      | none => none
      | some (node, rest) =>
        (document.addBelow header path key node).map fun document => ((header, document), rest)
    | _ => none

/-- Reads the lines of a document, in `n` steps at most. -/
def readLines? : Nat → List String → TomlTable → List Char → Option TomlTable
  | 0, _, _, _ => none
  | n + 1, header, document, cs =>
    match skipLines? (cs.length + 1) cs with
    | none => none
    | some [] => some document
    | some cs =>
      match readStatement? header document cs with
      | none => none
      | some ((header, document), rest) =>
        match dropComment? rest with
        | none => none
        | some [] => some document
        | some rest =>
          match afterNewline? rest with
          | none => none
          | some rest => readLines? n header document rest

def read? (text : String) : Option TomlTable :=
  let cs := match text.toList with
    | '\ufeff' :: cs => cs
    | cs => cs
  readLines? (cs.length + 1) [] [] cs

end JsonStencil.Toml
