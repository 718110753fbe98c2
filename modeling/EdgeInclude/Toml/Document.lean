import EdgeInclude.Toml.Scanner

/-!
# TOML documents

A document is a list of statements: headers, which say what table comes next, and keys with their
values. `Statement.takeAll?` reads the statements of a text, and `Document.ofStatements?` puts the
tables together. Nothing can be defined twice.
-/

namespace EdgeInclude.Toml

open Scanner

/-- How deep arrays and tables between braces can be nested, and how many parts a key can have. -/
def depthLimit : Nat := 80

/-- Takes a key with all its parts. -/
def takePath (cs : List Char) : Option (List String × List Char) :=
  (takeKey (cs.length + 1) cs).filter fun taken => taken.1.length < depthLimit

/-- The path and the last part of a key. -/
def splitPath (parts : List String) : List String × String :=
  (parts.dropLast, parts.getLastD "")

mutual

/-- Takes a value; `fuel` bounds the length of the text. -/
def takeValue (depth : Nat) : (fuel : Nat) → List Char → Option (Toml × List Char)
  | 0, _ => none
  | fuel + 1, cs =>
    match cs with
    | '"' :: _ | '\'' :: _ =>
      (takeString cs).map fun (text, rest) => (.string (String.ofList text), rest)
    | '[' :: cs =>
      if depthLimit ≤ depth + 1 then none
      else
        match skipLines false cs with
        | none => none
        | some cs =>
          (takeItems (depth + 1) fuel cs).map fun (items, rest) => (.array items, rest)
    | '\x7b' :: cs =>
      if depthLimit ≤ depth + 1 then none
      else
        match skipBlank cs with
        | '\x7d' :: rest => some (.table .braces [], rest)
        | cs => (takePairs (depth + 1) fuel [] cs).map fun (entries, rest) =>
          (.table .braces entries, rest)
    | cs =>
      let (token, rest) := takeToken cs
      (readToken token).map fun value => (value, rest)

/-- Takes the items of an array and its closing bracket; a comma may stand behind the last one. -/
def takeItems (depth : Nat) : (fuel : Nat) → List Char → Option (List Toml × List Char)
  | 0, _ => none
  | fuel + 1, cs =>
    match cs with
    | ']' :: rest => some ([], rest)
    | cs =>
      match takeValue depth fuel cs with
      | none => none
      | some (item, cs) =>
        match skipLines false cs with
        | some (',' :: cs) =>
          match skipLines false cs with
          | none => none
          | some cs =>
            (takeItems depth fuel cs).map fun (items, rest) => (item :: items, rest)
        | some (']' :: rest) => some ([item], rest)
        | _ => none

/-- Takes the entries of a table between braces and the closing brace. -/
def takePairs (depth : Nat) :
    (fuel : Nat) → Entries → List Char → Option (Entries × List Char)
  | 0, _, _ => none
  | fuel + 1, entries, cs =>
    match takePath (skipBlank cs) with
    | none => none
    | some (parts, cs) =>
      match skipBlank cs with
      | '=' :: cs =>
        match takeValue depth fuel (skipBlank cs) with
        | none => none
        | some (value, cs) =>
          let (path, key) := splitPath parts
          match addAt path key value .braces entries with
          | none => none
          | some entries =>
            match skipBlank cs with
            | ',' :: cs => takePairs depth fuel entries cs
            | '\x7d' :: rest => some (entries, rest)
            | _ => none
      | _ => none

end

/-- One statement of a document. -/
inductive Statement where
  /-- A line that says nothing. -/
  | blank
  /-- What follows is about the table with this key. -/
  | header (parts : List String)
  /-- What follows is about the next table with this key. -/
  | arrayHeader (parts : List String)
  /-- A key and its value. -/
  | pair (parts : List String) (value : Toml)
deriving Repr

namespace Statement

/-- Takes the statement at the front of a line. -/
def take? (cs : List Char) : Option (Statement × List Char) :=
  match skipBlank cs with
  | [] | '#' :: _ | '\n' :: _ | '\r' :: _ => some (.blank, cs)
  | '[' :: '[' :: cs =>
    match takePath (skipBlank cs) with
    | none => none
    | some (parts, cs) =>
      match skipBlank cs with
      | ']' :: ']' :: rest => some (.arrayHeader parts, rest)
      | _ => none
  | '[' :: cs =>
    match takePath (skipBlank cs) with
    | none => none
    | some (parts, cs) =>
      match skipBlank cs with
      | ']' :: rest => some (.header parts, rest)
      | _ => none
  | cs =>
    match takePath cs with
    | none => none
    | some (parts, cs) =>
      match skipBlank cs with
      | '=' :: cs =>
        (takeValue 0 (cs.length + 1) (skipBlank cs)).map fun (value, rest) =>
          (.pair parts value, rest)
      | _ => none

/-- The statements of a text, each at the front of a line; `fuel` bounds the number of lines. -/
def takeAll? : (fuel : Nat) → List Char → Option (List Statement)
  | _, [] => some []
  | 0, _ => none
  | fuel + 1, cs =>
    match take? cs with
    | none => none
    | some (statement, cs) =>
      match takeLineEnd cs with
      | none => none
      | some rest => (takeAll? fuel rest).map (statement :: ·)

end Statement

/-- A document that is being put together: its tables, and the one that statements are about. -/
structure Document where
  root : Entries := []
  current : List String := []

namespace Document

/-- Carries out a statement. -/
def extend? (d : Document) : Statement → Option Document
  | .blank => some d
  | .header parts =>
    let (path, key) := splitPath parts
    (openTable path key d.root).map fun root => { root, current := parts }
  | .arrayHeader parts =>
    let (path, key) := splitPath parts
    (openItem path key d.root).map fun root => { root, current := parts }
  | .pair parts value =>
    let (path, key) := splitPath parts
    (modifyAt .implied (addAt path key value) d.current .header d.root).map fun root =>
      { d with root }

/-- Puts together the tables that statements define. -/
def ofStatements? (d : Document) : List Statement → Option Document
  | [] => some d
  | statement :: statements =>
    match d.extend? statement with
    | some d => ofStatements? d statements
    | none => none

end Document

/-- The entries of a text. -/
def parse? (text : String) : Option Entries :=
  let cs := match text.toList with
    | '\uFEFF' :: cs => cs
    | cs => cs
  match Statement.takeAll? (cs.length + 1) cs with
  | none => none
  | some statements => (Document.ofStatements? {} statements).map Document.root

end EdgeInclude.Toml
