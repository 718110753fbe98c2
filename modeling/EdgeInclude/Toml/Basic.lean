import EdgeInclude.Number.Binary64

/-!
# TOML values

The values of TOML text. A table keeps its entries in the order in which they are made, and knows
how it came about: that decides what may still be put into it.
-/

namespace EdgeInclude

namespace Toml

/-- How a table came about. -/
inductive TableKind where
  /-- By a header of its own. -/
  | header
  /-- As a parent in the header of another table. -/
  | implied
  /-- As a parent in a dotted key. -/
  | dotted
  /-- Between braces. -/
  | braces
deriving DecidableEq, Repr

/-- A floating-point number. -/
inductive Float where
  | finite (isNegative : Bool) (magnitude : Binary64)
  | infinite (isNegative : Bool)
  | notANumber
deriving DecidableEq, Repr

/-- The text of a number. -/
def Float.print : Float → String
  | finite isNegative magnitude => (if isNegative then "-" else "") ++ magnitude.printPlain
  | infinite isNegative => if isNegative then "-inf" else "inf"
  | notANumber => "NaN"

end Toml

/-- A TOML value. -/
inductive Toml where
  | string (text : String)
  | integer (n : Int)
  | float (x : Toml.Float)
  | boolean (b : Bool)
  /-- A date, a time, or both. -/
  | moment
  | array (items : List Toml)
  | table (kind : Toml.TableKind) (entries : List (String × Toml))
  /-- The tables of one array header, the last one last. -/
  | tables (items : List (List (String × Toml)))
deriving Repr, Inhabited

namespace Toml

/-- The entries of a table. -/
abbrev Entries := List (String × Toml)

/-- Puts a value in the place of the one with the same key. -/
def replace (entries : Entries) (key : String) (value : Toml) : Entries :=
  entries.map fun entry => if entry.1 = key then (key, value) else entry

/-- Puts a value under a new key; there is no answer if the key is taken. -/
def addNew (entries : Entries) (key : String) (value : Toml) : Option Entries :=
  match entries.lookup key with
  | some _ => none
  | none => some (entries ++ [(key, value)])

/-- Changes the table that a path leads to, starting from a table of the given kind. Tables that are
missing on the way are made, of the kind `missing`. Of several tables under one array header the
path goes on in the last one. A table between braces is closed, and a table with a header of its own
is closed to dotted keys. -/
def modifyAt (missing : TableKind) (change : TableKind → Entries → Option Entries) :
    List String → TableKind → Entries → Option Entries
  | [], kind, entries => change kind entries
  | key :: path, _, entries =>
    match entries.lookup key with
    | none =>
      (modifyAt missing change path missing []).map fun inner =>
        entries ++ [(key, .table missing inner)]
    | some (.table kind inner) =>
      if kind = .braces ∨ (missing = .dotted ∧ kind = .header) then none
      else
        (modifyAt missing change path kind inner).map fun inner =>
          replace entries key (.table kind inner)
    | some (.tables items) =>
      match items.getLast? with
      | none => none
      | some last =>
        (modifyAt missing change path .header last).map fun last =>
          replace entries key (.tables (items.dropLast ++ [last]))
    | some _ => none

/-- Puts a value under a key in a table. A dotted key goes into tables of dotted keys only, and a
plain key into no such table. -/
def addAt (path : List String) (key : String) (value : Toml) : TableKind → Entries → Option Entries :=
  modifyAt .dotted (fun kind entries =>
    if (kind = .dotted) ↔ path = [] then none else addNew entries key value) path

/-- Opens the table of a header. A table that is there already can have been implied only. -/
def openTable (path : List String) (key : String) (root : Entries) : Option Entries :=
  modifyAt .implied (fun _ entries =>
    match entries.lookup key with
    | none => some (entries ++ [(key, .table .header [])])
    | some (.table .implied inner) =>
      some (entries.filter (fun entry => entry.1 ≠ key) ++ [(key, .table .header inner)])
    | some _ => none) path .header root

/-- Opens the next table of an array header. -/
def openItem (path : List String) (key : String) (root : Entries) : Option Entries :=
  modifyAt .implied (fun _ entries =>
    match entries.lookup key with
    | none => some (entries ++ [(key, .tables [[]])])
    | some (.tables items) => some (replace entries key (.tables (items ++ [[]])))
    | some _ => none) path .header root

end Toml

end EdgeInclude
