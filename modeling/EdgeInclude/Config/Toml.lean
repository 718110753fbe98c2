import EdgeInclude.Config.Draft
import EdgeInclude.Json.Basic
import EdgeInclude.Text.Quoted
import EdgeInclude.Toml.Document

/-!
# Configurations in TOML

The settings are the entries of the document. The document is read as a whole first; then the
settings are taken in their order, and the first one at fault counts.
-/

namespace EdgeInclude.Config

/-- What a message calls a value. -/
def kindOf : Toml → String
  | .string text => "string " ++ Text.quote text
  | .integer n => "integer \x60" ++ String.ofList (Json.numberChars n) ++ "\x60"
  | .float x => "floating point \x60" ++ x.print ++ "\x60"
  | .boolean b => "boolean \x60" ++ (if b then "true" else "false") ++ "\x60"
  | .array _ | .tables _ => "sequence"
  | .moment | .table .. => "map"

/-- A table or an array with nothing in it. -/
def isEmptyValue : Toml → Bool
  | .table _ [] | .array [] | .tables [] => true
  | _ => false

/-- Takes one entry of the document. A choice is a name, or a table in which that name stands for
nothing. -/
def takeEntry (d : Draft) (entry : String × Toml) : Except ReadError Draft :=
  match Key.ofName? entry.1 with
  | none => .ok d
  | some key =>
    match entry.2 with
    | .string text => d.set key text
    | .table kind inner =>
      if key.isChoice then
        match inner with
        | [(name, value)] =>
          match d.set key name with
          | .error e => .error e
          | .ok d => if isEmptyValue value then .ok d else .error .malformed
        | _ => .error .malformed
      else .error (.wrongKind (kindOf (.table kind inner)) textKind)
    | value =>
      if key.isChoice then .error .malformed else .error (.wrongKind (kindOf value) textKind)

/-- Takes entries up to the first one at fault. -/
def takeEntries (d : Draft) : List (String × Toml) → Except ReadError Draft
  | [] => .ok d
  | entry :: entries =>
    match takeEntry d entry with
    | .error e => .error e
    | .ok d => takeEntries d entries

/-- Reads a configuration from TOML text. -/
def ofToml (text : String) : Except ReadError Config :=
  match Toml.parse? text with
  | none => .error .malformed
  | some entries => (takeEntries {} entries).map Draft.finish

end EdgeInclude.Config
