import EdgeInclude.Config.Draft
import EdgeInclude.Json.Number
import EdgeInclude.Text.Quoted

/-!
# Configurations in JSON

A configuration is an object whose members are settings, or an array of the settings in the order
of their keys. The text is read from its front to its end, and the first fault counts, whatever
comes behind it.
-/

namespace EdgeInclude.Config

open Json.Scanner

/-- What is read off the front of a text, and what follows. -/
abbrev Reading (α : Type) := Except ReadError (α × List Char)

/-- The error for the value at the front of a text, when something else is wanted. Of an array or an
object only the opening is looked at. -/
def wrongKindAt (cs : List Char) (wanted : String) : ReadError :=
  match cs with
  | '[' :: _ => .wrongKind "sequence" wanted
  | '\x7b' :: _ => .wrongKind "map" wanted
  | 'n' :: 'u' :: 'l' :: 'l' :: _ => .wrongKind "null" wanted
  | 't' :: 'r' :: 'u' :: 'e' :: _ => .wrongKind "boolean \x60true\x60" wanted
  | 'f' :: 'a' :: 'l' :: 's' :: 'e' :: _ => .wrongKind "boolean \x60false\x60" wanted
  | '"' :: cs =>
    match takeString cs with
    | some (text, _) => .wrongKind ("string " ++ Text.quote text) wanted
    | none => .malformed
  | cs =>
    match takeNumeral cs with
    | none => .malformed
    | some (numeral, _) =>
      match Json.Number.ofNumeral? numeral with
      | some n => .wrongKind n.describe wanted
      | none => .malformed

/-- Takes a colon, and the white space around it. -/
def takeColon (cs : List Char) : Except ReadError (List Char) :=
  match skipBlank cs with
  | ':' :: cs => .ok (skipBlank cs)
  | _ => .error .malformed

/-- Reads a setting that is a text whose opening quote is taken. -/
def readText (d : Draft) (key : Key) (cs : List Char) : Reading Draft :=
  match takeString cs with
  | none => .error .malformed
  | some (text, rest) =>
    match d.set key text with
    | .ok d => .ok (d, rest)
    | .error e => .error e

/-- What a message calls a value that says nothing. -/
def unitKind : String := "unit"

/-- Takes what may stand behind the name of a choice that is written as an object: nothing but
`null`, and the closing brace. -/
def takeUnit (cs : List Char) : Except ReadError (List Char) :=
  match takeColon cs with
  | .error e => .error e
  | .ok ('n' :: 'u' :: 'l' :: 'l' :: cs) =>
    match skipBlank cs with
    | '\x7d' :: rest => .ok rest
    | _ => .error .malformed
  | .ok cs => .error (wrongKindAt cs unitKind)

/-- Reads a choice: a name, or an object with that name and `null`. -/
def readChoice (d : Draft) (key : Key) (cs : List Char) : Reading Draft :=
  match cs with
  | '"' :: cs => readText d key cs
  | '\x7b' :: cs =>
    match skipBlank cs with
    | '"' :: cs =>
      match readText d key cs with
      | .error e => .error e
      | .ok (d, cs) => (takeUnit cs).map fun rest => (d, rest)
    | _ => .error .malformed
  | _ => .error .malformed

/-- Reads the value of a setting. -/
def readSetting (d : Draft) (key : Key) (cs : List Char) : Reading Draft :=
  let cs := skipBlank cs
  if key.isChoice then readChoice d key cs
  else
    match cs with
    | '"' :: cs => readText d key cs
    | 'n' :: 'u' :: 'l' :: 'l' :: rest =>
      if key.isOptional then .ok (d.leaveOut key, rest)
      else .error (.wrongKind "null" textKind)
    | cs => .error (wrongKindAt cs textKind)

/-- Reads a member whose name is taken. -/
def readMember (d : Draft) (name : String) (cs : List Char) : Reading Draft :=
  match Key.ofName? name with
  | some key =>
    if d.has key then .error (.duplicate key)
    else
      match takeColon cs with
      | .error e => .error e
      | .ok cs => readSetting d key cs
  | none =>
    match takeColon cs with
    | .error e => .error e
    | .ok cs =>
      match skipValue (cs.length + 1) cs with
      | some rest => .ok (d, rest)
      | none => .error .malformed

/-- Reads members and the closing brace; `fuel` bounds their number. -/
def readMembers : (fuel : Nat) → Draft → List Char → Reading Draft
  | 0, _, _ => .error .malformed
  | fuel + 1, d, cs =>
    match skipBlank cs with
    | '"' :: cs =>
      match takeString cs with
      | none => .error .malformed
      | some (name, cs) =>
        match readMember d name cs with
        | .error e => .error e
        | .ok (d, cs) =>
          match skipBlank cs with
          | ',' :: cs => readMembers fuel d cs
          | '\x7d' :: rest => .ok (d, rest)
          | _ => .error .malformed
    | _ => .error .malformed

/-- Reads settings in the order of their keys, and the closing bracket; the settings at the end may
be missing. -/
def readItems (isFirst : Bool) : List Key → Draft → List Char → Reading Draft
  | [], d, cs =>
    match skipBlank cs with
    | ']' :: rest => .ok (d, rest)
    | _ => .error .malformed
  | key :: keys, d, cs =>
    let item (cs : List Char) : Reading Draft :=
      match readSetting d key cs with
      | .error e => .error e
      | .ok (d, cs) => readItems false keys d cs
    match skipBlank cs with
    | ']' :: rest => .ok (d, rest)
    | ',' :: cs => if isFirst then .error .malformed else item cs
    | cs => if isFirst then item cs else .error .malformed

/-- What a message calls a configuration. -/
def configKind : String := "struct EsiConfig"

/-- Reads the settings of a text. -/
def readJson (cs : List Char) : Reading Draft :=
  match skipBlank cs with
  | '\x7b' :: cs =>
    match skipBlank cs with
    | '\x7d' :: rest => .ok ({}, rest)
    | cs => readMembers (cs.length + 1) {} cs
  | '[' :: cs => readItems true Key.all {} cs
  | cs => .error (wrongKindAt cs configKind)

/-- Reads a configuration from JSON text. -/
def ofJson (text : String) : Except ReadError Config :=
  match readJson text.toList with
  | .error e => .error e
  | .ok (d, rest) => if skipBlank rest = [] then .ok d.finish else .error .malformed

end EdgeInclude.Config
