import EdgeInclude.Include.Parser

/-!
# Includes over time

An include can be given another tag, and it can be read at any time. Between the two it still holds
what was read before, and a tag that cannot be read changes nothing of that.
-/

namespace EdgeInclude.Include

/-- What is done to an include. -/
inductive Edit where
  /-- It is given another tag, which is not read yet. -/
  | setRaw (raw : Bytes)
  /-- Its tag is read. -/
  | parse
deriving DecidableEq, Repr

/-- The include after an edit, and the error if its tag could not be read. -/
def edit (i : Include) : Edit → Include × Option TagError
  | .setRaw raw => ({ i with raw }, none)
  | .parse =>
    match i.parse with
    | .error e => (i, some e)
    | .ok parsed => (parsed, none)

/-- The include after edits, one after the other. -/
def editAll (i : Include) : List Edit → Include
  | [] => i
  | e :: es => (i.edit e).1.editAll es

end EdgeInclude.Include
