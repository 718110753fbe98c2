import EdgeInclude.Config.File
import EdgeInclude.Config.Printer

/-!
# Configurations in any format

A package for a format writes members, each a name and a text, and reads them off a text again. Which
members a configuration is written as, and what is made of those that are read, does not depend on the
format. A text is dealt with here only if all its members have texts for values, as those have that a
configuration is written as.
-/

namespace EdgeInclude.Config

/-- A package that writes members in a format, and reads those of a text. It reads none if the text is
not well formed, or has a member whose value is no text. -/
structure Package where
  write : List (String × String) → String
  read? : String → Option (List (String × String))

/-- A setting as a name and its text. -/
def named (setting : Key × String) : String × String :=
  (setting.1.name, setting.2)

namespace Draft

/-- Takes a member. An unknown name is passed over. -/
def takeMember (d : Draft) (member : String × String) : Except ReadError Draft :=
  match Key.ofName? member.1 with
  | none => .ok d
  | some key => if d.has key then .error (.duplicate key) else d.set key member.2

/-- Takes members up to the first one at fault. -/
def takeMembers (d : Draft) : List (String × String) → Except ReadError Draft
  | [] => .ok d
  | member :: members =>
    match d.takeMember member with
    | .error e => .error e
    | .ok d => d.takeMembers members

end Draft

/-- Writes a configuration in the format of a package. -/
def writeWith (p : Package) (c : Config) : String :=
  p.write (c.settings.map named)

/-- Reads a configuration from a text in the format of a package. -/
def readWith (p : Package) (text : String) : Except ReadError Config :=
  match p.read? text with
  | none => .error .malformed
  | some members => (Draft.takeMembers {} members).map Draft.finish

end EdgeInclude.Config
