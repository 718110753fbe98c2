import EdgeInclude.Text.Decimal

/-!
# JSON values

The values that diagnostics carry, and how they are written: without white space, and the members of an
object in the order of their names. How a string is written between its quotes is a parameter `quote`
of the writing; by default only what has to be escaped is, as `quoteChars` has it.
-/

namespace EdgeInclude

/-- A JSON value. Its numbers are whole. -/
inductive Json where
  | null
  | bool (b : Bool)
  | number (n : Int)
  | string (text : String)
  | array (items : List Json)
  | object (members : List (String × Json))
deriving Repr, Inhabited

namespace Json

/-- Puts a member into a list of members that is sorted by name; a member of the same name is
replaced. -/
def insertMember (name : String) (value : Json) : List (String × Json) → List (String × Json)
  | [] => [(name, value)]
  | member :: rest =>
    if name = member.1 then (name, value) :: rest
    else if name < member.1 then (name, value) :: member :: rest
    else member :: insertMember name value rest

/-- The object with the given members. Of two members with one name the later is kept. -/
def ofMembers (members : List (String × Json)) : Json :=
  .object (members.foldl (fun sorted member => insertMember member.1 member.2 sorted) [])

/-- The last two hexadecimal digits of a code point below 256. -/
def hexPair (n : Nat) : List Char :=
  [Nat.digitChar (n / 16), Nat.digitChar (n % 16)]

/-- One character inside a string. -/
def escapeChar (c : Char) : List Char :=
  if c = '"' then ['\\', '"']
  else if c = '\\' then ['\\', '\\']
  else if c = '\x08' then ['\\', 'b']
  else if c = '\x0c' then ['\\', 'f']
  else if c = '\n' then ['\\', 'n']
  else if c = '\r' then ['\\', 'r']
  else if c = '\t' then ['\\', 't']
  else if c.toNat < 0x20 then ['\\', 'u', '0', '0'] ++ hexPair c.toNat
  else [c]

/-- A string between quotes. -/
def quoteChars (text : String) : List Char :=
  '"' :: text.toList.flatMap escapeChar ++ ['"']

/-- A whole number. -/
def numberChars (n : Int) : List Char :=
  if n < 0 then '-' :: Text.digits n.natAbs else Text.digits n.natAbs

mutual

/-- The characters of a value. -/
def chars (value : Json) (quote : String → List Char := quoteChars) : List Char :=
  match value with
  | .null => "null".toList
  | .bool true => "true".toList
  | .bool false => "false".toList
  | .number n => numberChars n
  | .string text => quote text
  | .array items => '[' :: itemChars items quote ++ [']']
  | .object members => '\x7b' :: memberChars members quote ++ ['\x7d']

/-- The characters of the items of an array, with commas between them. -/
def itemChars (items : List Json) (quote : String → List Char := quoteChars) : List Char :=
  match items with
  | [] => []
  | [item] => chars item quote
  | item :: next :: rest => chars item quote ++ ',' :: itemChars (next :: rest) quote

/-- The characters of the members of an object, with commas between them. -/
def memberChars (members : List (String × Json)) (quote : String → List Char := quoteChars) :
    List Char :=
  match members with
  | [] => []
  | [(name, value)] => quote name ++ ':' :: chars value quote
  | (name, value) :: next :: rest =>
    quote name ++ ':' :: chars value quote ++ ',' :: memberChars (next :: rest) quote

end

/-- Writes a value. -/
def print (value : Json) (quote : String → List Char := quoteChars) : String :=
  String.ofList (value.chars quote)

/-- Writes an object whose members keep the given order, names that come twice included. -/
def printMembers (members : List (String × Json)) (quote : String → List Char := quoteChars) :
    String :=
  String.ofList ('\x7b' :: memberChars members quote ++ ['\x7d'])

end Json

end EdgeInclude
