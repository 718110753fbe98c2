import EdgeInclude.Text.Printable

/-!
# Quoted text

Diagnostics show a text between double quotes. A quote, a backslash and whatever is not shown as
it is are escaped, so a quoted text has no line break in it.
-/

namespace EdgeInclude.Text

/-- One character inside a quoted text. A character that is not shown is written as `\u` and its
code point in lower-case hexadecimal between braces. -/
def quoteChar (c : Char) : List Char :=
  if c = '"' then ['\\', '"']
  else if c = '\\' then ['\\', '\\']
  else if c = '\n' then ['\\', 'n']
  else if c = '\r' then ['\\', 'r']
  else if c = '\t' then ['\\', 't']
  else if c = '\x00' then ['\\', '0']
  else if isPrintable c then [c]
  else ['\\', 'u', '\x7b'] ++ Nat.toDigits 16 c.toNat ++ ['\x7d']

/-- A text between quotes. -/
def quote (text : String) : String :=
  String.ofList ('"' :: text.toList.flatMap quoteChar ++ ['"'])

/-- A list of texts: each quoted, between brackets. -/
def quoteList (texts : List String) : String :=
  "[" ++ String.intercalate ", " (texts.map quote) ++ "]"

end EdgeInclude.Text
