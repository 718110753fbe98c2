import EdgeInclude.Request.Headers
import EdgeInclude.Text.Blank
import EdgeInclude.Text.Quoted
import EdgeInclude.Text.Search

/-!
# Selected headers

Which headers a tag passes on: all of them, or those that it lists.
-/

namespace EdgeInclude

/-- A choice of header names. -/
structure HeaderSelection where
  /-- Every header is chosen. -/
  all : Bool := false
  /-- The chosen names, as they are written. -/
  names : List String := []
deriving DecidableEq, Repr

namespace HeaderSelection

/-- Reads the word `all`, or names with commas between them. Empty names are dropped. -/
def parse (text : String) : HeaderSelection :=
  if text = "all" then { all := true }
  else
    { names := (((Text.splitAt ',' text.toList).map Text.trimChars).filter
        fun name => !name.isEmpty).map String.ofList }

/-- The name is chosen, whatever its case. -/
def allows (s : HeaderSelection) (name : String) : Bool :=
  s.all || s.names.any fun chosen => Headers.lowerCase chosen = Headers.lowerCase name

/-- The fields whose names are chosen. -/
def apply (s : HeaderSelection) (h : Headers) : Headers :=
  if s.all then h else h.select s.allows

/-- The description of a choice. -/
def describe (s : HeaderSelection) : String :=
  "HeaderPolicy \x7b all: " ++ (if s.all then "true" else "false") ++
    ", names: " ++ Text.quoteList s.names ++ " \x7d"

end HeaderSelection

end EdgeInclude
