import EdgeInclude.Duration.Parser
import EdgeInclude.Template.Parser

/-!
# Errors of tags

Why a tag, or a page of tags, cannot be read. Every error carries the text of its tag.
-/

namespace EdgeInclude

/-- Why a tag cannot be read. -/
inductive TagError where
  /-- An attribute is no text. -/
  | format (raw detail : String)
  /-- No source is named. -/
  | missingSource (raw : String)
  /-- An attribute whose value has to be a template is none. -/
  | template (name value raw : String) (cause : Template.CompileError)
  /-- An attribute whose value has to be a duration is none. -/
  | duration (name value raw : String) (cause : Duration.ReadError)
deriving DecidableEq, Repr

namespace TagError

/-- The text of the tag. -/
def raw : TagError → String
  | format raw _ => raw
  | missingSource raw => raw
  | template _ _ raw _ => raw
  | duration _ _ raw _ => raw

/-- What the error says. -/
def message : TagError → String
  | format raw detail => "malformed attribute in tag " ++ Text.quote raw ++ ": " ++ detail
  | missingSource raw =>
    "src cannot be empty in tag " ++ Text.quote raw ++ ", which requires at least one resource"
  | template name value raw cause =>
    "failed to parse " ++ name ++ " " ++ Text.quote value ++ " as template in tag " ++
      Text.quote raw ++ ": " ++ cause.message
  | duration name value raw cause =>
    "cannot parse duration in " ++ name ++ ": " ++ Text.quote value ++ " in tag " ++
      Text.quote raw ++ ": " ++ cause.message

end TagError

/-- Why a page cannot be read: the tag at an index cannot. -/
structure PageError where
  index : Nat
  cause : TagError
deriving DecidableEq, Repr

/-- What the error says. -/
def PageError.message (e : PageError) : String :=
  "entity " ++ Text.decimal e.index ++ " failed to parse: " ++ e.cause.message

end EdgeInclude
