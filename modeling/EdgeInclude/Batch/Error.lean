import EdgeInclude.Fetch.Error

/-!
# Errors of batches

Why the fragments of a page are not there. Either one fetch failed, or one worker broke down, or
the batch was given up before everything was fetched.
-/

namespace EdgeInclude

/-- Why a batch was given up. -/
inductive CancelReason where
  /-- The request was cancelled. -/
  | request
  /-- The deadline of the request or of the batch was reached. -/
  | deadline
  /-- Another tag of the batch failed. -/
  | batch
deriving DecidableEq, Repr

/-- The text of a reason. -/
def CancelReason.text : CancelReason → String
  | request => "request cancelled"
  | deadline => "deadline exceeded"
  | batch => "batch cancelled"

/-- A tag of a page, as errors name it: its index and its text. -/
structure TagRef where
  index : Nat
  raw : String
deriving DecidableEq, Repr

/-- How errors name a tag. -/
def TagRef.text (t : TagRef) : String :=
  "entity " ++ Text.decimal t.index ++ " with tag " ++ Text.quote t.raw

/-- Why the fragments of a page are not there. -/
inductive BatchError where
  /-- The fetch for a tag failed. -/
  | fetch (tag : TagRef) (cause : FetchError)
  /-- The batch was given up; the tag is the one whose worker saw it, if a worker did. -/
  | cancelled (reason : CancelReason) (seenAt : Option TagRef)
  /-- The worker for a tag broke down. -/
  | worker (tag : TagRef) (message : String)
deriving DecidableEq

namespace BatchError

/-- What the error says. -/
def message : BatchError → String
  | fetch tag cause => "fetch failed for " ++ tag.text ++ ": " ++ cause.message
  | cancelled reason _ => "resolution cancelled: " ++ reason.text
  | worker tag message => "resolution worker for " ++ tag.text ++ " failed: " ++ message

/-- The batch was given up. -/
def isCancellation : BatchError → Bool
  | cancelled .. => true
  | _ => false

/-- The tag that the error is about, if there is one. -/
def tag? : BatchError → Option TagRef
  | fetch tag _ => some tag
  | cancelled _ seenAt => seenAt
  | worker tag _ => some tag

end BatchError

end EdgeInclude
