import EdgeInclude.Duration.Basic
import EdgeInclude.Text.Quoted

/-!
# Fetch errors

Why a fragment could not be fetched. Two of the causes mean that the fetch was given up, because
its time ran out or the work it was for went away; `FetchError.isCancellation` tells them from
failures.
-/

namespace EdgeInclude

/-- Why a fragment could not be fetched. -/
inductive FetchError where
  /-- The backend answered with a status that is no success. -/
  | http (status : UInt16) (url : String)
  /-- The fetch took as long as it was allowed to. -/
  | timeout (limit : Duration)
  /-- The work that the fetch is for was given up. -/
  | cancelled
  /-- The backend could not be reached. -/
  | connection (text : String)
  /-- There is no fragment for the tag, or for the address. -/
  | notFound (subject : String)
  /-- Any other failure of the backend, and what was being done when it came up. -/
  | backend (text : String) (context : Option String)
deriving DecidableEq

namespace FetchError

/-- What the error says. -/
def message : FetchError → String
  | http status url => "HTTP error: " ++ Text.decimal status.toNat ++ " for " ++ url
  | timeout limit => "Timeout after " ++ limit.describe
  | cancelled => "Request cancelled"
  | connection text => "Connection error: " ++ text
  | notFound subject => "No resource available for tag " ++ Text.quote subject
  | backend text context => context.getD text

/-- The fetch was given up. -/
def isCancellation : FetchError → Bool
  | timeout _ | cancelled => true
  | _ => false

end FetchError

end EdgeInclude
