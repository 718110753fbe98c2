import EdgeInclude.Include.Condition
import EdgeInclude.Include.HeaderSelection
import EdgeInclude.Include.Source
import EdgeInclude.Duration.Basic

/-!
# Includes

An include is one tag of a page: its bytes, the place in the page that it covers, and what it asks
for. The place also holds the fragment that is put there once it has been fetched.
-/

namespace EdgeInclude

/-- A place in a page, and the bytes that are put there. -/
structure Fragment where
  start : Nat
  stop : Nat
  data : Bytes := []
deriving DecidableEq, Repr

/-- What a tag asks for. -/
structure Directives where
  /-- Where the fragment can come from. -/
  sources : Sources := {}
  /-- How long the fragment can be kept. -/
  ttl : Duration := Duration.zero
  /-- How long the fetch may take; zero if the tag does not say. -/
  timeout : Duration := Duration.zero
  /-- What to do on an error, as written. -/
  onError : String := ""
  /-- The request headers that are passed on to the backend. -/
  forwarded : HeaderSelection := {}
  /-- The backend headers that are passed back to the client. -/
  returned : HeaderSelection := {}
  /-- The condition for the inclusion. -/
  condition : Option Condition := none
deriving DecidableEq

/-- One tag of a page. -/
structure Include where
  raw : Bytes
  fragment : Fragment
  directives : Directives := {}
deriving DecidableEq

namespace Include

/-- An include that is not read yet, for the tag at the given place. -/
def ofTag (raw : Bytes) (start stop : Nat) : Include :=
  { raw, fragment := { start, stop } }

/-- The text of the tag, for diagnostics. -/
def rawText (i : Include) : String :=
  Utf8.lossy i.raw

/-- Whether the condition holds, if there is one. -/
def conditionHolds (i : Include) (r : Request) : Option Bool :=
  i.directives.condition.map fun condition => condition.holds r

/-- The request headers that are passed on to the backend. -/
def forwardedHeaders (i : Include) (r : Request) : Headers :=
  i.directives.forwarded.apply r.headers

/-- A backend header of the given name may be passed back to the client. -/
def returnsHeader (i : Include) (name : String) : Bool :=
  i.directives.returned.allows name

end Include

end EdgeInclude
