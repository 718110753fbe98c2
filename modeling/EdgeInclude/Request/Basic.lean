import EdgeInclude.Request.Headers

/-!
# Requests

The inbound request that a page is put together for. Templates read it, and fetches are made on its
behalf.
-/

namespace EdgeInclude

/-- Values by name; a later value of a name replaces an earlier one. -/
structure Parameters where
  entries : List (String × String) := []
deriving DecidableEq, Repr

namespace Parameters

/-- The value of a name. -/
def get? (p : Parameters) (name : String) : Option String :=
  p.entries.lookup name

/-- Sets the value of a name. -/
def set (p : Parameters) (name value : String) : Parameters :=
  ⟨(name, value) :: p.entries.filter fun entry => entry.1 ≠ name⟩

theorem get?_set_self (p : Parameters) (name value : String) :
    (p.set name value).get? name = some value := by
  simp [get?, set]

end Parameters

/-- A request. -/
structure Request where
  id : String
  method : String := "GET"
  path : String := "/"
  headers : Headers := {}
  query : Parameters := {}
  params : Parameters := {}
deriving DecidableEq, Repr

namespace Request

/-- Adds a header value; see `Headers.add`. -/
def withHeader (r : Request) (name value : String) : Request :=
  { r with headers := r.headers.add name value }

/-- Sets a query parameter. -/
def withQuery (r : Request) (name value : String) : Request :=
  { r with query := r.query.set name value }

/-- Sets a route parameter. -/
def withParam (r : Request) (name value : String) : Request :=
  { r with params := r.params.set name value }

end Request

end EdgeInclude
