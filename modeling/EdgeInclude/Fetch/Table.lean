import EdgeInclude.Fetch.Work

/-!
# Tables to fetch from

A fragment table holds fragments by address; a fetch from it takes the first address of the tag
that it knows. A backend table holds, by address, how a fetch from there goes; it goes by the first
source of the tag alone. It refuses an address that it does not know without looking at the scope.
-/

namespace EdgeInclude

/-- Values by address; a later value of an address replaces an earlier one. -/
structure AddressTable (α : Type) where
  entries : List (String × α) := []

namespace AddressTable

variable {α : Type}

/-- The value of an address. -/
def get? (t : AddressTable α) (address : String) : Option α :=
  t.entries.lookup address

/-- Sets the value of an address. -/
def insert (t : AddressTable α) (address : String) (value : α) : AddressTable α :=
  ⟨(address, value) :: t.entries⟩

theorem get?_insert (t : AddressTable α) (address other : String) (value : α) :
    (t.insert address value).get? other = if other = address then some value else t.get? other := by
  by_cases h : other = address
  · simp [get?, insert, h]
  · simp [get?, insert, h, List.lookup_cons, beq_eq_false_iff_ne.mpr h]

end AddressTable

/-- The addresses of a source for a request: its own first, then the second one. -/
def Source.addresses (s : Source) (r : Request) : List String :=
  (s.urlFor r).toList ++ (s.keyFor r).toList

/-- The addresses of a tag for a request, in the order in which they are tried. -/
def Include.addresses (i : Include) (r : Request) : List String :=
  i.directives.sources.items.flatMap fun s => s.addresses r

/-- Fragments that are at hand. -/
structure FragmentTable where
  fragments : AddressTable Bytes := {}
  /-- How long every fetch takes. -/
  latency : Duration := Duration.zero

namespace FragmentTable

/-- The fragment for a tag: that of the first address which the table knows. -/
def lookup (t : FragmentTable) (i : Include) (r : Request) : Option Bytes :=
  (i.addresses r).findSome? t.fragments.get?

/-- Fetches from the table. -/
def fetcher (t : FragmentTable) : Fetcher := fun i r =>
  { delay := if t.latency = Duration.zero then none else some t.latency
    outcome :=
      match t.lookup i r with
      | some data => .bytes data
      | none => .failed (.notFound i.rawText) }

/-- The fetch from the table that begins now. -/
def work (table : FragmentTable) (i : Include) (timeout : Duration) (scope : Scope)
    (t : Timeline) : Work :=
  Fetch.work ⟨table.fetcher i scope.request, t.now, timeout⟩

end FragmentTable

/-- Backends that are known by their address. -/
structure BackendTable where
  plans : AddressTable FetchPlan := {}

namespace BackendTable

/-- The address that a tag is fetched from: that of its first source, or nothing. -/
def address (i : Include) (r : Request) : String :=
  match i.directives.sources.primary? with
  | some s => (s.urlFor r).getD ""
  | none => ""

/-- Fetches from the backends. There is nothing to give up in a fetch from an unknown address, so it
is not bounded. -/
def fetcher (t : BackendTable) : Fetcher := fun i r =>
  (t.plans.get? (address i r)).getD
    { isBounded := false, outcome := .failed (.notFound (address i r)) }

end BackendTable

end EdgeInclude
