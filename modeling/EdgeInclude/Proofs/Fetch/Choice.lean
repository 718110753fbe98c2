import EdgeInclude.Proofs.Fetch.Fallback
import EdgeInclude.Proofs.Template.Rendering

/-!
# What the choice of an address depends on

Of a request, the addresses of a tag read what their actions name and nothing else. So two requests
that have the same there are answered alike if they are timed alike, and no value in a request can name
more of it than the tag does.

* **`Include.actions`**: the actions in the addresses of a tag. **`addresses_congr`**.
* **`SameTiming`**: two runs for which the clock and the cancellations are alike. **`Fetch.run_congr`**.
* **`Address.Fills`**: what an address becomes for a request. **`Names.compiled`**.
* **`choice_reads_what_the_tag_names`**: two requests, one fetch for each.
-/

namespace EdgeInclude

open SourceBuilder

/-! ## The actions of a tag

What a template reads of a request is told by its actions, so requests that the actions cannot tell
apart give the same addresses. -/

/-- The actions in an address. -/
def Address.actions : Address → List Action
  | literal _ => []
  | template t => t.actions

/-- The actions in the addresses of an include. -/
def Include.actions (i : Include) : List Action :=
  i.candidates.flatMap Address.actions

section Requests

variable {r r' : Request} {i : Include}

/-- An address is filled in alike for requests that its actions cannot tell apart. -/
theorem Address.render_congr {address : Address} (h : ∀ a ∈ address.actions, a.Agrees r r') :
    address.render r = address.render r' := by
  cases address with
  | literal text => rfl
  | template t => exact Template.render_congr h

theorem Include.render_congr (h : ∀ a ∈ i.actions, a.Agrees r r') {address : Address}
    (haddress : address ∈ i.candidates) : address.render r = address.render r' :=
  Address.render_congr fun a ha => h a (List.mem_flatMap.mpr ⟨address, haddress, ha⟩)

theorem Include.addresses_congr (h : ∀ a ∈ i.actions, a.Agrees r r') :
    i.addresses r = i.addresses r' := by
  rw [addresses_eq_map, addresses_eq_map]
  exact List.map_congr_left fun address haddress => render_congr h haddress

/-- What a source is asked for is the same. -/
theorem Source.urlFor_congr {s : Source} (h : ∀ address ∈ s.candidates,
    address.render r = address.render r') : s.urlFor r = s.urlFor r' ∧ s.keyFor r = s.keyFor r' := by
  have hsame {o : Option Address} (ho : ∀ address ∈ o.toList, address ∈ s.candidates) :
      o.map (Address.render r) = o.map (Address.render r') :=
    Option.map_congr fun address haddress => h address (ho address (Option.mem_toList.mpr haddress))
  exact ⟨hsame fun address => List.mem_append_left _, hsame fun address => List.mem_append_right _⟩

theorem FragmentTable.fetcher_congr (table : FragmentTable) (h : ∀ a ∈ i.actions, a.Agrees r r') :
    table.fetcher i r = table.fetcher i r' := by
  unfold fetcher lookup
  rw [Include.addresses_congr h]

end Requests

/-! ## Runs that are timed alike

A run reads of its scope only when the token is cancelled and when the deadline is, and the clock.
-/

variable {scope scope' : Scope} {t t' : Timeline}

/-- Two runs are timed alike: the clock shows the same, the scopes have the same deadline, and their
tokens are cancelled at the same time or not at all. -/
structure SameTiming (scope scope' : Scope) (t t' : Timeline) : Prop where
  now : t.now = t'.now
  deadline : scope.deadline = scope'.deadline
  isCancelled : t.forest.isCancelled scope.token = t'.forest.isCancelled scope'.token
  upcoming : t.upcoming.map Appointment.instant = t'.upcoming.map Appointment.instant
  reaching : t.reaching? scope.token = t'.reaching? scope'.token

namespace SameTiming

theorem symm (h : SameTiming scope scope' t t') : SameTiming scope' scope t' t :=
  ⟨h.now.symm, h.deadline.symm, h.isCancelled.symm, h.upcoming.symm, h.reaching.symm⟩

/-- A cancellation that is to come in one is to come in the other, at the same instant. -/
theorem exists_upcoming (h : SameTiming scope scope' t t') {a : Appointment}
    (ha : t.upcoming = some a) : ∃ a', t'.upcoming = some a' ∧ a'.instant = a.instant := by
  have hupcoming := h.upcoming
  rw [ha, eq_comm] at hupcoming
  exact Option.map_eq_some_iff.mp hupcoming

/-- What is due comes about in both or in neither. -/
theorem settle (h : SameTiming scope scope' t t') : SameTiming scope scope' t.settle t'.settle := by
  rcases Timeline.settle_cases t with ⟨hsettle, hlater⟩ | ⟨a, ha, hdue, hsettle⟩
  · have hlater' : ∀ a', t'.upcoming = some a' → t'.now < a'.instant := by
      intro a' ha'
      obtain ⟨a, ha, hinstant⟩ := h.symm.exists_upcoming ha'
      rw [← h.now, ← hinstant]
      exact hlater a ha
    rw [hsettle, Timeline.settle_of_not_due hlater']
    exact h
  · obtain ⟨a', ha', hinstant⟩ := h.exists_upcoming ha
    have hdue' : a'.instant ≤ t'.now := by
      rw [hinstant, ← h.now]
      exact hdue
    -- both tokens are reached by what comes about, or neither
    have hreaching := h.reaching
    rw [Timeline.reaching?_eq ha, Timeline.reaching?_eq ha', hinstant] at hreaching
    rw [hsettle, Timeline.settle_of_due ha' hdue']
    refine ⟨h.now, h.deadline, ?_, rfl, rfl⟩
    show (t.forest.cancel a.token).isCancelled scope.token =
      (t'.forest.cancel a'.token).isCancelled scope'.token
    cases hleft : (t.forest.cancel a.token).isCancelled scope.token <;>
      cases hright : (t'.forest.cancel a'.token).isCancelled scope'.token <;>
      simp_all

/-- After a visit they are still timed alike. -/
theorem visit (h : SameTiming scope scope' t t') (instant : Instant) :
    SameTiming scope scope' (t.visit instant) (t'.visit instant) := by
  unfold Timeline.visit
  refine settle ?_
  rw [← h.now]
  split
  · exact ⟨rfl, h.deadline, h.isCancelled, h.upcoming, h.reaching⟩
  · exact h

theorem isDone (h : SameTiming scope scope' t t') :
    scope.isDone t.forest t.now = scope'.isDone t'.forest t'.now := by
  rw [Scope.isDone, Scope.isDone, h.isCancelled, h.now, Scope.isOverdue, Scope.isOverdue, h.deadline]

/-- The clock stops at the same instants. -/
theorem visits (h : SameTiming scope scope' t t') (w : Work) :
    t.visits (w.timers scope) = t'.visits (w.timers scope') := by
  have hnanos : (t.upcoming.map fun a => a.instant.nanos) =
      t'.upcoming.map fun a => a.instant.nanos := by
    have := congrArg (Option.map Instant.nanos) h.upcoming
    rwa [Option.map_map, Option.map_map] at this
  unfold Timeline.visits Work.timers
  rw [hnanos, h.now, h.deadline]

end SameTiming

/-- How a fetch ends, and when. -/
def Fetch.ending (e : Outcome × Timeline) : Outcome × Instant :=
  (e.1, e.2.now)

/-- Work that is timed alike ends alike over the same instants. -/
theorem Work.runOver_congr (w : Work) (h : SameTiming scope scope' t t') (instants : List Instant) :
    (w.runOver scope instants t).map Fetch.ending =
      (w.runOver scope' instants t').map Fetch.ending := by
  induction instants generalizing t t' with
  | nil => rfl
  | cons instant later ih =>
    have hvisit := h.visit instant
    have hstop : w.stop? scope (t.visit instant).forest (t.visit instant).now =
        w.stop? scope' (t'.visit instant).forest (t'.visit instant).now := by
      rw [Work.stop?, Work.stop?, hvisit.isDone, hvisit.now]
    rw [Work.runOver_cons, Work.runOver_cons, hstop]
    split
    · exact ih hvisit
    · rw [Option.map_some, Option.map_some, Fetch.ending, Fetch.ending, Work.now_leave,
        Work.now_leave, hvisit.now]

/-- **Fetches that go by one plan and are timed alike end alike.** -/
theorem Fetch.run_congr (h : SameTiming scope scope' t t') (plan : FetchPlan) (timeout : Duration) :
    (Fetch.run plan timeout scope t).map ending =
      (Fetch.run plan timeout scope' t').map ending := by
  unfold Fetch.run Work.run
  rw [h.visits, h.now]
  exact Work.runOver_congr _ h _

/-! ## What an address becomes

A template is filled in as its text says: what stands between the actions stays, and each action is
replaced. -/

/-- What the text of an address becomes for a request: it stays, or it is filled in once. -/
def Address.Fills (r : Request) (filled : List Char) : Address → Prop
  | literal text => filled = text.toList
  | template t => Template.Fills r t.source.toList filled

namespace Include

variable {i i' : Include} {tag : Bytes}

/-- The templates among the addresses are compiled from their own text. -/
theorem Names.compiled {as : List Attribute} {keys : List String} {gs : List (String × List String)}
    (h : i.Names tag as keys gs) {template : Template} (hmem : .template template ∈ i.candidates) :
    Template.compile template.source = .ok template := by
  have hcall : some (.template template) ∈ (tried keys gs).map Call.address? := by
    rw [h.candidates_eq]
    exact List.mem_map_of_mem hmem
  obtain ⟨c, -, hc⟩ := List.mem_map.mp hcall
  have hcompile := Call.compile_of_address? hc
  rwa [(Template.compile_eq_ok_iff.mp hcompile).1]

/-- There is one way to fill an address in. -/
theorem fills_iff (h : i.Holds tag) {address : Address} (hmem : address ∈ i.candidates) (r : Request)
    (filled : List Char) : address.Fills r filled ↔ filled = (address.render r).toList := by
  cases address with
  | literal text => rfl
  | template t =>
    obtain ⟨as, keys, gs, hnames⟩ := h.exists_names
    exact Template.fills_iff (hnames.compiled hmem)

end Include

/-! ## Two requests

The fetch for one request compared with that for another. -/

variable {i i' : Include} {tag : Bytes}

/-- **The choice of an address reads what the tag names.** For two requests that have the same for the
actions in the addresses of a tag, these addresses are the same, and two fetches that are timed alike
end alike: with the same fragment, or both without one, and at the same time. For any request an address
is its text, in which each action is replaced by what the request has for it, once and from left to
right; so what is put there is not read as an action again. -/
theorem choice_reads_what_the_tag_names (htag : i.GoesBy tag) (h : i.parse = .ok i')
    (hagree : ∀ a ∈ i'.actions, a.Agrees scope.request scope'.request) :
    (∀ s ∈ i'.directives.sources.items,
      s.urlFor scope.request = s.urlFor scope'.request ∧
        s.keyFor scope.request = s.keyFor scope'.request) ∧
    (∀ (table : FragmentTable) (timeout : Duration) (t t' : Timeline),
      SameTiming scope scope' t t' →
      (Fetch.run (table.fetcher i' scope.request) timeout scope t).map Fetch.ending =
        (Fetch.run (table.fetcher i' scope'.request) timeout scope' t').map Fetch.ending ∧
      (t.forest.WellFormed → (table.work i' timeout scope t).Undisturbed scope t →
        ∃ outcome e e',
          Fetch.run (table.fetcher i' scope.request) timeout scope t = some (outcome, e) ∧
          Fetch.run (table.fetcher i' scope'.request) timeout scope' t' = some (outcome, e') ∧
          ((∃ body, outcome = .bytes body) ∨
            outcome = .failed (.notFound (Utf8.lossy i.raw))))) ∧
    ∀ address ∈ i'.candidates, ∀ r filled,
      address.Fills r filled ↔ filled = (address.render r).toList := by
  have hraw : i'.raw = i.raw := by rw [Include.eq_of_parse h]
  refine ⟨fun s hs => ?_, fun table timeout t t' htiming => ?_, fun address hmem =>
    Include.fills_iff (Include.holds_of_parse htag h) hmem⟩
  · exact Source.urlFor_congr fun address hmem =>
      Include.render_congr hagree (List.mem_flatMap.mpr ⟨s, hs, hmem⟩)
  -- one plan serves both requests, and the plan does not tell when a run ends
  have hending : (Fetch.run (table.fetcher i' scope.request) timeout scope t).map Fetch.ending =
      (Fetch.run (table.fetcher i' scope'.request) timeout scope' t').map Fetch.ending := by
    rw [table.fetcher_congr hagree]
    exact Fetch.run_congr htiming _ timeout
  refine ⟨hending, fun hf hquiet => ?_⟩
  obtain ⟨e, hrun⟩ := Work.run_of_undisturbed rfl rfl hf hquiet
  have hrun' : Fetch.run (table.fetcher i' scope.request) timeout scope t =
      some ((table.work i' timeout scope t).outcome, e) := hrun
  rw [hrun', Option.map_some, eq_comm] at hending
  obtain ⟨⟨outcome, e'⟩, hother, heq⟩ := Option.map_eq_some_iff.mp hending
  obtain rfl : outcome = _ := (Prod.mk.inj heq).1
  refine ⟨_, e, e', hrun', hother, ?_⟩
  -- without bytes the error quotes the tag, which both requests share
  rw [FragmentTable.outcome_work, Include.rawText, hraw]
  cases table.lookup i' scope.request with
  | none => exact .inr rfl
  | some body => exact .inl ⟨body, rfl⟩

/-- A tag that names a header and the path. -/
def naming : Include :=
  .ofTag (Utf8.encode
    "<a src='http://h/\x7b\x7bheader \"X-A\"\x7d\x7d' key='k\x7b\x7b path \x7d\x7d'/>") 0 55

/-- The header holds what would be an action, which names a header that the tag does not name. -/
def prying : Scope where
  request := (({ id := "1" } : Request).withHeader "X-A"
    "\x7b\x7b header \"Secret\" \x7d\x7d").withHeader "Secret" "one"
  token := 0

/-- Another request with the same first value of the header. -/
def pryingToo : Scope where
  request := ((({ id := "2" } : Request).withHeader "X-A"
    "\x7b\x7b header \"Secret\" \x7d\x7d").withHeader "x-a" "more").withHeader "Secret" "two"
  token := 1

/-- The clock of the other request, which has one more token. -/
def widerTimeline : Timeline := { forest := { nodes := [{}, {}] } }

/-- A table with a fragment for the address in which the header is put as it is. -/
def spelledOut : FragmentTable :=
  { fragments := .ofList [("http://h/\x7b\x7b header \"Secret\" \x7d\x7d", [7])] }

/-- Two requests that differ in a header which the tag does not name. -/
theorem choice_reads_what_the_tag_names_prying :
    ∃ i', naming.parse = .ok i' ∧ (∀ a ∈ i'.actions, a.Agrees prying.request pryingToo.request) ∧
      prying.request.headers.get? "Secret" ≠ pryingToo.request.headers.get? "Secret" ∧
      (∃ e, Fetch.run (spelledOut.fetcher i' prying.request) (.ofMillis 5) prying quietTimeline =
        some (.bytes [7], e)) ∧
      ∃ e', Fetch.run (spelledOut.fetcher i' pryingToo.request) (.ofMillis 5) pryingToo
        widerTimeline = some (.bytes [7], e') := by
  have hread : (naming.parse.toOption.map fun i => (i.actions,
      (Fetch.run (spelledOut.fetcher i prying.request) (.ofMillis 5) prying quietTimeline).map
        Prod.fst)) = some ([.header "X-A", .path], some (.bytes [7])) := by
    decide +kernel
  cases hparse : naming.parse with
  | error e =>
    rw [hparse] at hread
    cases hread
  | ok i' =>
    rw [hparse] at hread
    obtain ⟨hactions, hrun⟩ := Prod.mk.inj (Option.some.inj hread)
    obtain ⟨⟨outcome, e⟩, hrun, rfl⟩ := Option.map_eq_some_iff.mp hrun
    have hagree : ∀ a ∈ i'.actions, a.Agrees prying.request pryingToo.request := by
      rw [hactions]
      decide +kernel
    obtain ⟨-, hfetch, -⟩ := choice_reads_what_the_tag_names (Include.goesBy_raw (by decide)) hparse
      hagree
    have htiming : SameTiming prying pryingToo quietTimeline widerTimeline :=
      ⟨rfl, rfl, by decide, rfl, rfl⟩
    obtain ⟨hending, -⟩ := hfetch spelledOut (.ofMillis 5) quietTimeline widerTimeline htiming
    rw [hrun, Option.map_some, eq_comm] at hending
    obtain ⟨⟨outcome', e'⟩, hrun', heq⟩ := Option.map_eq_some_iff.mp hending
    obtain rfl : outcome' = .bytes [7] := (Prod.mk.inj heq).1
    exact ⟨i', rfl, hagree, by decide, ⟨e, hrun⟩, e', hrun'⟩

end EdgeInclude
