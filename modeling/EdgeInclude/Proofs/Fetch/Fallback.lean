import EdgeInclude.Proofs.Fetch.Bounds
import EdgeInclude.Proofs.Include.Addresses

/-!
# The order in which addresses are tried

A fetch from a fragment table takes the first address of the tag that the table knows, in the order in
which the tag names them: a source, then its key, then the next source. A fragment that is given for an
address replaces the one that was given before.

* **`AddressTable.LastGiven`**: the last value that is given for an address. **`get?_ofList_eq_some_iff`**.
* **`Work.Undisturbed`**: nothing ends work before its own end. **`Work.run_of_undisturbed`**.
* **`fetch_falls_back_in_order`**: what an undisturbed fetch brings back, told by the attributes of the tag.
-/

namespace EdgeInclude

open Cancellation SourceBuilder

/-! ## Tables that are filled one value after the other

A later value takes the place of an earlier one at the same address. -/

namespace AddressTable

variable {α : Type} {given : List (String × α)} {address : String} {value : α}

/-- The table that holds values which are given one after the other. -/
def ofList (given : List (String × α)) : AddressTable α :=
  given.foldl (fun t p => t.insert p.1 p.2) {}

/-- The value is given for the address, and none is given for it later. -/
def LastGiven (given : List (String × α)) (address : String) (value : α) : Prop :=
  ∃ earlier later, given = earlier ++ (address, value) :: later ∧ ∀ p ∈ later, p.1 ≠ address

/-- The last value is found at its address, and the others where they were. -/
theorem get?_ofList_append_singleton (given : List (String × α)) (p : String × α)
    (address : String) : (ofList (given ++ [p])).get? address =
      if address = p.1 then some p.2 else (ofList given).get? address := by
  rw [ofList, List.foldl_append, List.foldl_cons, List.foldl_nil, get?_insert]
  rfl

/-- The last value counts for its address. -/
theorem lastGiven_append_singleton_iff {p : String × α} :
    LastGiven (given ++ [p]) address value ↔
      if address = p.1 then value = p.2 else LastGiven given address value := by
  constructor
  · rintro ⟨earlier, later, hgiven, hlater⟩
    -- the value that counts is the one at the end, or it stands before it
    rcases List.eq_nil_or_concat later with rfl | ⟨later, q, rfl⟩
    · obtain ⟨-, rfl⟩ := List.append_inj' hgiven rfl |>.imp_right List.singleton_inj.mp
      rw [if_pos rfl]
    · rw [List.concat_eq_append, ← List.cons_append, ← List.append_assoc] at hgiven
      obtain ⟨rfl, hp⟩ := List.append_inj' hgiven rfl
      obtain rfl := List.singleton_inj.mp hp
      rw [if_neg (hlater p (by simp)).symm]
      exact ⟨earlier, later, rfl, fun q hq => hlater q (by simp [hq])⟩
  · intro h
    split at h
    · rename_i haddress
      exact ⟨given, [], by rw [haddress, h], by simp⟩
    · rename_i haddress
      obtain ⟨earlier, later, rfl, hlater⟩ := h
      refine ⟨earlier, later ++ [p], by simp, fun q hq => ?_⟩
      rcases List.mem_append.mp hq with hq | hq
      · exact hlater q hq
      · rw [List.mem_singleton.mp hq]
        exact Ne.symm haddress

/-- **The table holds the value that was given last.** -/
theorem get?_ofList_eq_some_iff :
    (ofList given).get? address = some value ↔ LastGiven given address value := by
  induction given using List.reverseRecOn with
  | nil => exact iff_of_false nofun fun ⟨_, _, h, _⟩ => by simp at h
  | append_singleton given p ih =>
    rw [get?_ofList_append_singleton, lastGiven_append_singleton_iff, ← ih]
    split
    · rw [Option.some.injEq, eq_comm]
    · rfl

/-- Nothing is found where nothing was given. -/
theorem get?_ofList_eq_none_iff :
    (ofList given).get? address = none ↔ ∀ value, (address, value) ∉ given := by
  induction given using List.reverseRecOn with
  | nil => exact iff_of_true rfl fun value => List.not_mem_nil
  | append_singleton given p ih =>
    rw [get?_ofList_append_singleton]
    split
    · rename_i haddress
      refine iff_of_false nofun fun h => h p.2 ?_
      rw [haddress]
      simp
    · rename_i haddress
      rw [ih]
      refine forall_congr' fun value => not_congr ?_
      rw [List.mem_append, List.mem_singleton, Prod.ext_iff]
      simp [haddress]

/-- Of addresses, the value is given last for the first one for which any value is given. -/
def FirstGiven (given : List (String × α)) (addresses : List String) (value : α) : Prop :=
  ∃ before address after, addresses = before ++ address :: after ∧ LastGiven given address value ∧
    ∀ other ∈ before, ∀ value', (other, value') ∉ given

/-- Of several addresses the first counts that was given a value. -/
theorem findSome?_ofList_eq_some_iff {addresses : List String} :
    addresses.findSome? (ofList given).get? = some value ↔ FirstGiven given addresses value := by
  rw [List.findSome?_eq_some_iff]
  simp only [get?_ofList_eq_some_iff, get?_ofList_eq_none_iff]
  rfl

/-- Nothing is found if none of them was. -/
theorem findSome?_ofList_eq_none_iff {addresses : List String} :
    addresses.findSome? (ofList given).get? = none ↔
      ∀ address ∈ addresses, ∀ value, (address, value) ∉ given := by
  rw [List.findSome?_eq_none_iff]
  simp only [get?_ofList_eq_none_iff]

end AddressTable

open AddressTable

/-! ## Work that nothing disturbs

Without cancellation, deadline or timeout in time, work ends by itself when the clock next stops. -/

namespace Work

variable {w : Work} {scope : Scope} {t : Timeline}

/-- What the clock shows when the work has come to its own end. Work that takes no time is at its end at
once; a timer goes off on a whole millisecond. -/
def ownInstant? (w : Work) : Option Instant :=
  w.takes.bind fun n =>
    if n = 0 then some w.start else Instant.ofNanos? (Instant.tickNanos (w.start.nanos + n))

/-- The work has come to its own end before its scope is given up and its timeout has passed. -/
def Undisturbed (w : Work) (scope : Scope) (t : Timeline) : Prop :=
  ∃ instant, w.ownInstant? = some instant ∧
    (instant.since w.start : ℕ∞) < min (w.givenUp scope t) (w.limit : ℕ∞)

/-- When work comes to its own end: at once, or when its timer goes off. -/
theorem ownInstant?_cases {instant : Instant} (h : w.ownInstant? = some instant) :
    ∃ n, w.takes = some n ∧ (n = 0 ∧ instant = w.start ∨
      0 < n ∧ instant.nanos = Instant.tickNanos (w.start.nanos + n)) := by
  obtain ⟨n, hn, hinstant⟩ := Option.bind_eq_some_iff.mp h
  refine ⟨n, hn, ?_⟩
  split at hinstant
  · rename_i hzero
    exact .inl ⟨hzero, (Option.some.inj hinstant).symm⟩
  · rename_i hpos
    unfold Instant.ofNanos? at hinstant
    split at hinstant
    · cases hinstant
      exact .inr ⟨Nat.pos_of_ne_zero hpos, rfl⟩
    · cases hinstant

/-- That is no earlier than it has taken its time. -/
theorem own_le_of_ownInstant? {instant : Instant} (h : w.ownInstant? = some instant) :
    w.own ≤ (instant.since w.start : ℕ∞) := by
  obtain ⟨n, hn, hinstant⟩ := ownInstant?_cases h
  rw [own, hn, Nat.cast_le, Instant.since]
  rcases hinstant with ⟨rfl, -⟩ | ⟨-, hnanos⟩
  · exact Nat.zero_le _
  · have hle := Instant.le_tickNanos (w.start.nanos + n)
    omega

/-- The clock does not pass over the end of work that begins now. -/
theorem ownInstant?_mem_visits (hstart : w.start = t.now) {instant : Instant}
    (h : w.ownInstant? = some instant) : instant ∈ t.visits (w.timers scope) := by
  obtain ⟨n, hn, ⟨-, rfl⟩ | ⟨hpos, hnanos⟩⟩ := ownInstant?_cases h
  · rw [hstart]
    exact List.mem_cons_self
  · have hmem : w.start.nanos + n ∈
        (t.upcoming.map fun a => a.instant.nanos).toList ++ w.timers scope := by
      simp [timers, ownNanos?, hn]
    have hle := Instant.le_tickNanos (w.start.nanos + n)
    have hlater : t.now.nanos < Instant.tickNanos (w.start.nanos + n) := by
      rw [← hstart]
      omega
    obtain ⟨visited, hvisited, hnanos'⟩ :=
      Timeline.mem_visits_of_tick hmem (hnanos ▸ instant.le_max) hlater
    rw [Instant.eq_of_nanos_eq (hnanos.trans hnanos'.symm)]
    exact List.mem_of_mem_tail hvisited

/-- **Work that nothing disturbs ends by itself.** -/
theorem run_of_undisturbed (hbounded : w.isBounded = true) (hstart : w.start = t.now)
    (hf : t.forest.WellFormed) (h : w.Undisturbed scope t) :
    ∃ t', w.run scope t = some (w.outcome, t') := by
  obtain ⟨instant, hinstant, hearly⟩ := h
  have hreached : w.first scope t ≤ (instant.since w.start : ℕ∞) :=
    (min_le_of_right_le (min_le_right _ _)).trans (own_le_of_ownInstant? hinstant)
  obtain ⟨stop, t', hstop, hrun, hreached', hle⟩ :=
    run_reached hbounded hstart hf (ownInstant?_mem_visits hstart hinstant) hreached
  have hearly' : (t'.now.since w.start : ℕ∞) < min (w.givenUp scope t) (w.limit : ℕ∞) :=
    (Nat.cast_le.mpr (Instant.since_le_since hle w.start)).trans_lt hearly
  rw [stopAfter?_eq_itself hreached' hearly'] at hstop
  obtain rfl := Option.some.inj hstop
  exact ⟨t', hrun⟩

/-- Nobody gives up a scope that has no deadline if its token is not cancelled, now or later. -/
theorem givenUp_eq_top (hdeadline : scope.deadline = none)
    (hcancelled : t.forest.isCancelled scope.token = false) (hupcoming : t.upcoming = none) :
    w.givenUp scope t = ⊤ := by
  have hreaching : t.reaching? scope.token = none := by rw [Timeline.reaching?, hupcoming]; rfl
  rw [givenUp, Timeline.untilCancelled_of_not hcancelled, hreaching, hdeadline]
  exact min_self ⊤

end Work

/-! ## The fetch

The outcome is settled by the table and the request when the fetch begins. -/

namespace FragmentTable

variable {table : FragmentTable} {i : Include} {timeout : Duration} {scope : Scope} {t : Timeline}

/-- What a fetch from a table comes to, if nothing cuts it short. -/
theorem outcome_work (table : FragmentTable) (i : Include) (timeout : Duration) (scope : Scope)
    (t : Timeline) : (table.work i timeout scope t).outcome =
      match table.lookup i scope.request with
      | some data => .bytes data
      | none => .failed (.notFound i.rawText) := rfl

theorem outcome_eq_bytes_iff {body : Bytes} : (table.work i timeout scope t).outcome = .bytes body ↔
    table.lookup i scope.request = some body := by
  rw [outcome_work]
  cases table.lookup i scope.request <;> simp

/-- A fetch from a table finds nothing exactly if no address has a value. -/
theorem outcome_eq_notFound_iff {subject : String} :
    (table.work i timeout scope t).outcome = .failed (.notFound subject) ↔
      subject = i.rawText ∧ table.lookup i scope.request = none := by
  rw [outcome_work]
  cases table.lookup i scope.request <;> simp [eq_comm]

end FragmentTable

variable {i i' : Include} {tag : Bytes} {scope : Scope} {t : Timeline}

/-- **What an undisturbed fetch brings back.** Each source of the tag is tried in turn, and after it the
last of the keys that are for it, those before any source being for the first one. The first address
that the table knows decides, and the fragment is the one that was given for it last. If the table knows
none of them, the fetch fails with the text of the tag. -/
theorem fetch_falls_back_in_order (hf : t.forest.WellFormed) (htag : i.GoesBy tag)
    (h : i.parse = .ok i') (given : List (String × Bytes)) (latency timeout : Duration)
    (hquiet : (FragmentTable.work ⟨.ofList given, latency⟩ i' timeout scope t).Undisturbed scope t) :
    ∃ (as : List Attribute) (keys : List String) (gs : List (String × List String)),
      Attribute.scan tag = as.map .ok ∧ spelled keys gs = Attribute.calls as ∧
      ((tried keys gs).map fun c => c.address?.map (Address.render scope.request)) =
        (i'.addresses scope.request).map some ∧
      ∃ outcome t', Fetch.run (FragmentTable.fetcher ⟨.ofList given, latency⟩ i' scope.request)
          timeout scope t = some (outcome, t') ∧
        (∀ body, outcome = .bytes body ↔ FirstGiven given (i'.addresses scope.request) body) ∧
        ∀ subject, outcome = .failed (.notFound subject) ↔ subject = Utf8.lossy i.raw ∧
          ∀ address ∈ i'.addresses scope.request, ∀ body, (address, body) ∉ given := by
  obtain ⟨as, keys, gs, hnames⟩ := (Include.holds_of_parse htag h).exists_names
  obtain ⟨t', hrun⟩ := Work.run_of_undisturbed rfl rfl hf hquiet
  have hraw : i'.raw = i.raw := by rw [Include.eq_of_parse h]
  refine ⟨as, keys, gs, hnames.scan, hnames.calls, ?_, _, t', hrun, fun body => ?_, fun subject => ?_⟩
  · -- the calls that are tried give the addresses of the include, in the same order
    have hrendered := congrArg (List.map (Option.map (Address.render scope.request)))
      hnames.candidates_eq
    rw [List.map_map, List.map_map] at hrendered
    rw [Include.addresses_eq_map, List.map_map]
    exact hrendered
  · rw [FragmentTable.outcome_eq_bytes_iff, FragmentTable.lookup, findSome?_ofList_eq_some_iff]
  · rw [FragmentTable.outcome_eq_notFound_iff, FragmentTable.lookup, findSome?_ofList_eq_none_iff,
      Include.rawText, hraw]

/-- A tag with a key before its first source, and two behind its second one. -/
def manySources : Include :=
  .ofTag (Utf8.encode
    "<a key='k' src='http://h/\x7b\x7bquery \"q\"\x7d\x7d' src='b' key='old' key='new' src='c'/>") 0 72

/-- Fragments for the replaced key of the second source, for the one that counts, and for the third
source. -/
def refilled : List (String × Bytes) :=
  [("new", [1]), ("old", [2]), ("c", [3]), ("new", [4])]

/-- One and a half milliseconds. -/
def smallLatency : Duration := ⟨1500000, by decide⟩

/-- A request that nobody gives up. -/
def searching : Scope :=
  { request := ({ id := "" } : Request).withQuery "q" "z", token := 0 }

/-- A table in which one address was given two values, the second of which counts. -/
theorem fetch_falls_back_in_order_refilled :
    ∃ i', manySources.parse = .ok i' ∧
      i'.addresses searching.request = ["http://h/z", "k", "b", "new", "c"] ∧
      ∃ t', Fetch.run (FragmentTable.fetcher ⟨.ofList refilled, smallLatency⟩ i'
        searching.request) (.ofMillis 20) searching quietTimeline = some (.bytes [4], t') := by
  have hread : manySources.parse.toOption.map (fun i => i.addresses searching.request) =
      some ["http://h/z", "k", "b", "new", "c"] := by
    decide +kernel
  cases hparse : manySources.parse with
  | error e =>
    rw [hparse] at hread
    cases hread
  | ok i' =>
    rw [hparse] at hread
    have haddresses : i'.addresses searching.request = _ := Option.some.inj hread
    have hquiet : (FragmentTable.work ⟨.ofList refilled, smallLatency⟩ i' (.ofMillis 20)
        searching quietTimeline).Undisturbed searching quietTimeline := by
      have hstart : (FragmentTable.work ⟨.ofList refilled, smallLatency⟩ i' (.ofMillis 20)
          searching quietTimeline).start = Instant.start := rfl
      refine ⟨⟨2000000, by decide⟩, ?_, ?_⟩
      · rw [Work.ownInstant?, FragmentTable.takes_work, hstart]
        decide +kernel
      rw [Work.givenUp_eq_top rfl rfl rfl, min_eq_right le_top]
      show ((2000000 : ℕ) : ℕ∞) < ((20000000 : ℕ) : ℕ∞)
      exact Nat.cast_lt.mpr (by decide)
    obtain ⟨as, keys, gs, -, -, -, outcome, t', hrun, hbytes, -⟩ := fetch_falls_back_in_order
      (t := quietTimeline) Forest.wellFormed_empty.create
      (Include.goesBy_raw (by decide)) hparse refilled smallLatency (.ofMillis 20) hquiet
    have hfirst : FirstGiven refilled (i'.addresses searching.request) [4] := by
      rw [haddresses]
      exact ⟨["http://h/z", "k", "b"], "new", ["c"], rfl,
        ⟨[("new", [1]), ("old", [2]), ("c", [3])], [], rfl, by simp⟩, by simp [refilled]⟩
    exact ⟨i', rfl, haddresses, t', (hbytes [4]).mpr hfirst ▸ hrun⟩

end EdgeInclude
