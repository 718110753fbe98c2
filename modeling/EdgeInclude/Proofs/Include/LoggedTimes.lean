import EdgeInclude.Proofs.Include.Diagnostics
import EdgeInclude.Proofs.Log.Members

/-!
# The times that are logged of a tag

The line of a tag that is read tells two times in whole milliseconds, in a word of 64 bits. A time may
have up to `2 ^ 64 - 1` seconds, so its milliseconds need not fit; of those that do not, the line tells
what is left when the word has wrapped around.

* **`Duration.wordMillis`**: what is logged of a time. **`wordMillis_eq_iff`**: when that is the time.
* **`Include.parseReport_eq`**: the calls that set the fields of the line.
* **`Include.logged_times_wrap_around`**: what a line tells of the times of a tag.
-/

namespace EdgeInclude

open Log

namespace Duration

variable {d e : Duration}

/-- The whole milliseconds of a duration, cut to a word. -/
def wordMillis (d : Duration) : Nat :=
  d.wholeMillis % UInt64.size

theorem wordMillis_eq_iff (d : Duration) :
    d.wordMillis = d.wholeMillis ↔ d.wholeMillis < UInt64.size :=
  Nat.mod_eq_iff_lt (by decide)

/-- Of two times that fit, the longer one is told as the longer. -/
theorem wordMillis_le (h : d.nanos ≤ e.nanos) (he : e.wholeMillis < UInt64.size) :
    d.wordMillis ≤ e.wordMillis := by
  have hle : d.wholeMillis ≤ e.wholeMillis := Nat.div_le_div_right h
  rw [(wordMillis_eq_iff d).mpr (by omega), (wordMillis_eq_iff e).mpr he]
  exact hle

end Duration

namespace Include

variable {i parsed : Include} {l : Logger} {elapsed : Nat} {line : Line}
variable {field : String × (Directives → Duration)}

/-- The fields that tell a time of the tag, and the time that each tells. -/
def timeFields : List (String × (Directives → Duration)) :=
  [("timeout_ms", Directives.timeout), ("ttl_ms", Directives.ttl)]

/-- The calls that set the fields of the line of a tag that asks for the given. -/
def readCalls (i : Include) (d : Directives) : List FieldCall :=
  [.text "tag" i.rawText, .count "resources" d.sources.items.length,
    .millis "timeout_ms" d.timeout, .millis "ttl_ms" d.ttl]

/-- What is told of a tag that is read, as calls that set fields. -/
theorem parseReport_eq (hraw : i.raw ≠ []) (hi : i.parse = .ok parsed) :
    i.parseReport = some (.debug, "esi tag parsed",
      Fields.callAll (i.readCalls parsed.directives)) := by
  obtain ⟨d, hd, rfl⟩ := (parse_eq_ok_iff hraw).mp hi
  exact parseReport_of_ok hraw hd

/-- Each of the two times is set once. -/
theorem last?_readCalls (i : Include) (d : Directives) (hfield : field ∈ timeFields) :
    FieldCall.last? field.1 (i.readCalls d) = some (.number (field.2 d).wordMillis) := by
  obtain rfl | rfl : field = ("timeout_ms", Directives.timeout) ∨
      field = ("ttl_ms", Directives.ttl) := by simpa [timeFields] using hfield
  · rfl
  · rfl

theorem get?_readCalls (i : Include) (d : Directives) (hfield : field ∈ timeFields) :
    (Fields.callAll (i.readCalls d)).get? field.1 = some (.number (field.2 d).wordMillis) := by
  rw [Fields.get?_callAll, last?_readCalls i d hfield]

/-- What is logged of a time stands among the fields. -/
theorem mem_readCalls (i : Include) (d : Directives) (hfield : field ∈ timeFields) :
    (field.1, .number (field.2 d).wordMillis) ∈ (Fields.callAll (i.readCalls d)).entries := by
  have hnamed := Fields.named_callAll field.1 (i.readCalls d)
  rw [last?_readCalls i d hfield] at hnamed
  have hmem : (field.1, Json.number (field.2 d).wordMillis) ∈
      Json.named field.1 (Fields.callAll (i.readCalls d)).entries := by
    rw [hnamed]
    exact List.mem_singleton_self _
  exact List.mem_of_mem_filter hmem

/-- The line of a tag that is read is that of an entry with the calls' fields. -/
theorem exists_entry_of_mem_parseLines (hraw : i.raw ≠ []) (hi : i.parse = .ok parsed)
    (hline : line ∈ i.parseLines l elapsed) :
    ∃ e : Entry, e.fields = Fields.callAll (i.readCalls parsed.directives) ∧
      line.text = match l.format with
        | .json => e.toJson
        | .human => e.toHuman := by
  unfold parseLines at hline
  rw [parseReport_eq hraw hi] at hline
  dsimp only at hline
  have hwritten := Option.mem_toList.mp hline
  unfold Logger.line? at hwritten
  split at hwritten
  · obtain rfl := Option.some.inj hwritten
    exact ⟨l.entry .debug "esi tag parsed" (Fields.callAll (i.readCalls parsed.directives)) elapsed,
      rfl, rfl⟩
  · cases hwritten

/-- **The times that are logged of a tag are its times, as long as their milliseconds fit a word.** What
is logged of a time is what is left of its milliseconds when the word has wrapped around: it is the field
of the report, a reader of a structured line finds it, and in a line for people it stands among the
fields. It is the time exactly if the milliseconds fit, and of two times whose milliseconds fit the
longer is never logged as the smaller. -/
theorem logged_times_wrap_around (hraw : i.raw ≠ []) (hi : i.parse = .ok parsed)
    (hfield : field ∈ timeFields) :
    (∃ fields, i.parseReport = some (.debug, "esi tag parsed", fields) ∧
      fields.get? field.1 = some (.number (field.2 parsed.directives).wordMillis)) ∧
    (∀ l elapsed line, line ∈ i.parseLines l elapsed → l.format = .json →
      ∃ members, Json.read? line.text = some (.object members) ∧
        Json.last? field.1 members = some (.number (field.2 parsed.directives).wordMillis)) ∧
    (∀ l elapsed line, line ∈ i.parseLines l elapsed → l.format = .human →
      ∃ e : Entry, line.text = e.toHuman ∧
        Entry.fieldText (field.1, .number (field.2 parsed.directives).wordMillis) ∈ e.fieldTexts) ∧
    ((field.2 parsed.directives).wordMillis = (field.2 parsed.directives).wholeMillis ↔
      (field.2 parsed.directives).wholeMillis < UInt64.size) ∧
    ∀ time : Duration, (field.2 parsed.directives).nanos ≤ time.nanos →
      time.wholeMillis < UInt64.size →
        (field.2 parsed.directives).wordMillis ≤ time.wordMillis := by
  have hlast := last?_readCalls i parsed.directives hfield
  refine ⟨⟨_, parseReport_eq hraw hi, get?_readCalls i parsed.directives hfield⟩,
    fun l elapsed line hline hformat => ?_, fun l elapsed line hline hformat => ?_,
    Duration.wordMillis_eq_iff _, fun time => Duration.wordMillis_le⟩
  · obtain ⟨e, hfields, htext⟩ := exists_entry_of_mem_parseLines hraw hi hline
    rw [hformat] at htext
    -- the entry has no time under these names, so the fields are found there
    have hperm : e.fields.entries.Perm
        (Fields.callAll (i.readCalls parsed.directives)).entries := .of_eq (by rw [hfields])
    have hnames : ∀ name ∈ timeFields.map Prod.fst, name ≠ "elapsed_us" := by decide
    have hname := hnames field.1 (List.mem_map_of_mem hfield)
    refine ⟨e.members, by rw [htext, e.read?_toJson], ?_⟩
    rw [Entry.last?_members hperm hname, hlast, Option.some_or]
  · obtain ⟨e, hfields, htext⟩ := exists_entry_of_mem_parseLines hraw hi hline
    rw [hformat] at htext
    refine ⟨e, htext, List.mem_mergeSort.mpr (List.mem_map_of_mem ?_)⟩
    rw [hfields]
    exact mem_readCalls i parsed.directives hfield

/-- A tag that is kept for an hour, and may take one millisecond more than a word holds. -/
def overlong : Include :=
  .ofTag (Utf8.encode "<a src='u' timeout='18446744073709551616ms' ttl='1h'/>") 0 54

/-- A tag that may take one millisecond. -/
def brief : Include :=
  .ofTag (Utf8.encode "<a src='u' timeout='1ms'/>") 0 26

/-- To know something of what is read it has to be read. -/
theorem exists_parse_of_map {α : Type} {f : Include → α} {a : α} (h : i.parse.map f = .ok a) :
    ∃ parsed, i.parse = .ok parsed ∧ f parsed = a := by
  cases hi : i.parse with
  | error cause =>
    rw [hi] at h
    cases h
  | ok parsed =>
    rw [hi] at h
    exact ⟨parsed, rfl, Except.ok.inj h⟩

theorem exists_parse_overlong : ∃ parsed, overlong.parse = .ok parsed ∧
    (parsed.directives.timeout.wholeMillis, parsed.directives.ttl.wholeMillis) =
      (UInt64.size, 3600000) :=
  exists_parse_of_map (by decide +kernel)

theorem exists_parse_brief : ∃ parsed, brief.parse = .ok parsed ∧
    parsed.directives.timeout.wholeMillis = 1 :=
  exists_parse_of_map (by decide +kernel)

/-- Of the two times of a tag one wraps around; the other fits and is told as it is. -/
theorem logged_times_wrap_around_overlong : overlong.raw ≠ [] ∧
    ("ttl_ms", Directives.ttl) ∈ timeFields ∧
    ∃ parsed, overlong.parse = .ok parsed ∧
      ∃ line members, line ∈ overlong.parseLines (({} : Logger).admitting .trace) 7 ∧
        Json.read? line.text = some (.object members) ∧
        Json.last? "ttl_ms" members = some (.number 3600000) := by
  have hraw : overlong.raw ≠ [] := by decide +kernel
  have hfield : ("ttl_ms", Directives.ttl) ∈ timeFields := List.mem_cons_of_mem _ List.mem_cons_self
  obtain ⟨parsed, hparsed, htimes⟩ := exists_parse_overlong
  have hkept := congrArg Prod.snd htimes
  obtain ⟨-, hread, -, hexact, -⟩ := logged_times_wrap_around hraw hparsed hfield
  obtain ⟨line, hline, -⟩ := exists_tellsRead hparsed hraw {} 7 Json.quoteChars
  have hmem : line ∈ overlong.parseLines (({} : Logger).admitting .trace) 7 := by
    rw [hline]
    exact List.mem_cons_self
  obtain ⟨members, hmembers, hfound⟩ := hread _ 7 line hmem rfl
  dsimp only at hkept
  rw [hexact.mpr (by rw [hkept]; decide), hkept] at hfound
  exact ⟨hraw, hfield, parsed, hparsed, line, members, hmem, hmembers, hfound⟩

/-- The longer of two times is logged as the smaller. -/
theorem overlong_timeout_is_logged_as_zero :
    (∃ long fields, overlong.parse = .ok long ∧
      long.directives.timeout.wholeMillis = 18446744073709551616 ∧
      overlong.parseReport = some (.debug, "esi tag parsed", fields) ∧
      fields.get? "timeout_ms" = some (.number 0)) ∧
    ∃ short fields, brief.parse = .ok short ∧ short.directives.timeout.wholeMillis = 1 ∧
      brief.parseReport = some (.debug, "esi tag parsed", fields) ∧
      fields.get? "timeout_ms" = some (.number 1) := by
  have hfield : ("timeout_ms", Directives.timeout) ∈ timeFields := List.mem_cons_self
  obtain ⟨long, hlong, htimes⟩ := exists_parse_overlong
  obtain ⟨short, hshort, hbrief⟩ := exists_parse_brief
  have htime := congrArg Prod.fst htimes
  dsimp only at htime
  have hzero := get?_readCalls overlong long.directives hfield
  have hone := get?_readCalls brief short.directives hfield
  rw [Duration.wordMillis, htime] at hzero
  rw [Duration.wordMillis, hbrief] at hone
  exact ⟨⟨long, _, hlong, htime, parseReport_eq (by decide +kernel) hlong, hzero⟩,
    short, _, hshort, hbrief, parseReport_eq (by decide +kernel) hshort, hone⟩

end Include

end EdgeInclude
