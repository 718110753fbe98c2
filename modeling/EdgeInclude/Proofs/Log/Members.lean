import Mathlib.Data.List.Induction
import EdgeInclude.Log.Logger
import EdgeInclude.Proofs.Json.Reading

/-!
# What a reader finds in a structured line

A structured line holds what its entry says of itself, and the fields that a caller gave, in one object.
A field whose name the entry uses for itself makes a second member of that name, and a reader keeps the
later of two members.

* **`FieldCall`**: what a caller can ask of the fields. **`Fields.named_callAll`**: of several calls with
  one name the last counts.
* **`Entry.named_members`**: the members of a name, those of the entry and those of the fields.
* **`Entry.reader_finds_later_member`**: how often a name stands in the line, and what a reader finds.
-/

namespace EdgeInclude

namespace Json

variable {name : String} {members before after : List (String × Json)}

/-- The members of a name. -/
def named (name : String) (members : List (String × Json)) : List (String × Json) :=
  members.filter fun member => member.1 = name

/-- What a reader finds under a name: the last member that has it. -/
def last? (name : String) (members : List (String × Json)) : Option Json :=
  (named name members).getLast?.map (·.2)

theorem named_append :
    named name (before ++ after) = named name before ++ named name after :=
  List.filter_append ..

theorem named_nil (name : String) : named name [] = [] :=
  rfl

/-- The first member counts if it has the name. -/
theorem named_cons (name : String) (member : String × Json) (members : List (String × Json)) :
    named name (member :: members) =
      (if name = member.1 then [member] else []) ++ named name members := by
  unfold named
  by_cases hname : name = member.1
  · simp [hname]
  · simp [hname, Ne.symm hname]

/-- A member that may be missing counts if it is there and has the name. -/
theorem named_optional {α : Type} (name key : String) (o : Option α) (value : α → Json) :
    named name (o.map fun a => (key, value a)).toList =
      if name = key then (o.map fun a => (key, value a)).toList else [] := by
  cases o with
  | none => simp [named]
  | some a =>
    rw [Option.map_some, Option.toList_some, named_cons]
    exact List.append_nil _

theorem count_names (name : String) (members : List (String × Json)) :
    (members.map (·.1)).count name = (named name members).length := by
  rw [List.count, List.countP_map, List.countP_eq_length_filter, named]
  congr 1

end Json

namespace Log

open Json

/-! ## Fields

A call sets one field, over whatever had its name before. So of the calls the last one of each name
counts, in whatever order the fields are kept. -/

/-- What a caller can ask of the fields of an entry. -/
inductive FieldCall where
  | text (name value : String)
  | count (name : String) (value : Nat)
  | flag (name : String) (value : Bool)
  | millis (name : String) (value : Duration)

namespace FieldCall

/-- The name of the field. -/
def name : FieldCall → String
  | text name _ => name
  | count name _ => name
  | flag name _ => name
  | millis name _ => name

/-- The value that is given to the field. -/
def value : FieldCall → Json
  | text _ value => .string value
  | count _ value => .number value
  | flag _ value => .bool value
  | millis _ value => .number (value.wholeMillis % UInt64.size : Nat)

/-- Does what is asked. -/
def apply (f : Fields) : FieldCall → Fields
  | text name value => f.text name value
  | count name value => f.count name value
  | flag name value => f.flag name value
  | millis name value => f.millis name value

theorem apply_eq_set (f : Fields) (c : FieldCall) : apply f c = f.set c.name c.value := by
  cases c <;> rfl

/-- The value that the last call with a name gives. -/
def last? (name : String) (calls : List FieldCall) : Option Json :=
  (calls.filter fun c => c.name = name).getLast?.map value

/-- The last call counts if it has the name. -/
theorem last?_concat (name : String) (calls : List FieldCall) (c : FieldCall) :
    last? name (calls ++ [c]) = if c.name = name then some c.value else last? name calls := by
  unfold last?
  rw [List.filter_append]
  by_cases hname : c.name = name <;> simp [hname]

/-- No call with a name gives no value. -/
theorem last?_eq_none {name : String} {calls : List FieldCall} (h : ∀ c ∈ calls, c.name ≠ name) :
    last? name calls = none := by
  unfold last?
  rw [List.filter_eq_nil_iff.mpr fun c hc => by simpa using h c hc]
  rfl

end FieldCall

namespace Fields

variable {name : String} {calls : List FieldCall}

/-- The fields after calls, of which there were none at first. -/
def callAll (calls : List FieldCall) : Fields :=
  calls.foldl FieldCall.apply {}

theorem callAll_concat (calls : List FieldCall) (c : FieldCall) :
    callAll (calls ++ [c]) = (callAll calls).set c.name c.value := by
  rw [callAll, List.foldl_append, List.foldl_cons, List.foldl_nil, FieldCall.apply_eq_set]
  rfl

/-- Setting a field leaves those of other names alone. -/
theorem named_set (f : Fields) (name other : String) (value : Json) :
    named other (f.set name value).entries =
      if name = other then [(other, value)] else named other f.entries := by
  rw [set, named_append]
  unfold named
  rw [List.filter_filter]
  by_cases hname : name = other
  · subst hname
    -- the entries of the name were taken out
    simp
  · have hkept : f.entries.filter (fun entry => decide (entry.1 = other) &&
        decide (entry.1 ≠ name)) = f.entries.filter fun entry => entry.1 = other := by
      refine List.filter_congr fun entry _ => ?_
      by_cases hentry : entry.1 = other
      · simp [hentry, Ne.symm hname]
      · simp [hentry]
    rw [hkept]
    simp [hname]

/-- **Of several calls with one name the last counts**, and it makes the only field of that name. -/
theorem named_callAll (name : String) (calls : List FieldCall) :
    named name (callAll calls).entries =
      ((FieldCall.last? name calls).map fun value => (name, value)).toList := by
  induction calls using List.reverseRecOn with
  | nil => rfl
  | append_singleton calls c ih =>
    rw [callAll_concat, named_set, FieldCall.last?_concat, ih]
    by_cases hname : c.name = name <;> simp [hname]

/-- A field holds what the last call with its name gave. -/
theorem get?_callAll (name : String) (calls : List FieldCall) :
    (callAll calls).get? name = FieldCall.last? name calls := by
  have hhead : (callAll calls).get? name = (named name (callAll calls).entries).head?.map (·.2) := by
    rw [named, List.head?_filter]
    rfl
  rw [hhead, named_callAll]
  cases FieldCall.last? name calls <;> rfl

/-- The fields of a name do not depend on the order in which the fields are kept. -/
theorem named_of_perm {f : Fields} (h : f.entries.Perm (callAll calls).entries) (name : String) :
    named name f.entries =
      ((FieldCall.last? name calls).map fun value => (name, value)).toList := by
  -- there is one at most, so the order of the fields has no say
  have hperm : (named name f.entries).Perm (named name (callAll calls).entries) := h.filter _
  rw [named_callAll] at hperm
  cases hlast : FieldCall.last? name calls with
  | none =>
    rw [hlast] at hperm
    exact hperm.eq_nil
  | some value =>
    rw [hlast] at hperm
    exact hperm.eq_singleton

end Fields

/-! ## Entries

An entry writes what it says of itself and the fields side by side and compares no names, so a field
can have a name of the entry's own. -/

namespace Entry

variable {e : Entry} {calls : List FieldCall} {name : String}

/-- The names that an entry uses for what it says of itself. -/
def ownNames : List String :=
  ["level", "message", "request_id", "component", "elapsed_us"]

/-- What an entry says of itself under a name. -/
def own? (e : Entry) (name : String) : Option Json :=
  match name with
  | "level" => some (.string e.level.name)
  | "message" => some (.string e.message)
  | "request_id" => e.requestId.map .string
  | "component" => e.component.map .string
  | "elapsed_us" => e.elapsed.map fun micros => .number micros
  | _ => none

theorem read?_toJson (e : Entry) : Json.read? e.toJson = some (.object e.members) :=
  Json.read?_print (.object e.members)

/-- An entry says nothing of itself under other names. -/
theorem own?_eq_none (e : Entry) (h : name ∉ ownNames) : e.own? name = none := by
  unfold own?
  split
  iterate 5 exact absurd (by decide) h
  · rfl

/-- The members of a name. The fields stand behind what the entry says of itself, except for the time,
which stands behind them. -/
theorem named_members (e : Entry) (name : String) :
    named name e.members =
      if name = "elapsed_us" then
        named name e.fields.entries ++ ((e.own? name).map fun value => (name, value)).toList
      else ((e.own? name).map fun value => (name, value)).toList ++ named name e.fields.entries := by
  simp only [members, named_append, named_cons, named_nil, named_optional]
  by_cases hname : name ∈ ownNames
  · obtain rfl | rfl | rfl | rfl | rfl : name = "level" ∨ name = "message" ∨ name = "request_id" ∨
        name = "component" ∨ name = "elapsed_us" := by simpa [ownNames] using hname
    iterate 5 simp [own?, Function.comp_def]
  · -- all members of another name are fields
    rw [own?_eq_none e hname]
    simp only [ownNames, List.mem_cons, List.not_mem_nil, or_false, not_or] at hname
    simp [hname]

/-- A name stands in the line for the entry and for the field, whichever has it. -/
theorem count_members (h : e.fields.entries.Perm (Fields.callAll calls).entries) (name : String) :
    (e.members.map (·.1)).count name =
      (e.own? name).toList.length + (FieldCall.last? name calls).toList.length := by
  rw [count_names, named_members, Fields.named_of_perm h]
  cases e.own? name <;> cases FieldCall.last? name calls <;> split <;> rfl

/-- Behind what the entry says of itself a field is found in its place. -/
theorem last?_members (h : e.fields.entries.Perm (Fields.callAll calls).entries)
    (hname : name ≠ "elapsed_us") :
    Json.last? name e.members = (FieldCall.last? name calls).or (e.own? name) := by
  rw [Json.last?, named_members, Fields.named_of_perm h, if_neg hname]
  cases e.own? name <;> cases FieldCall.last? name calls <;> rfl

/-- The time stands behind the fields, so a reader finds what the entry says. -/
theorem last?_elapsed (h : e.fields.entries.Perm (Fields.callAll calls).entries) :
    Json.last? "elapsed_us" e.members =
      (e.own? "elapsed_us").or (FieldCall.last? "elapsed_us" calls) := by
  rw [Json.last?, named_members, Fields.named_of_perm h, if_pos rfl]
  cases e.own? "elapsed_us" <;> cases FieldCall.last? "elapsed_us" calls <;> rfl

/-- **A reader of a structured line finds the later member of a name**, whatever the order in which the
fields are kept. A name stands in the line once for what the entry says of itself, if it does, and once
for the calls that set a field of the name, if there are any. Of level, message, request and component
the field is found in place of what the entry says; of the time, what the entry says. So if no field has
a name that the entry uses for itself, each of these stands in the line at most once, and what the entry
says is found there. -/
theorem reader_finds_later_member (h : e.fields.entries.Perm (Fields.callAll calls).entries) :
    Json.read? e.toJson = some (.object e.members) ∧
    (∀ name, (e.members.map (·.1)).count name =
      (e.own? name).toList.length + (FieldCall.last? name calls).toList.length) ∧
    (∀ name, name ≠ "elapsed_us" →
      Json.last? name e.members = (FieldCall.last? name calls).or (e.own? name)) ∧
    Json.last? "elapsed_us" e.members =
      (e.own? "elapsed_us").or (FieldCall.last? "elapsed_us" calls) ∧
    ((∀ c ∈ calls, c.name ∉ ownNames) → ∀ name ∈ ownNames,
      (e.members.map (·.1)).count name ≤ 1 ∧ Json.last? name e.members = e.own? name) := by
  refine ⟨e.read?_toJson, count_members h, fun name hname => last?_members h hname,
    last?_elapsed h, fun hcalls name hname => ?_⟩
  have hnone : FieldCall.last? name calls = none :=
    FieldCall.last?_eq_none fun c hc heq => hcalls c hc (heq ▸ hname)
  constructor
  · rw [count_members h, hnone]
    cases e.own? name <;> simp
  · by_cases helapsed : name = "elapsed_us"
    · subst helapsed
      rw [last?_elapsed h, hnone, Option.or_none]
    · rw [last?_members h helapsed, hnone, Option.none_or]

/-- An entry whose fields are kept in another order than that in which they were set. -/
def reordered : Entry where
  level := .warn
  message := "fetch failed"
  fields := ⟨[("tag", .string "b"), ("slots", .number 2)]⟩
  elapsed := some 7

/-- Two fields of three calls, kept in another order. -/
theorem reader_finds_later_member_reordered :
    reordered.fields.entries.Perm
        (Fields.callAll [.text "tag" "a", .count "slots" 2, .text "tag" "b"]).entries ∧
      Json.read? reordered.toJson = some (.object reordered.members) ∧
      (reordered.members.map (·.1)).count "tag" = 1 ∧
      Json.last? "tag" reordered.members = some (.string "b") ∧
      Json.last? "level" reordered.members = some (.string "warn") ∧
      Json.last? "component" reordered.members = none := by
  have hperm : reordered.fields.entries.Perm
      (Fields.callAll [.text "tag" "a", .count "slots" 2, .text "tag" "b"]).entries :=
    List.Perm.swap _ _ _
  obtain ⟨hread, hcount, hfound, -, -⟩ := reader_finds_later_member hperm
  exact ⟨hperm, hread, hcount "tag", hfound "tag" (by decide), hfound "level" (by decide),
    hfound "component" (by decide)⟩

end Entry

/-- A logger of the page reader. -/
def parserLogger : Logger :=
  { requestId := some "req-1", component := some "parser" }

/-- A field that has the name of the level makes a second member of that name, and what is found there is
the field. -/
theorem level_field_is_found_for_level :
    let e := parserLogger.entry .info "parsed" (Fields.callAll [.text "level" "error"]) 7
    parserLogger.line? .info "parsed" (Fields.callAll [.text "level" "error"]) 7 =
        some ⟨.info, e.toJson⟩ ∧
      ∃ members, Json.read? e.toJson = some (.object members) ∧
        (members.map (·.1)).count "level" = 2 ∧
        e.own? "level" = some (.string "info") ∧
        Json.last? "level" members = some (.string "error") :=
  ⟨rfl, _, Entry.read?_toJson _, rfl, rfl, rfl⟩

end Log

end EdgeInclude
