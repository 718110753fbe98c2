import EdgeInclude.Proofs.Log.Members

/-!
# What a line for people tells of its fields

Fields are kept in some order, and a line for people has their texts in an order of its own. So a line
tells what each field was given last, and nothing else about the calls that set the fields.

* **`Json.perm_of_named`**: members are known, up to their order, by what stands under each name.
* **`Entry.fieldTexts_eq_of_perm`**: the order in which fields are kept has no say in their texts.
* **`Entry.human_line_tells_last_values`**: lines of entries whose fields were given the same values.
-/

namespace EdgeInclude

namespace Json

variable {before after : List (String × Json)}

/-- Members that are the same under each name are the same in another order. -/
theorem perm_of_named (h : ∀ name, named name before = named name after) : before.Perm after := by
  classical
  refine List.perm_iff_count.mpr fun member => ?_
  have hcount (members : List (String × Json)) :
      (named member.1 members).count member = members.count member :=
    List.count_filter (by simp)
  rw [← hcount, h, hcount]

theorem mem_named {name : String} {value : Json} {members : List (String × Json)} :
    (name, value) ∈ named name members ↔ (name, value) ∈ members := by
  simp [named]

end Json

namespace Log

open Json

namespace Fields

variable {f f' : Fields} {calls calls' : List FieldCall}

/-- Fields are told by the last call of each name, up to their order. -/
theorem perm_of_last? (h : f.entries.Perm (callAll calls).entries)
    (h' : f'.entries.Perm (callAll calls').entries)
    (hlast : ∀ name, FieldCall.last? name calls = FieldCall.last? name calls') :
    f.entries.Perm f'.entries := by
  refine perm_of_named fun name => ?_
  rw [named_of_perm h, named_of_perm h', hlast]

/-- The fields are the names that calls have set, each with the value that was given last. -/
theorem mem_entries_iff (h : f.entries.Perm (callAll calls).entries) {name : String} {value : Json} :
    (name, value) ∈ f.entries ↔ FieldCall.last? name calls = some value := by
  rw [← mem_named, named_of_perm h]
  cases FieldCall.last? name calls with
  | none => simp
  | some other => simp [eq_comm]

end Fields

namespace Entry

variable {e e' : Entry} {calls calls' : List FieldCall}

/-- The texts of the fields stand in order. -/
theorem pairwise_fieldTexts (e : Entry) : e.fieldTexts.Pairwise (· ≤ ·) := by
  have htrans (s t u : String) : decide (s ≤ t) = true → decide (t ≤ u) = true →
      decide (s ≤ u) = true := by
    simpa using String.le_trans
  have htotal (s t : String) : (decide (s ≤ t) || decide (t ≤ s)) = true := by
    simpa using String.le_total s t
  have hsorted := List.pairwise_mergeSort htrans htotal
    (e.fields.entries.map fun field => fieldText field)
  simpa [fieldTexts] using hsorted

/-- So the order in which the fields are kept makes no difference. -/
theorem fieldTexts_eq_of_perm (h : e.fields.entries.Perm e'.fields.entries) :
    e.fieldTexts = e'.fieldTexts := by
  have htexts : (e.fields.entries.map fun field => fieldText field).Perm
      (e'.fields.entries.map fun field => fieldText field) := h.map _
  have hperm : e.fieldTexts.Perm e'.fieldTexts :=
    (List.mergeSort_perm _ _).trans (htexts.trans (List.mergeSort_perm _ _).symm)
  -- texts that are in order can stand in one order only
  exact hperm.eq_of_pairwise (fun _ _ _ _ => String.le_antisymm) e.pairwise_fieldTexts
    e'.pairwise_fieldTexts

/-- Each text tells the last call of a name. -/
theorem mem_fieldTexts_iff (h : e.fields.entries.Perm (Fields.callAll calls).entries)
    {text : String} : text ∈ e.fieldTexts ↔
      ∃ name value, FieldCall.last? name calls = some value ∧ text = fieldText (name, value) := by
  rw [fieldTexts, List.mem_mergeSort, List.mem_map]
  constructor
  · rintro ⟨⟨name, value⟩, hmem, rfl⟩
    exact ⟨name, value, (Fields.mem_entries_iff h).mp hmem, rfl⟩
  · rintro ⟨name, value, hlast, rfl⟩
    exact ⟨(name, value), (Fields.mem_entries_iff h).mpr hlast, rfl⟩

/-- **A line for people tells what each field was given last.** Two entries that agree in level,
component, message and time have the same line if their fields were given the same values last: the
order of the calls has no say, nor have calls that were overridden, nor the order in which the fields
are kept. The texts in the line are those of the names that were set, each with its last value, and
they stand in the order of the texts. -/
theorem human_line_tells_last_values (h : e.fields.entries.Perm (Fields.callAll calls).entries)
    (h' : e'.fields.entries.Perm (Fields.callAll calls').entries)
    (hlast : ∀ name, FieldCall.last? name calls = FieldCall.last? name calls')
    (hlevel : e.level = e'.level) (hcomponent : e.component = e'.component)
    (hmessage : e.message = e'.message) (helapsed : e.elapsed = e'.elapsed) :
    e.toHuman = e'.toHuman ∧ e.fieldTexts.Pairwise (· ≤ ·) ∧
    ∀ text, text ∈ e.fieldTexts ↔
      ∃ name value, FieldCall.last? name calls = some value ∧ text = fieldText (name, value) := by
  have htexts : e.fieldTexts = e'.fieldTexts :=
    fieldTexts_eq_of_perm (Fields.perm_of_last? h h' hlast)
  refine ⟨?_, e.pairwise_fieldTexts, fun text => mem_fieldTexts_iff h⟩
  unfold toHuman
  rw [hlevel, hcomponent, hmessage, helapsed, htexts]

/-- Calls for names of which one begins as the other, and one has the sign that divides a name from its
value. The first call is overridden. -/
def prefixedCalls : List FieldCall :=
  [.text "a" "y", .count "ab" 2, .flag "a=1" true, .text "a" "x=1"]

/-- The calls that count, in another order. -/
def swappedCalls : List FieldCall :=
  [.flag "a=1" true, .text "a" "x=1", .count "ab" 2]

/-- An entry whose fields are kept as the first calls set them. -/
def prefixed : Entry where
  level := .info
  message := "m"
  fields := Fields.callAll prefixedCalls

/-- An entry of a request whose fields are kept in the order opposite to that of the second calls. -/
def swapped : Entry where
  level := .info
  message := "m"
  requestId := some "r"
  fields := ⟨(Fields.callAll swappedCalls).entries.reverse⟩

/-- Two entries with their calls exchanged, one name of which begins with the other. -/
theorem human_line_tells_last_values_prefixed :
    prefixed.fields.entries.Perm (Fields.callAll prefixedCalls).entries ∧
      swapped.fields.entries.Perm (Fields.callAll swappedCalls).entries ∧
      (∀ name, FieldCall.last? name prefixedCalls = FieldCall.last? name swappedCalls) ∧
      prefixed.toHuman = swapped.toHuman ∧ "a=1=true" ∈ prefixed.fieldTexts := by
  have hprefixed : prefixed.fields.entries.Perm (Fields.callAll prefixedCalls).entries := .refl _
  have hswapped : swapped.fields.entries.Perm (Fields.callAll swappedCalls).entries :=
    List.reverse_perm _
  have hnames : ∀ c ∈ prefixedCalls ++ swappedCalls,
      c.name = "a" ∨ c.name = "ab" ∨ c.name = "a=1" := by decide
  have hlast (name : String) :
      FieldCall.last? name prefixedCalls = FieldCall.last? name swappedCalls := by
    by_cases hname : name = "a" ∨ name = "ab" ∨ name = "a=1"
    · rcases hname with rfl | rfl | rfl <;> rfl
    · have hother : ∀ c ∈ prefixedCalls ++ swappedCalls, c.name ≠ name := by
        rintro c hc rfl
        exact hname (hnames c hc)
      rw [List.forall_mem_append] at hother
      rw [FieldCall.last?_eq_none hother.1, FieldCall.last?_eq_none hother.2]
  obtain ⟨hline, -, htexts⟩ :=
    human_line_tells_last_values hprefixed hswapped hlast rfl rfl rfl rfl
  exact ⟨hprefixed, hswapped, hlast, hline, (htexts _).mpr ⟨"a=1", .bool true, rfl, rfl⟩⟩

end Entry

end Log

end EdgeInclude
