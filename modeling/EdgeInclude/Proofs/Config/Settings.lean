import Mathlib.Data.List.Nodup
import EdgeInclude.Config.Package
import EdgeInclude.Proofs.Duration.RoundTrip
import EdgeInclude.Proofs.Text.Utf8

/-!
# Settings and their texts

A configuration is written as the texts of its settings, each under its name, and leaves out those that
are not set. Each text is read as what it was written for, whatever settings are given already.

* **`Draft.give`**: a setting as a configuration has it. **`Draft.set_text`**: its text is read as that.
* **`finish_give`**: all settings of a configuration give it back.
* **`Draft.has_takeMember`**: a member gives no setting but its own.
* **`loadBy_written`**: a file is read in the format that its name asks for.
-/

namespace EdgeInclude.Config

/-- Gives a setting its value in a configuration, unless it is left out there. -/
def Draft.give (c : Config) (d : Draft) : Key → Draft
  | .defaultTimeout => { d with defaultTimeout := some c.defaultTimeout }
  | .maxTimeout => { d with maxTimeout := (c.maxTimeout.map some).or d.maxTimeout }
  | .batchDeadline => { d with batchDeadline := (c.batchDeadline.map some).or d.batchDeadline }
  | .logFormat => { d with logFormat := some c.logFormat }
  | .logLevel => { d with logLevel := some c.logLevel }

variable {c : Config} {d d' : Draft} {key key' : Key} {text : String}
variable {settings : List (Key × String)} {member : String × String}

/-! ## Names

Each setting has a name of its own, and the name says which it is. -/

theorem Key.ofName?_name (key : Key) : ofName? key.name = some key := by
  cases key <;> decide

/-- No two settings have one name. -/
theorem Key.name_injective : Function.Injective name := by
  intro key key' h
  have hread := ofName?_name key
  rw [h, ofName?_name key'] at hread
  exact (Option.some.inj hread).symm

/-- A name that is known is the name of its key. -/
theorem Key.eq_name_of_ofName? {name : String} (h : ofName? name = some key) : name = key.name := by
  have hfound := List.find?_some h
  exact (of_decide_eq_true hfound).symm

/-- Settings that differ differ by name. -/
theorem nodup_names (hkeys : (settings.map Prod.fst).Nodup) :
    ((settings.map named).map Prod.fst).Nodup := by
  have h := List.Nodup.map Key.name_injective hkeys
  rwa [List.map_map] at h ⊢

/-- A configuration has each setting once. -/
theorem nodup_keys (c : Config) : (c.settings.map Prod.fst).Nodup := by
  cases hmax : c.maxTimeout <;> cases hdeadline : c.batchDeadline <;>
    simp [Config.settings, Key.all, text?, hmax, hdeadline]

/-! ## Texts

A text is read for one setting and leaves the others as they are. -/

/-- A result that was changed was there before. -/
theorem map_eq_ok {α β : Type} {x : Except ReadError α} {f : α → β} {b : β}
    (h : x.map f = .ok b) : ∃ a, x = .ok a ∧ f a = b := by
  cases x with
  | error e => cases h
  | ok a => exact ⟨a, rfl, Except.ok.inj h⟩

theorem Draft.readDuration_print (value : Duration) : readDuration value.print = .ok value := by
  rw [readDuration, Duration.parse_print]

/-- The text of a setting is read as what it was written for. -/
theorem Draft.set_text (d : Draft) (h : c.text? key = some text) :
    d.set key text = .ok (d.give c key) := by
  cases key with
  | defaultTimeout =>
    cases h
    rw [set, readDuration_print]
    rfl
  | maxTimeout =>
    obtain ⟨value, hvalue, rfl⟩ := Option.map_eq_some_iff.mp h
    rw [set, readDuration_print, give, hvalue]
    rfl
  | batchDeadline =>
    obtain ⟨value, hvalue, rfl⟩ := Option.map_eq_some_iff.mp h
    rw [set, readDuration_print, give, hvalue]
    rfl
  | logFormat =>
    cases h
    simp only [set, Log.Format.ofName?_name, give]
  | logLevel =>
    cases h
    simp only [set, Log.Level.ofName?_name, give]

/-- A setting without a text is left as it is. -/
theorem Draft.give_of_text_none (d : Draft) (h : c.text? key = none) : d.give c key = d := by
  cases key with
  | defaultTimeout | logFormat | logLevel => cases h
  | maxTimeout => rw [give, Option.map_eq_none_iff.mp h]; rfl
  | batchDeadline => rw [give, Option.map_eq_none_iff.mp h]; rfl

/-- A configuration is what all its settings give. -/
theorem finish_give (c : Config) : (Key.all.foldl (Draft.give c) {}).finish = c := by
  obtain ⟨defaultTimeout, maxTimeout, batchDeadline, logFormat, logLevel⟩ := c
  cases maxTimeout <;> cases batchDeadline <;> rfl

/-- A setting that is given changes nothing about the other settings. -/
theorem Draft.has_set (h : d.set key text = .ok d') (hne : key' ≠ key) :
    d'.has key' = d.has key' := by
  cases key with
  | defaultTimeout | maxTimeout | batchDeadline =>
    obtain ⟨value, -, rfl⟩ := map_eq_ok h
    cases key' <;> first | rfl | exact absurd rfl hne
  | logFormat | logLevel =>
    unfold set at h
    simp only at h
    split at h
    · cases h
      cases key' <;> first | rfl | exact absurd rfl hne
    · cases h

/-- A member gives no setting but the one that it names. -/
theorem Draft.has_takeMember (h : d.takeMember member = .ok d') (hne : member.1 ≠ key.name) :
    d'.has key = d.has key := by
  unfold takeMember at h
  split at h
  · cases h
    rfl
  · rename_i key' hname
    split at h
    · cases h
    · refine has_set h ?_
      rintro rfl
      exact hne (Key.eq_name_of_ofName? hname)

/-! ## Files

What is read of a text is read of a file that holds the text. -/

/-- A file is read in the format that its name asks for. -/
theorem loadBy_written {readJson readToml : String → Except ReadError Config} {json toml : String}
    (hjson : readJson json = .ok c) (htoml : readToml toml = .ok c) (name : String) :
    loadBy readJson readToml name (some (Utf8.encode
      (if jsonSuffix.toList.isSuffixOf name.toList then json else toml))) = .ok c := by
  have hdecode (text : String) : (some (Utf8.encode text)).bind Utf8.decode? = some text :=
    Utf8.decode?_eq_some_iff.mpr rfl
  rw [loadBy, hdecode]
  by_cases hname : jsonSuffix.toList.isSuffixOf name.toList = true
  · simp only [if_pos hname, hjson]
  · simp only [if_neg hname, htoml]

end EdgeInclude.Config
