import EdgeInclude.Include.Edit
import EdgeInclude.Proofs.Include.Taking

/-!
# What is left of the tags of an include

An include that is given one tag after another, and is read now and then, holds what the last tag asks
for that could be read. Tags that could not be read in between leave no trace.

* **`Include.Reads`**: all that reading an include can do. **`reads_edit`**.
* **`Include.readings`**: the tags that are read in the course of edits.
* **`Include.LastRead`**: what the last of them asks for that can be read. **`lastRead_editAll`**.
* **`reading_is_atomic`**: all of this in one statement, for any include.
-/

namespace EdgeInclude

namespace Include

open Edit

variable {i i' : Include} {e : TagError}

/-! ## One reading

Reading either leaves an include alone or replaces all its directives at once. -/

/-- All that reading an include can do. -/
inductive Reads (i : Include) : Include × Option TagError → Prop
  | empty (hraw : i.raw = []) : Reads i (i, none)
  | failed {e : TagError} (hraw : i.raw ≠ []) (h : Directives.ofTag i.raw = .error e) :
      Reads i (i, some e)
  | done {d : Directives} (hraw : i.raw ≠ []) (h : Directives.ofTag i.raw = .ok d) :
      Reads i ({ i with directives := d }, none)

theorem edit_parse_of_ok (h : i.parse = .ok i') : i.edit .parse = (i', none) := by
  unfold edit
  rw [h]

theorem edit_parse_of_error (h : i.parse = .error e) : i.edit .parse = (i, some e) := by
  unfold edit
  rw [h]

/-- A reading does one of the three. -/
theorem reads_edit (i : Include) : Reads i (i.edit .parse) := by
  by_cases hraw : i.raw = []
  · rw [edit_parse_of_ok (parse_of_nil hraw)]
    exact .empty hraw
  · cases htag : Directives.ofTag i.raw with
    | error e =>
      rw [edit_parse_of_error ((parse_eq_error_iff hraw).mpr htag)]
      exact .failed hraw htag
    | ok d =>
      rw [edit_parse_of_ok ((parse_eq_ok_iff hraw).mpr ⟨d, htag, rfl⟩)]
      exact .done hraw htag

theorem raw_edit_parse (i : Include) : (i.edit .parse).1.raw = i.raw := by
  have h := reads_edit i
  generalize i.edit .parse = r at h ⊢
  cases h <;> rfl

/-- No edit moves the include. -/
theorem fragment_edit (i : Include) (e : Edit) : (i.edit e).1.fragment = i.fragment := by
  cases e with
  | setRaw raw => rfl
  | parse =>
    have h := reads_edit i
    generalize i.edit .parse = r at h ⊢
    cases h <;> rfl

/-- Reading again what was just read changes nothing, and comes to the same. -/
theorem edit_parse_again (i : Include) : (i.edit .parse).1.edit .parse = i.edit .parse := by
  cases h : i.parse with
  | error e =>
    rw [edit_parse_of_error h]
    exact edit_parse_of_error h
  | ok i' =>
    rw [edit_parse_of_ok h]
    exact edit_parse_of_ok (parse_of_parse h)

/-! ## Many edits

The directives are those of the last tag that was read with success; tags that were put in without
being read leave no trace. -/

/-- The tag after edits. -/
def rawAfter (raw : Bytes) : List Edit → Bytes
  | [] => raw
  | .setRaw raw :: es => rawAfter raw es
  | .parse :: es => rawAfter raw es

/-- The tags that are read in the course of edits, in order. -/
def readings (raw : Bytes) : List Edit → List Bytes
  | [] => []
  | .setRaw raw :: es => readings raw es
  | .parse :: es => raw :: readings raw es

/-- A tag that is not empty and asks for these directives. -/
def AsksFor (raw : Bytes) (d : Directives) : Prop :=
  raw ≠ [] ∧ Directives.ofTag raw = .ok d

/-- Of tags, what the last one asks for that asks for anything; if there is none, what was there
before. -/
inductive LastRead (before : Directives) : List Bytes → Directives → Prop
  | none {raws : List Bytes} (h : ∀ raw ∈ raws, ∀ d, ¬ AsksFor raw d) : LastRead before raws before
  | last (earlier : List Bytes) {later : List Bytes} {raw : Bytes} {d : Directives} (h : AsksFor raw d)
      (hlater : ∀ raw' ∈ later, ∀ d, ¬ AsksFor raw' d) :
      LastRead before (earlier ++ raw :: later) d

namespace LastRead

variable {d d' : Directives} {raw : Bytes} {raws : List Bytes}

/-- An earlier tag that asks for nothing makes no difference. -/
theorem cons_of_not (h : LastRead d raws d') (hraw : ∀ d, ¬ AsksFor raw d) :
    LastRead d (raw :: raws) d' := by
  cases h with
  | none h => exact .none (List.forall_mem_cons.mpr ⟨hraw, h⟩)
  | last earlier h hlater => exact .last (raw :: earlier) h hlater

/-- What was there before an earlier tag makes no difference if that one asks for something. -/
theorem cons_of_asksFor (hraw : AsksFor raw d) (h : LastRead d raws d') (d₀ : Directives) :
    LastRead d₀ (raw :: raws) d' := by
  cases h with
  | none h => exact .last [] hraw h
  | last earlier h hlater => exact .last (raw :: earlier) h hlater

end LastRead

/-- The tag is the one that was put in last. -/
theorem raw_editAll (i : Include) (es : List Edit) : (i.editAll es).raw = rawAfter i.raw es := by
  induction es generalizing i with
  | nil => rfl
  | cons e es ih =>
    rw [editAll, ih]
    cases e with
    | setRaw raw => rfl
    | parse =>
      rw [raw_edit_parse]
      rfl

/-- No edits move the include. -/
theorem fragment_editAll (i : Include) (es : List Edit) :
    (i.editAll es).fragment = i.fragment := by
  induction es generalizing i with
  | nil => rfl
  | cons e es ih => rw [editAll, ih, fragment_edit]

/-- **After any edits an include holds what the last tag asks for that could be read.** -/
theorem lastRead_editAll (i : Include) (es : List Edit) :
    LastRead i.directives (readings i.raw es) (i.editAll es).directives := by
  induction es generalizing i with
  | nil => exact .none fun _ h => absurd h List.not_mem_nil
  | cons e es ih =>
    rw [editAll]
    cases e with
    | setRaw raw => exact ih { i with raw }
    | parse =>
      have hrest := ih (i.edit .parse).1
      rw [raw_edit_parse] at hrest
      rw [readings]
      have hreads := reads_edit i
      generalize i.edit .parse = r at hreads hrest ⊢
      -- a reading counts if it succeeds; the later ones come after it
      cases hreads with
      | empty hraw => exact hrest.cons_of_not fun d hd => hd.1 hraw
      | failed hraw h =>
        refine hrest.cons_of_not fun d hd => ?_
        rw [hd.2] at h
        cases h
      | done hraw h => exact .cons_of_asksFor ⟨hraw, h⟩ hrest i.directives

/-- **Reading is atomic and leaves nothing stale.** A tag that cannot be read leaves its include as it
was, and so does an empty one. Reading a tag leaves the tag itself and its place in the page alone, and
what is read then depends on the tag only. So after any edits an include holds what the last tag asks
for that could be read, and reading it again is no change. -/
theorem reading_is_atomic (i : Include) :
    (∀ e, i.parse = .error e → i.edit .parse = (i, some e)) ∧
    (i.raw = [] → i.edit .parse = (i, none)) ∧
    (∀ i', i.parse = .ok i' →
      i.edit .parse = (i', none) ∧ i'.raw = i.raw ∧ i'.fragment = i.fragment ∧
        (i.raw ≠ [] → ∀ j : Include, j.raw = i.raw →
          j.parse = .ok { j with directives := i'.directives })) ∧
    (∀ es, (i.editAll es).raw = rawAfter i.raw es ∧ (i.editAll es).fragment = i.fragment ∧
      LastRead i.directives (readings i.raw es) (i.editAll es).directives) ∧
    ∀ es, (i.editAll es).edit .parse = ((i.editAll es).edit .parse).1.edit .parse := by
  refine ⟨fun e h => edit_parse_of_error h, fun hraw => edit_parse_of_ok (parse_of_nil hraw),
    fun i' h => ?_,
    fun es => ⟨raw_editAll i es, fragment_editAll i es, lastRead_editAll i es⟩,
    fun es => (edit_parse_again (i.editAll es)).symm⟩
  have hsame := eq_of_parse h
  refine ⟨edit_parse_of_ok h, by rw [hsame], by rw [hsame], fun hne j hj => ?_⟩
  obtain ⟨d, htag, rfl⟩ := (parse_eq_ok_iff hne).mp h
  exact (parse_eq_ok_iff (hj ▸ hne)).mpr ⟨d, hj ▸ htag, rfl⟩

/-- An include with a tag, and two more tags it is given: one that names no source, and an empty one. -/
def retagged : Include × List Edit :=
  (ofTag (Utf8.encode "<a src='u' ttl='1s'/>") 0 21,
    [.parse, .setRaw (Utf8.encode "<a ttl='2s'/>"), .parse, .setRaw [], .parse])

/-- A tag that is read, one that cannot be, and an empty one. -/
theorem reading_is_atomic_retagged :
    readings retagged.1.raw retagged.2 =
        [Utf8.encode "<a src='u' ttl='1s'/>", Utf8.encode "<a ttl='2s'/>", []] ∧
      LastRead {} (readings retagged.1.raw retagged.2) (retagged.1.editAll retagged.2).directives ∧
      (retagged.1.editAll retagged.2).raw = [] ∧
      (retagged.1.editAll retagged.2).directives.ttl = .ofSeconds 1 := by
  obtain ⟨-, -, -, hedits, -⟩ := reading_is_atomic retagged.1
  obtain ⟨hraw, -, hlast⟩ := hedits retagged.2
  exact ⟨by decide, hlast, hraw, by decide +kernel⟩

end Include

end EdgeInclude
