import EdgeInclude.Proofs.Include.Taking

/-!
# Which tags are read

Attributes are taken in the order in which they stand in a tag, and each is acceptable or not whatever
stands around it. A tag is read if all of them are and one of them names a source; if not, the first one
that is not acceptable gives the error. A build that checks its sums breaks down at a duration whose
reading does, if it stands before the first that is not acceptable.

* **`Directives.Acceptable`**, **`Directives.Objection`**: what can be taken, and what is said of the
  rest.
* **`takeAll_of_objection`**: the first objection is raised, and no other.
* **`finish_eq_none_iff`**: the sources are complete if one was named.
* **`BreaksDownIn`**: the scans with such a duration. **`takeAllChecked_eq_none_iff`**.
* **`verdict_on_tag`**: when a tag is read, and the error if it is not, in either build.
-/

namespace EdgeInclude

/-! ## A source was named

A builder has sources to build exactly when an address was given, so the check at the end of a tag
asks for an attribute `src`. -/

namespace Sources

/-- Changing a source adds none. -/
theorem length_items_update (s : Sources) (index : Nat) (g : Source → Source) :
    (s.update index g).items.length = (s.ensure index).items.length := by
  unfold update
  simp only
  split
  · exact List.length_modify ..
  · rfl

/-- Once an index is asked for there is a source. -/
theorem items_ensure_ne_nil {s : Sources} (hs : s.items = [] → s.positions = []) (index : Nat) :
    (s.ensure index).items ≠ [] := by
  unfold ensure
  split
  · rename_i position hlookup
    intro hnil
    rw [hs hnil] at hlookup
    cases hlookup
  · simp

/-- Once a source was changed there is one. -/
theorem items_update_ne_nil {s : Sources} (hs : s.items = [] → s.positions = []) (index : Nat)
    (g : Source → Source) : (s.update index g).items ≠ [] := by
  intro hnil
  refine items_ensure_ne_nil hs index (List.length_eq_zero_iff.mp ?_)
  rw [← length_items_update, hnil]
  rfl

end Sources

namespace SourceBuilder

variable {b b' : SourceBuilder} {c : Call} {cs : List Call}

/-- The call names a source. -/
def Call.isSrc : Call → Bool
  | src _ => true
  | key _ => false

/-- A call leaves a source behind, and counts if it gives an address. -/
theorem call_spec (hb : b.sources.items = [] → b.sources.positions = []) (h : b.call c = .ok b') :
    b'.sources.items ≠ [] ∧ b'.srcCount = b.srcCount + [c].countP Call.isSrc := by
  cases c with
  | src text =>
    simp only [call, addSrc] at h
    split at h
    · cases h
    · cases h
      exact ⟨Sources.items_update_ne_nil hb _ _, rfl⟩
  | key text =>
    simp only [call, addKey] at h
    split at h
    · cases h
    · cases h
      exact ⟨Sources.items_update_ne_nil hb _ _, rfl⟩

/-- Calls leave a source behind if there are any, and count if they give addresses. -/
theorem callAll_spec (hb : b.sources.items = [] → b.sources.positions = [])
    (h : b.callAll cs = .ok b') : (cs ≠ [] → b'.sources.items ≠ []) ∧
      b'.srcCount = b.srcCount + cs.countP Call.isSrc := by
  induction cs generalizing b with
  | nil =>
    cases h
    exact ⟨fun hne => absurd rfl hne, rfl⟩
  | cons c cs ih =>
    rw [callAll] at h
    split at h
    · cases h
    · rename_i b₁ hcall
      obtain ⟨hitems, hcount⟩ := call_spec hb hcall
      obtain ⟨hitems', hcount'⟩ := ih (fun hnil => absurd hnil hitems) h
      refine ⟨fun _ => ?_, ?_⟩
      · cases cs with
        | nil =>
          cases h
          exact hitems
        | cons c' cs => exact hitems' (List.cons_ne_nil c' cs)
      · rw [hcount', hcount, List.countP_cons, List.countP_cons, List.countP_nil]
        omega

/-- Nothing is built exactly when no call gives an address. -/
theorem finish_eq_none_iff (h : callAll {} cs = .ok b) :
    b.finish = none ↔ ∀ c ∈ cs, c.isSrc = false := by
  obtain ⟨hitems, hcount⟩ := callAll_spec (fun _ => rfl) h
  have hnone : b.srcCount = 0 ↔ ∀ c ∈ cs, c.isSrc = false := by
    rw [hcount]
    simp
  unfold finish
  split
  · rename_i hempty
    refine iff_of_true rfl ?_
    rcases hempty with hnil | hzero
    · by_cases hcs : cs = []
      · simp [hcs]
      · exact absurd hnil (hitems hcs)
    · exact hnone.mp hzero
  · rename_i hfull
    rw [← hnone]
    simp only [reduceCtorEq, false_iff]
    exact fun hzero => hfull (.inr hzero)

end SourceBuilder

/-- No call gives an address exactly when no attribute is named `src`. -/
theorem Attribute.forall_calls_iff {as : List Attribute} :
    (∀ c ∈ calls as, c.isSrc = false) ↔ ∀ a ∈ as, a.name ≠ "src" := by
  constructor
  · intro h a ha hname
    cases h _ (mem_calls_iff.mpr ⟨a, ha, .inl ⟨hname, rfl⟩⟩)
  · intro h c hc
    obtain ⟨a, ha, ⟨hname, -⟩ | ⟨-, rfl⟩⟩ := mem_calls_iff.mp hc
    · exact absurd hname (h a ha)
    · rfl

namespace Directives

/-! ## Items of a scan

An item is acceptable if it is an attribute with a value of the form its name asks for. What is
wrong with any other item is its objection, and a draft finds it whatever it holds already. -/

/-- The item can be taken: it is text, and its value is a template or a duration if it has to be. -/
def Acceptable : Except ScanError Attribute → Prop
  | .error _ => False
  | .ok a =>
    (a.NeedsTemplate → ∃ t, Template.compile a.value = .ok t) ∧
      (a.NeedsDuration → ∃ d, Duration.parse a.value = .ok d)

/-- What is said of an item that cannot be taken, in a tag with the given text. -/
inductive Objection (raw : String) : Except ScanError Attribute → TagError → Prop
  | format (cause : ScanError) : Objection raw (.error cause) (.format raw cause.message)
  | template {a : Attribute} {cause : Template.CompileError} (hneeds : a.NeedsTemplate)
      (h : Template.compile a.value = .error cause) :
      Objection raw (.ok a) (.template a.name a.value raw cause)
  | duration {a : Attribute} {cause : Duration.ReadError} (hneeds : a.NeedsDuration)
      (h : Duration.parse a.value = .error cause) :
      Objection raw (.ok a) (.duration a.name a.value raw cause)

variable {raw : String} {item : Except ScanError Attribute} {e e' : TagError}

/-- What is objected to is not acceptable. -/
theorem Objection.not_acceptable (h : Objection raw item e) : ¬ Acceptable item := by
  intro hok
  cases h with
  | format => exact hok
  | template hneeds h =>
    obtain ⟨t, ht⟩ := hok.1 hneeds
    rw [h] at ht
    cases ht
  | duration hneeds h =>
    obtain ⟨d, hd⟩ := hok.2 hneeds
    rw [h] at hd
    cases hd

/-- Nothing but a template or a duration that is none is objected to, and a name cannot ask for both. -/
theorem Objection.unique (h : Objection raw item e) (h' : Objection raw item e') : e = e' := by
  cases h with
  | format =>
    cases h'
    rfl
  | template hneeds h =>
    cases h' with
    | template _ h' =>
      rw [h] at h'
      cases h'
      rfl
    | duration hneeds' _ =>
      rcases hneeds' with hname | hname <;> simp [Attribute.NeedsTemplate, hname] at hneeds
  | duration hneeds h =>
    cases h' with
    | template hneeds' _ =>
      rcases hneeds with hname | hname <;> simp [Attribute.NeedsTemplate, hname] at hneeds'
    | duration _ h' =>
      rw [h] at h'
      cases h'
      rfl

/-- An attribute is acceptable if its value compiles where it has to and is a duration where it has
to be. -/
theorem acceptable_iff {a : Attribute} : Acceptable (.ok a) ↔
    (a.NeedsTemplate → ∀ cause, Template.compile a.value ≠ .error cause) ∧
      (a.NeedsDuration → ∀ cause, Duration.parse a.value ≠ .error cause) := by
  have hread {ε α : Type} (x : Except ε α) : (∃ y, x = .ok y) ↔ ∀ cause, x ≠ .error cause := by
    cases x <;> simp
  rw [Acceptable, hread, hread]

namespace Draft

variable {d d' : Draft} {a : Attribute} {fault : Fault}

/-- A draft refuses an attribute with its objection. -/
theorem objection_of_take (raw : String) (h : d.take a = .error fault) :
    Objection raw (.ok a) (fault.toError raw) := by
  have htakes := takes_take d a
  rw [h] at htakes
  cases htakes with
  | noTemplate hneeds hcompile => exact .template hneeds hcompile
  | noDuration hneeds hparse => exact .duration hneeds hparse

/-- What a draft takes is acceptable. -/
theorem acceptable_of_take (h : d.take a = .ok d') : Acceptable (.ok a) := by
  rw [acceptable_iff, Attribute.NeedsTemplate, Attribute.NeedsDuration]
  cases takes_of_take h with
  | src hname hsrc =>
    refine ⟨fun hneeds cause hcompile => ?_, by simp [hname]⟩
    have hmarks : "://".toList <:+: a.value.toList ∧ "\x7b\x7b".toList <:+: a.value.toList := by
      simpa [hname] using hneeds
    rw [SourceBuilder.addSrc_eq_error_iff.mpr ⟨hmarks.1, hmarks.2, hcompile⟩] at hsrc
    cases hsrc
  | key hname hkey =>
    refine ⟨fun hneeds cause hcompile => ?_, by simp [hname]⟩
    have hmarker : "\x7b\x7b".toList <:+: a.value.toList := by simpa [hname] using hneeds
    rw [SourceBuilder.addKey_eq_error_iff.mpr ⟨hmarker, hcompile⟩] at hkey
    cases hkey
  | condition hname hcondition =>
    refine ⟨fun _ cause hcompile => ?_, by simp [hname]⟩
    rw [Condition.compile_eq_error_iff.mpr hcompile] at hcondition
    cases hcondition
  | timeout hname hparse | ttl hname hparse =>
    refine ⟨by simp [hname], fun _ cause herror => ?_⟩
    rw [hparse] at herror
    cases herror
  | onError hname | forwarded hname | returned hname => simp [hname]
  | unknown hname =>
    simp only [knownNames, List.mem_cons, not_or] at hname
    simp [hname]

theorem exists_take (d : Draft) (h : Acceptable (.ok a)) : ∃ d', d.take a = .ok d' := by
  cases htake : d.take a with
  | ok d' => exact ⟨d', rfl⟩
  | error fault => exact absurd h (objection_of_take "" htake).not_acceptable

/-! ## All items

A scan is taken up to the first item that is objected to, and this objection is the error. -/

/-- **The first objection is raised.** What stands behind it is not looked at. -/
theorem takeAll_of_objection {before after : List (Except ScanError Attribute)} (d : Draft)
    (hbefore : ∀ x ∈ before, Acceptable x) (h : Objection raw item e) :
    ∃ fault, d.takeAll (before ++ item :: after) = .error fault ∧ fault.toError raw = e := by
  induction before generalizing d with
  | nil =>
    cases item with
    | error cause =>
      cases h
      exact ⟨.format cause, rfl, rfl⟩
    | ok a =>
      cases htake : d.take a with
      | error fault =>
        refine ⟨fault, ?_, (objection_of_take raw htake).unique h⟩
        rw [List.nil_append, takeAll, htake]
      | ok d' => exact absurd (acceptable_of_take htake) h.not_acceptable
  | cons x before ih =>
    have hx := hbefore x List.mem_cons_self
    cases x with
    | error cause => exact hx.elim
    | ok a =>
      obtain ⟨d₁, htake⟩ := exists_take d hx
      rw [List.cons_append, takeAll, htake]
      exact ih d₁ fun y hy => hbefore y (List.mem_cons_of_mem _ hy)

/-- **Nothing else is raised.** -/
theorem takeAll_spec (raw : String) (d : Draft) (items : List (Except ScanError Attribute)) :
    match d.takeAll items with
    | .ok _ => ∀ item ∈ items, Acceptable item
    | .error fault => ∃ before item after, items = before ++ item :: after ∧
        (∀ x ∈ before, Acceptable x) ∧ Objection raw item (fault.toError raw) := by
  induction items generalizing d with
  | nil => exact fun item hitem => absurd hitem List.not_mem_nil
  | cons item items ih =>
    cases item with
    | error cause => exact ⟨[], .error cause, items, rfl, by simp, .format cause⟩
    | ok a =>
      rw [takeAll]
      cases htake : d.take a with
      | error fault => exact ⟨[], .ok a, items, rfl, by simp, objection_of_take raw htake⟩
      | ok d₁ =>
        -- what is wrong with the others is wrong whatever the draft holds by then
        have ih₁ := ih d₁
        have ha := acceptable_of_take htake
        simp only
        split
        · rename_i d' hrest
          rw [hrest] at ih₁
          exact List.forall_mem_cons.mpr ⟨ha, ih₁⟩
        · rename_i fault hrest
          rw [hrest] at ih₁
          obtain ⟨before, item, after, rfl, hbefore, hobjection⟩ := ih₁
          exact ⟨.ok a :: before, item, after, rfl, List.forall_mem_cons.mpr ⟨ha, hbefore⟩,
            hobjection⟩

end Draft

theorem Objection.raw_eq (h : Objection raw item e) : e.raw = raw := by
  cases h <;> rfl

/-- Acceptable items are attributes all of them. -/
theorem exists_eq_map_of_acceptable {items : List (Except ScanError Attribute)}
    (h : ∀ item ∈ items, Acceptable item) : ∃ as : List Attribute, items = as.map .ok := by
  induction items with
  | nil => exact ⟨[], rfl⟩
  | cons item items ih =>
    obtain ⟨hitem, hitems⟩ := List.forall_mem_cons.mp h
    obtain ⟨as, rfl⟩ := ih hitems
    cases item with
    | error => exact hitem.elim
    | ok a => exact ⟨a :: as, rfl⟩

/-- Of the items of a scan, one is the first that cannot be taken, and the error is what is said of it. -/
def FirstObjection (raw : String) (items : List (Except ScanError Attribute)) (e : TagError) :
    Prop :=
  ∃ before item after, items = before ++ item :: after ∧ (∀ x ∈ before, Acceptable x) ∧
    ¬ Acceptable item ∧ Objection raw item e

/-- After acceptable items nothing is built exactly when none is named `src`. -/
theorem finish_of_takeAll {items : List (Except ScanError Attribute)} {draft : Draft}
    (hall : ∀ x ∈ items, Acceptable x) (h : Draft.takeAll {} items = .ok draft) :
    draft.builder.finish = none ↔ ∀ a : Attribute, .ok a ∈ items → a.name ≠ "src" := by
  obtain ⟨as, rfl⟩ := exists_eq_map_of_acceptable hall
  rw [SourceBuilder.finish_eq_none_iff (Draft.callAll_takeAll h), Attribute.forall_calls_iff]
  simp

variable {tag : Bytes} {items : List (Except ScanError Attribute)}

/-- A tag is read only if every item is acceptable and a source is named. -/
theorem ofTag_eq_ok {directives : Directives} (h : ofTag tag = .ok directives) :
    (∀ x ∈ Attribute.scan tag, Acceptable x) ∧
      ∃ a : Attribute, .ok a ∈ Attribute.scan tag ∧ a.name = "src" := by
  have hspec := Draft.takeAll_spec (Utf8.lossy tag) {} (Attribute.scan tag)
  unfold ofTag ofDraft at h
  split at h
  · cases h
  · rename_i draft htake
    rw [htake] at hspec
    split at h
    · cases h
    · rename_i sources hfinish
      refine ⟨hspec, ?_⟩
      by_contra hnone
      rw [(finish_of_takeAll hspec htake).mpr fun a ha hname => hnone ⟨a, ha, hname⟩] at hfinish
      cases hfinish

/-- A tag is refused for its first objection, or, with none, for want of a source. -/
theorem ofTag_eq_error (h : ofTag tag = .error e) :
    FirstObjection (Utf8.lossy tag) (Attribute.scan tag) e ∨
      ((∀ x ∈ Attribute.scan tag, Acceptable x) ∧
        (∀ a : Attribute, .ok a ∈ Attribute.scan tag → a.name ≠ "src") ∧
        e = .missingSource (Utf8.lossy tag)) := by
  have hspec := Draft.takeAll_spec (Utf8.lossy tag) {} (Attribute.scan tag)
  unfold ofTag ofDraft at h
  split at h
  · rename_i fault htake
    rw [htake] at hspec
    obtain ⟨before, item, after, hscan, hbefore, hitem⟩ := hspec
    cases h
    exact .inl ⟨before, item, after, hscan, hbefore, hitem.not_acceptable, hitem⟩
  · rename_i draft htake
    rw [htake] at hspec
    split at h
    · rename_i hfinish
      cases h
      exact .inr ⟨hspec, (finish_of_takeAll hspec htake).mp hfinish, rfl⟩
    · cases h

/-- The first objection is the error. -/
theorem ofTag_of_firstObjection (h : FirstObjection (Utf8.lossy tag) (Attribute.scan tag) e) :
    ofTag tag = .error e := by
  obtain ⟨before, item, after, hscan, hbefore, -, hitem⟩ := h
  obtain ⟨fault, htake, rfl⟩ : ∃ fault, Draft.takeAll {} (before ++ item :: after) = .error fault ∧
      fault.toError (Utf8.lossy tag) = e := Draft.takeAll_of_objection {} hbefore hitem
  unfold ofTag ofDraft
  rw [hscan, htake]

theorem FirstObjection.exists_mem (h : FirstObjection raw items e) :
    ∃ x ∈ items, ¬ Acceptable x := by
  obtain ⟨before, item, after, rfl, -, hitem, -⟩ := h
  exact ⟨item, by simp, hitem⟩

/-- A tag is read exactly if every item is acceptable and a source is named. -/
theorem exists_ofTag_iff : (∃ directives, ofTag tag = .ok directives) ↔
    (∀ x ∈ Attribute.scan tag, Acceptable x) ∧
      ∃ a : Attribute, .ok a ∈ Attribute.scan tag ∧ a.name = "src" := by
  refine ⟨fun ⟨directives, h⟩ => ofTag_eq_ok h, fun ⟨hall, a, ha, hname⟩ => ?_⟩
  cases h : ofTag tag with
  | ok directives => exact ⟨directives, rfl⟩
  | error e =>
    rcases ofTag_eq_error h with hfirst | ⟨-, hnone, -⟩
    · obtain ⟨x, hx, hnot⟩ := hfirst.exists_mem
      exact absurd (hall x hx) hnot
    · exact absurd hname (hnone a ha)

/-- The two ways to refuse a tag are all there are. -/
theorem ofTag_eq_error_iff : ofTag tag = .error e ↔
    FirstObjection (Utf8.lossy tag) (Attribute.scan tag) e ∨
      ((∀ x ∈ Attribute.scan tag, Acceptable x) ∧
        (∀ a : Attribute, .ok a ∈ Attribute.scan tag → a.name ≠ "src") ∧
        e = .missingSource (Utf8.lossy tag)) := by
  refine ⟨ofTag_eq_error, ?_⟩
  rintro (hfirst | ⟨hall, hnone, rfl⟩)
  · exact ofTag_of_firstObjection hfirst
  · cases h : ofTag tag with
    | ok directives =>
      obtain ⟨-, a, ha, hname⟩ := ofTag_eq_ok h
      exact absurd hname (hnone a ha)
    | error e =>
      rcases ofTag_eq_error h with hfirst | ⟨-, -, rfl⟩
      · obtain ⟨x, hx, hnot⟩ := hfirst.exists_mem
        exact absurd (hall x hx) hnot
      · rfl

/-! ## Builds that check their sums

A build that checks additions breaks down in place of wrapping around. It does so at the first item
whose duration does not fit, if no item before it is objected to. -/

/-- The value of the attribute has to be a duration, and a build that checks its sums breaks down while
it reads it. -/
def BreaksDown (a : Attribute) : Prop :=
  a.NeedsDuration ∧ Duration.parseChecked a.value = none

/-- Behind items that can be taken stands an attribute at whose value the reading breaks down. -/
def BreaksDownIn (items : List (Except ScanError Attribute)) : Prop :=
  ∃ before a after, items = before ++ .ok a :: after ∧ (∀ x ∈ before, Acceptable x) ∧ BreaksDown a

theorem not_breaksDownIn_nil : ¬ BreaksDownIn [] := by
  rintro ⟨before, a, after, hitems, -⟩
  simp at hitems

/-- A scan error comes before any breakdown behind it. -/
theorem not_breaksDownIn_error {cause : ScanError} : ¬ BreaksDownIn (.error cause :: items) := by
  rintro ⟨before, a, after, hitems, hbefore, -⟩
  cases before with
  | nil => cases hitems
  | cons x before =>
    obtain ⟨rfl, -⟩ := List.cons.inj hitems
    exact hbefore _ List.mem_cons_self

/-- A breakdown happens at the first item, or behind one that is acceptable. -/
theorem breaksDownIn_cons {a : Attribute} : BreaksDownIn (.ok a :: items) ↔
    BreaksDown a ∨ Acceptable (.ok a) ∧ BreaksDownIn items := by
  constructor
  · rintro ⟨before, a', after, hitems, hbefore, hbreaks⟩
    cases before with
    | nil =>
      cases hitems
      exact .inl hbreaks
    | cons x before =>
      obtain ⟨rfl, rfl⟩ := List.cons.inj hitems
      obtain ⟨ha, hbefore⟩ := List.forall_mem_cons.mp hbefore
      exact .inr ⟨ha, before, a', after, rfl, hbefore, hbreaks⟩
  · rintro (hbreaks | ⟨ha, before, a', after, rfl, hbefore, hbreaks⟩)
    · exact ⟨[], a, items, rfl, by simp, hbreaks⟩
    · exact ⟨.ok a :: before, a', after, rfl, List.forall_mem_cons.mpr ⟨ha, hbefore⟩, hbreaks⟩

namespace Draft

variable {d d' : Draft} {a : Attribute}

/-- Taking an attribute breaks down where the reading of its value does, and comes to the same
otherwise. -/
theorem takeChecked_cases (d : Draft) (a : Attribute) :
    BreaksDown a ∧ d.takeChecked a = none ∨ ¬ BreaksDown a ∧ d.takeChecked a = some (d.take a) := by
  have hdecided (hneeds : a.NeedsDuration)
      (h : d.takeChecked a = (Duration.parseChecked a.value).map fun _ => d.take a) :
      BreaksDown a ∧ d.takeChecked a = none ∨
        ¬ BreaksDown a ∧ d.takeChecked a = some (d.take a) := by
    cases hchecked : Duration.parseChecked a.value with
    | none => exact .inl ⟨⟨hneeds, hchecked⟩, by rw [h, hchecked]; rfl⟩
    | some r =>
      refine .inr ⟨fun hbreaks => ?_, by rw [h, hchecked]; rfl⟩
      rw [hbreaks.2] at hchecked
      cases hchecked
  unfold takeChecked at hdecided ⊢
  split at hdecided
  · exact hdecided (.inl ‹_›) rfl
  · exact hdecided (.inr ‹_›) rfl
  · rename_i htimeout httl
    exact .inr ⟨fun hbreaks => hbreaks.1.elim htimeout httl, rfl⟩

/-- Taking items breaks down where one of them does. -/
theorem takeAllChecked_eq_none_iff : d.takeAllChecked items = none ↔ BreaksDownIn items := by
  induction items generalizing d with
  | nil => exact iff_of_false (fun h => by cases h) not_breaksDownIn_nil
  | cons item items ih =>
    cases item with
    | error cause => exact iff_of_false (fun h => by cases h) not_breaksDownIn_error
    | ok a =>
      rw [takeAllChecked, breaksDownIn_cons]
      rcases takeChecked_cases d a with ⟨hbreaks, hnone⟩ | ⟨hreads, hsome⟩
      · rw [hnone]
        exact iff_of_true rfl (.inl hbreaks)
      rw [hsome]
      cases htake : d.take a with
      | error fault =>
        have hnot := (objection_of_take "" htake).not_acceptable
        exact iff_of_false (fun h => by cases h) (by simp [hreads, hnot])
      | ok d₁ => simp [hreads, acceptable_of_take htake, ih]

/-- Where the reading does not break down, it comes to the same. -/
theorem eq_takeAll_of_takeAllChecked {r : Except Fault Draft} (h : d.takeAllChecked items = some r) :
    r = d.takeAll items := by
  induction items generalizing d with
  | nil => exact (Option.some.inj h).symm
  | cons item items ih =>
    cases item with
    | error cause => exact (Option.some.inj h).symm
    | ok a =>
      rw [takeAllChecked] at h
      rw [takeAll]
      rcases takeChecked_cases d a with ⟨-, hnone⟩ | ⟨-, hsome⟩
      · rw [hnone] at h
        cases h
      rw [hsome] at h
      cases htake : d.take a with
      | error fault =>
        rw [htake] at h
        exact (Option.some.inj h).symm
      | ok d₁ =>
        rw [htake] at h
        exact ih h

end Draft

end Directives

namespace Include

open Directives

variable {i : Include}

theorem parseChecked_eq_none_iff (hraw : i.raw ≠ []) :
    i.parseChecked = none ↔ BreaksDownIn (Attribute.scan i.raw) := by
  rw [parseChecked, if_neg hraw, Option.map_eq_none_iff, ofTagChecked, Option.map_eq_none_iff,
    Draft.takeAllChecked_eq_none_iff]

/-- Where nothing breaks down the two builds read the same. -/
theorem eq_parse_of_parseChecked {r : Except TagError Include} (h : i.parseChecked = some r) :
    r = i.parse := by
  by_cases hraw : i.raw = []
  · rw [parseChecked, if_pos hraw] at h
    rw [parse_of_nil hraw, ← Option.some.inj h]
  · rw [parseChecked, if_neg hraw] at h
    obtain ⟨read, hread, rfl⟩ := Option.map_eq_some_iff.mp h
    obtain ⟨draft, htake, rfl⟩ := Option.map_eq_some_iff.mp hread
    rw [parse_eq hraw, Directives.ofTag, ← Draft.eq_takeAll_of_takeAllChecked htake]

/-- **When a tag is read, and what is said if it is not.** A tag that is not empty is read if each of
its attributes is acceptable and one of them names a source. Otherwise the error is what is said of the
first attribute that is not acceptable, and only if there is none that no source is named. Every error
carries the text of the whole tag.

A build that checks its sums comes to the same, except that it breaks down at the first duration that
its reading breaks down at, if all attributes before that are acceptable. -/
theorem verdict_on_tag (i : Include) (hraw : i.raw ≠ []) :
    ((∃ i', i.parse = .ok i') ↔
      (∀ x ∈ Attribute.scan i.raw, Acceptable x) ∧
        ∃ a : Attribute, .ok a ∈ Attribute.scan i.raw ∧ a.name = "src") ∧
    (∀ e, i.parse = .error e ↔
      FirstObjection (Utf8.lossy i.raw) (Attribute.scan i.raw) e ∨
        ((∀ x ∈ Attribute.scan i.raw, Acceptable x) ∧
          (∀ a : Attribute, .ok a ∈ Attribute.scan i.raw → a.name ≠ "src") ∧
          e = .missingSource (Utf8.lossy i.raw))) ∧
    (∀ e, i.parse = .error e → e.raw = Utf8.lossy i.raw) ∧
    (i.parseChecked = none ↔ BreaksDownIn (Attribute.scan i.raw)) ∧
    ∀ r, i.parseChecked = some r → r = i.parse := by
  refine ⟨?_, fun e => (parse_eq_error_iff hraw).trans ofTag_eq_error_iff, fun e h => ?_,
    parseChecked_eq_none_iff hraw, fun r => eq_parse_of_parseChecked⟩
  · rw [← exists_ofTag_iff]
    simp only [parse_eq_ok_iff hraw, exists_comm (α := Include), exists_and_left, exists_eq, and_true]
  rcases ofTag_eq_error ((parse_eq_error_iff hraw).mp h) with ⟨_, _, _, _, _, _, hitem⟩ | ⟨_, _, rfl⟩
  · exact hitem.raw_eq
  · rfl

/-- A tag with three attributes at fault, which names no source either. -/
def manyFaults : String :=
  "<a key='k' timeout='soon' key='\x7b\x7b' TTL='9' />"

/-- Of four faults in one tag the first is the one reported. -/
theorem verdict_on_tag_manyFaults :
    Utf8.encode manyFaults ≠ [] ∧
      Attribute.scan (Utf8.encode manyFaults) =
        [.ok ⟨"key", "k", .single, 3⟩] ++ .ok ⟨"timeout", "soon", .single, 11⟩ ::
          [.ok ⟨"key", "\x7b\x7b", .single, 26⟩, .ok ⟨"ttl", "9", .single, 35⟩] ∧
      (Include.ofTag (Utf8.encode manyFaults) 0 45).parse =
        .error (.duration "timeout" "soon" manyFaults (.invalid "soon")) := by
  have hraw : (Include.ofTag (Utf8.encode manyFaults) 0 45).raw ≠ [] := by decide
  obtain ⟨-, herror, -, -, -⟩ := verdict_on_tag (.ofTag (Utf8.encode manyFaults) 0 45) hraw
  have htext : Utf8.lossy (Utf8.encode manyFaults) = manyFaults := by decide +kernel
  have hscan : Attribute.scan (Utf8.encode manyFaults) =
      [.ok ⟨"key", "k", .single, 3⟩] ++ .ok ⟨"timeout", "soon", .single, 11⟩ ::
        [.ok ⟨"key", "\x7b\x7b", .single, 26⟩, .ok ⟨"ttl", "9", .single, 35⟩] := by decide +kernel
  have hsoon : Duration.parse "soon" = .error (.invalid "soon") := by decide +kernel
  have hobjection : Objection manyFaults (.ok ⟨"timeout", "soon", .single, 11⟩)
      (.duration "timeout" "soon" manyFaults (.invalid "soon")) := .duration (by decide) hsoon
  refine ⟨by decide, hscan, (herror _).mpr (.inl ⟨_, _, _, hscan, ?_, hobjection.not_acceptable, ?_⟩)⟩
  · intro x hx
    obtain rfl := List.mem_singleton.mp hx
    exact acceptable_iff.mpr ⟨fun h => absurd h (by decide), fun h => absurd h (by decide)⟩
  · rw [show Utf8.lossy (Include.ofTag (Utf8.encode manyFaults) 0 45).raw = manyFaults from htext]
    exact hobjection

end Include

end EdgeInclude
