import EdgeInclude.Include.Edit
import EdgeInclude.Proofs.Include.Verdict

/-!
# What a tag asks for

Each field of a tag that was read holds what the last attribute of its name says, and the sources are
what the `src` and `key` attributes name. Nothing else in the tag has a part in it, and neither has
what the include held before.

* **`Directives.AskedBy`**: what attributes ask for, field by field.
* **`askedBy_ofTag`**: what is read is what the attributes of the tag ask for.
* **`contents_of_tag`**: the same of an include, and of two tags that say the same.
* **`emptied_tag_keeps_contents`**: an empty tag is not read, so that what was read before stays.
-/

namespace EdgeInclude

theorem Attribute.scan_nil : Attribute.scan [] = [] := by
  simp [scan, Occurrence.all, Occurrence.allFrom]

namespace Directives

/-- What is said of a field is one value. -/
theorem Says.unique {ε α : Type} {read : String → Except ε α} {before x y : α}
    {last : Option String} (hx : Says read before last x) (hy : Says read before last y) : x = y := by
  cases last with
  | none => exact hx.trans hy.symm
  | some text =>
    change read text = .ok x at hx
    change read text = .ok y at hy
    rw [hx] at hy
    exact Except.ok.inj hy

/-- A field that takes any text holds what the last one says, or what it held before. -/
theorem says_ok_iff {ε α : Type} {f : String → α} {before x : α} {last : Option String} :
    Says (ε := ε) (fun text => .ok (f text)) before last x ↔ x = (last.map f).getD before := by
  cases last with
  | none => rfl
  | some text => exact ⟨fun h => (Except.ok.inj h).symm, fun h => congrArg Except.ok h.symm⟩

/-- The names of the attributes of which only the last one counts. -/
def fieldNames : List String :=
  ["timeout", "ttl", "onerror", "forwardheaders", "returnheaders", "condition"]

/-- What attributes ask for. -/
structure AskedBy (as : List Attribute) (d : Directives) : Prop where
  timeout : Says Duration.parse Duration.zero (Attribute.last? "timeout" as) d.timeout
  ttl : Says Duration.parse Duration.zero (Attribute.last? "ttl" as) d.ttl
  onError : d.onError = (Attribute.last? "onerror" as).getD ""
  forwarded :
    d.forwarded = ((Attribute.last? "forwardheaders" as).map HeaderSelection.parse).getD {}
  returned : d.returned = ((Attribute.last? "returnheaders" as).map HeaderSelection.parse).getD {}
  condition : Says (fun text => (Condition.compile text).map some) none
    (Attribute.last? "condition" as) d.condition
  sources : ∃ b, SourceBuilder.callAll {} (Attribute.calls as) = .ok b ∧ d.sources = b.sources

namespace AskedBy

variable {as bs : List Attribute} {d d' : Directives}

/-- A tag asks for one thing. -/
theorem unique (h : d.AskedBy as) (h' : d'.AskedBy as) : d = d' := by
  obtain ⟨b, hcalls, hsources⟩ := h.sources
  obtain ⟨b', hcalls', hsources'⟩ := h'.sources
  obtain rfl : b = b' := Except.ok.inj (hcalls.symm.trans hcalls')
  have htimeout := h.timeout.unique h'.timeout
  have httl := h.ttl.unique h'.ttl
  have hcondition := h.condition.unique h'.condition
  have honError := h.onError.trans h'.onError.symm
  have hforwarded := h.forwarded.trans h'.forwarded.symm
  have hreturned := h.returned.trans h'.returned.symm
  cases d
  cases d'
  simp_all

/-- Attributes ask for no more than the calls for sources among them and the last of each name say. -/
theorem congr (hcalls : Attribute.calls bs = Attribute.calls as)
    (hlast : ∀ name ∈ fieldNames, Attribute.last? name bs = Attribute.last? name as)
    (h : d.AskedBy as) : d.AskedBy bs := by
  simp only [fieldNames, List.forall_mem_cons] at hlast
  obtain ⟨htimeout, httl, honError, hforwarded, hreturned, hcondition, -⟩ := hlast
  refine ⟨?_, ?_, ?_, ?_, ?_, ?_, ?_⟩
  · rw [htimeout]
    exact h.timeout
  · rw [httl]
    exact h.ttl
  · rw [honError]
    exact h.onError
  · rw [hforwarded]
    exact h.forwarded
  · rw [hreturned]
    exact h.returned
  · rw [hcondition]
    exact h.condition
  · rw [hcalls]
    exact h.sources

/-- Without attributes everything is as in an include that was not read yet. -/
theorem empty : AskedBy [] {} where
  timeout := rfl
  ttl := rfl
  onError := rfl
  forwarded := rfl
  returned := rfl
  condition := rfl
  sources := ⟨{}, rfl, rfl⟩

end AskedBy

/-- What is built are the sources as they were added. -/
theorem sources_of_finish {b : SourceBuilder} {sources : Sources} (h : b.finish = some sources) :
    sources = b.sources := by
  unfold SourceBuilder.finish at h
  split at h
  · cases h
  · exact (Option.some.inj h).symm

/-- **What is read is what the attributes of the tag ask for.** -/
theorem askedBy_ofTag {tag : Bytes} {d : Directives} (h : ofTag tag = .ok d) :
    ∃ as : List Attribute, Attribute.scan tag = as.map .ok ∧ d.AskedBy as := by
  obtain ⟨as, has⟩ := exists_eq_map_of_acceptable (ofTag_eq_ok h).1
  refine ⟨as, has, ?_⟩
  unfold ofTag ofDraft at h
  rw [has] at h
  split at h
  · cases h
  · rename_i draft htake
    split at h
    · cases h
    · rename_i sources hfinish
      obtain rfl := Except.ok.inj h
      exact {
        timeout := Draft.writtenBy_timeout.holds_last htake
        ttl := Draft.writtenBy_ttl.holds_last htake
        onError := by simpa using says_ok_iff.mp (Draft.writtenBy_onError.holds_last htake)
        forwarded := says_ok_iff.mp (Draft.writtenBy_forwarded.holds_last htake)
        returned := says_ok_iff.mp (Draft.writtenBy_returned.holds_last htake)
        condition := Draft.writtenBy_condition.holds_last htake
        sources := ⟨draft.builder, Draft.callAll_takeAll htake, sources_of_finish hfinish⟩ }

end Directives

namespace Include

open Directives

variable {i i' : Include}

/-- An include that is read asks for what the attributes of its tag ask for. An empty tag is left alone,
so there the include has to be one that was not read yet. -/
theorem askedBy_of_parse (hnew : i.raw = [] → i.directives = {}) (h : i.parse = .ok i') :
    ∃ as : List Attribute, Attribute.scan i.raw = as.map .ok ∧ i'.directives.AskedBy as := by
  by_cases hraw : i.raw = []
  · rw [parse_of_nil hraw] at h
    obtain rfl := Except.ok.inj h
    rw [hraw, hnew hraw]
    exact ⟨[], Attribute.scan_nil, .empty⟩
  · obtain ⟨directives, htag, rfl⟩ := (parse_eq_ok_iff hraw).mp h
    exact askedBy_ofTag htag

/-- **What a tag that was read asks for.** An include whose tag is read, and was not read before if the
tag is empty, holds what the attributes of its tag ask for, and nothing else: of each name the last
attribute counts, and the sources come from the `src` and `key` attributes alone. So two tags that say
the same in these come to the same, whatever else stands in them, in whatever order and quotes. -/
theorem contents_of_tag (hnew : i.raw = [] → i.directives = {}) (h : i.parse = .ok i') :
    ∃ as : List Attribute, Attribute.scan i.raw = as.map .ok ∧
      (∀ d : Directives, d.AskedBy as ↔ d = i'.directives) ∧
      ∀ (j j' : Include) (bs : List Attribute), (j.raw = [] → j.directives = {}) →
        j.parse = .ok j' → Attribute.scan j.raw = bs.map .ok →
        Attribute.calls bs = Attribute.calls as →
        (∀ name ∈ fieldNames, Attribute.last? name bs = Attribute.last? name as) →
        j'.directives = i'.directives := by
  obtain ⟨as, hscan, hasked⟩ := askedBy_of_parse hnew h
  refine ⟨as, hscan, fun d => ⟨fun hd => hd.unique hasked, fun hd => hd ▸ hasked⟩,
    fun j j' bs hnew' h' hscan' hcalls hlast => ?_⟩
  obtain ⟨bs', hbs', hasked'⟩ := askedBy_of_parse hnew' h'
  obtain rfl : bs' = bs :=
    (List.map_inj_right fun _ _ => Except.ok.inj).mp (hbs'.symm.trans hscan')
  exact hasked'.unique (hasked.congr hcalls hlast)

/-- A tag, and one that asks for the same in more words. -/
def terse : Bytes :=
  Utf8.encode "<a src='u' key='k' timeout='2s'/>"

@[inherit_doc terse]
def wordy : Bytes :=
  Utf8.encode "<a timeout=\"1h\" lang=\"en\" SRC=\"u\" KEY=\" k\" timeout=\"2s\"/>"

/-- What both ask for. -/
def wanted : Directives where
  sources := ⟨[{ index := 0, url := some (.literal "u"), key := some (.literal "k") }], [(0, 0)]⟩
  timeout := .ofSeconds 2

/-- Of what an include held before nothing is left, and both tags come to the same. -/
theorem contents_of_tag_wordy :
    ∃ i' j' : Include,
      { ofTag terse 0 33 with directives := { onError := "old" } }.parse = .ok i' ∧
      (ofTag wordy 40 99).parse = .ok j' ∧ i'.directives = wanted ∧
      wanted.AskedBy [⟨"src", "u", .single, 3⟩, ⟨"key", "k", .single, 11⟩,
        ⟨"timeout", "2s", .single, 19⟩] ∧
      j'.directives = i'.directives := by
  have h : { ofTag terse 0 33 with directives := { onError := "old" } }.parse =
      .ok { ofTag terse 0 33 with directives := wanted } := by decide +kernel
  have h' : (ofTag wordy 40 99).parse = .ok { ofTag wordy 40 99 with directives := wanted } := by decide +kernel
  obtain ⟨as, hscan, hasked, hsame⟩ := contents_of_tag (fun hnil => absurd hnil (by decide)) h
  have has : as = [⟨"src", "u", .single, 3⟩, ⟨"key", "k", .single, 11⟩,
      ⟨"timeout", "2s", .single, 19⟩] := by
    refine (List.map_inj_right fun _ _ => Except.ok.inj).mp (hscan.symm.trans ?_)
    decide +kernel
  have hscan' : Attribute.scan (ofTag wordy 40 99).raw = List.map .ok
      [⟨"timeout", "1h", .double, 3⟩, ⟨"lang", "en", .double, 16⟩, ⟨"src", "u", .double, 26⟩,
        ⟨"key", "k", .double, 34⟩, ⟨"timeout", "2s", .double, 43⟩] := by decide +kernel
  refine ⟨_, _, h, h', rfl, has ▸ (hasked wanted).mpr rfl, ?_⟩
  refine hsame _ _ _ (fun _ => rfl) h' hscan' ?_ ?_
  · rw [has]
    decide
  · rw [has]
    decide

/-- An include that was read, and was given an empty tag since. -/
def emptied : Include :=
  (ofTag terse 0 33).editAll [.parse, .setRaw []]

/-- **An empty tag is not read.** Reading it succeeds and leaves what was read before, for which nothing
in the tag asks; an include with the same tag that was never read holds something else. -/
theorem emptied_tag_keeps_contents :
    emptied.parse = .ok emptied ∧ Attribute.scan emptied.raw = [] ∧
      emptied.directives.timeout ≠ Duration.zero ∧
      (∀ as : List Attribute, Attribute.scan emptied.raw = as.map .ok →
        ¬ emptied.directives.AskedBy as) ∧
      (ofTag [] 0 33).parse = .ok (ofTag [] 0 33) ∧
      Attribute.scan (ofTag [] 0 33).raw = Attribute.scan emptied.raw ∧
      (ofTag [] 0 33).directives ≠ emptied.directives := by
  have hemptied : emptied = { ofTag [] 0 33 with directives := wanted } := by decide +kernel
  have hscan : Attribute.scan emptied.raw = [] := by
    rw [hemptied]
    exact Attribute.scan_nil
  have htimeout : emptied.directives.timeout ≠ Duration.zero := by
    rw [hemptied]
    decide
  refine ⟨parse_of_nil (by rw [hemptied]; rfl), hscan, htimeout, fun as has hasked => ?_,
    parse_of_nil rfl, hscan.symm ▸ Attribute.scan_nil, fun hsame => ?_⟩
  · obtain rfl : as = [] := List.map_eq_nil_iff.mp (has.symm.trans hscan)
    exact htimeout hasked.timeout
  · rw [← hsame] at htimeout
    exact htimeout rfl

end Include

end EdgeInclude
