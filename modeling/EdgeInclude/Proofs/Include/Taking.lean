import EdgeInclude.Include.Parser
import EdgeInclude.Proofs.Template.Lexing

/-!
# Taking the attributes of a tag

What one attribute does to what was read before it, and from that what all the attributes of a tag do.

* **`Attribute.NeedsTemplate`**, **`Attribute.NeedsDuration`**: which values have to be of a form.
* **`Draft.Takes`**: all that taking an attribute can do. **`takes_take`**.
* **`WrittenBy.holds_last`**: a field that attributes of one name write holds what the last of them says.
* **`callAll_takeAll`**: the sources come from the `src` and `key` attributes alone.
-/

namespace EdgeInclude

/-! ## Marks in a text

What a search for a mark finds, as a property of the text. -/

namespace Text

/-- A search finds what stands together somewhere. -/
theorem occursIn_iff {needle cs : List Char} : occursIn needle cs = true ↔ needle <:+: cs := by
  induction cs with
  | nil => rw [occursIn, List.isEmpty_iff, List.infix_nil]
  | cons c cs ih =>
    rw [occursIn, Bool.or_eq_true, List.isPrefixOf_iff_prefix, ih, List.infix_cons_iff]

theorem contains_iff {text needle : String} :
    contains text needle = true ↔ needle.toList <:+: text.toList :=
  occursIn_iff

end Text

/-! ## Values that have to be of a form

A value is compiled only where it holds opening braces, and that of a source only if it is a URL
besides. In each case there is one way to fail. -/

namespace Attribute

/-- The value has to be a template: that of a condition, that of a key with opening braces in it, and
that of a source with opening braces in it if it is a URL. -/
def NeedsTemplate (a : Attribute) : Prop :=
  a.name = "condition" ∨
    (a.name = "key" ∧ "\x7b\x7b".toList <:+: a.value.toList) ∨
    (a.name = "src" ∧ "://".toList <:+: a.value.toList ∧ "\x7b\x7b".toList <:+: a.value.toList)

/-- The value has to be a duration. -/
def NeedsDuration (a : Attribute) : Prop :=
  a.name = "timeout" ∨ a.name = "ttl"

instance (a : Attribute) : Decidable a.NeedsTemplate := by
  unfold NeedsTemplate
  infer_instance

instance (a : Attribute) : Decidable a.NeedsDuration := by
  unfold NeedsDuration
  infer_instance

end Attribute

variable {text : String} {cause : Template.CompileError} {b b' : SourceBuilder}

/-- Only a text with opening braces can fail to be an address. -/
theorem Address.parse_eq_error_iff : Address.parse text = .error cause ↔
    "\x7b\x7b".toList <:+: text.toList ∧ Template.compile text = .error cause := by
  rw [show "\x7b\x7b".toList = Template.opening from rfl, ← Template.isTemplate_iff]
  unfold Address.parse
  split
  · rename_i hmarked
    split
    · rename_i hcompile
      simp [hmarked, hcompile]
    · rename_i hcompile
      simp [hcompile]
  · rename_i hmarked
    simp [hmarked]

/-- A condition is a template whatever it holds. -/
theorem Condition.compile_eq_error_iff :
    Condition.compile text = .error cause ↔ Template.compile text = .error cause := by
  unfold Condition.compile
  split
  · rename_i hcompile
    simp [hcompile]
  · rename_i hcompile
    simp [hcompile]

namespace SourceBuilder

/-- Only a URL with opening braces can fail to be a source. -/
theorem parseSrc_eq_error_iff : parseSrc text = .error cause ↔ "://".toList <:+: text.toList ∧
    "\x7b\x7b".toList <:+: text.toList ∧ Template.compile text = .error cause := by
  rw [← Address.parse_eq_error_iff, ← Text.contains_iff]
  unfold parseSrc schemeSeparator
  split
  · rename_i hurl
    simp only [hurl, true_and]
  · rename_i hurl
    simp [hurl]

/-- Naming a source fails with its text, whatever was named before. -/
theorem addSrc_eq_error_iff : b.addSrc text = .error cause ↔ "://".toList <:+: text.toList ∧
    "\x7b\x7b".toList <:+: text.toList ∧ Template.compile text = .error cause := by
  rw [← parseSrc_eq_error_iff]
  unfold addSrc
  split
  · rename_i herror
    simp [herror]
  · rename_i hok
    simp [hok]

/-- Giving a key fails with its text, whatever was given before. -/
theorem addKey_eq_error_iff : b.addKey text = .error cause ↔
    "\x7b\x7b".toList <:+: text.toList ∧ Template.compile text = .error cause := by
  rw [← Address.parse_eq_error_iff]
  unfold addKey
  split
  · rename_i herror
    simp [herror]
  · rename_i hok
    simp [hok]

end SourceBuilder

namespace Directives

/-! ## One attribute

`Takes` lists what can become of an attribute, a case for each name. What follows about attributes
is read off these cases and not off the definition. -/

/-- The names of the attributes that mean something. -/
def knownNames : List String :=
  ["src", "key", "condition", "onerror", "timeout", "ttl", "forwardheaders", "returnheaders"]

namespace Draft

variable {d d' : Draft} {a : Attribute} {fault : Fault}

/-- All that taking an attribute can do. What is at fault does not depend on what was read before. -/
inductive Takes (d : Draft) (a : Attribute) : Except Fault Draft → Prop
  | noTemplate {cause : Template.CompileError} (hneeds : a.NeedsTemplate)
      (h : Template.compile a.value = .error cause) :
      Takes d a (.error (.template a.name a.value cause))
  | noDuration {cause : Duration.ReadError} (hneeds : a.NeedsDuration)
      (h : Duration.parse a.value = .error cause) :
      Takes d a (.error (.duration a.name a.value cause))
  | src {builder : SourceBuilder} (hname : a.name = "src")
      (h : d.builder.addSrc a.value = .ok builder) : Takes d a (.ok { d with builder })
  | key {builder : SourceBuilder} (hname : a.name = "key")
      (h : d.builder.addKey a.value = .ok builder) : Takes d a (.ok { d with builder })
  | condition {condition : Condition} (hname : a.name = "condition")
      (h : Condition.compile a.value = .ok condition) :
      Takes d a (.ok { d with directives.condition := some condition })
  | onError (hname : a.name = "onerror") :
      Takes d a (.ok { d with directives.onError := a.value })
  | timeout {timeout : Duration} (hname : a.name = "timeout")
      (h : Duration.parse a.value = .ok timeout) :
      Takes d a (.ok { d with directives.timeout := timeout })
  | ttl {ttl : Duration} (hname : a.name = "ttl") (h : Duration.parse a.value = .ok ttl) :
      Takes d a (.ok { d with directives.ttl := ttl })
  | forwarded (hname : a.name = "forwardheaders") :
      Takes d a (.ok { d with directives.forwarded := HeaderSelection.parse a.value })
  | returned (hname : a.name = "returnheaders") :
      Takes d a (.ok { d with directives.returned := HeaderSelection.parse a.value })
  | unknown (hname : a.name ∉ knownNames) : Takes d a (.ok d)

/-- What becomes of an attribute is one of the cases. -/
theorem takes_take (d : Draft) (a : Attribute) : Takes d a (d.take a) := by
  unfold take
  split
  · rename_i hname
    split
    · rename_i cause herror
      obtain ⟨hurl, hmarker, hcompile⟩ := SourceBuilder.addSrc_eq_error_iff.mp herror
      rw [← hname]
      exact .noTemplate (.inr (.inr ⟨hname, hurl, hmarker⟩)) hcompile
    · rename_i builder hok
      exact .src hname hok
  · rename_i hname
    split
    · rename_i cause herror
      obtain ⟨hmarker, hcompile⟩ := SourceBuilder.addKey_eq_error_iff.mp herror
      rw [← hname]
      exact .noTemplate (.inr (.inl ⟨hname, hmarker⟩)) hcompile
    · rename_i builder hok
      exact .key hname hok
  · rename_i hname
    split
    · rename_i cause herror
      rw [← hname]
      exact .noTemplate (.inl hname) (Condition.compile_eq_error_iff.mp herror)
    · rename_i condition hok
      exact .condition hname hok
  · rename_i hname
    exact .onError hname
  · rename_i hname
    split
    · rename_i cause herror
      rw [← hname]
      exact .noDuration (.inl hname) herror
    · rename_i timeout hok
      exact .timeout hname hok
  · rename_i hname
    split
    · rename_i cause herror
      rw [← hname]
      exact .noDuration (.inr hname) herror
    · rename_i ttl hok
      exact .ttl hname hok
  · rename_i hname
    exact .forwarded hname
  · rename_i hname
    exact .returned hname
  · refine .unknown ?_
    simp_all [knownNames]

theorem takes_of_take (h : d.take a = .ok d') : Takes d a (.ok d') := by
  rw [← h]
  exact takes_take d a

/-- Where all attributes are taken, so is the first, and the others after it. -/
theorem takeAll_map_cons {as : List Attribute} (h : d.takeAll ((a :: as).map .ok) = .ok d') :
    ∃ d₁, d.take a = .ok d₁ ∧ d₁.takeAll (as.map .ok) = .ok d' := by
  rw [List.map_cons, takeAll] at h
  split at h
  · cases h
  · rename_i d₁ htake
    exact ⟨d₁, htake, h⟩

/-- What holds of no attributes, and of one more whenever it holds of those behind it, holds of all
the attributes of a tag. -/
theorem takeAll_induction {motive : List Attribute → Draft → Draft → Prop}
    (nil : ∀ d, motive [] d d)
    (cons : ∀ d a d₁ as d', d.take a = .ok d₁ → motive as d₁ d' → motive (a :: as) d d')
    {as : List Attribute} (h : d.takeAll (as.map .ok) = .ok d') : motive as d d' := by
  induction as generalizing d with
  | nil =>
    obtain rfl : d = d' := by simpa [takeAll] using h
    exact nil d
  | cons a as ih =>
    obtain ⟨d₁, htake, hrest⟩ := takeAll_map_cons h
    exact cons d a d₁ as d' htake (ih hrest)

end Draft

end Directives

/-! ## The last attribute of a name

A field of the directives is written by the attributes of one name alone, each over the one before.
So what it holds in the end is told by the last of them. -/

/-- The value of the last attribute of a name. -/
def Attribute.last? (name : String) (as : List Attribute) : Option String :=
  ((as.filter fun a => a.name = name).getLast?).map Attribute.value

/-- The last of a name is found behind the first attribute, or is the first attribute. -/
theorem Attribute.last?_cons (name : String) (a : Attribute) (as : List Attribute) :
    last? name (a :: as) = (last? name as).or (if a.name = name then some a.value else none) := by
  unfold last?
  rw [List.filter_cons]
  by_cases hname : a.name = name
  · simp only [hname, decide_true, if_true]
    cases hlast : (as.filter fun a => a.name = name).getLast? with
    | none =>
      rw [List.getLast?_eq_none_iff.mp hlast]
      rfl
    | some b => rw [List.getLast?_cons, hlast]; rfl
  · simp [hname]

namespace Directives

/-- A field holds what the text that was given for it reads as; without one, what it held before. -/
def Says {ε α : Type} (read : String → Except ε α) (before : α) : Option String → α → Prop
  | none, x => x = before
  | some text, x => read text = .ok x

namespace Draft

variable {d d' : Draft} {a : Attribute} {as : List Attribute}

/-- A field that attributes of one name write, and no others. -/
structure WrittenBy {ε α : Type} (name : String) (read : String → Except ε α) (field : Draft → α) :
    Prop where
  write {d d' : Draft} {a : Attribute} (h : d.take a = .ok d') (hname : a.name = name) :
    read a.value = .ok (field d')
  keep {d d' : Draft} {a : Attribute} (h : d.take a = .ok d') (hname : a.name ≠ name) :
    field d' = field d

/-- **The last write counts.** -/
theorem WrittenBy.holds_last {ε α : Type} {name : String} {read : String → Except ε α}
    {field : Draft → α} (hfield : WrittenBy name read field)
    (h : d.takeAll (as.map .ok) = .ok d') :
    Says read (field d) (Attribute.last? name as) (field d') := by
  refine takeAll_induction
    (motive := fun as d d' => Says read (field d) (Attribute.last? name as) (field d'))
    (fun d => rfl) (fun d a d₁ as d' htake ih => ?_) h
  rw [Attribute.last?_cons]
  cases hlast : Attribute.last? name as with
  | some text =>
    rw [hlast] at ih
    exact ih
  | none =>
    rw [hlast] at ih
    change field d' = field d₁ at ih
    by_cases hname : a.name = name
    · rw [if_pos hname, ih]
      exact hfield.write htake hname
    · rw [if_neg hname, ih]
      exact hfield.keep htake hname

theorem writtenBy_timeout : WrittenBy "timeout" Duration.parse fun d => d.directives.timeout where
  write h hname := by cases takes_of_take h <;> simp_all [knownNames]
  keep h hname := by cases takes_of_take h <;> simp_all

theorem writtenBy_ttl : WrittenBy "ttl" Duration.parse fun d => d.directives.ttl where
  write h hname := by cases takes_of_take h <;> simp_all [knownNames]
  keep h hname := by cases takes_of_take h <;> simp_all

theorem writtenBy_onError :
    WrittenBy (ε := Empty) "onerror" .ok fun d => d.directives.onError where
  write h hname := by cases takes_of_take h <;> simp_all [knownNames]
  keep h hname := by cases takes_of_take h <;> simp_all

/-- Only `forwardheaders` sets the headers of a request. -/
theorem writtenBy_forwarded :
    WrittenBy (ε := Empty) "forwardheaders" (fun text => .ok (HeaderSelection.parse text))
      fun d => d.directives.forwarded where
  write h hname := by cases takes_of_take h <;> simp_all [knownNames]
  keep h hname := by cases takes_of_take h <;> simp_all

/-- Only `returnheaders` sets the headers of an answer. -/
theorem writtenBy_returned :
    WrittenBy (ε := Empty) "returnheaders" (fun text => .ok (HeaderSelection.parse text))
      fun d => d.directives.returned where
  write h hname := by cases takes_of_take h <;> simp_all [knownNames]
  keep h hname := by cases takes_of_take h <;> simp_all

/-- Only `condition` sets the condition. -/
theorem writtenBy_condition :
    WrittenBy "condition" (fun text => (Condition.compile text).map some)
      fun d => d.directives.condition where
  write h hname := by cases takes_of_take h <;> simp_all [knownNames, Except.map]
  keep h hname := by cases takes_of_take h <;> simp_all

end Draft

end Directives

/-! ## The sources

The attributes `src` and `key` are calls to the builder of the sources, in the order in which they
stand. -/

namespace SourceBuilder

/-- Adds what attributes ask for, up to the first one that fails. -/
def callAll (b : SourceBuilder) : List Call → Except Template.CompileError SourceBuilder
  | [] => .ok b
  | c :: cs =>
    match b.call c with
    | .error cause => .error cause
    | .ok b => b.callAll cs

end SourceBuilder

namespace Attribute

/-- What the attribute asks of the sources, if its name is `src` or `key`. -/
def call? (a : Attribute) : Option SourceBuilder.Call :=
  if a.name = "src" then some (.src a.value)
  else if a.name = "key" then some (.key a.value)
  else none

/-- What attributes ask of the sources, in order. -/
def calls (as : List Attribute) : List SourceBuilder.Call :=
  as.filterMap call?

/-- Each call is that of an attribute with one of the two names. -/
theorem mem_calls_iff {as : List Attribute} {c : SourceBuilder.Call} : c ∈ calls as ↔
    ∃ a ∈ as, (a.name = "src" ∧ c = .src a.value) ∨ (a.name = "key" ∧ c = .key a.value) := by
  unfold calls
  rw [List.mem_filterMap]
  refine exists_congr fun a => and_congr_right fun _ => ?_
  unfold call?
  by_cases hsrc : a.name = "src"
  · simp [hsrc, eq_comm]
  · by_cases hkey : a.name = "key"
    · simp [hkey, eq_comm]
    · simp [hsrc, hkey]

end Attribute

namespace Directives.Draft

variable {d d' : Draft} {a : Attribute} {as : List Attribute}

/-- What an attribute does to the builder is its call, if it has one. -/
theorem builder_take (h : d.take a = .ok d') :
    (match a.call? with
      | none => .ok d.builder
      | some c => d.builder.call c) = Except.ok d'.builder := by
  unfold Attribute.call?
  cases takes_of_take h <;> simp_all [knownNames, SourceBuilder.call]

/-- **The sources come from the `src` and `key` attributes alone.** -/
theorem callAll_takeAll (h : d.takeAll (as.map .ok) = .ok d') :
    d.builder.callAll (Attribute.calls as) = .ok d'.builder := by
  refine takeAll_induction
    (motive := fun as d d' => d.builder.callAll (Attribute.calls as) = .ok d'.builder)
    (fun d => rfl) (fun d a d₁ as d' htake ih => ?_) h
  have hstep := builder_take htake
  unfold Attribute.calls at ih ⊢
  rw [List.filterMap_cons]
  cases hcall : a.call? with
  | none =>
    rw [hcall] at hstep
    rw [Except.ok.inj hstep]
    exact ih
  | some c =>
    rw [hcall] at hstep
    change d.builder.call c = .ok d₁.builder at hstep
    rw [SourceBuilder.callAll, hstep]
    exact ih

end Directives.Draft

/-! ## The whole tag

An include with an empty tag is left as it is, and any other takes the directives of its tag. -/

namespace Include

variable {i i' : Include} {e : TagError}

theorem parse_of_nil (hraw : i.raw = []) : i.parse = .ok i := by
  unfold parse
  rw [if_pos hraw]

/-- A tag gives its include new directives and changes nothing else of it. -/
theorem parse_eq (hraw : i.raw ≠ []) :
    i.parse = (Directives.ofTag i.raw).map fun directives => { i with directives } := by
  unfold parse
  rw [if_neg hraw]
  cases Directives.ofTag i.raw <;> rfl

theorem parse_eq_ok_iff (hraw : i.raw ≠ []) : i.parse = .ok i' ↔
    ∃ directives, Directives.ofTag i.raw = .ok directives ∧ i' = { i with directives } := by
  rw [parse_eq hraw]
  cases Directives.ofTag i.raw <;> simp [Except.map, eq_comm]

theorem parse_eq_error_iff (hraw : i.raw ≠ []) :
    i.parse = .error e ↔ Directives.ofTag i.raw = .error e := by
  rw [parse_eq hraw]
  cases Directives.ofTag i.raw <;> simp [Except.map]

/-- An include that was read differs in what it asks for only. -/
theorem eq_of_parse (h : i.parse = .ok i') : i' = { i with directives := i'.directives } := by
  by_cases hraw : i.raw = []
  · rw [parse_of_nil hraw] at h
    cases h
    rfl
  · obtain ⟨d, -, rfl⟩ := (parse_eq_ok_iff hraw).mp h
    rfl

/-- Reading again what was just read changes nothing. -/
theorem parse_of_parse (h : i.parse = .ok i') : i'.parse = .ok i' := by
  by_cases hraw : i.raw = []
  · rw [parse_of_nil hraw] at h
    cases h
    exact parse_of_nil hraw
  · obtain ⟨d, htag, rfl⟩ := (parse_eq_ok_iff hraw).mp h
    exact (parse_eq_ok_iff (i := { i with directives := d }) hraw).mpr ⟨d, htag, rfl⟩

end Include

end EdgeInclude
