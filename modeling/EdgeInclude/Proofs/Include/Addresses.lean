import EdgeInclude.Fetch.Table
import EdgeInclude.Proofs.Include.Building
import EdgeInclude.Proofs.Include.History
import EdgeInclude.Proofs.Include.Scanning

/-!
# The addresses of a tag

The addresses that a tag names are tried one after the other: that of each `src`, and then that of the
last of its keys. An address is a value without the white space around it. A value has a byte or more,
but it can be nothing but white space, and then the address is empty.

* **`SourceBuilder.tried`**: the calls whose addresses are tried. **`candidates_spelled`**.
* **`Include.Holds`**: an include holds what a tag asks for. **`holds_of_parse`**: it does when it is read.
  **`exists_goesBy_editAll`**: whatever was done to it, there is such a tag.
* **`Include.Names`**: what the sources of an include are called for by. **`Holds.exists_names`**.
* **`Names.candidates_eq`**: the addresses of an include are those of the calls that are tried.
* **`empty_addresses_are_blank_values`**: which addresses are empty.
* **`blank_source_is_read`**: a tag is read though its addresses are empty.
-/

namespace EdgeInclude

open SourceBuilder

/-! ## Calls and the addresses they give

The addresses of an include in the order in which a fetch tries them, told by the calls its
attributes make. -/

/-- The addresses of a source, in the order in which they are tried. -/
def Source.candidates (s : Source) : List Address :=
  s.url.toList ++ s.key.toList

/-- The addresses of an include, in the order in which they are tried. -/
def Include.candidates (i : Include) : List Address :=
  i.directives.sources.items.flatMap Source.candidates

/-- A fetch tries the addresses in order, filled in for the request. -/
theorem Include.addresses_eq_map (i : Include) (r : Request) :
    i.addresses r = i.candidates.map (Address.render r) := by
  have hsource (s : Source) : s.addresses r = s.candidates.map (Address.render r) := by
    rw [Source.addresses, Source.candidates, List.map_append, Source.urlFor, Source.keyFor]
    cases s.url <;> cases s.key <;> rfl
  rw [Include.addresses, Include.candidates, List.map_flatMap]
  exact congrArg (List.flatMap · _) (funext hsource)

namespace SourceBuilder

variable {b b' : SourceBuilder} {cs : List Call}

/-- The calls whose addresses are tried, in order: each source, and the last of the keys that are for
it. Keys that come before any source are for the first one. -/
def tried (keys : List String) : List (String × List String) → List Call
  | [] => []
  | g :: gs => .src g.1 :: (((keys ++ g.2).getLast?.map Call.key).toList ++ tried [] gs)

/-- If no call fails, all of them count. -/
theorem attemptAll_of_callAll (h : b.callAll cs = .ok b') :
    (∀ c ∈ cs, c.address?.isSome = true) ∧ b.attemptAll cs = b' := by
  induction cs generalizing b with
  | nil => exact ⟨fun c hc => absurd hc List.not_mem_nil, Except.ok.inj h⟩
  | cons c cs ih =>
    rw [callAll] at h
    cases hcall : b.call c with
    | error cause =>
      rw [hcall] at h
      cases h
    | ok b₁ =>
      rw [hcall] at h
      have hattempt : b.attempt c = (b₁, none) := by rw [attempt, hcall]
      have hc : ∃ a, c.address? = some a := (attempt_spec b c).2.mp (by rw [hattempt])
      obtain ⟨hcs, hrest⟩ := ih h
      refine ⟨List.forall_mem_cons.mpr ⟨Option.isSome_iff_exists.mpr hc, hcs⟩, ?_⟩
      rw [attemptAll, hattempt]
      exact hrest

end SourceBuilder

/-- Of a source its own address is tried, and then its last key. -/
theorem Source.candidates_ofCalls {text : String} {keys : List String}
    (hsrc : (Call.src text).address?.isSome = true)
    (hkeys : ∀ key ∈ keys, (Call.key key).address?.isSome = true) (n : Nat) :
    (ofCalls n text keys).candidates.map some =
      (Call.src text).address? :: (keys.getLast?.map fun key => (Call.key key).address?).toList := by
  obtain ⟨url, hurl⟩ := Option.isSome_iff_exists.mp hsrc
  unfold candidates ofCalls
  rw [hurl]
  cases hlast : keys.getLast? with
  | none => rfl
  | some key =>
    obtain ⟨a, ha⟩ := Option.isSome_iff_exists.mp (hkeys key (List.mem_of_getLast? hlast))
    simp [ha]

/-- **The addresses of sources that are opened one after the other** are those of the calls that are
tried. -/
theorem candidates_spelled (n : Nat) {keys : List String} {gs : List (String × List String)}
    (h : ∀ c ∈ spelled keys gs, c.address?.isSome = true) :
    ((gs.mapIdx fun j g => Source.ofCalls (n + j) g.1 (if j = 0 then keys ++ g.2 else g.2)).flatMap
      Source.candidates).map some = (tried keys gs).map Call.address? := by
  induction gs generalizing n keys with
  | nil => rfl
  | cons g gs ih =>
    have hsrc : (Call.src g.1).address?.isSome = true := h _ (by simp [spelled])
    have hkeys : ∀ key ∈ keys ++ g.2, (Call.key key).address?.isSome = true := by
      intro key hkey
      refine h _ ?_
      rcases List.mem_append.mp hkey with hkey | hkey <;> simp [spelled, hkey]
    -- behind the first source no keys are left over for the next one
    have hrest : ∀ c ∈ spelled [] gs, c.address?.isSome = true := by
      intro c hc
      refine h c ?_
      rw [spelled, List.map_nil, List.nil_append] at hc
      simp [spelled, hc]
    have hplace : (fun j (g : String × List String) =>
        Source.ofCalls (n + (j + 1)) g.1 (if j + 1 = 0 then keys ++ g.2 else g.2)) =
        fun j g => Source.ofCalls (n + 1 + j) g.1 (if j = 0 then [] ++ g.2 else g.2) := by
      funext j g
      rw [if_neg (Nat.succ_ne_zero j), List.nil_append, ite_self, Nat.add_right_comm n 1 j]
      rfl
    rw [List.mapIdx_cons, hplace, List.flatMap_cons, List.map_append, ih (n + 1) hrest, if_pos rfl,
      Source.candidates_ofCalls hsrc hkeys, tried, List.map_cons, List.map_append]
    cases (keys ++ g.2).getLast? <;> rfl

namespace Include

variable {i i' : Include} {tag : Bytes}

/-! ## What an include holds

The tag whose directives an include holds is its own if it was read last; an empty tag leaves the
directives of the one before. -/

/-- The include holds what a tag asks for. An empty tag asks for nothing. -/
def Holds (i : Include) (tag : Bytes) : Prop :=
  if tag = [] then i.directives = {} else Directives.ofTag tag = .ok i.directives

/-- Reading the include goes by this tag: its own, or, if that is empty, the one whose directives it
holds already. -/
def GoesBy (i : Include) (tag : Bytes) : Prop :=
  if i.raw = [] then i.Holds tag else tag = i.raw

theorem goesBy_raw (hraw : i.raw ≠ []) : i.GoesBy i.raw := by
  rw [GoesBy, if_neg hraw]

/-- There is such a tag for every include that was made for a tag, whatever was done to it since. -/
theorem exists_goesBy_editAll (raw : Bytes) (start stop : Nat) (es : List Edit) :
    ∃ tag, ((ofTag raw start stop).editAll es).GoesBy tag := by
  have hlast := lastRead_editAll (ofTag raw start stop) es
  by_cases hraw : ((ofTag raw start stop).editAll es).raw = []
  · simp only [GoesBy, if_pos hraw, Holds]
    generalize readings (ofTag raw start stop).raw es = raws at hlast
    generalize ((ofTag raw start stop).editAll es).directives = d at hlast ⊢
    cases hlast with
    | none => exact ⟨[], by rw [if_pos rfl]; rfl⟩
    | @last _ _ tag _ h => exact ⟨tag, by rw [if_neg h.1]; exact h.2⟩
  · exact ⟨_, goesBy_raw hraw⟩

/-- An include that is read holds what the tag asks for. -/
theorem holds_of_parse (htag : i.GoesBy tag) (h : i.parse = .ok i') : i'.Holds tag := by
  by_cases hraw : i.raw = []
  · rw [parse_of_nil hraw] at h
    obtain rfl := Except.ok.inj h
    rwa [GoesBy, if_pos hraw] at htag
  · rw [GoesBy, if_neg hraw] at htag
    subst htag
    obtain ⟨directives, hdirectives, rfl⟩ := (parse_eq_ok_iff hraw).mp h
    rwa [Holds, if_neg hraw]

/-- The sources of an include are those that the attributes of a tag call for: keys, and then each source
with the keys behind it. -/
structure Names (i : Include) (tag : Bytes) (as : List Attribute) (keys : List String)
    (gs : List (String × List String)) : Prop where
  scan : Attribute.scan tag = as.map .ok
  calls : spelled keys gs = Attribute.calls as
  good : ∀ c ∈ spelled keys gs, c.address?.isSome = true
  ne_nil : tag ≠ [] → gs ≠ []
  items : i.directives.sources.items = gs.mapIdx fun n g =>
    .ofCalls n g.1 (if n = 0 then keys ++ g.2 else g.2)

/-- An include that holds what a tag asks for has its sources named by the attributes of the tag. -/
theorem Holds.exists_names (h : i.Holds tag) : ∃ as keys gs, i.Names tag as keys gs := by
  unfold Holds at h
  split at h
  · rename_i hnil
    subst hnil
    refine ⟨[], [], [], Attribute.scan_nil, rfl, by simp [spelled], fun hne => absurd rfl hne, ?_⟩
    rw [h]
    rfl
  · obtain ⟨as, hscan, hasked⟩ := Directives.askedBy_ofTag h
    obtain ⟨b, hcalls, hsources⟩ := hasked.sources
    obtain ⟨hgood, rfl⟩ := attemptAll_of_callAll hcalls
    -- one of the attributes opens a source
    have hne : (groups (Attribute.calls as)).2 ≠ [] := by
      obtain ⟨-, a, ha, hname⟩ := Directives.ofTag_eq_ok h
      rw [hscan] at ha
      obtain ⟨a', ha', heq⟩ := List.mem_map.mp ha
      obtain rfl := Except.ok.inj heq
      have hcall := Attribute.mem_calls_iff.mpr ⟨a', ha', .inl ⟨hname, rfl⟩⟩
      rw [← spelled_groups (Attribute.calls as)] at hcall
      obtain ⟨g, hg, -⟩ := src_mem_spelled.mp hcall
      exact List.ne_nil_of_mem hg
    refine ⟨as, _, _, hscan, spelled_groups _, by rwa [spelled_groups], fun _ => hne, ?_⟩
    rw [hsources, items_attemptAll hgood hne]

/-- **The addresses of an include are those of the calls that are tried.** -/
theorem Names.candidates_eq {as : List Attribute} {keys : List String}
    {gs : List (String × List String)} (h : i.Names tag as keys gs) :
    (tried keys gs).map Call.address? = i.candidates.map some := by
  rw [candidates, h.items, ← candidates_spelled 0 h.good]
  simp only [Nat.zero_add]

end Include

/-! ## Empty addresses

Trimming happens behind the check for emptiness, so an address can be empty: exactly where the value
is white space. -/

/-- The value of an attribute is white space and nothing else. -/
def Occurrence.IsBlank (o : Occurrence) : Prop :=
  ∃ text, Utf8.encode text = o.value ∧ ∀ c ∈ text.toList, Text.isBlank c = true

/-- What is left of a text is empty if all of it is white space. -/
theorem Text.trim_eq_empty_iff {text : String} :
    Text.trim text = "" ↔ ∀ c ∈ text.toList, Text.isBlank c = true := by
  rw [Text.trim_eq_iff]
  constructor
  · rintro ⟨before, after, htext, hbefore, hafter, -, -⟩ c hc
    rw [htext, String.toList_empty, List.append_nil] at hc
    rcases List.mem_append.mp hc with hc | hc
    · exact hbefore c hc
    · exact hafter c hc
  · intro h
    exact ⟨text.toList, [], by simp, h, by simp, by simp, by simp⟩

namespace Attribute

variable {tag : Bytes} {as : List Attribute}

/-- The attributes of some name that are empty are those whose value is blank. -/
theorem exists_empty_iff (hscan : scan tag = as.map .ok) (name : String) :
    (∃ a ∈ as, a.name = name ∧ a.value = "") ↔
      ∃ o ∈ Occurrence.all tag, o.lowerName = name ∧ o.IsBlank := by
  constructor
  · rintro ⟨a, ha, hname, hvalue⟩
    have hmem : .ok a ∈ scan tag := hscan ▸ List.mem_map_of_mem ha
    obtain ⟨o, ho, hread⟩ := List.mem_map.mp hmem
    -- an attribute is told trimmed, so it is empty if its text was blank
    unfold Occurrence.read at hread
    split at hread
    · cases hread
    · rename_i text hdecode
      obtain rfl := Except.ok.inj hread
      exact ⟨o, ho, hname, text, Utf8.decode?_eq_some_iff.mp hdecode,
        Text.trim_eq_empty_iff.mp hvalue⟩
  · rintro ⟨o, ho, hname, text, htext, hblank⟩
    have hread : o.read = .ok ⟨o.lowerName, Text.trim text, o.quote, o.offset⟩ := by
      rw [Occurrence.read, Utf8.decode?_eq_some_iff.mpr htext]
    have hmem : o.read ∈ as.map .ok := hscan ▸ List.mem_map_of_mem ho
    rw [hread] at hmem
    obtain ⟨a, ha, heq⟩ := List.mem_map.mp hmem
    obtain rfl := Except.ok.inj heq
    exact ⟨_, ha, hname, Text.trim_eq_empty_iff.mpr hblank⟩

end Attribute

namespace Include

variable {i i' : Include}

namespace Names

variable {tag : Bytes} {as : List Attribute} {keys : List String} {gs : List (String × List String)}
variable {s : Source}

theorem mem_items (h : i.Names tag as keys gs) : s ∈ i.directives.sources.items ↔
    ∃ n, ∃ hn : n < gs.length,
      .ofCalls n gs[n].1 (if n = 0 then keys ++ gs[n].2 else gs[n].2) = s := by
  rw [h.items, List.mem_mapIdx]

/-- Each source has an address. -/
theorem exists_url (h : i.Names tag as keys gs) (hs : s ∈ i.directives.sources.items) :
    ∃ url, s.url = some url := by
  obtain ⟨n, hn, rfl⟩ := h.mem_items.mp hs
  have hcall : Call.src gs[n].1 ∈ spelled keys gs := src_mem_spelled.mpr ⟨_, List.getElem_mem hn, rfl⟩
  exact Option.isSome_iff_exists.mp (h.good _ hcall)

/-- The addresses of the sources are written in the `src` attributes. -/
theorem exists_url_iff (h : i.Names tag as keys gs) (text : String) :
    (∃ s ∈ i.directives.sources.items, ∃ url, s.url = some url ∧ url.source = text) ↔
      ∃ a ∈ as, a.name = "src" ∧ a.value = text := by
  have hattribute : (∃ a ∈ as, a.name = "src" ∧ a.value = text) ↔ .src text ∈ spelled keys gs := by
    rw [h.calls, Attribute.mem_calls_iff]
    simp [eq_comm]
  rw [hattribute]
  constructor
  · rintro ⟨s, hs, url, hurl, rfl⟩
    obtain ⟨n, hn, rfl⟩ := h.mem_items.mp hs
    exact src_mem_spelled.mpr ⟨_, List.getElem_mem hn, (Call.source_of_address? hurl).symm⟩
  · intro hcall
    obtain ⟨url, hurl⟩ := Option.isSome_iff_exists.mp (h.good _ hcall)
    obtain ⟨g, hg, rfl⟩ := src_mem_spelled.mp hcall
    obtain ⟨n, hn, rfl⟩ := List.getElem_of_mem hg
    exact ⟨_, h.mem_items.mpr ⟨n, hn, rfl⟩, url, hurl, Call.source_of_address? hurl⟩

/-- A second address is written in a `key` attribute. -/
theorem exists_key (h : i.Names tag as keys gs) (hs : s ∈ i.directives.sources.items) {key : Address}
    (hkey : s.key = some key) : ∃ a ∈ as, a.name = "key" ∧ a.value = key.source := by
  obtain ⟨n, hn, rfl⟩ := h.mem_items.mp hs
  obtain ⟨text, hlast, haddress⟩ := Option.bind_eq_some_iff.mp hkey
  have hcall : Call.key text ∈ Attribute.calls as := by
    have htext := List.mem_of_getLast? hlast
    rw [← h.calls, key_mem_spelled]
    split at htext
    · exact (List.mem_append.mp htext).imp_right fun htext => ⟨_, List.getElem_mem hn, htext⟩
    · exact .inr ⟨_, List.getElem_mem hn, htext⟩
  rw [Call.source_of_address? haddress]
  obtain ⟨a, ha, ⟨-, hsrc⟩ | ⟨hname, htext⟩⟩ := Attribute.mem_calls_iff.mp hcall
  · cases hsrc
  · exact ⟨a, ha, hname, (Call.key.inj htext).symm⟩

end Names

/-- **Which addresses are empty.** A tag that is read opens a source, each of its sources has an address,
and no attribute has an empty value. But a value of white space is one, and the address that it gives is
empty: there is a source with an empty address just if the value of some `src` is blank, and an empty
second address comes from a `key` with a blank value. -/
theorem empty_addresses_are_blank_values (hraw : i.raw ≠ []) (h : i.parse = .ok i') :
    i'.directives.sources.items ≠ [] ∧
    (∀ s ∈ i'.directives.sources.items, ∃ url, s.url = some url) ∧
    (∀ o ∈ Occurrence.all i.raw, o.value ≠ []) ∧
    ((∃ s ∈ i'.directives.sources.items, ∃ url, s.url = some url ∧ url.source = "") ↔
      ∃ o ∈ Occurrence.all i.raw, o.lowerName = "src" ∧ o.IsBlank) ∧
    ∀ s ∈ i'.directives.sources.items, ∀ key, s.key = some key → key.source = "" →
      ∃ o ∈ Occurrence.all i.raw, o.lowerName = "key" ∧ o.IsBlank := by
  obtain ⟨as, keys, gs, hnames⟩ := (holds_of_parse (goesBy_raw hraw) h).exists_names
  have hstands := (Occurrence.leftmost_iff.mpr (rfl : Occurrence.all i.raw = _)).standsIn
  refine ⟨?_, fun s hs => hnames.exists_url hs, fun o ho => (hstands o ho).value_ne_nil,
    (hnames.exists_url_iff "").trans (Attribute.exists_empty_iff hnames.scan "src"),
    fun s hs key hkey hempty => ?_⟩
  · rw [hnames.items]
    simpa using hnames.ne_nil hraw
  · obtain ⟨a, ha, hname, hvalue⟩ := hnames.exists_key hs hkey
    exact (Attribute.exists_empty_iff hnames.scan "key").mp ⟨a, ha, hname, hvalue.trans hempty⟩

/-- A tag whose source is a space, and whose key is a no-break space. -/
def blankTag : Include :=
  ofTag (Utf8.encode "<esi:include src=' ' key='\u00a0'/>") 0 34

/-- What it asks for. -/
def blankDirectives : Directives where
  sources := ⟨[{ index := 0, url := some (.literal ""), key := some (.literal "") }], [(0, 0)]⟩

theorem parse_blankTag : blankTag.parse = .ok { blankTag with directives := blankDirectives } := by
  decide +kernel

/-- The one address of a tag with a no-break space for its `src` is empty. -/
theorem empty_addresses_are_blank_values_nbsp :
    blankTag.raw ≠ [] ∧ blankTag.parse = .ok { blankTag with directives := blankDirectives } ∧
      (∃ o ∈ Occurrence.all blankTag.raw, o.lowerName = "src" ∧ o.IsBlank) ∧
      ∃ o ∈ Occurrence.all blankTag.raw, o.lowerName = "key" ∧ o.IsBlank := by
  have hraw : blankTag.raw ≠ [] := by decide
  obtain ⟨-, -, -, hsrc, hkey⟩ := empty_addresses_are_blank_values hraw parse_blankTag
  exact ⟨hraw, parse_blankTag, hsrc.mp ⟨_, List.mem_cons_self, _, rfl, rfl⟩,
    hkey _ List.mem_cons_self _ rfl rfl⟩

/-- **A tag is read though its addresses are empty.** Its values are white space, and they are trimmed
only after it was seen that they are not empty. -/
theorem blank_source_is_read :
    blankTag.raw ≠ [] ∧ ∃ i', blankTag.parse = .ok i' ∧ ∃ s ∈ i'.directives.sources.items,
      (∃ url, s.url = some url ∧ url.source = "") ∧ ∃ key, s.key = some key ∧ key.source = "" :=
  ⟨by decide, _, parse_blankTag, _, List.mem_cons_self, ⟨_, rfl, rfl⟩, _, rfl, rfl⟩

end Include

end EdgeInclude
