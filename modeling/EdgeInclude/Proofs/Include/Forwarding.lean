import EdgeInclude.Include.Parser
import EdgeInclude.Proofs.Include.Scanning
import EdgeInclude.Proofs.Text.Splitting

/-!
# The headers that a tag passes on

A tag says which headers of a request it passes on: all of them, or those that it lists with commas
between them. A listed name stands for the field of that name in whatever case, and a field is passed on
with all its values or not at all.

* **`HeaderSelection.Lists`**: a text lists a name. **`allows_parse_iff`**: then the name is chosen.
* **`allows_of_lowerCase_eq`**: the case of what is listed makes no difference.
* **`forwards_just_what_is_listed`**: what is passed on, for any text and any request.
-/

namespace EdgeInclude

/-! ## The case of a text

Names are compared in small letters, so what a list names depends on its text in small letters
alone. -/

namespace Text

/-- A character in lower case is itself, or the small letter for a capital one. -/
theorem toLower_cases (c : Char) :
    c.toLower = c ∨ (65 ≤ c.toNat ∧ c.toNat ≤ 90 ∧ c.toLower.toNat = c.toNat + 32) := by
  unfold Char.toLower
  split
  · rename_i h
    have hlow : 65 ≤ c.toNat := h.1
    have hhigh : c.toNat ≤ 90 := h.2
    refine .inr ⟨hlow, hhigh, ?_⟩
    show (c.val + ('a'.val - 'A'.val)).toNat = c.val.toNat + 32
    have hlt : c.val.toNat ≤ 90 := hhigh
    have hstep : ('a'.val - 'A'.val).toNat = 32 := by decide
    rw [UInt32.toNat_add, hstep]
    omega
  · exact .inl rfl

/-- Small letters stay. -/
theorem toLower_toLower (c : Char) : c.toLower.toLower = c.toLower := by
  rcases toLower_cases c with h | ⟨hlow, -, hc⟩
  · rw [h, h]
  · rcases toLower_cases c.toLower with h | ⟨-, hhigh, -⟩
    · exact h
    · omega

/-- White space has no case. -/
theorem isBlank_toLower (c : Char) : isBlank c.toLower = isBlank c := by
  rcases toLower_cases c with h | ⟨hlow, hhigh, hc⟩
  · rw [h]
  · have hnot (d : Char) (hd : 65 ≤ d.toNat ∧ d.toNat ≤ 122) : isBlank d = false := by
      simp only [isBlank, Bool.or_eq_false_iff, Bool.and_eq_false_iff, beq_eq_false_iff_ne,
        decide_eq_false_iff_not]
      omega
    rw [hnot c (by omega), hnot c.toLower (by omega)]

/-- A comma has no case. -/
theorem toLower_eq_comma_iff {c : Char} : c.toLower = ',' ↔ c = ',' := by
  rcases toLower_cases c with h | ⟨hlow, hhigh, hc⟩
  · rw [h]
  · refine iff_of_false (fun h => ?_) (fun h => ?_)
    · rw [h] at hc
      have hcomma : (',' : Char).toNat = 44 := by decide
      omega
    · rw [h] at hlow
      exact absurd hlow (by decide)

end Text

/-! ## Fields under a name

A field is found under each way to write its name. -/

namespace Headers

variable {name : String}

theorem lowerCase_lowerCase (text : String) : lowerCase (lowerCase text) = lowerCase text := by
  have hchars : Char.toLower ∘ Char.toLower = Char.toLower := funext Text.toLower_toLower
  rw [lowerCase, lowerCase, String.toList_ofList, List.map_map, hchars]

/-- A field is selected with all its values or not at all. -/
theorem values_select (h : Headers) (p : String → Bool) (name : String) :
    (h.select p).values name = if p (lowerCase name) then h.values name else [] := by
  unfold values select
  rw [List.filter_filter]
  split
  · rename_i hp
    congr 1
    refine List.filter_congr fun entry _ => ?_
    by_cases hname : entry.1 = lowerCase name
    · simp [hname, hp]
    · simp [hname]
  · rename_i hp
    have hnone : (h.entries.filter fun entry =>
        decide (entry.1 = lowerCase name) && p entry.1) = [] := by
      rw [List.filter_eq_nil_iff]
      intro entry _
      by_cases hname : entry.1 = lowerCase name
      · simp [hname, hp]
      · simp [hname]
    rw [hnone, List.map_nil]

end Headers

/-! ## What a text lists

A list names what stands between its commas, without white space around it and without empty parts;
`all` is the one text that is no list. -/

namespace HeaderSelection

variable {text text' name : String}

/-- A text lists a name: in some case the name stands between its commas, apart from white space. -/
def Lists (text name : String) : Prop :=
  ∃ piece listed, Text.IsPiece ',' text.toList piece ∧ Text.IsTrimOf piece listed ∧ listed ≠ [] ∧
    Headers.lowerCase (String.ofList listed) = Headers.lowerCase name

theorem parse_of_ne_all (h : text ≠ "all") : parse text =
    { names := (((Text.splitAt ',' text.toList).map Text.trimChars).filter
        fun name => !name.isEmpty).map String.ofList } :=
  if_neg h

/-- **A name is chosen if it is listed.** -/
theorem allows_parse_iff (h : text ≠ "all") :
    (parse text).allows name = true ↔ Lists text name := by
  rw [parse_of_ne_all h, allows, Bool.false_or, List.any_map, List.any_eq_true]
  simp only [List.mem_filter, List.mem_map, Function.comp_apply, decide_eq_true_eq,
    Bool.not_eq_true', List.isEmpty_eq_false_iff]
  constructor
  · rintro ⟨listed, ⟨⟨piece, hpiece, rfl⟩, hne⟩, hname⟩
    exact ⟨piece, _, Text.mem_splitAt_iff.mp hpiece, Text.isTrimOf_trimChars piece, hne, hname⟩
  · rintro ⟨piece, listed, hpiece, htrim, hne, hname⟩
    obtain rfl := Text.eq_trimChars_of_isTrimOf htrim
    exact ⟨_, ⟨⟨piece, Text.mem_splitAt_iff.mpr hpiece, rfl⟩, hne⟩, hname⟩

theorem allows_lowerCase (s : HeaderSelection) (name : String) :
    s.allows (Headers.lowerCase name) = s.allows name := by
  simp only [allows, Headers.lowerCase_lowerCase]

/-- What is chosen, told by the listed names in lower case. -/
theorem allows_parse (h : text ≠ "all") : (parse text).allows name =
    (((Text.splitAt ',' (Headers.lowerCase text).toList).map Text.trimChars).filter
      fun name => !name.isEmpty).any fun listed => String.ofList listed = Headers.lowerCase name := by
  have hlower : (Headers.lowerCase text).toList = text.toList.map Char.toLower :=
    String.toList_ofList
  have hpieces : Text.trimChars ∘ List.map Char.toLower = List.map Char.toLower ∘ Text.trimChars :=
    funext (Text.trimChars_map Text.isBlank_toLower)
  rw [parse_of_ne_all h, allows, Bool.false_or, hlower,
    Text.splitAt_map fun c => Text.toLower_eq_comma_iff, List.map_map, hpieces, ← List.map_map]
  generalize (Text.splitAt ',' text.toList).map Text.trimChars = pieces
  rw [List.filter_map, List.any_map, List.any_map]
  simp only [Function.comp_def, List.isEmpty_map, Headers.lowerCase, String.toList_ofList]
  rfl

/-- **The case of what is listed makes no difference.** -/
theorem allows_of_lowerCase_eq (h : text ≠ "all") (h' : text' ≠ "all")
    (hcase : Headers.lowerCase text' = Headers.lowerCase text) :
    (parse text').allows = (parse text).allows := by
  funext name
  rw [allows_parse h, allows_parse h', hcase]

theorem all_parse (h : text ≠ "all") : (parse text).all = false := by
  rw [parse_of_ne_all h]

theorem apply_parse (h : text ≠ "all") (headers : Headers) :
    (parse text).apply headers = headers.select (parse text).allows := by
  rw [apply, all_parse h, if_neg Bool.false_ne_true]

end HeaderSelection

/-! ## What is passed on

What a selection does to the fields of a request. -/

namespace Include

open HeaderSelection

variable {i : Include} {text : String}

/-- **A tag passes on just the headers that it names.** With the word `all` it passes on all there are.
Otherwise a field is passed on, with all its values in their order, if its name is listed in some case,
and else not at all; nothing is added, and nothing is there twice. In what case a name is listed makes no
difference, unless that makes the text the word `all`. -/
theorem forwards_just_what_is_listed (hi : i.directives.forwarded = HeaderSelection.parse text)
    (r : Request) :
    (text = "all" → i.forwardedHeaders r = r.headers) ∧
    (text ≠ "all" →
      (∀ name, Lists text name → (i.forwardedHeaders r).values name = r.headers.values name) ∧
      (∀ name, ¬ Lists text name → (i.forwardedHeaders r).values name = []) ∧
      (i.forwardedHeaders r).entries.Sublist r.headers.entries ∧
      (∀ entry ∈ (i.forwardedHeaders r).entries, Lists text entry.1) ∧
      ∀ (j : Include) (text' : String), j.directives.forwarded = HeaderSelection.parse text' →
        text' ≠ "all" → Headers.lowerCase text' = Headers.lowerCase text →
          j.forwardedHeaders r = i.forwardedHeaders r) := by
  refine ⟨?_, fun htext => ?_⟩
  · rintro rfl
    rw [forwardedHeaders, hi]
    rfl
  have hselect : i.forwardedHeaders r = r.headers.select (HeaderSelection.parse text).allows := by
    rw [forwardedHeaders, hi, apply_parse htext]
  -- a selection keeps or drops all fields of a name at once
  have hvalues (name : String) : (i.forwardedHeaders r).values name =
      if (HeaderSelection.parse text).allows name then r.headers.values name else [] := by
    rw [hselect, Headers.values_select, allows_lowerCase]
  refine ⟨fun name hname => ?_, fun name hname => ?_, ?_, fun entry hentry => ?_, ?_⟩
  · rw [hvalues, if_pos ((allows_parse_iff htext).mpr hname)]
  · rw [hvalues, if_neg (mt (allows_parse_iff htext).mp hname)]
  · rw [hselect]
    exact List.filter_sublist
  · rw [hselect] at hentry
    exact (allows_parse_iff htext).mp (List.mem_filter.mp hentry).2
  · intro j text' hj htext' hcase
    rw [hselect, forwardedHeaders, hj, apply_parse htext',
      allows_of_lowerCase_eq htext htext' hcase]

/-- A tag that lists one name twice, an empty one, and one with white space around it. -/
def listing : Include :=
  ofTag (Utf8.encode "<a src='u' forwardheaders='X-Trace,, cookie ,x-trace,all'/>") 0 60

/-- A request with a field of two values, and one that the tag does not list. -/
def traced : Request :=
  (((({ id := "" } : Request).withHeader "X-TRACE" "1").withHeader "Secret" "s").withHeader "Cookie"
    "c").withHeader "x-trace" "2"

/-- A list with an empty part, with a name twice and with `all` among its names. -/
theorem forwards_just_what_is_listed_traced :
    ∃ i, listing.parse = .ok i ∧
      i.directives.forwarded = HeaderSelection.parse "X-Trace,, cookie ,x-trace,all" ∧
      Lists "X-Trace,, cookie ,x-trace,all" "COOKIE" ∧
      (i.forwardedHeaders traced).values "COOKIE" = [Utf8.encode "c"] ∧
      (i.forwardedHeaders traced).entries =
        [("x-trace", Utf8.encode "1"), ("cookie", Utf8.encode "c"), ("x-trace", Utf8.encode "2")] ∧
      ¬ Lists "X-Trace,, cookie ,x-trace,all" "secret" ∧
      (i.forwardedHeaders traced).values "secret" = [] := by
  have htext : "X-Trace,, cookie ,x-trace,all" ≠ "all" := by decide
  have hread : (listing.parse.toOption.map fun i =>
      (i.directives.forwarded, (i.forwardedHeaders traced).entries)) =
        some (HeaderSelection.parse "X-Trace,, cookie ,x-trace,all", [("x-trace", Utf8.encode "1"),
          ("cookie", Utf8.encode "c"), ("x-trace", Utf8.encode "2")]) := by
    decide +kernel
  cases hparse : listing.parse with
  | error e =>
    rw [hparse] at hread
    cases hread
  | ok i =>
    rw [hparse] at hread
    obtain ⟨hi, hentries⟩ := Prod.mk.inj (Option.some.inj hread)
    obtain ⟨hlisted, hunlisted, -⟩ := (forwards_just_what_is_listed hi traced).2 htext
    have hcookie : Lists "X-Trace,, cookie ,x-trace,all" "COOKIE" :=
      (allows_parse_iff htext).mp (by decide +kernel)
    have hsecret : ¬ Lists "X-Trace,, cookie ,x-trace,all" "secret" :=
      mt (allows_parse_iff htext).mpr (by decide +kernel)
    refine ⟨i, rfl, hi, hcookie, (hlisted "COOKIE" hcookie).trans ?_, hentries, hsecret,
      hunlisted "secret" hsecret⟩
    decide +kernel

end Include

end EdgeInclude
