import EdgeInclude.Proofs.Include.Unknown

/-!
# Quotes of either style

If every double quote in a tag is exchanged for a single one and every single quote for a double one, the
same attributes stand at the same places, each in quotes of the other style. So the style makes no
difference to what a tag is read as, as long as no value holds a quote.

* **`StandsIn.requoted`**, **`Leftmost.requoted`**: the attributes of a tag with exchanged quotes.
* **`encode_swapText`**, **`read_requoted`**: what is told of them.
* **`takeAll_map`**: attributes that say the same are taken alike.
* **`quote_styles_are_interchangeable`**: the same of a scan, and of an include that is read.
-/

namespace EdgeInclude

namespace QuoteStyle

/-! ## Exchanging quotes

The exchange is its own inverse, and it moves no byte but the two quotes. -/

/-- The other style. -/
def other : QuoteStyle → QuoteStyle
  | double => single
  | single => double

/-- A double quote for a single one and a single one for a double one. -/
def swapByte (b : UInt8) : UInt8 :=
  if b = 0x22 then 0x27 else if b = 0x27 then 0x22 else b

@[inherit_doc swapByte]
def swapChar (c : Char) : Char :=
  if c = '"' then '\x27' else if c = '\x27' then '"' else c

/-- The bytes with the two quotes exchanged. -/
def swapBytes (bs : Bytes) : Bytes :=
  bs.map swapByte

/-- The text with the two quotes exchanged. -/
def swapText (text : String) : String :=
  String.ofList (text.toList.map swapChar)

variable {b : UInt8} {q : QuoteStyle} {bs : Bytes} {text : String}

theorem swapByte_byte (q : QuoteStyle) : swapByte q.byte = q.other.byte := by
  cases q <;> decide

theorem swapByte_swapByte (b : UInt8) : swapByte (swapByte b) = b :=
  Utf8.forall_byte (P := fun b => swapByte (swapByte b) = b) (by decide +kernel) b

theorem swapBytes_swapBytes (bs : Bytes) : swapBytes (swapBytes bs) = bs := by
  have hid : swapByte ∘ swapByte = id := funext swapByte_swapByte
  rw [swapBytes, swapBytes, List.map_map, hid, List.map_id]

theorem swapByte_of_isLetter (hb : Occurrence.isLetter b = true) : swapByte b = b := by
  have hall : ∀ b, Occurrence.isLetter b = true → swapByte b = b :=
    Utf8.forall_byte (by decide +kernel)
  exact hall b hb

theorem swapByte_of_le (hb : 0x80 ≤ b.toNat) : swapByte b = b := by
  have hall : ∀ b : UInt8, 0x80 ≤ b.toNat → swapByte b = b := Utf8.forall_byte (by decide +kernel)
  exact hall b hb

/-- A byte that can stand between quotes can, exchanged, stand between those of the other style. -/
theorem isValueByte_swapByte (q : QuoteStyle) (b : UInt8) :
    Occurrence.isValueByte q.other (swapByte b) = Occurrence.isValueByte q b := by
  cases q with
  | double =>
    exact Utf8.forall_byte (P := fun b => Occurrence.isValueByte single (swapByte b) =
      Occurrence.isValueByte double b) (by decide +kernel) b
  | single =>
    exact Utf8.forall_byte (P := fun b => Occurrence.isValueByte double (swapByte b) =
      Occurrence.isValueByte single b) (by decide +kernel) b

/-- No quote is white space. -/
theorem isBlank_swapChar (c : Char) : Text.isBlank (swapChar c) = Text.isBlank c := by
  unfold swapChar
  split
  · rename_i hc
    rw [hc]
    decide
  split
  · rename_i hc
    rw [hc]
    decide
  · rfl

/-! ## Texts with exchanged quotes

Exchanging commutes with encoding, with decoding and with trimming. -/

/-- Quotes are bytes of their own, and no byte of a longer character is one. -/
theorem encodeChar_swapChar (c : Char) :
    String.utf8EncodeChar (swapChar c) = swapBytes (String.utf8EncodeChar c) := by
  by_cases hascii : c.toNat < 0x80
  · have hall : ∀ n < 0x80, String.utf8EncodeChar (swapChar (Char.ofNat n)) =
        swapBytes (String.utf8EncodeChar (Char.ofNat n)) := by decide +kernel
    have hc := hall c.toNat hascii
    rwa [Char.ofNat_toNat] at hc
  · have hdouble : c ≠ '"' := by
      rintro rfl
      exact hascii (by decide)
    have hsingle : c ≠ '\x27' := by
      rintro rfl
      exact hascii (by decide)
    have hbyte {n : Nat} (hlow : 0x80 ≤ n) (hhigh : n < 256) :
        swapByte (UInt8.ofNat n) = UInt8.ofNat n :=
      swapByte_of_le (by rwa [Utf8.toNat_ofNat_of_lt hhigh])
    rw [swapChar, if_neg hdouble, if_neg hsingle]
    rcases Utf8.encodeChar_cases c with ⟨h, -⟩ | ⟨-, h, henc⟩ | ⟨-, h, henc⟩ | ⟨-, h, henc⟩
    · exact absurd h hascii
    all_goals
      rw [henc]
      simp only [swapBytes, List.map_cons, List.map_nil]
      repeat rw [hbyte (by omega) (by omega)]

/-- Exchanging in a text is exchanging in its bytes. -/
theorem encode_swapText (text : String) :
    Utf8.encode (swapText text) = swapBytes (Utf8.encode text) := by
  rw [Utf8.encode, swapText, String.toList_ofList, Utf8.encode, swapBytes, List.map_flatMap,
    List.flatMap_map]
  exact List.flatMap_congr fun c _ => encodeChar_swapChar c

theorem decode?_of_some (h : Utf8.decode? bs = some text) :
    Utf8.decode? (swapBytes bs) = some (swapText text) := by
  rw [Utf8.decode?_eq_some_iff] at h ⊢
  rw [encode_swapText, h]

/-- Bytes are a text with exchanged quotes exactly if they are one without. -/
theorem decode?_swapBytes (bs : Bytes) :
    Utf8.decode? (swapBytes bs) = (Utf8.decode? bs).map swapText := by
  cases h : Utf8.decode? bs with
  | some text => exact decode?_of_some h
  | none =>
    -- exchanged once more the quotes are as they were
    by_contra hsome
    obtain ⟨text, htext⟩ := Option.ne_none_iff_exists'.mp hsome
    have hback := decode?_of_some htext
    rw [swapBytes_swapBytes, h] at hback
    cases hback

theorem trim_swapText (text : String) : Text.trim (swapText text) = swapText (Text.trim text) := by
  rw [Text.trim, swapText, String.toList_ofList, Text.trimChars_map isBlank_swapChar, swapText,
    Text.trim, String.toList_ofList]

/-- A text without quotes stays. -/
theorem swapText_of_notMem (h : ∀ c ∈ text.toList, c ≠ '"' ∧ c ≠ '\x27') : swapText text = text := by
  have hmap : text.toList.map swapChar = text.toList.map id :=
    List.map_congr_left fun c hc => by
      rw [swapChar, if_neg (h c hc).1, if_neg (h c hc).2]
      rfl
  rw [swapText, hmap, List.map_id, String.ofList_toList]

end QuoteStyle

open QuoteStyle

/-! ## The attributes of a tag with exchanged quotes

Patterns are carried over to the exchanged tag one by one, and back, so the leftmost ones are too.
-/

/-- The attribute in quotes of the other style. -/
def Attribute.requoted (a : Attribute) : Attribute :=
  { a with value := swapText a.value, quote := a.quote.other }

namespace Occurrence

@[inherit_doc Attribute.requoted]
def requoted (o : Occurrence) : Occurrence :=
  { o with value := swapBytes o.value, quote := o.quote.other }

variable {raw : Bytes} {o : Occurrence} {os : List Occurrence} {pos : Nat}

theorem endOffset_requoted (o : Occurrence) : o.requoted.endOffset = o.endOffset := by
  simp only [endOffset, valueOffset, requoted, swapBytes, List.length_map]

/-- The exchanged attribute is spelled in exchanged bytes. -/
theorem spelling_requoted (h : ∀ b ∈ o.name, isLetter b = true) :
    o.requoted.spelling = swapBytes o.spelling := by
  have hname : o.name.map swapByte = o.name := by
    rw [List.map_congr_left fun b hb => swapByte_of_isLetter (h b hb), List.map_id']
  have hequals : swapByte 0x3D = 0x3D := by decide
  simp only [spelling, requoted, swapBytes, List.map_append, List.map_cons, List.map_nil, hname,
    hequals, swapByte_byte]

/-- An attribute that stands in a tag stands in the tag with exchanged quotes. -/
theorem StandsIn.requoted (h : o.StandsIn raw) : o.requoted.StandsIn (swapBytes raw) where
  name_ne_nil := h.name_ne_nil
  isLetter_name := h.isLetter_name
  value_ne_nil := fun hnil => h.value_ne_nil (List.map_eq_nil_iff.mp hnil)
  isValueByte_value := by
    intro b hb
    obtain ⟨b, hmem, rfl⟩ := List.mem_map.mp hb
    exact (isValueByte_swapByte o.quote b).trans (h.isValueByte_value b hmem)
  spelled := by
    rw [spelling_requoted h.isLetter_name, swapBytes, swapBytes, ← List.map_drop]
    exact h.spelled.map swapByte

theorem StandsIn.of_swapBytes (h : o.StandsIn (swapBytes raw)) : o.requoted.StandsIn raw := by
  have hback := h.requoted
  rwa [swapBytes_swapBytes] at hback

/-- The leftmost attributes stay the leftmost. -/
theorem Leftmost.requoted (h : Leftmost raw pos os) :
    Leftmost (swapBytes raw) pos (os.map Occurrence.requoted) := by
  induction h with
  | done hnone => exact .done fun o ho => hnone o.requoted ho.of_swapBytes
  | @next pos o os ho hpos hfirst _ ih =>
    refine .next ho.requoted hpos (fun o' ho' hpos' => hfirst o'.requoted ho'.of_swapBytes hpos') ?_
    rwa [endOffset_requoted]

theorem all_swapBytes (raw : Bytes) : all (swapBytes raw) = (all raw).map requoted := by
  have hall : Leftmost raw 0 (all raw) := leftmost_iff.mpr rfl
  exact (leftmost_iff.mp hall.requoted).symm

/-- Each is told as before, with the quotes of its value exchanged. -/
theorem read_requoted (o : Occurrence) : o.requoted.read = o.read.map Attribute.requoted := by
  have hvalue : Utf8.decode? o.requoted.value = (Utf8.decode? o.value).map swapText :=
    decode?_swapBytes o.value
  unfold read
  rw [hvalue]
  cases Utf8.decode? o.value with
  | none => rfl
  | some text =>
    simp only [Option.map_some, Except.map, trim_swapText]
    rfl

end Occurrence

theorem Attribute.scan_swapBytes (raw : Bytes) :
    Attribute.scan (swapBytes raw) = (Attribute.scan raw).map (Except.map Attribute.requoted) := by
  rw [scan, Occurrence.all_swapBytes, scan, List.map_map, List.map_map]
  exact List.map_congr_left fun o _ => Occurrence.read_requoted o

theorem Attribute.told_requoted {a : Attribute}
    (h : ∀ c ∈ a.value.toList, c ≠ '"' ∧ c ≠ '\x27') : a.requoted.told = a.told := by
  rw [told, requoted, swapText_of_notMem h, told]

/-! ## What is read

Attributes that say the same are taken alike, so only quotes in values can make a difference. -/

/-- Attributes that say the same are taken alike, up to the first one that cannot be taken. -/
theorem Directives.Draft.takeAll_map {f : Attribute → Attribute}
    {items : List (Except ScanError Attribute)} (h : ∀ a, .ok a ∈ items → (f a).told = a.told)
    (d : Draft) : d.takeAll (items.map (Except.map f)) = d.takeAll items := by
  induction items generalizing d with
  | nil => rfl
  | cons item items ih =>
    obtain cause | a := item
    · rfl
    · have hitems := ih fun a ha => h a (List.mem_cons_of_mem _ ha)
      rw [List.map_cons]
      simp only [Except.map, takeAll]
      rw [take_congr (h a List.mem_cons_self)]
      split
      · rfl
      · exact hitems _

/-- **The style of quotes makes no difference.** If the two quotes are exchanged in a tag, a scan tells
the same of it at the same offsets, but for the style and the quotes in values, and says the same of
values that are no text. If no value that it tells of holds a quote, an include is read as before, or
refused for the same reason. -/
theorem quote_styles_are_interchangeable (raw : Bytes) :
    Attribute.scan (swapBytes raw) = (Attribute.scan raw).map (Except.map Attribute.requoted) ∧
    ((∀ a, .ok a ∈ Attribute.scan raw → ∀ c ∈ a.value.toList, c ≠ '"' ∧ c ≠ '\x27') →
      ∀ (fragment : Fragment) (directives : Directives),
        ({ raw := swapBytes raw, fragment, directives } : Include).parse =
          Include.retold (swapBytes raw) ({ raw, fragment, directives } : Include).parse) := by
  refine ⟨Attribute.scan_swapBytes raw, fun hvalues fragment directives => ?_⟩
  by_cases hraw : raw = []
  · subst hraw
    rw [Include.parse_of_nil (i := ⟨[], fragment, directives⟩) rfl]
    exact Include.parse_of_nil (i := ⟨[], fragment, directives⟩) rfl
  · have hswapped : swapBytes raw ≠ [] := fun hnil => hraw (List.map_eq_nil_iff.mp hnil)
    refine Include.parse_eq_retold hraw hswapped ?_ fragment directives
    rw [Attribute.scan_swapBytes]
    exact Directives.Draft.takeAll_map (fun a ha => Attribute.told_requoted (hvalues a ha)) {}

/-- A tag with quotes of both styles, some of them where no value begins. -/
def mixed : Bytes :=
  Utf8.encode "<a src='u' alt= \"x' timeout=\"2s\"/>"

/-- What the tag asks for. -/
def mixedDirectives : Directives where
  sources := ⟨[{ index := 0, url := some (.literal "u") }], [(0, 0)]⟩
  timeout := .ofSeconds 2

/-- A tag whose second value is no duration. -/
def faulty : Bytes :=
  Utf8.encode "<a src='u' ttl=\"2q\"/>"

/-- Two tags without quotes in their values, the second of which cannot be read. -/
theorem quote_styles_are_interchangeable_mixed :
    swapBytes mixed = Utf8.encode "<a src=\"u\" alt= 'x\" timeout='2s'/>" ∧
    Attribute.scan mixed = [.ok ⟨"src", "u", .single, 3⟩, .ok ⟨"timeout", "2s", .double, 20⟩] ∧
    Attribute.scan (swapBytes mixed) =
      [.ok ⟨"src", "u", .double, 3⟩, .ok ⟨"timeout", "2s", .single, 20⟩] ∧
    (⟨swapBytes mixed, ⟨0, 34, []⟩, {}⟩ : Include).parse =
      .ok ⟨swapBytes mixed, ⟨0, 34, []⟩, mixedDirectives⟩ ∧
    (⟨swapBytes faulty, ⟨0, 22, []⟩, {}⟩ : Include).parse =
      .error (.duration "ttl" "2q" "<a src=\"u\" ttl='2q'/>" (.unknownUnit "q" "2q")) := by
  have hmixed : Attribute.scan mixed =
      [.ok ⟨"src", "u", .single, 3⟩, .ok ⟨"timeout", "2s", .double, 20⟩] := by decide +kernel
  have hfaulty : Attribute.scan faulty =
      [.ok ⟨"src", "u", .single, 3⟩, .ok ⟨"ttl", "2q", .double, 11⟩] := by decide +kernel
  obtain ⟨hscan, hparse⟩ := quote_styles_are_interchangeable mixed
  obtain ⟨-, hparse'⟩ := quote_styles_are_interchangeable faulty
  have hread := hparse (by simp [hmixed]) ⟨0, 34, []⟩ {}
  have hrefused := hparse' (by simp [hfaulty]) ⟨0, 22, []⟩ {}
  refine ⟨by decide +kernel, hmixed, ?_, hread.trans ?_, hrefused.trans ?_⟩
  · rw [hscan, hmixed]
    decide
  · decide +kernel
  · decide +kernel

/-- A quote in a value is exchanged as well. -/
example : Attribute.scan (swapBytes (Utf8.encode "a=\"it's\"")) = [.ok ⟨"a", "it\"s", .single, 0⟩] := by
  decide +kernel

end EdgeInclude
