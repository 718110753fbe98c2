import Mathlib.Data.List.DropRight
import Mathlib.Data.List.Forall2
import EdgeInclude.Include.Attribute
import EdgeInclude.Proofs.Text.Runs
import EdgeInclude.Proofs.Text.Utf8

/-!
# What stands in a tag

An attribute stands in a tag where the bytes of its name, an equals sign, and its value between two
quotes follow each other. The attributes of a tag are the leftmost ones: each is the first to stand
behind the one before.

* **`Occurrence.StandsIn`**: the pattern. **`standsIn_iff`**: how an attribute is read where it stands.
* **`Occurrence.Leftmost`**: the leftmost attributes, each after the one before.
  **`leftmost_allFrom`**: a scan finds them, though it passes over a run of letters as a whole.
* **`Occurrence.Item`**: what is told of an attribute. **`item_iff`**.
* **`scan_recognises_pattern`**: a scan yields just that, for any bytes.
-/

namespace EdgeInclude

namespace Text

/-- The characters without those at both ends that are white space. -/
def IsTrimOf (cs trimmed : List Char) : Prop :=
  ∃ before after, cs = before ++ trimmed ++ after ∧
    (∀ c ∈ before, isBlank c = true) ∧ (∀ c ∈ after, isBlank c = true) ∧
    (∀ c ∈ trimmed.head?, isBlank c = false) ∧ ∀ c ∈ trimmed.getLast?, isBlank c = false

/-- Trimming takes white space off both ends until there is none. -/
theorem isTrimOf_trimChars (cs : List Char) : IsTrimOf cs (trimChars cs) := by
  have hsplit : cs.dropWhile isBlank =
      trimChars cs ++ ((cs.dropWhile isBlank).reverse.takeWhile isBlank).reverse := by
    rw [trimChars, ← List.reverse_append, List.takeWhile_append_dropWhile, List.reverse_reverse]
  refine ⟨cs.takeWhile isBlank, ((cs.dropWhile isBlank).reverse.takeWhile isBlank).reverse, ?_,
    fun c hc => List.mem_takeWhile_imp hc,
    fun c hc => List.mem_takeWhile_imp (List.mem_reverse.mp hc), fun c hc => ?_, fun c hc => ?_⟩
  · rw [List.append_assoc, ← hsplit, List.takeWhile_append_dropWhile]
  · have hhead : c ∈ (cs.dropWhile isBlank).head? := by
      rw [hsplit, List.head?_append, Option.mem_def.mp hc]
      rfl
    exact eq_false_of_mem_head?_dropWhile hhead
  · rw [trimChars, List.getLast?_reverse] at hc
    exact eq_false_of_mem_head?_dropWhile hc

/-- There is one way to take it off. -/
theorem eq_trimChars_of_isTrimOf {cs trimmed : List Char} (h : IsTrimOf cs trimmed) :
    trimmed = trimChars cs := by
  obtain ⟨before, after, rfl, hbefore, hafter, hhead, hlast⟩ := h
  rw [trimChars, List.append_assoc, List.dropWhile_append_of_pos hbefore]
  cases trimmed with
  | nil =>
    rw [List.nil_append, List.dropWhile_eq_nil_iff.mpr hafter]
    rfl
  | cons c trimmed =>
    have hc : ¬ isBlank c = true := Bool.eq_false_iff.mp (hhead c rfl)
    rw [List.cons_append, List.dropWhile_cons_of_neg hc, ← List.cons_append, List.reverse_append,
      List.dropWhile_append_of_pos fun c hc => hafter c (List.mem_reverse.mp hc)]
    cases hrev : (c :: trimmed).reverse with
    | nil => simp at hrev
    | cons d rest =>
      have hd : ¬ isBlank d = true := by
        refine Bool.eq_false_iff.mp (hlast d ?_)
        rw [← List.head?_reverse, hrev]
        rfl
      rw [List.dropWhile_cons_of_neg hd, ← hrev, List.reverse_reverse]

/-- White space is cut off alike if a change of the characters leaves it what it is. -/
theorem trimChars_map {f : Char → Char} (hf : ∀ c, isBlank (f c) = isBlank c) (cs : List Char) :
    trimChars (cs.map f) = (trimChars cs).map f := by
  have hblank : isBlank ∘ f = isBlank := funext hf
  simp only [trimChars, List.dropWhile_map, hblank, ← List.map_reverse]

/-- A text is trimmed by cutting off white space at both ends, all of it and nothing else. -/
theorem trim_eq_iff {text trimmed : String} :
    trim text = trimmed ↔ IsTrimOf text.toList trimmed.toList := by
  constructor
  · rintro rfl
    rw [trim, String.toList_ofList]
    exact isTrimOf_trimChars text.toList
  · intro h
    rw [trim, ← eq_trimChars_of_isTrimOf h, String.ofList_toList]

end Text

/-! ## Quotes and values

A value is taken exactly where it is written out: equals sign, quote, bytes, and the same quote
again. -/

/-- A byte is a quote of the style that is written with it. -/
theorem QuoteStyle.ofByte?_eq_some_iff {b : UInt8} {q : QuoteStyle} :
    QuoteStyle.ofByte? b = some q ↔ b = q.byte := by
  constructor
  · intro h
    rw [ofByte?] at h
    split at h
    · rename_i hb
      obtain rfl := Option.some.inj h
      exact hb
    · split at h
      · rename_i hb
        obtain rfl := Option.some.inj h
        exact hb
      · cases h
  · rintro rfl
    exact ofByte?_byte q

namespace Occurrence

variable {raw bs value rest : Bytes} {q : QuoteStyle} {o o' : Occurrence} {os os' : List Occurrence}
variable {pos : Nat}

theorem isValueByte_quote (q : QuoteStyle) : isValueByte q q.byte = false := by
  simp [isValueByte]

/-- What is taken as a value is what the pattern says. -/
theorem takeValue?_eq_some_iff : takeValue? bs = some (q, value, rest) ↔
    bs = 0x3D :: q.byte :: (value ++ q.byte :: rest) ∧ value ≠ [] ∧
      ∀ b ∈ value, isValueByte q b = true := by
  constructor
  · intro h
    rw [takeValue?.eq_def] at h
    split at h
    · rename_i equals opening tail
      split at h
      · rename_i hequals
        split at h
        · cases h
        · rename_i q' hq'
          split at h
          · cases h
          · rename_i closing rest' hdrop
            split at h
            · rename_i hclosing
              simp only [Option.some.injEq, Prod.mk.injEq] at h
              obtain ⟨rfl, rfl, rfl⟩ := h
              have hopening := QuoteStyle.ofByte?_eq_some_iff.mp hq'
              refine ⟨?_, hclosing.2, fun b hb => List.mem_takeWhile_imp hb⟩
              rw [hequals, hopening, ← hclosing.1, ← hdrop, List.takeWhile_append_dropWhile]
            · cases h
      · cases h
    · cases h
  · rintro ⟨rfl, hne, hvalue⟩
    -- the value ends at the first quote of its style, and holds none
    have hclosing : ¬ isValueByte q q.byte = true := Bool.eq_false_iff.mp (isValueByte_quote q)
    have htake : (value ++ q.byte :: rest).takeWhile (isValueByte q) = value := by
      rw [List.takeWhile_append_of_pos hvalue, List.takeWhile_cons_of_neg hclosing, List.append_nil]
    have hdrop : (value ++ q.byte :: rest).dropWhile (isValueByte q) = q.byte :: rest := by
      rw [List.dropWhile_append_of_pos hvalue, List.dropWhile_cons_of_neg hclosing]
    simp only [takeValue?, QuoteStyle.ofByte?_byte, hdrop, htake]
    rw [if_pos trivial, if_pos ⟨trivial, hne⟩]

/-! ## Where attributes stand

The pattern says nothing of how it is searched for. Of patterns that begin at one offset there is at
most one, so the leftmost ones are determined. -/

/-- The bytes of an attribute. -/
def spelling (o : Occurrence) : Bytes :=
  o.name ++ 0x3D :: o.quote.byte :: (o.value ++ [o.quote.byte])

theorem endOffset_eq (o : Occurrence) : o.endOffset = o.offset + o.spelling.length := by
  simp only [endOffset, valueOffset, spelling, List.length_append, List.length_cons,
    List.length_nil]
  omega

/-- The attribute stands in a tag: one letter or more, an equals sign, and one byte or more between
two quotes, none of which is the quote or a line break. -/
structure StandsIn (raw : Bytes) (o : Occurrence) : Prop where
  name_ne_nil : o.name ≠ []
  isLetter_name : ∀ b ∈ o.name, isLetter b = true
  value_ne_nil : o.value ≠ []
  isValueByte_value : ∀ b ∈ o.value, isValueByte o.quote b = true
  spelled : o.spelling <+: raw.drop o.offset

/-- The first attribute that stands in the tag at an offset or behind it, then the first one that stands
behind that one, and so on until there is none. -/
inductive Leftmost (raw : Bytes) : Nat → List Occurrence → Prop
  | done {pos : Nat} (hnone : ∀ o : Occurrence, o.StandsIn raw → o.offset < pos) :
      Leftmost raw pos []
  | next {pos : Nat} {o : Occurrence} {os : List Occurrence} (ho : o.StandsIn raw)
      (hpos : pos ≤ o.offset)
      (hfirst : ∀ o' : Occurrence, o'.StandsIn raw → pos ≤ o'.offset → o.offset ≤ o'.offset)
      (h : Leftmost raw o.endOffset os) : Leftmost raw pos (o :: os)

theorem offset_lt_endOffset (o : Occurrence) : o.offset < o.endOffset := by
  rw [endOffset, valueOffset]
  omega

/-- An attribute ends in the tag. -/
theorem StandsIn.endOffset_le (h : o.StandsIn raw) : o.endOffset ≤ raw.length := by
  have hle := h.spelled.length_le
  have hpos : 0 < o.spelling.length := by
    have := offset_lt_endOffset o
    rw [endOffset_eq] at this
    omega
  rw [List.length_drop] at hle
  rw [endOffset_eq]
  omega

/-- The value stands where its offset says. -/
theorem StandsIn.value_prefix (h : o.StandsIn raw) : o.value <+: raw.drop o.valueOffset := by
  obtain ⟨rest, hrest⟩ := h.spelled
  refine ⟨o.quote.byte :: rest, ?_⟩
  rw [valueOffset, Nat.add_assoc, ← List.drop_drop, ← hrest]
  simp [spelling]

/-- How an attribute is read: the letters are its name, and after them comes its value. -/
theorem standsIn_iff : o.StandsIn raw ↔ o.name ≠ [] ∧
    (raw.drop o.offset).takeWhile isLetter = o.name ∧
      ∃ rest, takeValue? ((raw.drop o.offset).dropWhile isLetter) =
        some (o.quote, o.value, rest) := by
  have hequals : ¬ isLetter 0x3D = true := by decide
  constructor
  · intro h
    obtain ⟨rest, hrest⟩ := h.spelled
    have hbytes : raw.drop o.offset =
        o.name ++ 0x3D :: o.quote.byte :: (o.value ++ o.quote.byte :: rest) := by
      simp [← hrest, spelling]
    refine ⟨h.name_ne_nil, ?_, rest, ?_⟩
    · rw [hbytes, List.takeWhile_append_of_pos h.isLetter_name, List.takeWhile_cons_of_neg hequals,
        List.append_nil]
    · rw [hbytes, List.dropWhile_append_of_pos h.isLetter_name, List.dropWhile_cons_of_neg hequals]
      exact takeValue?_eq_some_iff.mpr ⟨rfl, h.value_ne_nil, h.isValueByte_value⟩
  · rintro ⟨hne, hname, rest, hvalue⟩
    obtain ⟨hbytes, hvalue, hvalueByte⟩ := takeValue?_eq_some_iff.mp hvalue
    refine ⟨hne, fun b hb => List.mem_takeWhile_imp (hname ▸ hb), hvalue, hvalueByte, rest, ?_⟩
    rw [← List.takeWhile_append_dropWhile (p := isLetter) (l := raw.drop o.offset), hname, hbytes]
    simp [spelling]

/-- There is one way to read an attribute. -/
theorem StandsIn.eq_of_offset (h : o.StandsIn raw) (h' : o'.StandsIn raw)
    (hoffset : o.offset = o'.offset) : o = o' := by
  obtain ⟨-, hname, rest, hvalue⟩ := standsIn_iff.mp h
  obtain ⟨-, hname', rest', hvalue'⟩ := standsIn_iff.mp h'
  rw [hoffset, hname'] at hname
  rw [hoffset, hvalue'] at hvalue
  obtain ⟨offset, name, quote, value⟩ := o
  obtain ⟨offset', name', quote', value'⟩ := o'
  simp_all

namespace Leftmost

/-- The leftmost attributes are determined by the tag. -/
theorem unique (h : Leftmost raw pos os) (h' : Leftmost raw pos os') : os = os' := by
  induction h generalizing os' with
  | done hnone =>
    cases h' with
    | done => rfl
    | next ho hpos => exact absurd hpos (Nat.not_le.mpr (hnone _ ho))
  | next ho hpos hfirst _ ih =>
    cases h' with
    | done hnone => exact absurd hpos (Nat.not_le.mpr (hnone _ ho))
    | next ho' hpos' hfirst' h' =>
      obtain rfl := ho.eq_of_offset ho'
        (Nat.le_antisymm (hfirst _ ho' hpos') (hfirst' _ ho hpos))
      rw [ih h']

/-- All of them stand behind the offset. -/
theorem le_offset (h : Leftmost raw pos os) : ∀ o ∈ os, pos ≤ o.offset := by
  induction h with
  | done => exact fun _ ho => absurd ho List.not_mem_nil
  | @next pos o os _ hpos _ _ ih =>
    intro o' ho'
    rcases List.mem_cons.mp ho' with rfl | ho'
    · exact hpos
    · have hlt := offset_lt_endOffset o
      have hle := ih o' ho'
      omega

/-- **Each stands behind the one before.** -/
theorem pairwise (h : Leftmost raw pos os) : os.Pairwise fun a b => a.endOffset ≤ b.offset := by
  induction h with
  | done => exact .nil
  | next _ _ _ h ih => exact .cons (fun o ho => h.le_offset o ho) ih

/-- All of them stand in the tag. -/
theorem standsIn (h : Leftmost raw pos os) : ∀ o ∈ os, o.StandsIn raw := by
  induction h with
  | done => exact fun _ ho => absurd ho List.not_mem_nil
  | next ho _ _ _ ih =>
    intro o' ho'
    rcases List.mem_cons.mp ho' with rfl | ho'
    · exact ho
    · exact ih o' ho'

/-- Where nothing stands nothing is missed. -/
theorem of_le {pos' : Nat} (h : Leftmost raw pos' os) (hle : pos ≤ pos')
    (hnone : ∀ o : Occurrence, o.StandsIn raw → pos ≤ o.offset → pos' ≤ o.offset) :
    Leftmost raw pos os := by
  cases h with
  | done hdone =>
    refine .done fun o ho => ?_
    by_contra hge
    exact absurd (hnone o ho (Nat.not_lt.mp hge)) (Nat.not_le.mpr (hdone o ho))
  | next ho hpos hfirst h =>
    exact .next ho (Nat.le_trans hle hpos) (fun o' ho' hpos' => hfirst o' ho' (hnone o' ho' hpos')) h

end Leftmost

/-! ## What a scan finds

A scan goes over a run of letters at once. No attribute is missed by that: one that begins inside a
run ends its name where the run ends, so the one that begins with the run stands there as well. -/

/-- In a run of letters the bytes after it are the same from everywhere. -/
theorem dropWhile_drop_of_le {p : UInt8 → Bool} {l : Bytes} {k : Nat}
    (hk : k ≤ (l.takeWhile p).length) : (l.drop k).dropWhile p = l.dropWhile p := by
  conv_lhs => rw [← List.takeWhile_append_dropWhile (p := p) (l := l)]
  rw [List.drop_append_of_le_length hk,
    List.dropWhile_append_of_pos fun b hb => List.mem_takeWhile_imp (List.mem_of_mem_drop hb)]
  exact List.dropWhile_idempotent p l

/-- Behind the letters of a name comes what follows them. -/
theorem drop_add_length_takeWhile {p : UInt8 → Bool} (hbs : raw.drop pos = bs) :
    raw.drop (pos + (bs.takeWhile p).length) = bs.dropWhile p := by
  have hsplit : bs.takeWhile p ++ bs.dropWhile p = bs := List.takeWhile_append_dropWhile
  calc raw.drop (pos + (bs.takeWhile p).length)
      = (bs.takeWhile p ++ bs.dropWhile p).drop (bs.takeWhile p).length := by
        rw [← List.drop_drop, hbs, hsplit]
    _ = bs.dropWhile p := List.drop_left

/-- **A scan finds the leftmost attributes.** -/
theorem leftmost_allFrom (hbs : raw.drop pos = bs) : Leftmost raw pos (allFrom pos bs) := by
  fun_induction allFrom pos bs with
  | case1 pos =>
    refine .done fun o ho => ?_
    have hend : raw.length ≤ pos := List.drop_eq_nil_iff.mp hbs
    exact Nat.lt_of_lt_of_le (offset_lt_endOffset o) (Nat.le_trans ho.endOffset_le hend)
  | case2 pos b rest hb name afterName hvalue ih =>
    have hname : (b :: rest).takeWhile isLetter = name := List.takeWhile_cons_of_pos hb
    have hafter : (b :: rest).dropWhile isLetter = afterName := List.dropWhile_cons_of_pos hb
    refine (ih ?_).of_le (Nat.le_add_right _ _) fun o ho hpos => ?_
    · rw [← hname, ← hafter]
      exact drop_add_length_takeWhile hbs
    · -- whatever stands in the run has the value that follows the run, and there is none
      by_contra hlt
      obtain ⟨-, -, rest', hvalue'⟩ := standsIn_iff.mp ho
      have hbytes : raw.drop o.offset = (b :: rest).drop (o.offset - pos) := by
        rw [← hbs, List.drop_drop, Nat.add_sub_cancel' hpos]
      rw [hbytes, dropWhile_drop_of_le (by rw [hname]; omega), hafter, hvalue] at hvalue'
      cases hvalue'
  | case3 pos b rest hb name afterName quote value afterValue hvalue o ih =>
    have hname : (b :: rest).takeWhile isLetter = name := List.takeWhile_cons_of_pos hb
    have hafter : (b :: rest).dropWhile isLetter = afterName := List.dropWhile_cons_of_pos hb
    have ho : o.StandsIn raw := by
      refine standsIn_iff.mpr ⟨List.cons_ne_nil _ _, ?_, afterValue, ?_⟩
      · rw [show raw.drop o.offset = b :: rest from hbs]
        exact hname
      · rw [show raw.drop o.offset = b :: rest from hbs, hafter]
        exact hvalue
    refine .next ho (Nat.le_refl _) (fun _ _ hpos => hpos) (ih ?_)
    have hbytes : raw.drop pos = o.spelling ++ afterValue := by
      rw [hbs, ← List.takeWhile_append_dropWhile (p := isLetter) (l := b :: rest), hname, hafter,
        (takeValue?_eq_some_iff.mp hvalue).1]
      simp [spelling, o]
    rw [endOffset_eq, ← List.drop_drop, show raw.drop o.offset = _ from hbytes]
    exact List.drop_left ..
  | case4 pos b rest hb ih =>
    refine (ih ?_).of_le (Nat.le_succ _) fun o ho hpos => ?_
    · rw [← List.drop_drop, hbs]
      rfl
    · -- no name begins here
      by_contra hlt
      obtain rfl : o.offset = pos := by omega
      obtain ⟨hne, hname, -⟩ := standsIn_iff.mp ho
      rw [hbs, List.takeWhile_cons_of_neg hb] at hname
      exact hne hname.symm

theorem leftmost_iff : Leftmost raw 0 os ↔ os = all raw :=
  ⟨fun h => h.unique (leftmost_allFrom rfl), fun h => h ▸ leftmost_allFrom rfl⟩

/-! ## What is told of an attribute

Of an attribute its name is told in small letters and its value without white space at the ends, if
the value is a text. -/

/-- An ASCII letter in lower case. -/
def lowerByte (b : UInt8) : UInt8 :=
  if 0x41 ≤ b ∧ b ≤ 0x5A then b + 0x20 else b

/-- The small letter of an ASCII letter is one byte. -/
theorem encodeChar_toLower {b : UInt8} (hb : isLetter b = true) :
    String.utf8EncodeChar (Char.ofNat b.toNat).toLower = [lowerByte b] := by
  have hall : ∀ b, isLetter b = true →
      String.utf8EncodeChar (Char.ofNat b.toNat).toLower = [lowerByte b] :=
    Utf8.forall_byte (by decide +kernel)
  exact hall b hb

/-- The small letters of a name, byte by byte. -/
theorem encode_lowerName (h : o.StandsIn raw) :
    Utf8.encode o.lowerName = o.name.map lowerByte := by
  have hletters := h.isLetter_name
  rw [lowerName, Utf8.encode, String.toList_ofList]
  generalize o.name = name at hletters
  induction name with
  | nil => rfl
  | cons b name ih =>
    rw [List.map_cons, List.flatMap_cons, List.map_cons,
      encodeChar_toLower (hletters b List.mem_cons_self),
      ih fun b hb => hletters b (List.mem_cons_of_mem _ hb)]
    rfl

/-- What is told of an attribute: its name in lower case, and the text of its value without white space
at the ends; or, if the value is the spelling of no text, where it begins. -/
inductive Item (o : Occurrence) : Except ScanError Attribute → Prop
  | text {a : Attribute} {value : String} (hvalue : Utf8.encode value = o.value)
      (hname : Utf8.encode a.name = o.name.map lowerByte)
      (htrim : Text.IsTrimOf value.toList a.value.toList) (hquote : a.quote = o.quote)
      (hoffset : a.offset = o.offset) : Item o (.ok a)
  | notUtf8 (hvalue : ∀ value, Utf8.encode value ≠ o.value) :
      Item o (.error (.notUtf8 o.valueOffset))

/-- An attribute is told in exactly one way. -/
theorem item_iff (ho : o.StandsIn raw) {item : Except ScanError Attribute} :
    o.Item item ↔ o.read = item := by
  constructor
  · intro h
    cases h with
    | @text a value hvalue hname htrim hquote hoffset =>
      obtain ⟨name, trimmed, quote, offset⟩ := a
      obtain rfl : quote = o.quote := hquote
      obtain rfl : offset = o.offset := hoffset
      obtain rfl : name = o.lowerName :=
        Utf8.encode_injective (hname.trans (encode_lowerName ho).symm)
      obtain rfl : Text.trim value = trimmed := Text.trim_eq_iff.mpr htrim
      rw [read, Utf8.decode?_eq_some_iff.mpr hvalue]
    | notUtf8 hvalue => rw [read, Utf8.decode?_eq_none_iff.mpr hvalue]
  · rintro rfl
    rw [read]
    cases hvalue : Utf8.decode? o.value with
    | none => exact .notUtf8 (Utf8.decode?_eq_none_iff.mp hvalue)
    | some value =>
      exact .text (Utf8.decode?_eq_some_iff.mp hvalue) (encode_lowerName ho)
        (Text.trim_eq_iff.mp rfl) rfl rfl

/-- The attributes of a tag are told in exactly one way. -/
theorem forall₂_item_iff (hos : ∀ o ∈ os, o.StandsIn raw) {items : List (Except ScanError Attribute)} :
    List.Forall₂ Item os items ↔ os.map read = items := by
  induction os generalizing items with
  | nil => rw [List.forall₂_nil_left_iff, List.map_nil, eq_comm]
  | cons o os ih =>
    have ho : o.StandsIn raw := hos o List.mem_cons_self
    have hos' : ∀ o' ∈ os, o'.StandsIn raw := fun o' ho' => hos o' (List.mem_cons_of_mem o ho')
    rw [List.forall₂_cons_left_iff, List.map_cons]
    constructor
    · rintro ⟨item, items, hitem, hitems, rfl⟩
      rw [(item_iff ho).mp hitem, (ih hos').mp hitems]
    · rintro rfl
      exact ⟨o.read, os.map read, (item_iff ho).mpr rfl, (ih hos').mpr rfl, rfl⟩

end Occurrence

open Occurrence

/-- **A scan recognises the pattern, and nothing else.** For any bytes there is one way to go through
the leftmost attributes, each after the one before, and a scan yields what is to be told of each, in
that order. Offsets grow, the attributes do not overlap, and a value is where it is said to be. -/
theorem scan_recognises_pattern (raw : Bytes) :
    ∃ os, (∀ os', Leftmost raw 0 os' ↔ os' = os) ∧
      (∀ items, List.Forall₂ Item os items ↔ items = Attribute.scan raw) ∧
      os.Pairwise (fun a b => a.offset < b.offset ∧ a.endOffset ≤ b.offset) ∧
      ∀ o ∈ os, o.endOffset ≤ raw.length ∧ o.value <+: raw.drop o.valueOffset := by
  have hall : Leftmost raw 0 (all raw) := leftmost_iff.mpr rfl
  refine ⟨all raw, fun os' => leftmost_iff, fun items => ?_, ?_, fun o ho => ?_⟩
  · rw [forall₂_item_iff hall.standsIn, eq_comm, Attribute.scan]
  · exact hall.pairwise.imp fun {a b} hab => ⟨Nat.lt_of_lt_of_le (offset_lt_endOffset a) hab, hab⟩
  · have hstands := hall.standsIn o ho
    exact ⟨hstands.endOffset_le, hstands.value_prefix⟩

end EdgeInclude
