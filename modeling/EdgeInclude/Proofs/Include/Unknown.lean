import Mathlib.Data.List.Infix
import EdgeInclude.Proofs.Include.Scanning
import EdgeInclude.Proofs.Include.Taking

/-!
# Attributes of unknown names

A scan does not look for the place where a name begins. It reads the letters in front of the equals
sign, so that an attribute counts by the last word of its name; without such a word it goes on in the
value. Hence an attribute of an unknown name is ignored unless its last word is known, or an attribute
can be found in its value.

* **`Occurrence.allFrom_append`**: bytes in which no value may begin are passed over.
* **`Written`**: an attribute as it is written. **`Written.scan_tag`**: what a scan tells of many.
* **`Written.parse_tag_readAs`**: an attribute counts by the last word of its name.
* **`Written.deletion_of_unknown`**: a tag without its unknown attributes is read as with them.
* **`Written.unknown_name_counts`**: two unknown attributes that are not ignored.
-/

namespace EdgeInclude

namespace Occurrence

variable {pos : Nat} {block run value rest : Bytes} {b : UInt8} {q : QuoteStyle}

/-! ## Bytes that are passed over

A scan goes over a run of letters in one step: it either finds a value behind the run or takes
nothing from it. -/

theorem allFrom_of_not_letter (hb : isLetter b = false) :
    allFrom pos (b :: rest) = allFrom (pos + 1) rest := by
  rw [allFrom, if_neg (Bool.eq_false_iff.mp hb)]

/-- A run of letters without a value behind it is passed over. -/
theorem allFrom_run_of_none (hrun : ∀ b ∈ run, isLetter b = true)
    (hstop : ∀ b ∈ rest.head?, isLetter b = false) (hvalue : takeValue? rest = none) :
    allFrom pos (run ++ rest) = allFrom (pos + run.length) rest := by
  cases run with
  | nil => rfl
  | cons b run =>
    obtain ⟨hb, hrun⟩ := List.forall_mem_cons.mp hrun
    obtain ⟨htake, hdrop⟩ := Text.takeWhile_dropWhile_append hrun hstop
    rw [List.cons_append, allFrom, if_pos hb]
    simp only [htake, hdrop]
    split
    · rfl
    · rename_i hsome
      rw [hdrop, hvalue] at hsome
      cases hsome

/-- A run of letters with a quoted value behind it is an attribute, and the scan goes on behind the
value. -/
theorem allFrom_run_of_some (hne : run ≠ []) (hrun : ∀ b ∈ run, isLetter b = true)
    (hvalue : value ≠ []) (hbytes : ∀ b ∈ value, isValueByte q b = true) :
    allFrom pos (run ++ 0x3D :: q.byte :: (value ++ q.byte :: rest)) =
      ⟨pos, run, q, value⟩ :: allFrom (pos + run.length + value.length + 3) rest := by
  cases run with
  | nil => exact absurd rfl hne
  | cons b run =>
    obtain ⟨hb, hrun⟩ := List.forall_mem_cons.mp hrun
    have hstop : ∀ b ∈ (0x3D :: q.byte :: (value ++ q.byte :: rest)).head?, isLetter b = false := by
      intro b hb
      obtain rfl : 0x3D = b := Option.some.inj hb
      decide
    obtain ⟨htake, hdrop⟩ := Text.takeWhile_dropWhile_append hrun hstop
    have htaken : takeValue? (0x3D :: q.byte :: (value ++ q.byte :: rest)) = some (q, value, rest) :=
      takeValue?_eq_some_iff.mpr ⟨rfl, hvalue, hbytes⟩
    rw [List.cons_append, allFrom, if_pos hb]
    simp only [htake, hdrop]
    split
    · rename_i hnone
      rw [hdrop, htaken] at hnone
      cases hnone
    · rename_i hsome
      rw [hdrop, htaken] at hsome
      cases hsome
      congr 2
      simp only [endOffset, valueOffset]
      omega

/-- A letter, an equals sign and a quote follow each other, so that a value may begin. -/
def HasOpening (bytes : Bytes) : Prop :=
  ∃ b ∈ bytes, isLetter b = true ∧ ∃ q ∈ [QuoteStyle.double, .single], [b, 0x3D, q.byte] <:+: bytes

instance (bytes : Bytes) : Decidable (HasOpening bytes) := by
  unfold HasOpening
  infer_instance

theorem hasOpening_of_triple (hb : isLetter b = true) (h : [b, 0x3D, q.byte] <:+: block) :
    HasOpening block :=
  ⟨b, h.mem List.mem_cons_self, hb, q, by cases q <;> decide, h⟩

theorem HasOpening.mono {bytes : Bytes} (h : HasOpening block) (hin : block <:+: bytes) :
    HasOpening bytes := by
  obtain ⟨b, -, hb, q, -, h⟩ := h
  exact hasOpening_of_triple hb (h.trans hin)

/-- Where no value is opened, none is taken. -/
theorem takeValue?_of_not_hasOpening {after : Bytes} (hblock : ¬ HasOpening (run ++ after))
    (hne : run ≠ []) (hrun : ∀ b ∈ run, isLetter b = true) (hafter : after ≠ [])
    (hlast : ∀ b ∈ after.getLast?, b ≠ 0x3D) : takeValue? (after ++ rest) = none := by
  by_contra hsome
  obtain ⟨⟨q, value, rest'⟩, hvalue⟩ := Option.ne_none_iff_exists'.mp hsome
  have hbytes := (takeValue?_eq_some_iff.mp hvalue).1
  match after with
  | [] => exact hafter rfl
  | [equals] =>
    -- the equals sign would be the last byte of the block
    exact hlast equals rfl (List.cons.inj hbytes).1
  | equals :: quote :: after =>
    simp only [List.cons_append, List.cons.injEq] at hbytes
    obtain ⟨rfl, rfl, -⟩ := hbytes
    have hopening : [run.getLast hne, 0x3D, q.byte] <:+: run ++ 0x3D :: q.byte :: after := by
      refine ⟨run.dropLast, after, ?_⟩
      conv_rhs => rw [← List.dropLast_concat_getLast hne]
      simp
    exact hblock (hasOpening_of_triple (hrun _ (List.getLast_mem hne)) hopening)

/-- A letter starts a run of letters that ends where they do. -/
theorem exists_run (tail : Bytes) (hb : isLetter b = true) :
    ∃ run after, b :: tail = run ++ after ∧ run ≠ [] ∧ (∀ b ∈ run, isLetter b = true) ∧
      ∀ b ∈ after.head?, isLetter b = false := by
  refine ⟨(b :: tail).takeWhile isLetter, (b :: tail).dropWhile isLetter,
    List.takeWhile_append_dropWhile.symm, ?_, fun b hb => List.mem_takeWhile_imp hb,
    fun b hb => Text.eq_false_of_mem_head?_dropWhile hb⟩
  rw [List.takeWhile_cons_of_pos hb]
  exact List.cons_ne_nil _ _

/-- **Bytes in which no value may begin are passed over**, if what follows them cannot make them begin
one either. -/
theorem allFrom_append (hblock : ¬ HasOpening block)
    (hlast : ∀ b ∈ block.getLast?, isLetter b = false ∧ b ≠ 0x3D) :
    allFrom pos (block ++ rest) = allFrom (pos + block.length) rest := by
  induction hlength : block.length using Nat.strongRecOn generalizing pos block with
  | ind length ih =>
    subst hlength
    cases block with
    | nil => rfl
    | cons b tail =>
      by_cases hb : isLetter b = true
      · obtain ⟨run, after, hsplit, hne, hrun, hhead⟩ := exists_run tail hb
        rw [hsplit] at hblock hlast ih ⊢
        -- a letter is not the last byte, so something stands behind the run
        have hafter : after ≠ [] := by
          rintro rfl
          rw [List.append_nil] at hlast
          have hmem := List.getLast?_eq_some_getLast hne
          have hletter := hrun _ (List.getLast_mem hne)
          rw [(hlast _ hmem).1] at hletter
          cases hletter
        rw [List.getLast?_append_of_ne_nil run hafter] at hlast
        have hhead' : ∀ b ∈ (after ++ rest).head?, isLetter b = false := by
          rwa [List.head?_append_of_ne_nil after hafter]
        have hvalue : takeValue? (after ++ rest) = none :=
          takeValue?_of_not_hasOpening hblock hne hrun hafter fun b hb => (hlast b hb).2
        have hshort : after.length < (run ++ after).length := by
          have := List.length_pos_iff.mpr hne
          rw [List.length_append]
          omega
        rw [List.append_assoc, allFrom_run_of_none hrun hhead' hvalue,
          ih _ hshort (fun h => hblock (h.mono (List.suffix_append run after).isInfix)) hlast rfl,
          List.length_append, Nat.add_assoc]
      · have htail : ¬ HasOpening tail := fun h => hblock (h.mono (List.suffix_cons b tail).isInfix)
        have hlast' : ∀ b ∈ tail.getLast?, isLetter b = false ∧ b ≠ 0x3D := by
          intro c hc
          refine hlast c ?_
          rw [List.getLast?_cons, Option.mem_def.mp hc]
          rfl
        rw [List.cons_append, allFrom_of_not_letter (Bool.eq_false_iff.mpr hb),
          ih _ (Nat.lt_succ_self _) htail hlast' rfl, List.length_cons, Nat.add_assoc,
          Nat.add_comm 1]

end Occurrence

namespace Attribute

/-- What an attribute says, wherever it stands. -/
def told (a : Attribute) : String × String :=
  (a.name, a.value)

end Attribute

namespace Directives.Draft

variable {d : Draft} {a a' : Attribute} {as bs : List Attribute}

/-! ## What counts of an attribute

A draft takes from an attribute its name and its value, whatever the quotes and the place, and nothing
of one whose name it does not know. -/

theorem take_congr (h : a.told = a'.told) : d.take a = d.take a' := by
  obtain ⟨hname, hvalue⟩ := Prod.mk.inj h
  unfold take
  rw [hname, hvalue]

theorem take_of_unknown (ha : a.name ∉ knownNames) : d.take a = .ok d := by
  simp only [knownNames, List.mem_cons, not_or] at ha
  unfold take
  split <;> simp_all

/-- Lists that tell the same are taken the same way. -/
theorem takeAll_congr (h : as.map Attribute.told = bs.map Attribute.told) :
    d.takeAll (as.map .ok) = d.takeAll (bs.map .ok) := by
  induction as generalizing bs d with
  | nil =>
    obtain rfl : bs = [] := List.map_eq_nil_iff.mp h.symm
    rfl
  | cons a as ih =>
    cases bs with
    | nil => cases h
    | cons a' bs =>
      obtain ⟨ha, has⟩ := List.cons.inj h
      simp only [List.map_cons, takeAll]
      rw [take_congr ha]
      split
      · rfl
      · exact ih has

/-- Unknown names may be left out of a list. -/
theorem takeAll_filter_known (d : Draft) (as : List Attribute) :
    d.takeAll ((as.filter fun a => a.name ∈ knownNames).map .ok) = d.takeAll (as.map .ok) := by
  induction as generalizing d with
  | nil => rfl
  | cons a as ih =>
    by_cases ha : a.name ∈ knownNames
    · rw [List.filter_cons_of_pos (by simpa using ha)]
      simp only [List.map_cons, takeAll]
      split
      · rfl
      · exact ih _
    · rw [List.filter_cons_of_neg (by simpa using ha), List.map_cons, takeAll, take_of_unknown ha]
      exact ih d

/-- **Only what attributes of known names say counts.** -/
theorem takeAll_eq_of_told (h : (as.map Attribute.told).filter (fun t => t.1 ∈ knownNames) =
    (bs.map Attribute.told).filter fun t => t.1 ∈ knownNames) :
    d.takeAll (as.map .ok) = d.takeAll (bs.map .ok) := by
  rw [List.filter_map, List.filter_map] at h
  rw [← takeAll_filter_known d as, ← takeAll_filter_known d bs]
  exact takeAll_congr h

end Directives.Draft

/-! ## What is read of another tag

Two tags with attributes that tell the same give the same directives, or the same error up to the
tag it quotes. -/

/-- The same error of a tag with another text. -/
def TagError.withRaw (raw : String) : TagError → TagError
  | format _ detail => format raw detail
  | missingSource _ => missingSource raw
  | template name value _ cause => template name value raw cause
  | duration name value _ cause => duration name value raw cause

/-- What reading a tag came to, told of another tag. -/
def Include.retold (raw : Bytes) : Except TagError Include → Except TagError Include
  | .ok i => .ok { i with raw }
  | .error e => .error (e.withRaw (Utf8.lossy raw))

theorem Directives.Fault.withRaw_toError (raw raw' : String) (fault : Fault) :
    (fault.toError raw).withRaw raw' = fault.toError raw' := by
  cases fault <;> rfl

namespace Include

variable {raw raw' : Bytes}

/-- What a tag is read as depends on what is taken of its attributes, and on nothing else in it. -/
theorem parse_eq_retold (hraw : raw ≠ []) (hraw' : raw' ≠ [])
    (h : Directives.Draft.takeAll {} (Attribute.scan raw') =
      Directives.Draft.takeAll {} (Attribute.scan raw)) (fragment : Fragment)
    (directives : Directives) :
    ({ raw := raw', fragment, directives } : Include).parse =
      retold raw' ({ raw, fragment, directives } : Include).parse := by
  rw [parse_eq (i := ⟨raw, fragment, directives⟩) hraw,
    parse_eq (i := ⟨raw', fragment, directives⟩) hraw']
  simp only [Directives.ofTag, Directives.ofDraft, h]
  cases Directives.Draft.takeAll {} (Attribute.scan raw) with
  | error fault =>
    simp only [Except.map, retold, Directives.Fault.withRaw_toError]
  | ok draft =>
    simp only
    cases draft.builder.finish with
    | none => rfl
    | some sources => rfl

end Include

/-! ## Tags as they are written

A tag is written from attributes: a blank, a front that opens no value, letters, an equals sign and
a quoted value. Only the last letters before the equals sign are read as the name. -/

namespace Attribute

/-- A byte that can stand in a name: a letter, a digit, or one of `_`, `-` and `:`. -/
def isNameByte (b : UInt8) : Bool :=
  Occurrence.isLetter b || (0x30 ≤ b && b ≤ 0x39) || b = 0x5F || b = 0x2D || b = 0x3A

/-- An attribute as it is written: a name, and between two quotes a text that holds neither the quote
nor a line break. -/
structure Written where
  name : Bytes
  quote : QuoteStyle
  value : String
  name_ne_nil : name ≠ [] := by decide +kernel
  isNameByte_name : ∀ b ∈ name, isNameByte b = true := by decide +kernel
  value_ne_empty : value ≠ "" := by decide +kernel
  isValueByte_value : ∀ b ∈ Utf8.encode value, Occurrence.isValueByte quote b = true := by
    decide +kernel

namespace Written

variable {w : Written} {ws : List Written} {b : UInt8} {pos : Nat} {rest : Bytes}

/-- The bytes of the attribute, and a space in front of them. -/
def spelling (w : Written) : Bytes :=
  0x20 :: (w.name ++ 0x3D :: w.quote.byte :: (Utf8.encode w.value ++ [w.quote.byte]))

/-- The tag with the given attributes. -/
def tag (ws : List Written) : Bytes :=
  Utf8.encode "<esi:include" ++ (ws.flatMap spelling ++ Utf8.encode "/>")

/-- The text of a name in lower case. -/
def lowerText (name : Bytes) : String :=
  String.ofList (name.map fun b => (Char.ofNat b.toNat).toLower)

/-- The whole name is that of an attribute that means something. -/
def IsKnown (w : Written) : Prop :=
  lowerText w.name ∈ Directives.knownNames

instance (w : Written) : Decidable w.IsKnown := by
  unfold IsKnown
  infer_instance

/-- The letters at the end of the name. -/
def lastWord (w : Written) : Bytes :=
  w.name.rtakeWhile Occurrence.isLetter

/-- What stands in front of the last word. -/
def front (w : Written) : Bytes :=
  w.name.rdropWhile Occurrence.isLetter

/-- The value is not looked through for attributes, or none can be found in it. -/
def IsClosed (w : Written) : Prop :=
  w.lastWord = [] → ¬ Occurrence.HasOpening (Utf8.encode w.value ++ [w.quote.byte])

instance (w : Written) : Decidable w.IsClosed := by
  unfold IsClosed
  infer_instance

/-- What a scan tells of the attribute. -/
def told? (w : Written) : Option (String × String) :=
  if w.lastWord = [] then none else some (lowerText w.lastWord, Text.trim w.value)

theorem front_append_lastWord (w : Written) : w.front ++ w.lastWord = w.name :=
  List.rdropWhile_append_rtakeWhile ..

theorem isLetter_lastWord (w : Written) : ∀ b ∈ w.lastWord, Occurrence.isLetter b = true :=
  fun _ hb => List.mem_rtakeWhile_imp hb

theorem encode_value_ne_nil (w : Written) : Utf8.encode w.value ≠ [] := by
  intro hnil
  exact w.value_ne_empty (Utf8.encode_injective (hnil.trans (by rfl : [] = Utf8.encode "")))

theorem not_hasOpening_of_equals {bytes : Bytes} (h : 0x3D ∉ bytes) :
    ¬ Occurrence.HasOpening bytes := by
  rintro ⟨b, -, -, q, -, hin⟩
  exact h (hin.mem (by simp))

/-- In front of the last letters stands no letter. -/
theorem not_letter_of_mem_getLast? (hb : b ∈ (0x20 :: w.front).getLast?) :
    Occurrence.isLetter b = false := by
  by_cases hfront : w.front = []
  · rw [hfront] at hb
    obtain rfl : 0x20 = b := Option.some.inj hb
    decide
  · rw [List.getLast?_cons, List.getLast?_eq_some_getLast hfront] at hb
    obtain rfl : w.front.getLast hfront = b := Option.some.inj hb
    exact Bool.eq_false_iff.mpr (List.rdropWhile_last_not _ _ hfront)

/-- A space and what stands in front of the last word are passed over. -/
theorem allFrom_front (w : Written) (pos : Nat) (rest : Bytes) :
    Occurrence.allFrom pos (0x20 :: w.front ++ rest) =
      Occurrence.allFrom (pos + w.front.length + 1) rest := by
  have hequals : 0x3D ∉ 0x20 :: w.front := by
    intro hmem
    rcases List.mem_cons.mp hmem with hspace | hfront
    · exact absurd hspace (by decide)
    · have := w.isNameByte_name _ ((List.rdropWhile_prefix ..).mem hfront)
      exact absurd this (by decide)
  refine Occurrence.allFrom_append (not_hasOpening_of_equals hequals) fun b hb =>
    ⟨not_letter_of_mem_getLast? hb, ?_⟩
  rintro rfl
  exact hequals (List.mem_of_mem_getLast? hb)

/-- The spelling of an attribute, taken apart where the scan stops. -/
theorem spelling_append (w : Written) (rest : Bytes) :
    w.spelling ++ rest = 0x20 :: w.front ++ (w.lastWord ++
      0x3D :: w.quote.byte :: (Utf8.encode w.value ++ w.quote.byte :: rest)) := by
  rw [spelling, ← front_append_lastWord]
  simp

/-- The number of bytes an attribute takes up. -/
theorem length_spelling (w : Written) : w.spelling.length =
    w.front.length + 1 + (w.lastWord.length + (Utf8.encode w.value).length + 3) := by
  rw [spelling, ← front_append_lastWord]
  simp only [List.length_append, List.length_cons, List.length_nil]
  omega

theorem not_letter_quote (q : QuoteStyle) : Occurrence.isLetter q.byte = false ∧ q.byte ≠ 0x3D := by
  cases q <;> decide

/-- Without a last word the scan goes on in the value. -/
theorem allFrom_spelling_of_no_word (hclosed : w.IsClosed) (hword : w.lastWord = []) :
    Occurrence.allFrom pos (w.spelling ++ rest) =
      Occurrence.allFrom (pos + w.spelling.length) rest := by
  have hquote := not_letter_quote w.quote
  have hvalue : Occurrence.allFrom (pos + w.front.length + 3)
      (Utf8.encode w.value ++ [w.quote.byte] ++ rest) =
        Occurrence.allFrom (pos + w.front.length + 3 + (Utf8.encode w.value ++ [w.quote.byte]).length)
          rest := by
    refine Occurrence.allFrom_append (hclosed hword) fun b hb => ?_
    rw [List.getLast?_concat] at hb
    obtain rfl : w.quote.byte = b := Option.some.inj hb
    exact hquote
  rw [List.append_assoc, List.singleton_append] at hvalue
  rw [spelling_append, allFrom_front, hword, List.nil_append,
    Occurrence.allFrom_of_not_letter (by decide), Occurrence.allFrom_of_not_letter hquote.1, hvalue,
    length_spelling, hword]
  simp only [List.length_append, List.length_cons, List.length_nil]
  congr 1
  omega

/-- Otherwise the last word is taken for the name. -/
theorem allFrom_spelling_of_word (hword : w.lastWord ≠ []) :
    Occurrence.allFrom pos (w.spelling ++ rest) =
      ⟨pos + w.front.length + 1, w.lastWord, w.quote, Utf8.encode w.value⟩ ::
        Occurrence.allFrom (pos + w.spelling.length) rest := by
  rw [spelling_append, allFrom_front,
    Occurrence.allFrom_run_of_some hword w.isLetter_lastWord w.encode_value_ne_nil
      w.isValueByte_value, length_spelling]
  congr 2
  omega

/-- **What a scan tells of attributes that were written.** -/
theorem scan_spellings (pos : Nat) (hws : ∀ w ∈ ws, w.IsClosed)
    (hrest : ∀ pos, Occurrence.allFrom pos rest = []) : ∃ as : List Attribute,
      (Occurrence.allFrom pos (ws.flatMap spelling ++ rest)).map Occurrence.read = as.map .ok ∧
        as.map Attribute.told = ws.filterMap told? := by
  induction ws generalizing pos with
  | nil => exact ⟨[], by rw [List.flatMap_nil, List.nil_append, hrest]; rfl, rfl⟩
  | cons w ws ih =>
    obtain ⟨hw, hws⟩ := List.forall_mem_cons.mp hws
    obtain ⟨as, hscan, htold⟩ := ih (pos + w.spelling.length) hws
    rw [List.flatMap_cons, List.append_assoc, List.filterMap_cons, told?]
    by_cases hword : w.lastWord = []
    · rw [allFrom_spelling_of_no_word hw hword, if_pos hword]
      exact ⟨as, hscan, htold⟩
    · rw [allFrom_spelling_of_word hword, if_neg hword]
      refine ⟨⟨lowerText w.lastWord, Text.trim w.value, w.quote, pos + w.front.length + 1⟩ :: as,
        ?_, ?_⟩
      · rw [List.map_cons, hscan, Occurrence.read, Utf8.decode?_eq_some_iff.mpr rfl]
        rfl
      · rw [List.map_cons, htold]
        rfl

/-- The end of a tag holds no attribute. -/
theorem allFrom_ending (pos : Nat) : Occurrence.allFrom pos (Utf8.encode "/>") = [] := by
  have hpassed : Occurrence.allFrom pos (Utf8.encode "/>" ++ []) =
      Occurrence.allFrom (pos + (Utf8.encode "/>").length) [] :=
    Occurrence.allFrom_append (not_hasOpening_of_equals (by decide +kernel)) (by decide +kernel)
  rwa [List.append_nil, Occurrence.allFrom] at hpassed

/-- The name of the tag is passed over if something follows that makes it no name of an attribute. -/
theorem allFrom_opening (hb : Occurrence.isLetter b = false) (hequals : b ≠ 0x3D) (rest : Bytes) :
    Occurrence.allFrom 0 (Utf8.encode "<esi:include" ++ b :: rest) =
      Occurrence.allFrom 12 (b :: rest) := by
  have hblock : 0x3D ∉ Utf8.encode "<esi:include" ++ [b] := by
    rw [List.mem_append, List.mem_singleton, not_or]
    exact ⟨by decide, hequals.symm⟩
  rw [List.append_cons, Occurrence.allFrom_append (not_hasOpening_of_equals hblock),
    Occurrence.allFrom_of_not_letter hb, List.length_append]
  · rfl
  · intro c hc
    rw [List.getLast?_concat] at hc
    obtain rfl : b = c := Option.some.inj hc
    exact ⟨hb, hequals⟩

/-- A scan of a written tag finds what its attributes tell, in order and without an error. -/
theorem scan_tag (hws : ∀ w ∈ ws, w.IsClosed) : ∃ as : List Attribute,
    Attribute.scan (tag ws) = as.map .ok ∧ as.map Attribute.told = ws.filterMap told? := by
  obtain ⟨as, hscan, htold⟩ := scan_spellings 12 hws allFrom_ending
  refine ⟨as, ?_, htold⟩
  rw [← hscan, Attribute.scan, Occurrence.all, tag]
  -- what follows the name of the tag begins with a slash or with a space
  cases ws with
  | nil => exact congrArg _ (allFrom_opening (by decide) (by decide) _)
  | cons w ws => exact congrArg _ (allFrom_opening (by decide) (by decide) _)

/-! ## What an attribute counts as

An attribute is read under the last letters of its name. It counts where they are a known name,
whatever stands left of them. -/

/-- A known name has letters. -/
theorem lastWord_ne_nil_of_known (h : lowerText w.lastWord ∈ Directives.knownNames) :
    w.lastWord ≠ [] := by
  intro hnil
  rw [hnil] at h
  exact absurd h (by decide)

/-- The attribute whose name is the last word, if that is known. -/
def readAs? (w : Written) : Option Written :=
  if h : lowerText w.lastWord ∈ Directives.knownNames then
    some { w with
      name := w.lastWord
      name_ne_nil := lastWord_ne_nil_of_known h
      isNameByte_name := fun b hb => w.isNameByte_name b ((List.rtakeWhile_suffix ..).mem hb) }
  else none

/-- Reading an attribute as what it counts as tells what is known of it. -/
theorem told?_readAs? (w : Written) :
    w.readAs?.bind told? = w.told?.filter fun t => t.1 ∈ Directives.knownNames := by
  by_cases h : lowerText w.lastWord ∈ Directives.knownNames
  · have hword := lastWord_ne_nil_of_known h
    have hagain : w.lastWord.rtakeWhile Occurrence.isLetter = w.lastWord :=
      List.rtakeWhile_idempotent ..
    rw [readAs?, dif_pos h, Option.bind_some, told?, told?, lastWord, hagain, if_neg hword,
      Option.filter_some, if_pos (decide_eq_true h)]
  · rw [readAs?, dif_neg h, Option.bind_none, told?]
    split
    · rfl
    · rw [Option.filter_some, if_neg (by simpa using h)]

/-- What an attribute counts as opens no value in its front. -/
theorem isClosed_of_readAs? {w' : Written} (h : w.readAs? = some w') : w'.IsClosed := by
  unfold readAs? at h
  split at h
  · rename_i hknown
    cases h
    intro hnil
    exact absurd ((List.rtakeWhile_idempotent ..).symm.trans hnil) (lastWord_ne_nil_of_known hknown)
  · cases h

/-- **An attribute counts by the last word of its name**, and for nothing if that is not known. -/
theorem parse_tag_readAs (ws : List Written) (hws : ∀ w ∈ ws, w.IsClosed) (fragment : Fragment)
    (directives : Directives) :
    ({ raw := tag (ws.filterMap readAs?), fragment, directives } : Include).parse =
      Include.retold (tag (ws.filterMap readAs?))
        ({ raw := tag ws, fragment, directives } : Include).parse := by
  have hclosed : ∀ w ∈ ws.filterMap readAs?, w.IsClosed := by
    intro w hw
    obtain ⟨v, -, hv⟩ := List.mem_filterMap.mp hw
    exact isClosed_of_readAs? hv
  obtain ⟨as, hscan, htold⟩ := scan_tag hws
  obtain ⟨as', hscan', htold'⟩ := scan_tag hclosed
  -- written as what they count as, the attributes tell just what is known of them
  have hsame : as'.map Attribute.told =
      (as.map Attribute.told).filter fun t => t.1 ∈ Directives.knownNames := by
    rw [htold, htold', List.filterMap_filterMap, List.filter_filterMap]
    exact List.filterMap_congr fun w _ => told?_readAs? w
  refine Include.parse_eq_retold (by simp [tag, Utf8.encode]) (by simp [tag, Utf8.encode]) ?_
    fragment directives
  rw [hscan, hscan']
  refine Directives.Draft.takeAll_eq_of_told ?_
  rw [hsame, List.filter_filter]
  simp only [Bool.and_self]

/-! ## Deleting what is unknown

An attribute with a known name has no front. So deleting the others deletes what does not count,
unless one of them is read under the last letters of its name. -/

/-- The last word of the name is not known, and the value is closed. -/
structure IsPassedOver (w : Written) : Prop where
  lastWord_unknown : lowerText w.lastWord ∉ Directives.knownNames
  isClosed : w.IsClosed

/-- A byte with a small letter for its lower case is a letter. -/
theorem isLetter_of_toLower {b : UInt8} (h : (Char.ofNat b.toNat).toLower.isLower = true) :
    Occurrence.isLetter b = true := by
  have hall : ∀ b : UInt8, (Char.ofNat b.toNat).toLower.isLower = true →
      Occurrence.isLetter b = true :=
    Utf8.forall_byte (by decide +kernel)
  exact hall b h

/-- A known name is letters throughout. -/
theorem IsKnown.lastWord_eq (h : w.IsKnown) : w.lastWord = w.name := by
  have hlower : Directives.knownNames.all (fun name => name.toList.all Char.isLower) = true := by
    decide +kernel
  have hname := List.all_eq_true.mp (List.all_eq_true.mp hlower _ h)
  refine List.rtakeWhile_eq_self_iff.mpr fun b hb => isLetter_of_toLower (hname _ ?_)
  rw [lowerText, String.toList_ofList]
  exact List.mem_map_of_mem hb

theorem IsKnown.isClosed (h : w.IsKnown) : w.IsClosed := by
  intro hword
  exact absurd (h.lastWord_eq.symm.trans hword) w.name_ne_nil

/-- A known name is read as it is written. -/
theorem IsKnown.readAs?_eq (h : w.IsKnown) : w.readAs? = some w := by
  have hword := h.lastWord_eq
  unfold IsKnown at h
  rw [← hword] at h
  rw [readAs?, dif_pos h]
  simp only [hword]

/-- **Attributes of unknown names are ignored**, unless an attribute is found in them. -/
theorem deletion_of_unknown (ws : List Written) (hws : ∀ w ∈ ws, ¬ w.IsKnown → w.IsPassedOver)
    (fragment : Fragment) (directives : Directives) :
    ({ raw := tag (ws.filter fun w => w.IsKnown), fragment, directives } : Include).parse =
      Include.retold (tag (ws.filter fun w => w.IsKnown))
        ({ raw := tag ws, fragment, directives } : Include).parse := by
  have hclosed : ∀ w ∈ ws, w.IsClosed := by
    intro w hw
    by_cases hknown : w.IsKnown
    · exact hknown.isClosed
    · exact (hws w hw hknown).isClosed
  have hfilter : ws.filterMap readAs? = ws.filter fun w => w.IsKnown := by
    rw [← List.filterMap_eq_filter]
    refine List.filterMap_congr fun w hw => ?_
    by_cases hknown : w.IsKnown
    · simp only [hknown.readAs?_eq, Option.guard, decide_true, if_true, hknown]
    · simp only [readAs?, dif_neg (hws w hw hknown).lastWord_unknown, Option.guard, hknown,
        decide_false, Bool.false_eq_true, if_false]
  have hparse := parse_tag_readAs ws hclosed fragment directives
  rwa [hfilter] at hparse

/-- What a tag with one source asks for. -/
def oneSource (text : String) : Directives where
  sources := ⟨[{ index := 0, url := some (.literal text) }], [(0, 0)]⟩

/-- A source among attributes of unknown names: one that ends in no letter, one of several words, and
one with a known name in its value. -/
def future : List Written :=
  [{ name := Utf8.encode "rank-2", quote := .double, value := "a ='b'" },
    { name := Utf8.encode "SRC", quote := .single, value := "u" },
    { name := Utf8.encode "src-set", quote := .double, value := "v" },
    { name := Utf8.encode "alt", quote := .double, value := "src='w'" }]

/-- Attributes of a later version, one of which holds what looks like an attribute in its value. -/
theorem deletion_of_unknown_future :
    tag future = Utf8.encode
      "<esi:include rank-2=\"a ='b'\" SRC='u' src-set=\"v\" alt=\"src='w'\"/>" ∧
    tag (future.filter fun w => w.IsKnown) = Utf8.encode "<esi:include SRC='u'/>" ∧
    (Include.ofTag (tag future) 7 70).parse =
      .ok { Include.ofTag (tag future) 7 70 with directives := oneSource "u" } ∧
    (Include.ofTag (tag (future.filter fun w => w.IsKnown)) 7 70).parse =
      .ok { Include.ofTag (tag (future.filter fun w => w.IsKnown)) 7 70 with
        directives := oneSource "u" } := by
  have hpassed : ∀ w ∈ future, ¬ w.IsKnown → w.IsPassedOver := by
    intro w hw hunknown
    have hall : ∀ w ∈ future, ¬ w.IsKnown →
        lowerText w.lastWord ∉ Directives.knownNames ∧ w.IsClosed := by
      decide +kernel
    exact ⟨(hall w hw hunknown).1, (hall w hw hunknown).2⟩
  have hread : (Include.ofTag (tag future) 7 70).parse =
      .ok { Include.ofTag (tag future) 7 70 with directives := oneSource "u" } := by
    decide +kernel
  refine ⟨by decide +kernel, by decide +kernel, hread, ?_⟩
  have hdeleted := deletion_of_unknown future hpassed ⟨7, 70, []⟩ {}
  rw [show (⟨tag future, ⟨7, 70, []⟩, {}⟩ : Include).parse = _ from hread] at hdeleted
  exact hdeleted

/-- The name is longer than that of a source, and a scan begins to read it where that begins. -/
def dataSrc : Written :=
  { name := Utf8.encode "data-src", quote := .double, value := "x" }

/-- The name ends in no letter, so that a scan goes on in the value, where a source is named. -/
def numbered : Written :=
  { name := Utf8.encode "a1", quote := .double, value := "src='x'" }

/-- **Not every attribute of an unknown name is ignored.** With either of these alone a tag is read, and
has a source; without it there is none. -/
theorem unknown_name_counts :
    [dataSrc, numbered].filter (fun w => w.IsKnown) = [] ∧
      (Include.ofTag (tag [dataSrc]) 0 27).parse =
        .ok { Include.ofTag (tag [dataSrc]) 0 27 with directives := oneSource "x" } ∧
      (Include.ofTag (tag [numbered]) 0 27).parse =
        .ok { Include.ofTag (tag [numbered]) 0 27 with directives := oneSource "x" } ∧
      (Include.ofTag (tag []) 0 27).parse = .error (.missingSource "<esi:include/>") := by
  refine ⟨?_, ?_, ?_, ?_⟩
  · rw [List.filter_eq_nil_iff]
    decide +kernel
  · decide +kernel
  · decide +kernel
  · decide +kernel

end Written

end Attribute

end EdgeInclude
