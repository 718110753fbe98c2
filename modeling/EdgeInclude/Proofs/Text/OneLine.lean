import Mathlib.Data.List.Basic
import EdgeInclude.Proofs.Text.Decimal
import EdgeInclude.Proofs.Text.Utf8
import EdgeInclude.Duration.Basic
import EdgeInclude.Text.Quoted

/-!
# Texts that keep to one line

A text keeps to one line if no control character stands in it; so no line break does. What diagnostics
put into a line keeps to it: numbers, durations, and quoted texts, whatever is quoted. To be unbroken is
less: only line feeds and carriage returns are kept out.

* **`IsOneLine`**, **`IsUnbroken`**, and how they go through the ways in which a text is put together.
* **`isOneLine_quote`**: whatever is quoted.
* **`IsUnbroken.encode`**: no byte of the text is a line feed or a carriage return.
-/

namespace EdgeInclude

namespace Text

variable {c : Char} {cs ds : List Char} {text : String} {texts : List String} {n : Nat}

/-- No control character stands among the characters. -/
def IsOneLine (cs : List Char) : Prop :=
  ∀ c ∈ cs, 0x20 ≤ c.toNat

@[simp]
theorem isOneLine_nil : IsOneLine [] :=
  List.forall_mem_nil _

@[simp]
theorem isOneLine_cons : IsOneLine (c :: cs) ↔ 0x20 ≤ c.toNat ∧ IsOneLine cs :=
  List.forall_mem_cons

@[simp]
theorem isOneLine_append : IsOneLine (cs ++ ds) ↔ IsOneLine cs ∧ IsOneLine ds :=
  List.forall_mem_append

/-- A text is on one line if each of its pieces is. -/
theorem IsOneLine.flatMap {α : Type} {as : List α} {f : α → List Char}
    (h : ∀ a ∈ as, IsOneLine (f a)) : IsOneLine (as.flatMap f) := by
  intro c hc
  obtain ⟨a, ha, hmem⟩ := List.mem_flatMap.mp hc
  exact h a ha c hmem

/-- What holds of the characters of texts, and of what is put between them, holds of those of the joined
text. -/
theorem forall_mem_intercalate {P : Char → Prop} (htext : ∀ c ∈ text.toList, P c)
    (h : ∀ t ∈ texts, ∀ c ∈ t.toList, P c) : ∀ c ∈ (text.intercalate texts).toList, P c := by
  rw [String.toList_intercalate]
  induction texts with
  | nil => exact List.forall_mem_nil _
  | cons t texts ih =>
    obtain ⟨ht, hrest⟩ := List.forall_mem_cons.mp h
    cases texts with
    | nil => simpa using ht
    | cons t' texts =>
      rw [List.map_cons, List.map_cons, List.intercalate_cons_cons]
      exact List.forall_mem_append.mpr ⟨List.forall_mem_append.mpr ⟨ht, htext⟩, ih hrest⟩

theorem IsOneLine.intercalate (htext : IsOneLine text.toList)
    (h : ∀ t ∈ texts, IsOneLine t.toList) : IsOneLine (text.intercalate texts).toList :=
  forall_mem_intercalate htext h

theorem IsOneLine.notMem_lineFeed (h : IsOneLine cs) : '\n' ∉ cs :=
  fun hmem => absurd (h _ hmem) (by decide)

/-! ### Line breaks -/

/-- Neither a line feed nor a carriage return stands among the characters. -/
def IsUnbroken (cs : List Char) : Prop :=
  ∀ c ∈ cs, c ≠ '\n' ∧ c ≠ '\r'

@[simp]
theorem isUnbroken_nil : IsUnbroken [] :=
  List.forall_mem_nil _

@[simp]
theorem isUnbroken_cons : IsUnbroken (c :: cs) ↔ (c ≠ '\n' ∧ c ≠ '\r') ∧ IsUnbroken cs :=
  List.forall_mem_cons

@[simp]
theorem isUnbroken_append : IsUnbroken (cs ++ ds) ↔ IsUnbroken cs ∧ IsUnbroken ds :=
  List.forall_mem_append

theorem IsUnbroken.intercalate (htext : IsUnbroken text.toList)
    (h : ∀ t ∈ texts, IsUnbroken t.toList) : IsUnbroken (text.intercalate texts).toList :=
  forall_mem_intercalate htext h

/-- A text on one line is unbroken. -/
theorem IsOneLine.isUnbroken (h : IsOneLine cs) : IsUnbroken cs := by
  intro c hc
  have hge := h c hc
  constructor
  · rintro rfl
    exact absurd hge (by decide)
  · rintro rfl
    exact absurd hge (by decide)

/-! ### Numbers -/

/-- No digit is a control character. -/
theorem le_toNat_digitChar (n : Nat) : 0x20 ≤ n.digitChar.toNat := by
  by_cases hn : n < 16
  · have hall : ∀ n < 16, 0x20 ≤ n.digitChar.toNat := by decide
    exact hall n hn
  · -- past the digits of base sixteen stands an asterisk
    have hstar : n.digitChar = '*' := by
      unfold Nat.digitChar
      repeat rw [if_neg (by omega)]
    rw [hstar]
    decide

/-- Digits are on one line, to any base. -/
theorem isOneLine_toDigits (base n : Nat) (hbase : 1 < base) : IsOneLine (Nat.toDigits base n) := by
  induction n using Nat.strongRecOn with
  | ind n ih =>
    by_cases hn : base ≤ n
    · rw [Nat.toDigits_of_base_le hbase hn]
      have hlt : n / base < n := Nat.div_lt_self (by omega) hbase
      exact isOneLine_append.mpr ⟨ih _ hlt, by simpa using le_toNat_digitChar (n % base)⟩
    · rw [Nat.toDigits_of_lt_base (by omega)]
      simpa using le_toNat_digitChar n

@[simp]
theorem isOneLine_digits (n : Nat) : IsOneLine (digits n) :=
  isOneLine_toDigits 10 n (by decide)

@[simp]
theorem isOneLine_decimal (n : Nat) : IsOneLine (decimal n).toList := by
  rw [decimal, String.toList_ofList]
  exact isOneLine_digits n

/-- Zeros in front of a number break no line. -/
theorem isOneLine_paddedDigits (width n : Nat) : IsOneLine (paddedDigits width n) := by
  induction width generalizing n with
  | zero => exact isOneLine_nil
  | succ width ih =>
    have hdigit : ∀ d < 10, 0x20 ≤ (Char.ofNat ('0'.toNat + d)).toNat := by decide
    have hlast := hdigit (n % 10) (Nat.mod_lt n (by decide))
    rw [paddedDigits]
    exact isOneLine_append.mpr ⟨ih (n / 10), isOneLine_cons.mpr ⟨hlast, isOneLine_nil⟩⟩

/-- Places of a duration are on one line. -/
theorem isOneLine_fraction (rest places : Nat) : IsOneLine (Duration.fraction rest places) := by
  have hsub : ∀ c ∈ ((paddedDigits places rest).reverse.dropWhile (· = '0')).reverse,
      0x20 ≤ c.toNat := fun c hc =>
    isOneLine_paddedDigits places rest c
      (List.mem_reverse.mp ((List.dropWhile_sublist _).subset (List.mem_reverse.mp hc)))
  unfold Duration.fraction
  split
  · exact isOneLine_nil
  · exact isOneLine_cons.mpr ⟨by decide, hsub⟩

@[simp]
theorem isOneLine_describe (d : Duration) : IsOneLine d.describe.toList := by
  unfold Duration.describe
  split_ifs <;> simp [isOneLine_fraction]

/-! ### Quoted texts -/

/-- A character is shown as it is only if it is no control character. -/
theorem le_toNat_of_isPrintable (h : isPrintable c = true) : 0x20 ≤ c.toNat := by
  by_contra hlt
  rw [isPrintable_eq_false_of_lt (by omega)] at h
  cases h

/-- A quoted character is on one line, escaped if it has to be. -/
theorem isOneLine_quoteChar (c : Char) : IsOneLine (quoteChar c) := by
  unfold quoteChar
  split_ifs with _ _ _ _ _ _ hprintable
  -- the escapes of two characters
  iterate 6 simp
  · exact isOneLine_cons.mpr ⟨le_toNat_of_isPrintable hprintable, isOneLine_nil⟩
  · simp [isOneLine_toDigits]

@[simp]
theorem isOneLine_quote (text : String) : IsOneLine (quote text).toList := by
  have hinside := IsOneLine.flatMap fun c (_ : c ∈ text.toList) => isOneLine_quoteChar c
  simp [quote, hinside]

/-- A list of quoted texts is on one line. -/
@[simp]
theorem isOneLine_quoteList (texts : List String) : IsOneLine (quoteList texts).toList := by
  have hinside : IsOneLine (", ".intercalate (texts.map quote)).toList := by
    refine IsOneLine.intercalate (by simp) fun t ht => ?_
    obtain ⟨text, -, rfl⟩ := List.mem_map.mp ht
    exact isOneLine_quote text
  simp only [quoteList, String.toList_append, isOneLine_append]
  exact ⟨⟨by simp, hinside⟩, by simp⟩

/-! ### Bytes -/

/-- Only the bytes of a character stand for it, and a byte below 0x80 is a character of its own. -/
theorem toNat_of_mem_encodeChar {b : UInt8} (hb : b ∈ String.utf8EncodeChar c)
    (hlow : b.toNat < 0x80) : c.toNat = b.toNat := by
  have hbyte (v : Nat) (hv : v < 256) : (UInt8.ofNat v).toNat = v :=
    Utf8.toNat_ofNat_of_lt hv
  rcases Utf8.encodeChar_cases c with ⟨hv, henc⟩ | ⟨hv, hv', henc⟩ | ⟨hv, hv', henc⟩ |
      ⟨hv, hv', henc⟩
  · rw [henc, List.mem_singleton] at hb
    rw [hb, hbyte _ (by omega)]
  all_goals
    -- the bytes of a longer character have their highest bit set
    simp only [henc, List.mem_cons, List.not_mem_nil, or_false] at hb
    rcases hb with rfl | rfl | rfl | rfl <;> rw [hbyte _ (by omega)] at hlow <;> omega

/-- No byte of an unbroken text is a line feed or a carriage return. -/
theorem IsUnbroken.encode (h : IsUnbroken text.toList) :
    ∀ b ∈ Utf8.encode text, b ≠ 0x0A ∧ b ≠ 0x0D := by
  intro b hb
  obtain ⟨c, hc, hmem⟩ := List.mem_flatMap.mp hb
  have hne := h c hc
  constructor
  · rintro rfl
    have heq := toNat_of_mem_encodeChar hmem (by decide)
    exact hne.1 (Char.ext (UInt32.toNat_inj.mp heq))
  · rintro rfl
    have heq := toNat_of_mem_encodeChar hmem (by decide)
    exact hne.2 (Char.ext (UInt32.toNat_inj.mp heq))

end Text

end EdgeInclude
