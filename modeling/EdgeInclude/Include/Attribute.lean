import EdgeInclude.Text.Blank
import EdgeInclude.Text.Decimal
import EdgeInclude.Text.Utf8

/-!
# Attributes of a tag

An attribute is a run of ASCII letters, an equals sign, and a value of one byte or more between two
double or two single quotes. The value holds neither its quote nor a line break. Whatever else
stands in a tag is passed over.

`Occurrence.all` finds the attributes; `Occurrence.read` makes text of one.
-/

namespace EdgeInclude

/-- The quotes around a value. -/
inductive QuoteStyle where
  | double | single
deriving DecidableEq, Repr

namespace QuoteStyle

/-- The quote as a byte. -/
def byte : QuoteStyle → UInt8
  | double => 0x22
  | single => 0x27

/-- The style of a byte, if it is a quote. -/
def ofByte? (b : UInt8) : Option QuoteStyle :=
  if b = 0x22 then some double
  else if b = 0x27 then some single
  else none

@[simp]
theorem ofByte?_byte (q : QuoteStyle) : ofByte? q.byte = some q := by
  cases q <;> decide

end QuoteStyle

/-- An attribute as it stands in a tag, with the offset of its first byte. -/
structure Occurrence where
  offset : Nat
  name : Bytes
  quote : QuoteStyle
  value : Bytes
deriving DecidableEq, Repr

/-- An attribute as text: its name in lower case, and its value without white space at the ends. -/
structure Attribute where
  name : String
  value : String
  quote : QuoteStyle
  offset : Nat
deriving DecidableEq, Repr

/-- Why an attribute is no text. -/
inductive ScanError where
  /-- The value that begins at the offset is not UTF-8. -/
  | notUtf8 (offset : Nat)
deriving DecidableEq, Repr

/-- What the error says. -/
def ScanError.message : ScanError → String
  | notUtf8 offset => "attribute at byte " ++ Text.decimal offset ++ " is not valid UTF-8"

namespace Occurrence

/-- An ASCII letter. -/
def isLetter (b : UInt8) : Bool :=
  (0x41 ≤ b && b ≤ 0x5A) || (0x61 ≤ b && b ≤ 0x7A)

/-- A byte that can stand in a value with the given quotes. -/
def isValueByte (q : QuoteStyle) (b : UInt8) : Bool :=
  !(b = q.byte || b = 0x0D || b = 0x0A)

/-- Takes an equals sign and a quoted value: the quotes, the value, and what follows. -/
def takeValue? : Bytes → Option (QuoteStyle × Bytes × Bytes)
  | equals :: opening :: bs =>
    if equals = 0x3D then
      match QuoteStyle.ofByte? opening with
      | none => none
      | some q =>
        match bs.dropWhile (isValueByte q) with
        | [] => none
        | closing :: rest =>
          if closing = q.byte ∧ bs.takeWhile (isValueByte q) ≠ [] then
            some (q, bs.takeWhile (isValueByte q), rest)
          else none
    else none
  | _ => none

/-- The byte offset at which the value begins. -/
def valueOffset (o : Occurrence) : Nat :=
  o.offset + o.name.length + 2

/-- The byte offset behind the closing quote. -/
def endOffset (o : Occurrence) : Nat :=
  o.valueOffset + o.value.length + 1

theorem length_takeValue?_lt {bs value rest : Bytes} {q : QuoteStyle}
    (h : takeValue? bs = some (q, value, rest)) : rest.length < bs.length := by
  unfold takeValue? at h
  split at h
  · rename_i equals opening bs
    split at h
    · split at h
      · cases h
      · rename_i q' _
        have hle := (List.dropWhile_sublist (l := bs) (isValueByte q')).length_le
        split at h
        · cases h
        · rename_i closing rest' hd
          split at h
          · cases h
            rw [hd] at hle
            simp only [List.length_cons] at hle ⊢
            omega
          · cases h
    · cases h
  · cases h

-- The recursion below is bounded by the equation of its match, which the linter does not see.
set_option linter.unusedVariables false in
/-- The attributes of a byte string that begins at byte `offset` of a tag. A run of letters that no
value follows is passed over as a whole. -/
def allFrom (offset : Nat) (bs : Bytes) : List Occurrence :=
  match bs with
  | [] => []
  | b :: rest =>
    if isLetter b then
      let name := b :: rest.takeWhile isLetter
      let afterName := rest.dropWhile isLetter
      match h : takeValue? afterName with
      | none => allFrom (offset + name.length) afterName
      | some (quote, value, afterValue) =>
        let o : Occurrence := { offset, name, quote, value }
        o :: allFrom o.endOffset afterValue
    else allFrom (offset + 1) rest
termination_by bs.length
decreasing_by
  · have := (List.dropWhile_sublist (l := rest) isLetter).length_le
    simp only [List.length_cons]
    omega
  · have h1 := length_takeValue?_lt h
    have h2 := (List.dropWhile_sublist (l := rest) isLetter).length_le
    simp only [afterName] at h1
    simp only [List.length_cons]
    omega
  · simp

/-- The attributes of a tag, in order. -/
def all (raw : Bytes) : List Occurrence :=
  allFrom 0 raw

/-- The name of an attribute in lower case. -/
def lowerName (o : Occurrence) : String :=
  String.ofList (o.name.map fun b => (Char.ofNat b.toNat).toLower)

/-- The attribute as text. -/
def read (o : Occurrence) : Except ScanError Attribute :=
  match Utf8.decode? o.value with
  | none => .error (.notUtf8 o.valueOffset)
  | some value => .ok ⟨o.lowerName, Text.trim value, o.quote, o.offset⟩

end Occurrence

/-- What stands in a tag, in order: for each attribute its text, or why it has none. -/
def Attribute.scan (raw : Bytes) : List (Except ScanError Attribute) :=
  (Occurrence.all raw).map Occurrence.read

end EdgeInclude
