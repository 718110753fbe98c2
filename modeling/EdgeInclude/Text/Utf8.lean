/-!
# Bytes and the text they spell

A page is bytes; a diagnostic is text. `Utf8.pieces` reads a byte string as UTF-8 one piece at a
time: a character, or a longest run of bytes that begins some character and is cut short. Both
readings used elsewhere are views of it: `Utf8.decode?` wants characters only, and `Utf8.lossy`
puts U+FFFD where a piece is ill-formed.
-/

namespace EdgeInclude

/-- A byte string. -/
abbrev Bytes := List UInt8

namespace Utf8

/-- A character whose bytes are not all read: the next byte has to lie in `low..high`, `later`
more follow that one, and `bits` holds the value of the bytes read so far. -/
structure Unfinished where
  later : Nat
  low : UInt8
  high : UInt8
  bits : Nat
deriving DecidableEq, Repr

/-- What a byte says when no character is unfinished. -/
inductive Lead where
  /-- The byte is a character of its own. -/
  | single (c : Char)
  /-- The byte begins a character of two to four bytes. -/
  | opening (u : Unfinished)
  /-- No character begins with the byte. -/
  | illFormed
deriving DecidableEq, Repr

/-- The first byte of a character fixes how many follow. The narrowed ranges of the second byte
keep out overlong forms, surrogates and values above U+10FFFF. -/
def Lead.ofByte (b : UInt8) : Lead :=
  if b < 0x80 then .single (Char.ofNat b.toNat)
  else if b < 0xC2 then .illFormed
  else if b ≤ 0xDF then .opening ⟨0, 0x80, 0xBF, b.toNat - 0xC0⟩
  else if b = 0xE0 then .opening ⟨1, 0xA0, 0xBF, 0⟩
  else if b = 0xED then .opening ⟨1, 0x80, 0x9F, 0xD⟩
  else if b ≤ 0xEF then .opening ⟨1, 0x80, 0xBF, b.toNat - 0xE0⟩
  else if b = 0xF0 then .opening ⟨2, 0x90, 0xBF, 0⟩
  else if b ≤ 0xF3 then .opening ⟨2, 0x80, 0xBF, b.toNat - 0xF0⟩
  else if b = 0xF4 then .opening ⟨2, 0x80, 0x8F, 4⟩
  else .illFormed

/-- Reads the pieces of a byte string that stands behind an unfinished character, or behind none.
A byte that does not continue the character ends its piece as ill-formed and is read afresh. -/
def piecesAfter : Option Unfinished → Bytes → List (Option Char)
  | none, [] => []
  | some _, [] => [none]
  | none, b :: rest =>
    match Lead.ofByte b with
    | .single c => some c :: piecesAfter none rest
    | .opening u => piecesAfter (some u) rest
    | .illFormed => none :: piecesAfter none rest
  | some u, b :: rest =>
    if u.low ≤ b ∧ b ≤ u.high then
      let bits := u.bits * 64 + (b.toNat - 0x80)
      match u.later with
      | 0 => some (Char.ofNat bits) :: piecesAfter none rest
      | later + 1 => piecesAfter (some ⟨later, 0x80, 0xBF, bits⟩) rest
    else
      match Lead.ofByte b with
      | .single c => none :: some c :: piecesAfter none rest
      | .opening v => none :: piecesAfter (some v) rest
      | .illFormed => none :: none :: piecesAfter none rest

/-- The pieces of a byte string: its characters, with `none` for each ill-formed piece. -/
def pieces (bytes : Bytes) : List (Option Char) :=
  piecesAfter none bytes

/-- The text a byte string spells, if every piece of it is a character. -/
def decode? (bytes : Bytes) : Option String :=
  ((pieces bytes).mapM id).map String.ofList

/-- The text of a byte string with U+FFFD for each ill-formed piece. -/
def lossy (bytes : Bytes) : String :=
  String.ofList ((pieces bytes).map fun piece => piece.getD '\uFFFD')

/-- The bytes of a text. -/
def encode (text : String) : Bytes :=
  text.toList.flatMap String.utf8EncodeChar

end Utf8

end EdgeInclude
