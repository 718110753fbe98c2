import EdgeInclude.Json.Basic
import EdgeInclude.Json.Scanner

/-!
# Strings in JSON

A string that is written is read back, whatever text it says.

* **`takePieces_escapeChar`**: a character is read back, escaped or not.
* **`takeString_quoted`**: a string is read back, and what follows it is left.
-/

namespace EdgeInclude.Json.Scanner

variable {c : Char} {rest : List Char}

/-- A piece in front of pieces that are taken. -/
def prepend (piece : Piece) (taken : Option (List Piece × List Char)) :
    Option (List Piece × List Char) :=
  taken.map fun taken => (piece :: taken.1, taken.2)

/-- A character that needs no escape stands for itself. -/
theorem takePieces_plain (hquote : c ≠ '"') (hescape : c ≠ '\\') (hcontrol : ¬ c.toNat < 0x20) :
    takePieces (c :: rest) = prepend (.char c) (takePieces rest) := by
  rw [takePieces.eq_def]
  split
  · rename_i h; cases h
  · rename_i h; exact absurd (List.cons.inj h).1 hquote
  · rename_i h; exact absurd (List.cons.inj h).1 hescape
  · rename_i h; exact absurd (List.cons.inj h).1 hescape
  · rename_i h
    obtain ⟨rfl, rfl⟩ := List.cons.inj h
    rw [if_neg (not_or.mpr ⟨hescape, hcontrol⟩)]
    cases takePieces rest <;> rfl

/-- A letter behind a backslash stands for its character. -/
theorem takePieces_escaped {letter : Char} (hletter : letter ≠ 'u')
    (h : escaped? letter = some c) :
    takePieces ('\\' :: letter :: rest) = prepend (.char c) (takePieces rest) := by
  rw [takePieces, h]
  · cases takePieces rest <;> rfl
  · rintro _ _ _ _ _ rfl
    exact absurd rfl hletter

/-- A control character is read from its code. -/
theorem takePieces_code (hcontrol : c.toNat < 0x20) :
    takePieces ('\\' :: 'u' :: '0' :: '0' :: (hexPair c.toNat ++ rest)) =
      prepend (.char c) (takePieces rest) := by
  have hcode : ∀ n < 0x20, hexNumber? ('0' :: '0' :: hexPair n) = some n := by decide
  have hpiece : Piece.ofCode c.toNat = .char c := by
    rw [Piece.ofCode, if_neg (by omega), Char.ofNat_toNat]
  have hread := hcode _ hcontrol
  rw [hexPair] at hread ⊢
  rw [List.cons_append, List.cons_append, List.nil_append, takePieces, hread]
  cases takePieces rest with
  | none => rfl
  | some taken => simp only [prepend, hpiece, Option.map_some]

/-- A character of a string is read back, escaped or not. -/
theorem takePieces_escapeChar (c : Char) (rest : List Char) :
    takePieces (escapeChar c ++ rest) = prepend (.char c) (takePieces rest) := by
  unfold escapeChar
  repeat' split
  all_goals try (rename_i h; subst h; exact takePieces_escaped (by decide) rfl)
  · exact takePieces_code ‹_›
  · exact takePieces_plain ‹_› ‹_› ‹_›

/-- An escaped text is read back character by character. -/
theorem takePieces_quoted (cs rest : List Char) :
    takePieces (cs.flatMap escapeChar ++ '"' :: rest) = some (cs.map .char, rest) := by
  induction cs with
  | nil => rfl
  | cons c cs ih =>
    rw [List.flatMap_cons, List.append_assoc, takePieces_escapeChar, ih]
    rfl

theorem join?_chars (cs : List Char) : join? (cs.map .char) = some cs := by
  induction cs with
  | nil => rfl
  | cons c cs ih => rw [List.map_cons, join?, ih, Option.map_some]

/-- A string is read back, and what follows it is left. -/
theorem takeString_quoted (text : String) (rest : List Char) :
    takeString (text.toList.flatMap escapeChar ++ '"' :: rest) = some (text, rest) := by
  simp only [takeString, takePieces_quoted, join?_chars, Option.map_some, String.ofList_toList]

end EdgeInclude.Json.Scanner
