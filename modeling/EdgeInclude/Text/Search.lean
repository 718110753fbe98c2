/-!
# Searching and splitting

A text in another one, and the pieces of a text between separators.
-/

namespace EdgeInclude.Text

/-- One list of characters stands somewhere in another. -/
def occursIn (needle : List Char) : List Char → Bool
  | [] => needle.isEmpty
  | c :: cs => needle.isPrefixOf (c :: cs) || occursIn needle cs

/-- One text stands somewhere in another. -/
def contains (text needle : String) : Bool :=
  occursIn needle.toList text.toList

/-- The pieces of a list of characters between separators; there is one more than separators. -/
def splitAt (separator : Char) : List Char → List (List Char)
  | [] => [[]]
  | c :: cs =>
    if c = separator then [] :: splitAt separator cs
    else
      match splitAt separator cs with
      | [] => [[c]]
      | piece :: pieces => (c :: piece) :: pieces

theorem splitAt_ne_nil (separator : Char) (cs : List Char) : splitAt separator cs ≠ [] := by
  cases cs with
  | nil => simp [splitAt]
  | cons c cs =>
    rw [splitAt]
    split
    · simp
    · split <;> simp

end EdgeInclude.Text
