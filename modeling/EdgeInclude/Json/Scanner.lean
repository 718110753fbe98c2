import EdgeInclude.Number.Binary64

/-!
# Scanning JSON text

The leaves of JSON text: white space, strings and numbers, each taken off the front of a list of
characters. `Json.Scanner.skipValue` passes over a value of any kind without looking at what it
says; all it asks is that the value is well formed.
-/

namespace EdgeInclude.Json.Scanner

/-- White space between the parts of JSON text. -/
def isBlank (c : Char) : Bool :=
  c = ' ' || c = '\n' || c = '\t' || c = '\r'

/-- Passes over white space. -/
def skipBlank (cs : List Char) : List Char :=
  cs.dropWhile isBlank

/-! ### Strings -/

/-- One unit of a string: a character, or half of one that is written as two escapes. -/
inductive Piece where
  | char (c : Char)
  | half (n : Nat)
deriving DecidableEq, Repr

/-- The value of a hexadecimal digit. -/
def hexValue? (c : Char) : Option Nat :=
  if '0' ≤ c ∧ c ≤ '9' then some (c.toNat - '0'.toNat)
  else if 'a' ≤ c ∧ c ≤ 'f' then some (c.toNat - 'a'.toNat + 10)
  else if 'A' ≤ c ∧ c ≤ 'F' then some (c.toNat - 'A'.toNat + 10)
  else none

/-- The number that hexadecimal digits spell. -/
def hexNumber? (ds : List Char) : Option Nat :=
  (ds.mapM hexValue?).map fun values => values.foldl (fun n d => 16 * n + d) 0

/-- The character that a letter behind a backslash stands for. -/
def escaped? : Char → Option Char
  | '"' => some '"'
  | '\\' => some '\\'
  | '/' => some '/'
  | 'b' => some '\x08'
  | 'f' => some '\x0c'
  | 'n' => some '\n'
  | 'r' => some '\r'
  | 't' => some '\t'
  | _ => none

/-- A code unit as a piece. -/
def Piece.ofCode (n : Nat) : Piece :=
  if 0xD800 ≤ n ∧ n < 0xE000 then half n else char (Char.ofNat n)

/-- Takes a string whose opening quote is taken: its pieces, and what follows the closing quote. -/
def takePieces : List Char → Option (List Piece × List Char)
  | [] => none
  | '"' :: rest => some ([], rest)
  | '\\' :: 'u' :: a :: b :: c :: d :: rest =>
    match hexNumber? [a, b, c, d], takePieces rest with
    | some n, some (pieces, rest) => some (Piece.ofCode n :: pieces, rest)
    | _, _ => none
  | '\\' :: c :: rest =>
    match escaped? c, takePieces rest with
    | some c, some (pieces, rest) => some (.char c :: pieces, rest)
    | _, _ => none
  | c :: rest =>
    if c = '\\' ∨ c.toNat < 0x20 then none
    else
      match takePieces rest with
      | some (pieces, rest) => some (.char c :: pieces, rest)
      | none => none

/-- Puts halves together. There is no text if a half stands alone. -/
def join? : List Piece → Option (List Char)
  | [] => some []
  | .char c :: rest => (join? rest).map (c :: ·)
  | .half high :: .half low :: rest =>
    if high < 0xDC00 ∧ 0xDC00 ≤ low then
      (join? rest).map
        (Char.ofNat (0x10000 + (high - 0xD800) * 0x400 + (low - 0xDC00)) :: ·)
    else none
  | .half _ :: _ => none

/-- Takes a string whose opening quote is taken: its text, and what follows the closing quote. -/
def takeString (cs : List Char) : Option (String × List Char) :=
  match takePieces cs with
  | some (pieces, rest) => (join? pieces).map fun text => (String.ofList text, rest)
  | none => none

/-! ### Numbers -/

/-- A number as it is written. -/
structure Numeral where
  isNegative : Bool
  whole : List Char
  /-- The digits behind the point, if there is a point. -/
  places : Option (List Char) := none
  exponent : Option Int := none
deriving DecidableEq, Repr

/-- Takes at least one digit. -/
def takeDigits (cs : List Char) : Option (List Char × List Char) :=
  match cs.takeWhile Text.isDigit with
  | [] => none
  | ds => some (ds, cs.dropWhile Text.isDigit)

/-- Takes the digits before the point: several of them do not begin with a zero. -/
def takeWhole (cs : List Char) : Option (List Char × List Char) :=
  match takeDigits cs with
  | some ('0' :: _ :: _, _) => none
  | taken => taken

/-- Takes the digits behind a point, if there is one. -/
def takePlaces : List Char → Option (Option (List Char) × List Char)
  | '.' :: cs => (takeDigits cs).map fun (ds, rest) => (some ds, rest)
  | cs => some (none, cs)

/-- Takes a sign, which may be missing. -/
def takeSign : List Char → Bool × List Char
  | '-' :: cs => (true, cs)
  | '+' :: cs => (false, cs)
  | cs => (false, cs)

/-- Takes an exponent, if there is one. -/
def takeExponent : List Char → Option (Option Int × List Char)
  | [] => some (none, [])
  | c :: cs =>
    if c = 'e' ∨ c = 'E' then
      let (isNegative, cs) := takeSign cs
      (takeDigits cs).map fun (ds, rest) =>
        let n : Int := Text.digitsValue ds
        (some (if isNegative then -n else n), rest)
    else some (none, c :: cs)

/-- Takes a number. -/
def takeNumeral (cs : List Char) : Option (Numeral × List Char) :=
  let (isNegative, cs) := match cs with
    | '-' :: cs => (true, cs)
    | cs => (false, cs)
  match takeWhole cs with
  | none => none
  | some (whole, cs) =>
    match takePlaces cs with
    | none => none
    | some (places, cs) =>
      (takeExponent cs).map fun (exponent, rest) =>
        ({ isNegative, whole, places, exponent }, rest)

/-! ### Values of any kind -/

mutual

/-- Passes over a value; `fuel` bounds the length of the text. -/
def skipValue : (fuel : Nat) → List Char → Option (List Char)
  | 0, _ => none
  | fuel + 1, cs =>
    match skipBlank cs with
    | '"' :: cs => (takePieces cs).map (·.2)
    | '[' :: cs =>
      match skipBlank cs with
      | ']' :: rest => some rest
      | cs => skipItems fuel cs
    | '\x7b' :: cs =>
      match skipBlank cs with
      | '\x7d' :: rest => some rest
      | cs => skipMembers fuel cs
    | 'n' :: 'u' :: 'l' :: 'l' :: rest => some rest
    | 't' :: 'r' :: 'u' :: 'e' :: rest => some rest
    | 'f' :: 'a' :: 'l' :: 's' :: 'e' :: rest => some rest
    | cs => (takeNumeral cs).map (·.2)

/-- Passes over the items of an array and its closing bracket. -/
def skipItems : (fuel : Nat) → List Char → Option (List Char)
  | 0, _ => none
  | fuel + 1, cs =>
    match skipValue fuel cs with
    | none => none
    | some cs =>
      match skipBlank cs with
      | ',' :: cs => skipItems fuel cs
      | ']' :: rest => some rest
      | _ => none

/-- Passes over the members of an object and its closing brace. -/
def skipMembers : (fuel : Nat) → List Char → Option (List Char)
  | 0, _ => none
  | fuel + 1, cs =>
    match skipBlank cs with
    | '"' :: cs =>
      match takePieces cs with
      | none => none
      | some (_, cs) =>
        match skipBlank cs with
        | ':' :: cs =>
          match skipValue fuel cs with
          | none => none
          | some cs =>
            match skipBlank cs with
            | ',' :: cs => skipMembers fuel cs
            | '\x7d' :: rest => some rest
            | _ => none
        | _ => none
    | _ => none

end

end EdgeInclude.Json.Scanner
