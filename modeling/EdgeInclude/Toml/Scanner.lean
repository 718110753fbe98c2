import EdgeInclude.Json.Scanner
import EdgeInclude.Text.Search
import EdgeInclude.Toml.Basic

/-!
# Scanning TOML text

The leaves of TOML text, each taken off the front of a list of characters: white space and
comments, strings, keys, numbers and moments.
-/

namespace EdgeInclude.Toml.Scanner

/-- White space within a line. -/
def isBlank (c : Char) : Bool :=
  c = ' ' || c = '\t'

/-- A character that can stand in a comment or in a string of one line. -/
def isPlain (c : Char) : Bool :=
  c = '\t' || (0x20 ≤ c.toNat && c.toNat ≠ 0x7F)

/-- Passes over white space within a line. -/
def skipBlank (cs : List Char) : List Char :=
  cs.dropWhile isBlank

/-- Takes a line break. -/
def takeBreak : List Char → Option (List Char)
  | '\n' :: rest => some rest
  | '\r' :: '\n' :: rest => some rest
  | _ => none

/-- Takes the rest of a line that has nothing more to say, and its line break. -/
def takeLineEnd (cs : List Char) : Option (List Char) :=
  let cs := match skipBlank cs with
    | '#' :: cs => cs.dropWhile isPlain
    | cs => cs
  match cs with
  | [] => some []
  | cs => takeBreak cs

/-- Passes over white space, line breaks and comments. -/
def skipLines (inComment : Bool) : List Char → Option (List Char)
  | [] => some []
  | '\r' :: '\n' :: cs => skipLines false cs
  | c :: cs =>
    if c = '\n' then skipLines false cs
    else if inComment then if isPlain c then skipLines true cs else none
    else if isBlank c then skipLines false cs
    else if c = '#' then skipLines true cs
    else some (c :: cs)

/-! ### Strings -/

/-- The character of a number, if it is one. -/
def scalar? (n : Nat) : Option Char :=
  if n < 0xD800 ∨ (0xDFFF < n ∧ n < 0x110000) then some (Char.ofNat n) else none

/-- Takes what follows a backslash: the character that it stands for. -/
def takeEscape : List Char → Option (Char × List Char)
  | 'b' :: rest => some ('\x08', rest)
  | 't' :: rest => some ('\t', rest)
  | 'n' :: rest => some ('\n', rest)
  | 'f' :: rest => some ('\x0c', rest)
  | 'r' :: rest => some ('\r', rest)
  | '"' :: rest => some ('"', rest)
  | '\\' :: rest => some ('\\', rest)
  | 'u' :: rest =>
    if rest.length < 4 then none
    else ((Json.Scanner.hexNumber? (rest.take 4)).bind scalar?).map fun c => (c, rest.drop 4)
  | 'U' :: rest =>
    if rest.length < 8 then none
    else ((Json.Scanner.hexNumber? (rest.take 8)).bind scalar?).map fun c => (c, rest.drop 8)
  | _ => none

/-- Puts a character in front of a string that is taken. -/
def prepend (c : Char) : Option (List Char × List Char) → Option (List Char × List Char)
  | some (text, rest) => some (c :: text, rest)
  | none => none

/-- Takes a string between double quotes whose opening quote is taken; `fuel` bounds its length. -/
def takeBasic : (fuel : Nat) → List Char → Option (List Char × List Char)
  | 0, _ => none
  | _, [] => none
  | fuel + 1, c :: cs =>
    if c = '"' then some ([], cs)
    else if c = '\\' then
      match takeEscape cs with
      | some (c, cs) => prepend c (takeBasic fuel cs)
      | none => none
    else if isPlain c then prepend c (takeBasic fuel cs)
    else none

/-- Takes a string between single quotes whose opening quote is taken. -/
def takeLiteral (cs : List Char) : Option (List Char × List Char) :=
  let inside (c : Char) : Bool := isPlain c && c ≠ '\''
  match cs.dropWhile inside with
  | '\'' :: rest => some (cs.takeWhile inside, rest)
  | _ => none

/-- Takes the end of a string of several lines behind its closing quotes: up to two more quotes
belong to the string. -/
def takeQuotes (quote : Char) : List Char → List Char × List Char
  | a :: b :: rest =>
    if a = quote ∧ b = quote then ([quote, quote], rest)
    else if a = quote then ([quote], b :: rest)
    else ([], a :: b :: rest)
  | [a] => if a = quote then ([quote], []) else ([], [a])
  | [] => ([], [])

/-- Passes over white space and line breaks. -/
def skipGap : List Char → List Char
  | [] => []
  | '\r' :: '\n' :: cs => skipGap cs
  | c :: cs => if isBlank c || c = '\n' then skipGap cs else c :: cs

/-- Takes a string of several lines whose opening quotes are taken; `fuel` bounds its length.
Between double quotes a backslash begins an escape, or at the end of a line hides the gap up to the
next character. -/
def takeMultiline (quote : Char) : (fuel : Nat) → List Char → Option (List Char × List Char)
  | 0, _ => none
  | _, [] => none
  | fuel + 1, c :: cs =>
    match takeBreak (c :: cs) with
    | some rest => prepend '\n' (takeMultiline quote fuel rest)
    | none =>
      if c = quote then
        match cs with
        | a :: b :: rest =>
          if a = quote ∧ b = quote then some (takeQuotes quote rest)
          else prepend c (takeMultiline quote fuel cs)
        | cs => prepend c (takeMultiline quote fuel cs)
      else if c = '\\' ∧ quote = '"' then
        match takeBreak (skipBlank cs) with
        | some _ => takeMultiline quote fuel (skipGap cs)
        | none =>
          match takeEscape cs with
          | some (c, cs) => prepend c (takeMultiline quote fuel cs)
          | none => none
      else if isPlain c then prepend c (takeMultiline quote fuel cs)
      else none

/-- Takes the line break right behind the opening quotes of a string of several lines. -/
def skipBreak (cs : List Char) : List Char :=
  (takeBreak cs).getD cs

/-- Takes a string of any of the four kinds. -/
def takeString (cs : List Char) : Option (List Char × List Char) :=
  match cs with
  | '"' :: '"' :: '"' :: cs => takeMultiline '"' (cs.length + 1) (skipBreak cs)
  | '\'' :: '\'' :: '\'' :: cs => takeMultiline '\'' (cs.length + 1) (skipBreak cs)
  | '"' :: cs => takeBasic (cs.length + 1) cs
  | '\'' :: cs => takeLiteral cs
  | _ => none

/-! ### Keys -/

/-- A character of a key without quotes. -/
def isKeyChar (c : Char) : Bool :=
  ('a' ≤ c && c ≤ 'z') || ('A' ≤ c && c ≤ 'Z') || Text.isDigit c || c = '_' || c = '-'

/-- Takes one part of a key. -/
def takePart (cs : List Char) : Option (String × List Char) :=
  let taken := match cs with
    | '"' :: cs => takeBasic (cs.length + 1) cs
    | '\'' :: cs => takeLiteral cs
    | cs =>
      match cs.takeWhile isKeyChar with
      | [] => none
      | part => some (part, cs.dropWhile isKeyChar)
  taken.map fun (part, rest) => (String.ofList part, rest)

/-- Takes the parts of a key; `fuel` bounds their number. -/
def takeKey : (fuel : Nat) → List Char → Option (List String × List Char)
  | 0, _ => none
  | fuel + 1, cs =>
    match takePart cs with
    | none => none
    | some (part, cs) =>
      match skipBlank cs with
      | '.' :: cs =>
        match takeKey fuel (skipBlank cs) with
        | some (parts, rest) => some (part :: parts, rest)
        | none => none
      | rest => some ([part], rest)

/-! ### Numbers and moments -/

/-- The digits of a text with single underscores between digits. -/
def digits? (isDigit : Char → Bool) (cs : List Char) : Option (List Char) :=
  let groups := Text.splitAt '_' cs
  if groups.all fun group => group ≠ [] && group.all isDigit then some groups.flatten else none

/-- The digits of a whole number, which do not begin with a zero unless that is all. -/
def wholeDigits? (cs : List Char) : Option (List Char) :=
  match digits? Text.isDigit cs with
  | some ('0' :: _ :: _) => none
  | ds => ds

/-- The greatest whole number. -/
def maxInteger : Nat := UInt64.size / 2 - 1

/-- A whole number that is written with another base. -/
def readBased (base : Nat) (cs : List Char) : Option Int :=
  let isDigit (c : Char) : Bool := (Json.Scanner.hexValue? c).any fun value => value < base
  match digits? isDigit cs with
  | none => none
  | some ds =>
    let n := ds.foldl (fun n d => base * n + (Json.Scanner.hexValue? d).getD 0) 0
    if n ≤ maxInteger then some n else none

/-- A whole number. -/
def readInteger (cs : List Char) : Option Int :=
  match cs with
  | '0' :: 'x' :: ds => readBased 16 ds
  | '0' :: 'o' :: ds => readBased 8 ds
  | '0' :: 'b' :: ds => readBased 2 ds
  | cs =>
    let (isNegative, ds) := Json.Scanner.takeSign cs
    match wholeDigits? ds with
    | none => none
    | some ds =>
      let n := Text.digitsValue ds
      if isNegative then if n ≤ maxInteger + 1 then some (-(n : Int)) else none
      else if n ≤ maxInteger then some n else none

/-- An exponent. -/
def readExponent (cs : List Char) : Option Int :=
  let (isNegative, ds) := Json.Scanner.takeSign cs
  (digits? Text.isDigit ds).map fun ds =>
    let n : Int := Text.digitsValue ds
    if isNegative then -n else n

/-- A floating-point number. Of the numbers that are too great, a negative one is infinite and a
positive one is refused. -/
def readFloat (cs : List Char) : Option Float :=
  let (isNegative, cs) := Json.Scanner.takeSign cs
  if cs = ['i', 'n', 'f'] then some (.infinite isNegative)
  else if cs = ['n', 'a', 'n'] then some .notANumber
  else
    let isMark (c : Char) : Bool := c = 'e' || c = 'E'
    let mantissa := cs.takeWhile fun c => !isMark c
    let whole := mantissa.takeWhile (· ≠ '.')
    let places := match mantissa.dropWhile (· ≠ '.') with
      | [] => some []
      | _ :: ds => digits? Text.isDigit ds
    let exponent := match cs.dropWhile fun c => !isMark c with
      | [] => if whole.length < mantissa.length then some 0 else none
      | _ :: cs => readExponent cs
    match wholeDigits? whole, places, exponent with
    | some whole, some places, some exponent =>
      match Binary64.ofDecimal? (Text.digitsValue (whole ++ places)) (exponent - places.length) with
      | some magnitude => some (.finite isNegative magnitude)
      | none => if isNegative then some (.infinite true) else none
    | _, _, _ => none

/-- The number of two digits, if it is in a range. -/
def readPair (low high : Nat) (a b : Char) : Option Nat :=
  let n := Text.digitsValue [a, b]
  if Text.isDigit a && Text.isDigit b && low ≤ n && n ≤ high then some n else none

/-- The days of a month. -/
def daysIn (year month : Nat) : Nat :=
  if month = 2 then
    if year % 4 = 0 ∧ (year % 100 ≠ 0 ∨ year % 400 = 0) then 29 else 28
  else if month = 4 ∨ month = 6 ∨ month = 9 ∨ month = 11 then 30
  else 31

/-- A date. -/
def isDate : List Char → Bool
  | [y, e, a, r, '-', m, n, '-', c, d] =>
    [y, e, a, r].all Text.isDigit &&
      (match readPair 1 12 m n with
        | some month => (readPair 1 (daysIn (Text.digitsValue [y, e, a, r]) month) c d).isSome
        | none => false)
  | _ => false

/-- Takes a time of day. -/
def takeTime : List Char → Option (List Char)
  | h :: o :: ':' :: m :: n :: ':' :: s :: t :: rest =>
    if (readPair 0 23 h o).isSome && (readPair 0 59 m n).isSome && (readPair 0 60 s t).isSome then
      match rest with
      | '.' :: cs => (Json.Scanner.takeDigits cs).map (·.2)
      | rest => some rest
    else none
  | _ => none

/-- The offset of a time, or nothing. -/
def isOffset : List Char → Bool
  | [] => true
  | [c] => c = 'Z' || c = 'z'
  | [sign, h, o, ':', m, n] =>
    (sign = '+' || sign = '-') && (readPair 0 23 h o).isSome && (readPair 0 59 m n).isSome
  | _ => false

/-- A date, a time, or both. -/
def isMoment (cs : List Char) : Bool :=
  takeTime cs = some [] ||
    (isDate (cs.take 10) &&
      match cs.drop 10 with
      | [] => true
      | c :: cs =>
        (c = 'T' || c = 't' || c = ' ') &&
          match takeTime cs with
          | some offset => isOffset offset
          | none => false)

/-- A character of a number, a moment or a word. -/
def isTokenChar (c : Char) : Bool :=
  isKeyChar c || c = '+' || c = '.' || c = ':'

/-- Takes a number, a moment or a word. A date and a time may have a space between them. -/
def takeToken (cs : List Char) : List Char × List Char :=
  let token := cs.takeWhile isTokenChar
  match cs.dropWhile isTokenChar with
  | ' ' :: c :: rest =>
    if isDate token && Text.isDigit c then
      (token ++ ' ' :: (c :: rest).takeWhile isTokenChar, (c :: rest).dropWhile isTokenChar)
    else (token, ' ' :: c :: rest)
  | rest => (token, rest)

/-- What a number, a moment or a word says. -/
def readToken (cs : List Char) : Option Toml :=
  if cs = ['t', 'r', 'u', 'e'] then some (.boolean true)
  else if cs = ['f', 'a', 'l', 's', 'e'] then some (.boolean false)
  else if isMoment cs then some .moment
  else
    match readInteger cs with
    | some n => some (.integer n)
    | none => (readFloat cs).map .float

end EdgeInclude.Toml.Scanner
