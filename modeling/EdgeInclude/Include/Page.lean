import EdgeInclude.Include.Parser

/-!
# Pages

The includes of one page, in the order in which their tags stand in it. They are read in that order
up to the first one that cannot be read. A build that checks its sums breaks down with the first one at
which the reading breaks down.
-/

namespace EdgeInclude

/-- What a tag asks for, in a listing. -/
def Directives.describe (d : Directives) : String :=
  "src=" ++ Text.quoteList (d.sources.items.filterMap fun s => s.url.map Address.source) ++
    " key=" ++ Text.quoteList (d.sources.items.filterMap fun s => s.key.map Address.source) ++
    " timeout=" ++ d.timeout.describe ++ " ttl=" ++ d.ttl.describe ++
    " onerror=" ++ Text.quote d.onError ++
    " forward=" ++ d.forwarded.describe ++ " return=" ++ d.returned.describe ++
    " condition=" ++ (if d.condition.isSome then "true" else "false")

/-- The includes of a page and the logger of its diagnostics. -/
structure Page where
  includes : List Include := []
  logger : Log.Logger := {}
deriving DecidableEq

namespace Page

/-- The name under which pages log. -/
def component : String := "esi-parser"

/-- Gives the page a logger, which logs under the name of pages. -/
def withLogger (p : Page) (logger : Log.Logger) : Page :=
  { p with logger := { logger with component := some component } }

/-- Appends an include. -/
def push (p : Page) (i : Include) : Page :=
  { p with includes := p.includes ++ [i] }

/-- The includes after reading, and the error that ended it. Includes behind the one that cannot be
read are not looked at. -/
def parseAll : (index : Nat) → List Include → List Include × Option PageError
  | _, [] => ([], none)
  | index, i :: rest =>
    match i.parse with
    | .error cause => (i :: rest, some ⟨index, cause⟩)
    | .ok parsed =>
      let (rest, error) := parseAll (index + 1) rest
      (parsed :: rest, error)

/-- Reads the includes of the page. -/
def parse (p : Page) : Page × Option PageError :=
  let (includes, error) := parseAll 0 p.includes
  ({ p with includes }, error)

/-- The same in a build that checks its sums, unless that breaks down. -/
def parseAllChecked : (index : Nat) → List Include → Option (List Include × Option PageError)
  | _, [] => some ([], none)
  | index, i :: rest =>
    match i.parseChecked with
    | none => none
    | some (.error cause) => some (i :: rest, some ⟨index, cause⟩)
    | some (.ok parsed) =>
      match parseAllChecked (index + 1) rest with
      | none => none
      | some (rest, error) => some (parsed :: rest, error)

/-- Reads the includes of the page in a build that checks its sums, unless that breaks down. -/
def parseChecked (p : Page) : Option (Page × Option PageError) :=
  (parseAllChecked 0 p.includes).map fun (includes, error) => ({ p with includes }, error)

/-- The lines that are logged of reading includes, the first of which stands at `place`. Those of the
tag at a place are logged `clock place` microseconds after the logger was made. -/
def linesOf (logger : Log.Logger) (clock : Nat → Nat) (place : Nat) (includes : List Include)
    (quote : String → List Char := Json.quoteChars) : List Log.Line :=
  match includes with
  | [] => []
  | i :: rest =>
    match i.parse with
    | .error _ => i.parseLines logger (clock place) quote
    | .ok _ => i.parseLines logger (clock place) quote ++ linesOf logger clock (place + 1) rest quote

/-- The lines that are logged of reading includes in a build that checks its sums, up to where that
breaks down. -/
def linesOfChecked (logger : Log.Logger) (clock : Nat → Nat) (place : Nat) (includes : List Include)
    (quote : String → List Char := Json.quoteChars) : List Log.Line :=
  match includes with
  | [] => []
  | i :: rest =>
    match i.parseChecked with
    | none => []
    | some (.error _) => i.parseLines logger (clock place) quote
    | some (.ok _) =>
      i.parseLines logger (clock place) quote ++
        linesOfChecked logger clock (place + 1) rest quote

/-- The lines that are logged of reading the page, each at the time that a clock shows. -/
def parseLinesAt (p : Page) (clock : Nat → Nat)
    (quote : String → List Char := Json.quoteChars) : List Log.Line :=
  linesOf p.logger clock 0 p.includes quote

/-- The lines that are logged of reading the page in a build that checks its sums. -/
def parseLinesCheckedAt (p : Page) (clock : Nat → Nat)
    (quote : String → List Char := Json.quoteChars) : List Log.Line :=
  linesOfChecked p.logger clock 0 p.includes quote

/-- The lines that are logged of reading the page when the clock stands still. -/
def parseLines (p : Page) (elapsed : Nat) : List Log.Line :=
  p.parseLinesAt fun _ => elapsed

/-- The line of a listing that says where an include stands and what it asks for. -/
def askingLine (index : Nat) (i : Include) : String :=
  Text.decimal index ++ ": tag=" ++ Text.decimal i.fragment.start ++ ".." ++
    Text.decimal i.fragment.stop ++ " " ++ i.directives.describe

/-- The line of a listing that shows the tag. -/
def rawLine (index : Nat) (i : Include) : String :=
  Text.decimal index ++ ": RawTag: " ++ Text.quote i.rawText

/-- The two lines of one include in a listing, and the empty line behind them. -/
def listInclude (index : Nat) (i : Include) : String :=
  askingLine index i ++ "\n" ++ rawLine index i ++ "\n" ++ "\n"

/-- The listing of includes that begins at an index. -/
def listFrom : (index : Nat) → List Include → String
  | _, [] => ""
  | index, i :: rest => listInclude index i ++ listFrom (index + 1) rest

/-- Lists the includes of the page. -/
def list (p : Page) : String :=
  listFrom 0 p.includes

end Page

end EdgeInclude
