import EdgeInclude.Template.Parser
import EdgeInclude.Text.Search

/-!
# Sources of a fragment

A tag lists the places that its fragment can come from. Each `src` opens the next source; a `key`
gives the most recent source a second address, or the first source if none is open yet.

Sources are kept in the order in which they were first named, and found by their index.
-/

namespace EdgeInclude

/-- Where a fragment can be found. -/
inductive Address where
  /-- As written. -/
  | literal (text : String)
  /-- Put together for each request. -/
  | template (t : Template)
deriving DecidableEq, Repr

namespace Address

/-- Reads an address: a text with opening braces in it is a template. -/
def parse (text : String) : Except Template.CompileError Address :=
  if Template.isTemplate text then
    match Template.compile text with
    | .error e => .error e
    | .ok t => .ok (.template t)
  else .ok (.literal text)

/-- The address for a request. -/
def render (r : Request) : Address → String
  | literal text => text
  | template t => t.render r

/-- The address as it stands in the tag. -/
def source : Address → String
  | literal text => text
  | template t => t.source

/-- The address is put together for each request. -/
def isTemplate : Address → Bool
  | literal _ => false
  | template _ => true

end Address

/-- One place that a fragment can come from. -/
structure Source where
  /-- The number of the source, counted over the `src` attributes. -/
  index : Nat
  /-- The address is a URL and not the name of a backend. -/
  isUrl : Bool := false
  /-- The address, from `src`. -/
  url : Option Address := none
  /-- The second address, from `key`. -/
  key : Option Address := none
deriving DecidableEq, Repr

namespace Source

/-- The address for a request. -/
def urlFor (s : Source) (r : Request) : Option String :=
  s.url.map (Address.render r)

/-- The second address for a request. -/
def keyFor (s : Source) (r : Request) : Option String :=
  s.key.map (Address.render r)

/-- The source has a second address only. -/
def isKeyOnly (s : Source) : Bool :=
  s.url.isNone && s.key.isSome

end Source

/-- Sources in the order in which they were first named. -/
structure Sources where
  items : List Source := []
  /-- The position of each index. -/
  positions : List (Nat × Nat) := []
deriving DecidableEq, Repr

namespace Sources

/-- The source of an index. -/
def get? (s : Sources) (index : Nat) : Option Source :=
  match s.positions.lookup index with
  | some position => s.items[position]?
  | none => none

/-- The source that was named first. -/
def primary? (s : Sources) : Option Source :=
  s.items.head?

/-- Makes a source of the index, unless there is one. -/
def ensure (s : Sources) (index : Nat) : Sources :=
  match s.positions.lookup index with
  | some _ => s
  | none =>
    { items := s.items ++ [{ index }]
      positions := (index, s.items.length) :: s.positions }

/-- Changes the source of an index, which is made if it is missing. Its index stays. -/
def update (s : Sources) (index : Nat) (g : Source → Source) : Sources :=
  let s := s.ensure index
  match s.positions.lookup index with
  | some position =>
    { s with items := s.items.modify position fun source =>
      { g source with index := source.index } }
  | none => s

end Sources

/-- The sources that the attributes read so far name. -/
structure SourceBuilder where
  sources : Sources := {}
  /-- The number of `src` attributes. -/
  srcCount : Nat := 0
deriving DecidableEq, Repr

namespace SourceBuilder

/-- What marks an address as a URL. -/
def schemeSeparator : String := "://"

/-- Reads the value of a `src` attribute. Only a URL can be a template. -/
def parseSrc (text : String) : Except Template.CompileError Address :=
  if Text.contains text schemeSeparator then Address.parse text
  else .ok (.literal text)

/-- Opens the next source. -/
def addSrc (b : SourceBuilder) (text : String) : Except Template.CompileError SourceBuilder :=
  match parseSrc text with
  | .error e => .error e
  | .ok url => .ok
    { sources := b.sources.update b.srcCount fun source =>
        { source with isUrl := Text.contains text schemeSeparator, url := some url }
      srcCount := b.srcCount + 1 }

/-- Gives the most recent source a second address; before any source is open, the first. -/
def addKey (b : SourceBuilder) (text : String) : Except Template.CompileError SourceBuilder :=
  match Address.parse text with
  | .error e => .error e
  | .ok key => .ok
    { b with sources := b.sources.update (b.srcCount - 1) fun source =>
        { source with key := some key } }

/-- The sources, if at least one was opened. -/
def finish (b : SourceBuilder) : Option Sources :=
  if b.sources.items = [] ∨ b.srcCount = 0 then none else some b.sources

/-- What an attribute asks of the sources. -/
inductive Call where
  | src (text : String)
  | key (text : String)
deriving DecidableEq, Repr

/-- Adds what one attribute asks for. -/
def call (b : SourceBuilder) : Call → Except Template.CompileError SourceBuilder
  | .src text => b.addSrc text
  | .key text => b.addKey text

/-- Makes a call: the builder behind it, and the error if it failed. A call that fails changes
nothing. -/
def attempt (b : SourceBuilder) (c : Call) : SourceBuilder × Option Template.CompileError :=
  match b.call c with
  | .error cause => (b, some cause)
  | .ok b => (b, none)

/-- The builder behind calls, those that failed among them. -/
def attemptAll (b : SourceBuilder) : List Call → SourceBuilder
  | [] => b
  | c :: cs => (b.attempt c).1.attemptAll cs

end SourceBuilder

end EdgeInclude
