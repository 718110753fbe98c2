import EdgeInclude.Include.Attribute
import EdgeInclude.Include.Basic
import EdgeInclude.Include.Error
import EdgeInclude.Log.Logger

/-!
# Reading an include

The attributes of a tag are taken in order. The first one that is at fault ends the reading; an
attribute of an unknown name is passed over; of several attributes of one name the last counts,
except that every `src` and `key` adds to the sources.

Reading is all or nothing: a tag that cannot be read leaves its include as it was. In a build that checks
its sums it breaks down where the reading of a duration does.
-/

namespace EdgeInclude

namespace Directives

/-- What the attributes taken so far ask for. -/
structure Draft where
  builder : SourceBuilder := {}
  directives : Directives := {}
deriving DecidableEq

/-- Why one attribute is at fault. -/
inductive Fault where
  /-- The attribute is no text. -/
  | format (cause : ScanError)
  /-- The value has to be a template and is none. -/
  | template (name value : String) (cause : Template.CompileError)
  /-- The value has to be a duration and is none. -/
  | duration (name value : String) (cause : Duration.ReadError)
deriving DecidableEq, Repr

/-- The error that a fault in the tag with the given text is. -/
def Fault.toError (raw : String) : Fault → TagError
  | format cause => .format raw cause.message
  | template name value cause => .template name value raw cause
  | duration name value cause => .duration name value raw cause

/-- Takes one attribute. -/
def Draft.take (d : Draft) (a : Attribute) : Except Fault Draft :=
  match a.name with
  | "src" =>
    match d.builder.addSrc a.value with
    | .error cause => .error (.template "src" a.value cause)
    | .ok builder => .ok { d with builder }
  | "key" =>
    match d.builder.addKey a.value with
    | .error cause => .error (.template "key" a.value cause)
    | .ok builder => .ok { d with builder }
  | "condition" =>
    match Condition.compile a.value with
    | .error cause => .error (.template "condition" a.value cause)
    | .ok condition => .ok { d with directives.condition := some condition }
  | "onerror" => .ok { d with directives.onError := a.value }
  | "timeout" =>
    match Duration.parse a.value with
    | .error cause => .error (.duration "timeout" a.value cause)
    | .ok timeout => .ok { d with directives.timeout := timeout }
  | "ttl" =>
    match Duration.parse a.value with
    | .error cause => .error (.duration "ttl" a.value cause)
    | .ok ttl => .ok { d with directives.ttl := ttl }
  | "forwardheaders" => .ok { d with directives.forwarded := HeaderSelection.parse a.value }
  | "returnheaders" => .ok { d with directives.returned := HeaderSelection.parse a.value }
  | _ => .ok d

/-- Takes attributes up to the first one at fault. -/
def Draft.takeAll (d : Draft) : List (Except ScanError Attribute) → Except Fault Draft
  | [] => .ok d
  | .error cause :: _ => .error (.format cause)
  | .ok a :: items =>
    match d.take a with
    | .error fault => .error fault
    | .ok d => d.takeAll items

/-- Takes one attribute in a build that checks its sums, unless that breaks down. -/
def Draft.takeChecked (d : Draft) (a : Attribute) : Option (Except Fault Draft) :=
  match a.name with
  | "timeout" | "ttl" => (Duration.parseChecked a.value).map fun _ => d.take a
  | _ => some (d.take a)

/-- Takes attributes in such a build. -/
def Draft.takeAllChecked (d : Draft) :
    List (Except ScanError Attribute) → Option (Except Fault Draft)
  | [] => some (.ok d)
  | .error cause :: _ => some (.error (.format cause))
  | .ok a :: items =>
    match d.takeChecked a with
    | none => none
    | some (.error fault) => some (.error fault)
    | some (.ok d) => d.takeAllChecked items

/-- What a tag asks for whose attributes came to a draft, or to a fault. -/
def ofDraft (raw : Bytes) : Except Fault Draft → Except TagError Directives
  | .error fault => .error (fault.toError (Utf8.lossy raw))
  | .ok draft =>
    match draft.builder.finish with
    | none => .error (.missingSource (Utf8.lossy raw))
    | some sources => .ok { draft.directives with sources }

/-- Reads what a tag asks for. -/
def ofTag (raw : Bytes) : Except TagError Directives :=
  ofDraft raw (Draft.takeAll {} (Attribute.scan raw))

/-- Reads what a tag asks for in a build that checks its sums, unless that breaks down. -/
def ofTagChecked (raw : Bytes) : Option (Except TagError Directives) :=
  (Draft.takeAllChecked {} (Attribute.scan raw)).map (ofDraft raw)

end Directives

namespace Include

/-- Reads the tag. An empty tag asks for nothing and is left alone. -/
def parse (i : Include) : Except TagError Include :=
  if i.raw = [] then .ok i
  else
    match Directives.ofTag i.raw with
    | .error e => .error e
    | .ok directives => .ok { i with directives }

/-- Reads the tag in a build that checks its sums, unless that breaks down. -/
def parseChecked (i : Include) : Option (Except TagError Include) :=
  if i.raw = [] then some (.ok i)
  else (Directives.ofTagChecked i.raw).map (Except.map fun directives => { i with directives })

/-- What is logged of reading a tag: its level, its message and its fields. Nothing is logged of an
empty tag. -/
def parseReport (i : Include) : Option (Log.Level × String × Log.Fields) :=
  if i.raw = [] then none
  else
    let fields : Log.Fields := ({} : Log.Fields).text "tag" i.rawText
    match Directives.ofTag i.raw with
    | .error e => some (.error, "esi tag parse failed", fields.text "error" e.message)
    | .ok d => some (.debug, "esi tag parsed",
        ((fields.count "resources" d.sources.items.length).millis "timeout_ms" d.timeout).millis
          "ttl_ms" d.ttl)

/-- The lines that a logger writes of reading a tag, `elapsed` microseconds after it was made. -/
def parseLines (i : Include) (logger : Log.Logger) (elapsed : Nat)
    (quote : String → List Char := Json.quoteChars) : List Log.Line :=
  match i.parseReport with
  | none => []
  | some (level, message, fields) => (logger.line? level message fields elapsed quote).toList

end Include

end EdgeInclude
