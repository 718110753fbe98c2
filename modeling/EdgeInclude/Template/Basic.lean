import EdgeInclude.Request.Basic

/-!
# Templates

A template is literal text with actions in it. Each action names something of the request, and
rendering puts that in its place; what is put there is not looked at again.
-/

namespace EdgeInclude

/-- Something of a request that a template can name. -/
inductive Action where
  /-- The first value of a header. -/
  | header (name : String)
  /-- A query parameter. -/
  | query (name : String)
  /-- A route parameter. -/
  | param (name : String)
  | path
  | method
  | requestId
deriving DecidableEq, Repr

/-- What an action stands for. What the request does not have is empty. -/
def Action.value (r : Request) : Action → String
  | header name => (r.headers.get? name).getD ""
  | query name => (r.query.get? name).getD ""
  | param name => (r.params.get? name).getD ""
  | path => r.path
  | method => r.method
  | requestId => r.id

/-- One part of a template. -/
inductive Part where
  | text (literal : String)
  | action (a : Action)
deriving DecidableEq, Repr

namespace Part

/-- What a part stands for. -/
def value (r : Request) : Part → String
  | text literal => literal
  | action a => a.value r

/-- The action of a part. -/
def action? : Part → Option Action
  | text _ => none
  | action a => some a

end Part

/-- A compiled template with the text that it was compiled from. -/
structure Template where
  source : String
  parts : List Part
deriving DecidableEq, Repr

namespace Template

/-- A template is shown as the text that it was compiled from. -/
instance : ToString Template := ⟨source⟩

/-- The actions, in order. -/
def actions (t : Template) : List Action :=
  t.parts.filterMap Part.action?

/-- Puts the parts together for a request. -/
def render (t : Template) (r : Request) : String :=
  String.join (t.parts.map fun part => part.value r)

end Template

end EdgeInclude
