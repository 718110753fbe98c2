import EdgeInclude.Template.Parser

/-!
# Conditions

A tag can carry a condition for its inclusion. The text of a condition is a template; what makes a
condition hold is not settled, and until then none does.
-/

namespace EdgeInclude

/-- A compiled condition. -/
structure Condition where
  template : Template
deriving DecidableEq, Repr

namespace Condition

/-- Compiles a condition. -/
def compile (text : String) : Except Template.CompileError Condition :=
  match Template.compile text with
  | .error e => .error e
  | .ok template => .ok ⟨template⟩

/-- Whether the condition holds for a request. -/
def holds (_ : Condition) (_ : Request) : Bool := false

end Condition

end EdgeInclude
