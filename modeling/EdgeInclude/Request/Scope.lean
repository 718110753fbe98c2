import EdgeInclude.Cancellation.Forest
import EdgeInclude.Instant
import EdgeInclude.Request.Basic

/-!
# Scopes

Work for a request is done in a scope: the request, a token that says when it is given up, and a
deadline. A scope can be narrowed for a part of the work; giving up the narrower scope leaves the
wider one alone.
-/

namespace EdgeInclude

open Cancellation

/-- A request together with the bounds of the work that is done for it. -/
structure Scope where
  request : Request
  token : Token
  deadline : Option Instant := none
deriving DecidableEq

namespace Scope

/-- The deadline has been reached. -/
def isOverdue (s : Scope) (now : Instant) : Bool :=
  match s.deadline with
  | some deadline => deadline ≤ now
  | none => false

/-- The work is given up: its token is cancelled, or its deadline has been reached. -/
def isDone (s : Scope) (f : Forest) (now : Instant) : Bool :=
  f.isCancelled s.token || s.isOverdue now

/-- The same work under a child of the scope's token. -/
def nested (s : Scope) (f : Forest) : Scope × Forest :=
  let (token, f) := f.child s.token
  ({ s with token }, f)

/-- The deadline of a scope when at most the given time is left from now on. It is `none` if the
clock cannot show that instant. -/
def deadlineWithin? (s : Scope) (now : Instant) : Option Duration → Option (Option Instant)
  | none => some s.deadline
  | some limit =>
    match now.add? limit with
    | none => none
    | some latest =>
      match s.deadline with
      | none => some (some latest)
      | some deadline => some (some (deadline.min latest))

end Scope

end EdgeInclude
