import EdgeInclude.Cancellation.Forest

/-!
# Calls at once

Several calls can be under way over one forest: cancelling a token, making a child of one, and
waiting for one. A call begins only with a handle on its token, and holds the token until it ends.
Between two actions of a call any of the others can go on, and handles can come and go.

`Interleaving.step` says what one such event does. Which event comes next is not decided here, so
what holds after every sequence of events holds however the calls are woven together.
-/

namespace EdgeInclude.Cancellation

/-- What a call is for. -/
inductive Purpose where
  | cancel
  /-- The new token is made; it gets its handle when the call ends. -/
  | makeChild (child : Token)
  | wait
deriving DecidableEq, Repr

/-- A call that has begun, with what it has still to do. -/
structure Call where
  purpose : Purpose
  todo : List Action
deriving DecidableEq, Repr

/-- The call has nothing left to do. -/
def Call.isEnded (c : Call) : Bool := c.todo.isEmpty

/-- Several calls over one forest. -/
structure Interleaving where
  forest : Forest := {}
  /-- The token of each handle. -/
  handles : List Token := []
  /-- The calls in the order in which they began. -/
  calls : List Call := []
  /-- Each token that was made as a child, after its parent. -/
  kinships : List (Token × Token) := []
deriving DecidableEq, Repr

/-- What can happen next. -/
inductive Event where
  /-- A token is made, with a handle on it. -/
  | create
  /-- Another handle on a token is made. -/
  | clone (t : Token)
  /-- A handle on a token is dropped. -/
  | drop (t : Token)
  /-- A call begins that cancels a token. -/
  | cancel (t : Token)
  /-- A call begins that makes a child of a token. -/
  | makeChild (parent : Token)
  /-- A call begins that waits for a token. -/
  | wait (t : Token)
  /-- The call at an index carries out its next action. -/
  | advance (call : Nat)
deriving DecidableEq, Repr

namespace Interleaving

/-- Begins a call that holds a token until it ends. -/
def begin (s : Interleaving) (t : Token) (purpose : Purpose) (todo : List Action) : Interleaving :=
  { s with
    forest := s.forest.retain t
    calls := s.calls ++ [⟨purpose, todo ++ [.release t]⟩] }

/-- The handles after a call has got as far as it has: the one on a new child comes at the end. -/
def handlesAfter (s : Interleaving) (c : Call) : List Token :=
  match c.purpose, c.todo with
  | .makeChild child, [] => s.handles ++ [child]
  | _, _ => s.handles

/-- The call at an index carries out its next action. -/
def advance (s : Interleaving) (i : Nat) : Option Interleaving :=
  match s.calls[i]? with
  | none => none
  | some c =>
    match c.todo with
    | [] => none
    | action :: todo =>
      (s.forest.perform action).map fun (forest, next) =>
        let c := { c with todo := next ++ todo }
        { s with forest, calls := s.calls.set i c, handles := s.handlesAfter c }

/-- The state after an event, if it can happen. -/
def step (s : Interleaving) : Event → Option Interleaving
  | .create =>
    let (t, forest) := s.forest.create
    some { s with forest, handles := s.handles ++ [t] }
  | .clone t =>
    if t ∈ s.handles then some { s with forest := s.forest.retain t, handles := s.handles ++ [t] }
    else none
  | .drop t =>
    if t ∈ s.handles then some { s with forest := s.forest.release t, handles := s.handles.erase t }
    else none
  | .cancel t =>
    if t ∈ s.handles then some (s.begin t .cancel (Forest.cancelCall t)) else none
  | .makeChild parent =>
    if parent ∈ s.handles then
      let (child, forest) := s.forest.create
      let s := { s with forest, kinships := s.kinships ++ [(parent, child)] }
      some (s.begin parent (.makeChild child) (Forest.adoptCall parent child))
    else none
  | .wait t =>
    -- A waiter holds its token by itself, and gives it back when its wait is over.
    if t ∈ s.handles then
      let (w, forest) := s.forest.addWaiter t
      some { s with forest, calls := s.calls ++ [⟨.wait, Forest.waitCall w⟩] }
    else none
  | .advance i => s.advance i

/-- The state after a sequence of events, if each of them can happen. -/
def run (s : Interleaving) : List Event → Option Interleaving
  | [] => some s
  | event :: events => (s.step event).bind fun s => s.run events

/-- No call is under way that cancels a token or makes a child; some may still wait. -/
def isQuiet (s : Interleaving) : Bool :=
  s.calls.all fun c => c.purpose = .wait || c.isEnded

end Interleaving

end EdgeInclude.Cancellation
