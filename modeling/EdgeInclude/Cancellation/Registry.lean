import EdgeInclude.Cancellation.Forest

/-!
# Handles and waiters

A registry is a forest of tokens with the handles and waiters that hold them. A handle is there
until it is dropped. A waiter is there until its token's flag is up or it is dropped; meanwhile it
holds the token by itself, without any handle.
-/

namespace EdgeInclude.Cancellation

/-- A waiter as its owner sees it: what it has still to do, unless it was dropped. -/
structure Pending where
  id : WaiterId
  token : Token
  todo : List Action
  isDropped : Bool := false
deriving DecidableEq, Repr

namespace Pending

/-- The wait is over. -/
def isCompleted (p : Pending) : Bool := p.todo.isEmpty

/-- The waiter still holds its token. -/
def isActive (p : Pending) : Bool := !p.isDropped && !p.isCompleted

end Pending

/-- A forest with the handles and waiters that hold its tokens. A dropped handle is `none`. -/
structure Registry where
  forest : Forest := {}
  handles : List (Option Token) := []
  waiters : List Pending := []
deriving DecidableEq, Repr

/-- What can be done to a registry. Handles and waiters are numbered in the order in which they
were made. -/
inductive Operation where
  /-- Make a token and a handle on it. -/
  | create
  /-- Make another handle on the token of a handle. -/
  | clone (handle : Nat)
  /-- Make a child of a handle's token, and a handle on it. -/
  | child (handle : Nat)
  /-- Cancel a handle's token. -/
  | cancel (handle : Nat)
  /-- Drop a handle. -/
  | drop (handle : Nat)
  /-- Begin to wait for a handle's token. -/
  | wait (handle : Nat)
  /-- Drop a waiter. -/
  | dropWaiter (waiter : Nat)
deriving DecidableEq, Repr

namespace Registry

/-- The token of a handle that is still there. -/
def token? (r : Registry) (handle : Nat) : Option Token :=
  (r.handles[handle]?).join

/-- Carries out one operation. An operation on a handle or waiter that is not there does
nothing. -/
def apply (r : Registry) : Operation → Registry
  | .create =>
    let (t, forest) := r.forest.create
    { r with forest, handles := r.handles ++ [some t] }
  | .clone h =>
    match r.token? h with
    | none => r
    | some t => { r with forest := r.forest.retain t, handles := r.handles ++ [some t] }
  | .child h =>
    match r.token? h with
    | none => r
    | some t =>
      let (c, forest) := r.forest.child t
      { r with forest, handles := r.handles ++ [some c] }
  | .cancel h =>
    match r.token? h with
    | none => r
    | some t => { r with forest := r.forest.cancel t }
  | .drop h =>
    match r.token? h with
    | none => r
    | some t => { r with forest := r.forest.release t, handles := r.handles.set h none }
  | .wait h =>
    match r.token? h with
    | none => r
    | some t =>
      let (id, forest) := r.forest.addWaiter t
      { r with forest, waiters := r.waiters ++ [⟨id, t, Forest.waitCall id, false⟩] }
  | .dropWaiter w =>
    match r.waiters[w]? with
    | none => r
    | some p =>
      if p.isActive then
        { r with
          forest := (r.forest.release p.token).modifyWaiter p.id fun waiter =>
            { waiter with isListening := false }
          waiters := r.waiters.set w { p with isDropped := true } }
      else r

/-- Lets each waiter of a list go on as far as it can. -/
def pollAll (f : Forest) : List Pending → Forest × List Pending
  | [] => (f, [])
  | p :: ps =>
    let (f, p) :=
      if p.isActive then
        let (f, todo) := f.run p.todo
        (f, { p with todo })
      else (f, p)
    let (f, ps) := pollAll f ps
    (f, p :: ps)

/-- Lets every waiter go on as far as it can. -/
def poll (r : Registry) : Registry :=
  let (forest, waiters) := pollAll r.forest r.waiters
  { r with forest, waiters }

/-- Carries out one operation and lets every waiter go on. -/
def step (r : Registry) (op : Operation) : Registry :=
  (r.apply op).poll

/-- For each handle, whether its token is cancelled, or `none` if it was dropped. -/
def cancelledHandles (r : Registry) : List (Option Bool) :=
  r.handles.map fun handle => handle.map r.forest.isCancelled

/-- For each waiter, whether its wait is over. -/
def completedWaiters (r : Registry) : List Bool :=
  r.waiters.map Pending.isCompleted

end Registry

/-- A registry with one token and one handle on it. -/
def Registry.single : Registry :=
  Registry.apply {} .create

end EdgeInclude.Cancellation
