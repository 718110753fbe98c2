/-!
# Cancellation tokens

A token is a flag that is raised once and then stays up. A token may be made as the child of
another one; raising the parent's flag raises the child's too, and never the other way round.

A parent knows its children by weak links. A token lives as long as something holds it: a handle,
a waiter, or a call that is under way. A link to a token that nothing holds any more is passed
over, and so is everything that hangs below it.

Operations are made of `Action`s, each of which is atomic. `Forest.perform` carries out one action
and names the actions that its caller has to carry out next, so a call is a list of actions, and
several calls at once are several lists whose heads are performed in any order. `Forest.run`
carries out one call to its end.
-/

namespace EdgeInclude

/-- What a function counts for the elements of a list, taken together. -/
def total {α : Type} (count : α → Nat) : List α → Nat
  | [] => 0
  | a :: l => count a + total count l

@[simp] theorem total_nil {α : Type} (count : α → Nat) : total count [] = 0 := rfl

@[simp] theorem total_cons {α : Type} (count : α → Nat) (a : α) (l : List α) :
    total count (a :: l) = count a + total count l := rfl

theorem total_append {α : Type} (count : α → Nat) (l m : List α) :
    total count (l ++ m) = total count l + total count m := by
  induction l with
  | nil => exact (Nat.zero_add _).symm
  | cons a l ih => rw [List.cons_append, total_cons, total_cons, ih, Nat.add_assoc]

namespace Cancellation

/-- Tokens are numbered in the order of their creation. -/
abbrev Token := Nat

/-- Waiters are numbered in the order of their creation. -/
abbrev WaiterId := Nat

/-- What is known of one token. -/
structure Node where
  /-- The flag is up. -/
  isCancelled : Bool := false
  /-- How many handles, waiters and calls hold the token. -/
  holders : Nat := 1
  /-- The weak links to its children, oldest first. -/
  children : List Token := []
  /-- A call has locked the links. -/
  isLocked : Bool := false
deriving DecidableEq, Repr

/-- One who waits for a token's flag. -/
structure Waiter where
  token : Token
  /-- A notification reaches the waiter. -/
  isListening : Bool := false
  /-- A notification has reached the waiter since it last began to listen. -/
  isNotified : Bool := false
deriving DecidableEq, Repr

/-- All tokens and all waiters. -/
structure Forest where
  nodes : List Node := []
  waiters : List Waiter := []
deriving DecidableEq, Repr

/-- One atomic action of a call. -/
inductive Action where
  /-- Raise the flag; if it was down, notify the waiters and go on to the children. -/
  | raise (t : Token)
  /-- Notify the waiters that listen. -/
  | notify (t : Token)
  /-- Take the links to the children, under the lock. -/
  | takeChildren (t : Token)
  /-- Follow a weak link: if something holds the token, hold it too and raise its flag. -/
  | follow (t : Token)
  /-- Hold the token no longer. -/
  | release (t : Token)
  /-- Lock the links. -/
  | lock (t : Token)
  /-- Read the parent's flag under the lock: link the child, or unlock and raise its flag. -/
  | attach (parent child : Token)
  /-- Drop the links to tokens that nothing holds, link the child, and unlock. -/
  | link (parent child : Token)
  /-- Unlock the links. -/
  | unlock (t : Token)
  /-- Begin to listen. -/
  | listen (w : WaiterId)
  /-- Read the flag: if it is up the wait is over, and the waiter holds the token no longer. -/
  | check (w : WaiterId)
  /-- Sleep until notified, then begin afresh. -/
  | sleep (w : WaiterId)
deriving DecidableEq, Repr

namespace Forest

/-- Changes what is known of a token. -/
def modifyNode (f : Forest) (t : Token) (g : Node → Node) : Forest :=
  { f with nodes := f.nodes.modify t g }

/-- Changes what is known of a waiter. -/
def modifyWaiter (f : Forest) (w : WaiterId) (g : Waiter → Waiter) : Forest :=
  { f with waiters := f.waiters.modify w g }

/-- The token's flag is up. -/
def isCancelled (f : Forest) (t : Token) : Bool :=
  match f.nodes[t]? with
  | some node => node.isCancelled
  | none => false

/-- Something holds the token. -/
def isHeld (f : Forest) (t : Token) : Bool :=
  match f.nodes[t]? with
  | some node => 0 < node.holders
  | none => false

/-- The links of the token are locked. -/
def isLocked (f : Forest) (t : Token) : Bool :=
  match f.nodes[t]? with
  | some node => node.isLocked
  | none => false

/-- One more holds the token. -/
def retain (f : Forest) (t : Token) : Forest :=
  f.modifyNode t fun node => { node with holders := node.holders + 1 }

/-- One fewer holds the token. -/
def release (f : Forest) (t : Token) : Forest :=
  f.modifyNode t fun node => { node with holders := node.holders - 1 }

/-- A new token without parent, held once. -/
def create (f : Forest) : Token × Forest :=
  (f.nodes.length, { f with nodes := f.nodes ++ [{}] })

/-- A new waiter for a token, which holds it. -/
def addWaiter (f : Forest) (t : Token) : WaiterId × Forest :=
  (f.waiters.length, { f.retain t with waiters := f.waiters ++ [⟨t, false, false⟩] })

/-- Carries out one action. The result holds the actions that the call has to carry out next;
there is none while a lock or a missing notification holds the call up. -/
def perform (f : Forest) : Action → Option (Forest × List Action)
  | .raise t =>
    match f.nodes[t]? with
    | none => some (f, [])
    | some node =>
      if node.isCancelled then some (f, [])
      else some (f.modifyNode t fun node => { node with isCancelled := true },
        [.notify t, .takeChildren t])
  | .notify t =>
    some ({ f with waiters := f.waiters.map fun w =>
      if w.token = t ∧ w.isListening then { w with isNotified := true } else w }, [])
  | .takeChildren t =>
    match f.nodes[t]? with
    | none => some (f, [])
    | some node =>
      if node.isLocked then none
      else some (f.modifyNode t fun node => { node with children := [] },
        node.children.map .follow)
  | .follow t =>
    if f.isHeld t then some (f.retain t, [.raise t, .release t]) else some (f, [])
  | .release t => some (f.release t, [])
  | .lock t =>
    if f.isLocked t then none
    else some (f.modifyNode t fun node => { node with isLocked := true }, [])
  | .attach parent child =>
    if f.isCancelled parent then some (f, [.unlock parent, .raise child])
    else some (f, [.link parent child])
  | .link parent child =>
    some (f.modifyNode parent fun node =>
      { node with children := node.children.filter f.isHeld ++ [child], isLocked := false }, [])
  | .unlock t => some (f.modifyNode t fun node => { node with isLocked := false }, [])
  | .listen w =>
    some (f.modifyWaiter w fun waiter => { waiter with isListening := true, isNotified := false },
      [.check w])
  | .check w =>
    match f.waiters[w]? with
    | none => some (f, [])
    | some waiter =>
      if f.isCancelled waiter.token then
        some (f.modifyWaiter w fun waiter => { waiter with isListening := false },
          [.release waiter.token])
      else some (f, [.sleep w])
  | .sleep w =>
    match f.waiters[w]? with
    | none => some (f, [])
    | some waiter =>
      if waiter.isNotified then
        some (f.modifyWaiter w fun waiter =>
          { waiter with isListening := false, isNotified := false }, [.listen w])
      else none

/-! ### Calls -/

/-- The call that raises a token's flag and those of its descendants. -/
def cancelCall (t : Token) : List Action := [.raise t]

/-- The call that makes one token the child of another. -/
def adoptCall (parent child : Token) : List Action := [.lock parent, .attach parent child]

/-- The call that waits for a token's flag. -/
def waitCall (w : WaiterId) : List Action := [.listen w]

/-- How many flags are down. -/
def lowered (f : Forest) : Nat :=
  f.nodes.countP fun node => !node.isCancelled

/-- How many links there are. -/
def links (f : Forest) : Nat :=
  total (fun node => node.children.length) f.nodes

/-- How many waiters have a notification that they have not seen. -/
def notified (f : Forest) : Nat :=
  f.waiters.countP fun w => w.isNotified

/-- What an action adds to the length of a run. A notification can reach every waiter. -/
def actionWeight (f : Forest) : Action → Nat
  | .notify _ => 4 * f.waiters.length + 1
  | .follow _ => 3
  | .link .. => 5
  | .attach .. => 6
  | .check _ => 2
  | .listen _ => 3
  | _ => 1

/-- A bound on the number of actions that a call takes: every action lowers it. -/
def weight (f : Forest) (call : List Action) : Nat :=
  (4 * f.waiters.length + 3) * f.lowered + 3 * f.links + 4 * f.notified +
    total f.actionWeight call

/-- Carries out at most `fuel` actions of a call, and answers with what is left of it. -/
def runFor : (fuel : Nat) → Forest → List Action → Forest × List Action
  | _, f, [] => (f, [])
  | 0, f, call => (f, call)
  | fuel + 1, f, action :: call =>
    match f.perform action with
    | none => (f, action :: call)
    | some (f, next) => runFor fuel f (next ++ call)

/-- Carries out a call until it ends or is held up, and answers with what is left of it. -/
def run (f : Forest) (call : List Action) : Forest × List Action :=
  runFor (f.weight call) f call

/-- Raises a token's flag, and the flags of all tokens that its live links reach. -/
def cancel (f : Forest) (t : Token) : Forest :=
  (f.run (cancelCall t)).1

/-- A new token, held once, that is cancelled whenever its parent is. -/
def child (f : Forest) (parent : Token) : Token × Forest :=
  let (t, f) := f.create
  (t, (f.run (adoptCall parent t)).1)

end Forest

end Cancellation

end EdgeInclude
