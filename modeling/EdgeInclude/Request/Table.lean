import EdgeInclude.Request.Scope

/-!
# Requests in flight

A table of scopes that share one clock and one forest of tokens. Each entry holds its token; an
entry that is dropped, or that is given another token, holds it no longer.
-/

namespace EdgeInclude

open Cancellation

/-- The scopes in flight. A dropped entry is `none`. -/
structure ScopeTable where
  forest : Forest := {}
  now : Instant := Instant.start
  entries : List (Option Scope) := []

namespace ScopeTable

/-- The scope at an index, if it is there. -/
def get? (t : ScopeTable) (i : Nat) : Option Scope :=
  (t.entries[i]?).join

/-- A table with one scope, for the given request. -/
def single (request : Request) : ScopeTable :=
  let (token, forest) := Forest.create {}
  { forest, entries := [some { request, token }] }

/-- Changes the scope at an index without touching its token. -/
def update (t : ScopeTable) (i : Nat) (g : Scope → Scope) : ScopeTable :=
  match t.get? i with
  | none => t
  | some s => { t with entries := t.entries.set i (some { g s with token := s.token }) }

/-- Changes the request of a scope. -/
def updateRequest (t : ScopeTable) (i : Nat) (g : Request → Request) : ScopeTable :=
  t.update i fun s => { s with request := g s.request }

/-- Appends a scope whose token is a child of another scope's token. -/
def nested (t : ScopeTable) (i : Nat) : ScopeTable :=
  match t.get? i with
  | none => t
  | some s =>
    let (c, forest) := s.nested t.forest
    { t with forest, entries := t.entries ++ [some c] }

/-- Appends a copy of a scope, which holds the same token. -/
def clone (t : ScopeTable) (i : Nat) : ScopeTable :=
  match t.get? i with
  | none => t
  | some s => { t with forest := t.forest.retain s.token, entries := t.entries ++ [some s] }

/-- Cancels the token of a scope. -/
def cancel (t : ScopeTable) (i : Nat) : ScopeTable :=
  match t.get? i with
  | none => t
  | some s => { t with forest := t.forest.cancel s.token }

/-- Gives a scope the token of another one. -/
def replaceToken (t : ScopeTable) (i source : Nat) : ScopeTable :=
  match t.get? i, t.get? source with
  | some s, some other =>
    { t with
      forest := (t.forest.retain other.token).release s.token
      entries := t.entries.set i (some { s with token := other.token }) }
  | _, _ => t

/-- Gives a scope a token of its own without parent. -/
def renewToken (t : ScopeTable) (i : Nat) : ScopeTable :=
  match t.get? i with
  | none => t
  | some s =>
    let (token, forest) := t.forest.create
    { t with
      forest := forest.release s.token
      entries := t.entries.set i (some { s with token }) }

/-- Drops a scope. -/
def drop (t : ScopeTable) (i : Nat) : ScopeTable :=
  match t.get? i with
  | none => t
  | some s => { t with forest := t.forest.release s.token, entries := t.entries.set i none }

/-- Gives a scope the deadline that is a duration away. Nothing changes when the clock cannot show
that instant. -/
def setDeadline (t : ScopeTable) (i : Nat) (d : Duration) : ScopeTable :=
  match t.now.add? d with
  | none => t
  | some deadline => t.update i fun s => { s with deadline := some deadline }

/-- Lets time pass, as far as the clock can show. -/
def advance (t : ScopeTable) (d : Duration) : ScopeTable :=
  match t.now.add? d with
  | none => t
  | some now => { t with now }

/-- What can be done to the scopes of a table. They are numbered in the order in which they were
made. -/
inductive Operation where
  /-- Make a scope below another one. -/
  | nested (i : Nat)
  /-- Make a copy of a scope. -/
  | clone (i : Nat)
  /-- Cancel the token of a scope. -/
  | cancel (i : Nat)
  /-- Give a scope the token of another one. -/
  | replaceToken (i source : Nat)
  /-- Give a scope a token of its own. -/
  | renewToken (i : Nat)
  /-- Drop a scope. -/
  | drop (i : Nat)
  /-- Give a scope the deadline that is a duration away. -/
  | setDeadline (i : Nat) (d : Duration)
  /-- Let time pass. -/
  | advance (d : Duration)
deriving DecidableEq

/-- Carries out one operation. An operation on a scope that is not there does nothing. -/
def apply (t : ScopeTable) : Operation → ScopeTable
  | .nested i => t.nested i
  | .clone i => t.clone i
  | .cancel i => t.cancel i
  | .replaceToken i source => t.replaceToken i source
  | .renewToken i => t.renewToken i
  | .drop i => t.drop i
  | .setDeadline i d => t.setDeadline i d
  | .advance d => t.advance d

/-- Carries out operations one after the other. -/
def applyAll (t : ScopeTable) (ops : List Operation) : ScopeTable :=
  ops.foldl apply t

/-- For each scope, whether its work is given up, or `none` if it was dropped. -/
def done (t : ScopeTable) : List (Option Bool) :=
  t.entries.map fun entry => entry.map fun s => s.isDone t.forest t.now

end ScopeTable

end EdgeInclude
