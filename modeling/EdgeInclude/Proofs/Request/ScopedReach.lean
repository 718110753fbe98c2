import EdgeInclude.Proofs.Cancellation.Custody
import EdgeInclude.Request.Table

/-!
# What a cancelled request reaches

A scope that is made below another one has a child of its token; a copy has the token itself. Scopes
that are made from each other in this way are bound to each other until one of them is given another
token.

Each scope holds its own token and nothing else does. When a scope in the middle of a chain is dropped,
or given another token, its old token may be gone, and then a cancellation further up no longer gets to
the scopes further down.

* **`ScopeTable.kinships`**, **`ScopeTable.bondsFrom`**: whose token is a child of whose, and which
  scope was made from which, both read off the operations.
* **`ScopeTable.Kept`**: the books of a table are right; **`Kept.applyAll`**: whatever is done.
* **`cancel_reaches_held_scopes`**: a cancellation gives up exactly the scopes on the line of its
  token; all of those that are bound to it by scopes that are there are among them.
* **`cancel_misses_scope_behind_dropped`**: not so those that are bound to it by scopes that are gone.
-/

namespace EdgeInclude

open Cancellation Forest

namespace ScopeTable

variable {t t' : ScopeTable} {op : Operation} {kin : List (Token × Token)}
variable {bonds : List (Nat × Nat)} {i j : Nat} {s s' : Scope} {u : Token}

/-! ## What the operations say

The list of kin and the list of bonds are read off the operations alone. The first is about tokens,
the second about the places of the table. -/

/-- The parent and the child that an operation makes kin. -/
def newKin (t : ScopeTable) : Operation → List (Token × Token)
  | .nested i =>
    match t.get? i with
    | some s => [(s.token, t.forest.nodes.length)]
    | none => []
  | _ => []

/-- Each token that operations make as a child, after its parent. -/
def kinships (t : ScopeTable) : List Operation → List (Token × Token)
  | [] => []
  | op :: ops => t.newKin op ++ (t.apply op).kinships ops

/-- The bonds between scopes after an operation, each a scope with one that was made from it. -/
def bondsAfter (t : ScopeTable) (bonds : List (Nat × Nat)) : Operation → List (Nat × Nat)
  | .nested i | .clone i =>
    match t.get? i with
    | some _ => bonds ++ [(i, t.entries.length)]
    | none => bonds
  | .replaceToken i _ | .renewToken i => bonds.filter fun b => b.1 ≠ i ∧ b.2 ≠ i
  | _ => bonds

/-- The bonds between scopes after operations. -/
def bondsFrom (t : ScopeTable) (bonds : List (Nat × Nat)) : List Operation → List (Nat × Nat)
  | [] => bonds
  | op :: ops => (t.apply op).bondsFrom (t.bondsAfter bonds op) ops

/-- The scopes that were made from `i` and from each other, as long as each is there. -/
inductive Chain (t : ScopeTable) (bonds : List (Nat × Nat)) (i : Nat) : Nat → Prop
  | self : Chain t bonds i i
  | step {j k : Nat} {s : Scope} (h : Chain t bonds i j) (hbond : (j, k) ∈ bonds)
      (hk : t.get? k = some s) : Chain t bonds i k

/-- At the end of a chain there is a scope, since bonds lead through scopes that are there. -/
theorem Chain.exists_scope (h : t.Chain bonds i j) (hs : t.get? i = some s) :
    ∃ s', t.get? j = some s' := by
  cases h with
  | self => exact ⟨s, hs⟩
  | step _ _ hk => exact ⟨_, hk⟩

/-! ## Who holds what

A scope holds its token as long as it is in the table, and nothing else does. -/

/-- The token of each scope that is there. -/
def tokens (t : ScopeTable) : List (Option Token) :=
  t.entries.map fun entry => entry.map Scope.token

/-- A scope that is there has the token. -/
def Holds (t : ScopeTable) (u : Token) : Prop :=
  some u ∈ t.tokens

/-- How many scopes have a token. -/
def holdings (t : ScopeTable) (u : Token) : Nat :=
  t.tokens.count (some u)

theorem holds_iff : t.Holds u ↔ 0 < t.holdings u := List.count_pos_iff.symm

theorem get?_eq_some_iff : t.get? i = some s ↔ t.entries[i]? = some (some s) := by
  rw [get?, Option.join_eq_some_iff]

theorem getElem?_tokens (hs : t.get? i = some s) : t.tokens[i]? = some (some s.token) := by
  rw [tokens, List.getElem?_map, get?_eq_some_iff.mp hs]
  rfl

theorem holds_of_get? (hs : t.get? i = some s) : t.Holds s.token :=
  List.mem_of_getElem? (getElem?_tokens hs)

theorem holdings_pos (hs : t.get? i = some s) : 0 < t.holdings s.token :=
  holds_iff.mp (holds_of_get? hs)

theorem lt_length_of_get? (hs : t.get? i = some s) : i < t.entries.length :=
  (List.getElem?_eq_some_iff.mp (get?_eq_some_iff.mp hs)).1

/-- What an operation makes of a table. -/
inductive Effect (t : ScopeTable) : Operation → ScopeTable → Prop
  | nothing {op : Operation} (hkin : t.newKin op = [])
      (hbonds : ∀ bonds, t.bondsAfter bonds op ⊆ bonds) : Effect t op t
  | nested {i : Nat} {s : Scope} (hs : t.get? i = some s) : Effect t (.nested i)
      { t with
        forest := (t.forest.child s.token).2
        entries := t.entries ++ [some { s with token := t.forest.nodes.length }] }
  | clone {i : Nat} {s : Scope} (hs : t.get? i = some s) : Effect t (.clone i)
      { t with forest := t.forest.retain s.token, entries := t.entries ++ [some s] }
  | cancel {i : Nat} {s : Scope} (hs : t.get? i = some s) : Effect t (.cancel i)
      { t with forest := t.forest.cancel s.token }
  | replaceToken {i source : Nat} {s other : Scope} (hs : t.get? i = some s)
      (hother : t.get? source = some other) : Effect t (.replaceToken i source)
      { t with
        forest := (t.forest.retain other.token).release s.token
        entries := t.entries.set i (some { s with token := other.token }) }
  | renewToken {i : Nat} {s : Scope} (hs : t.get? i = some s) : Effect t (.renewToken i)
      { t with
        forest := t.forest.create.2.release s.token
        entries := t.entries.set i (some { s with token := t.forest.nodes.length }) }
  | drop {i : Nat} {s : Scope} (hs : t.get? i = some s) : Effect t (.drop i)
      { t with forest := t.forest.release s.token, entries := t.entries.set i none }
  | setDeadline {i : Nat} {d : Duration} {s : Scope} {deadline : Instant} (hs : t.get? i = some s) :
      Effect t (.setDeadline i d)
        { t with entries := t.entries.set i (some { s with deadline := some deadline }) }
  | advance {d : Duration} {now : Instant} : Effect t (.advance d) { t with now }

/-- The effects are those of the operations. -/
theorem effect_apply (t : ScopeTable) (op : Operation) : Effect t op (t.apply op) := by
  cases op with
  | nested i =>
    simp only [apply, ScopeTable.nested]
    cases hs : t.get? i with
    | none => exact .nothing (by rw [newKin, hs]) fun bonds => by simp [bondsAfter, hs]
    | some s => exact .nested hs
  | clone i =>
    simp only [apply, ScopeTable.clone]
    cases hs : t.get? i with
    | none => exact .nothing rfl fun bonds => by simp [bondsAfter, hs]
    | some s => exact .clone hs
  | cancel i =>
    simp only [apply, ScopeTable.cancel]
    cases hs : t.get? i with
    | none => exact .nothing rfl fun bonds => by simp [bondsAfter]
    | some s => exact .cancel hs
  | replaceToken i source =>
    simp only [apply, ScopeTable.replaceToken]
    split
    · rename_i hs hother
      exact .replaceToken hs hother
    · exact .nothing rfl fun bonds => List.filter_sublist.subset
  | renewToken i =>
    simp only [apply, ScopeTable.renewToken]
    cases hs : t.get? i with
    | none => exact .nothing rfl fun bonds => List.filter_sublist.subset
    | some s => exact .renewToken hs
  | drop i =>
    simp only [apply, ScopeTable.drop]
    cases hs : t.get? i with
    | none => exact .nothing rfl fun bonds => by simp [bondsAfter]
    | some s => exact .drop hs
  | setDeadline i d =>
    simp only [apply, ScopeTable.setDeadline, update]
    cases t.now.add? d with
    | none => exact .nothing rfl fun bonds => by simp [bondsAfter]
    | some deadline =>
      cases hs : t.get? i with
      | none => exact .nothing rfl fun bonds => by simp [bondsAfter]
      | some s => exact .setDeadline hs
  | advance d =>
    simp only [apply, ScopeTable.advance]
    cases t.now.add? d with
    | none => exact .nothing rfl fun bonds => by simp [bondsAfter]
    | some now => exact .advance

/-! ## The books of a table

They are right if the forest has as many holders for each token as the table, and if bonds lead from
a token to itself or to a child. -/

/-- The books are right: a token is held by the scopes that have it and by nothing else, links tell who
is kin, and scopes that are bound to each other have the same token or tokens that are kin. -/
structure Kept (t : ScopeTable) (kin : List (Token × Token)) (bonds : List (Nat × Nat)) : Prop
    extends t.forest.Custody t.holdings kin where
  bond_lt : ∀ i j, (i, j) ∈ bonds → i < j ∧ j < t.entries.length
  related : ∀ i j s s', (i, j) ∈ bonds → t.get? i = some s → t.get? j = some s' →
    s'.token = s.token ∨ (s.token, s'.token) ∈ kin

section

variable {f : Forest} {now : Instant} {entry : Option Scope} {k : Nat}

theorem tokens_concat :
    ScopeTable.tokens ⟨f, now, t.entries ++ [some s]⟩ = t.tokens ++ [some s.token] :=
  List.map_append

theorem tokens_set : ScopeTable.tokens ⟨f, now, t.entries.set i entry⟩ =
    t.tokens.set i (entry.map Scope.token) :=
  List.map_set

theorem get?_concat_of_lt (hk : k < t.entries.length) :
    ScopeTable.get? ⟨f, now, t.entries ++ [entry]⟩ k = t.get? k := by
  rw [get?, get?, List.getElem?_append_left hk]

theorem get?_concat_length :
    ScopeTable.get? ⟨f, now, t.entries ++ [entry]⟩ t.entries.length = entry := by
  rw [get?, List.getElem?_concat_length]
  rfl

theorem get?_set_of_ne (hk : k ≠ i) :
    ScopeTable.get? ⟨f, now, t.entries.set i entry⟩ k = t.get? k := by
  rw [get?, get?, List.getElem?_set_ne (Ne.symm hk)]

theorem get?_set_self (hs : t.get? i = some s) :
    ScopeTable.get? ⟨f, now, t.entries.set i entry⟩ i = entry := by
  rw [get?, List.getElem?_set_self (lt_length_of_get? hs)]
  rfl

end

namespace Kept

variable (ht : t.Kept kin bonds)
include ht

theorem isHeld_iff_holds : t.forest.isHeld u = true ↔ t.Holds u := by
  rw [ht.isHeld_iff_pos, holds_iff]

/-- **An operation keeps the account of who holds what.** -/
theorem custody_of_effect (heffect : Effect t op t') :
    t'.forest.Custody t'.holdings (kin ++ t.newKin op) := by
  have hsame {f : Forest} {held : Token → Nat} (hf : f.Custody held kin) :
      f.Custody held (kin ++ []) := by
    rwa [List.append_nil]
  cases heffect with
  | nothing hkin => exact hkin ▸ hsame ht.toCustody
  | @nested i s hs =>
    rw [newKin, hs]
    refine ht.toCustody.child (holdings_pos hs) fun u => ?_
    rw [holdings, tokens_concat, count_concat, holdings]
  | @clone i s hs =>
    refine hsame (ht.toCustody.retain (holdings_pos hs) fun u => ?_)
    rw [holdings, tokens_concat, count_concat, holdings]
  | @cancel i s hs => exact hsame (ht.toCustody.cancel s.token)
  | @replaceToken i source s other hs hother =>
    -- for a moment the other token is held once more than there are scopes that have it
    refine hsame ((ht.toCustody.retain (holdings_pos hother) fun u => rfl).release _ fun u => ?_)
    have hset := count_set (getElem?_tokens hs) (some other.token) u
    rw [holdings, tokens_set, Option.map_some, hset]
    simp only [Option.some.injEq, eq_comm, holdings]
  | @renewToken i s hs =>
    refine hsame ((ht.toCustody.create fun u => rfl).release _ fun u => ?_)
    have hset := count_set (getElem?_tokens hs) (some t.forest.nodes.length) u
    rw [holdings, tokens_set, Option.map_some, hset]
    simp only [Option.some.injEq, eq_comm, holdings]
  | @drop i s hs =>
    refine hsame (ht.toCustody.release _ fun u => ?_)
    have hset := count_set (getElem?_tokens hs) none u
    rw [holdings, tokens_set, Option.map_none, hset]
    simp [holdings]
  | @setDeadline i d s deadline hs =>
    have hheld : ScopeTable.holdings
        ⟨t.forest, t.now, t.entries.set i (some { s with deadline := some deadline })⟩ =
        t.holdings := by
      funext u
      have hset := count_set (getElem?_tokens hs) (some s.token) u
      simp only [Option.some.injEq, eq_comm] at hset
      rw [holdings, tokens_set, Option.map_some, holdings]
      dsimp only
      omega
    rw [hheld]
    exact hsame ht.toCustody
  | advance => exact hsame ht.toCustody

/-- Bonds of before keep their scopes related if the tokens of these are as before. -/
theorem related_of_bonds {bonds' : List (Nat × Nat)} (new : List (Token × Token))
    (h : ∀ i j, (i, j) ∈ bonds' → (i, j) ∈ bonds ∧ ∀ k s, k = i ∨ k = j → t'.get? k = some s →
      ∃ s₀, t.get? k = some s₀ ∧ s₀.token = s.token) :
    ∀ i j s s', (i, j) ∈ bonds' → t'.get? i = some s → t'.get? j = some s' →
      s'.token = s.token ∨ (s.token, s'.token) ∈ kin ++ new := by
  intro i j s s' hbond hi hj
  obtain ⟨hbond, hback⟩ := h i j hbond
  obtain ⟨s₀, hs₀, htoken⟩ := hback i s (.inl rfl) hi
  obtain ⟨s₁, hs₁, htoken'⟩ := hback j s' (.inr rfl) hj
  rw [← htoken, ← htoken']
  exact (ht.related i j s₀ s₁ hbond hs₀ hs₁).imp_right (List.mem_append_left _)

/-- A scope that is made from another one is related to it. -/
theorem related_concat {f : Forest} (hs : t.get? i = some s) (new : List (Token × Token))
    (hnew : s'.token = s.token ∨ (s.token, s'.token) ∈ kin ++ new) :
    ∀ j k r r', (j, k) ∈ bonds ++ [(i, t.entries.length)] →
      ScopeTable.get? ⟨f, t.now, t.entries ++ [some s']⟩ j = some r →
      ScopeTable.get? ⟨f, t.now, t.entries ++ [some s']⟩ k = some r' →
      r'.token = r.token ∨ (r.token, r'.token) ∈ kin ++ new := by
  intro j k r r' hbond hj hk
  rcases List.mem_append.mp hbond with hbond | hbond
  · obtain ⟨hjk, hlt⟩ := ht.bond_lt j k hbond
    rw [get?_concat_of_lt (Nat.lt_trans hjk hlt)] at hj
    rw [get?_concat_of_lt hlt] at hk
    exact (ht.related j k r r' hbond hj hk).imp_right (List.mem_append_left _)
  · obtain ⟨rfl, rfl⟩ := Prod.mk.inj (List.mem_singleton.mp hbond)
    rw [get?_concat_of_lt (lt_length_of_get? hs), hs] at hj
    rw [get?_concat_length] at hk
    cases hj
    cases hk
    exact hnew

/-- Bonds lead to later places. -/
theorem bond_lt_concat {entry : Option Scope} (hs : t.get? i = some s) :
    ∀ j k, (j, k) ∈ bonds ++ [(i, t.entries.length)] →
      j < k ∧ k < (t.entries ++ [entry]).length := by
  intro j k hbond
  rw [List.length_append, List.length_singleton]
  rcases List.mem_append.mp hbond with hbond | hbond
  · obtain ⟨hjk, hlt⟩ := ht.bond_lt j k hbond
    exact ⟨hjk, Nat.lt_succ_of_lt hlt⟩
  · obtain ⟨rfl, rfl⟩ := Prod.mk.inj (List.mem_singleton.mp hbond)
    exact ⟨lt_length_of_get? hs, Nat.lt_succ_self _⟩

/-- A scope may be dropped, and changed if it keeps its token; one that is bound to no other may be
given another token. -/
theorem of_set {f : Forest} {entry : Option Scope} {bonds' : List (Nat × Nat)}
    {new : List (Token × Token)} (hs : t.get? i = some s)
    (hcustody : f.Custody (ScopeTable.holdings ⟨f, t.now, t.entries.set i entry⟩) (kin ++ new))
    (hbonds : ∀ j k, (j, k) ∈ bonds' → (j, k) ∈ bonds ∧
      (j = i ∨ k = i → ∀ s', entry = some s' → s.token = s'.token)) :
    Kept ⟨f, t.now, t.entries.set i entry⟩ (kin ++ new) bonds' := by
  refine ⟨hcustody, fun j k h => ?_, ht.related_of_bonds new fun j k h => ?_⟩
  · rw [List.length_set]
    exact ht.bond_lt j k (hbonds j k h).1
  · obtain ⟨hbond, hentry⟩ := hbonds j k h
    refine ⟨hbond, fun l s' hl hget => ?_⟩
    by_cases hli : l = i
    · subst hli
      rw [get?_set_self hs] at hget
      exact ⟨s, hs, hentry (hl.imp Eq.symm Eq.symm) s' hget⟩
    · rw [get?_set_of_ne hli] at hget
      exact ⟨s', hget, rfl⟩

/-- **An operation keeps the books of a table right.** -/
theorem of_effect (heffect : Effect t op t') :
    t'.Kept (kin ++ t.newKin op) (t.bondsAfter bonds op) := by
  have hcustody := ht.custody_of_effect heffect
  have hleft {i j k : Nat} (h : (j, k) ∈ bonds.filter fun b => b.1 ≠ i ∧ b.2 ≠ i) :
      (j, k) ∈ bonds ∧ ¬ (j = i ∨ k = i) := by
    simpa using h
  cases heffect with
  | nothing hkin hbonds =>
    refine ⟨hcustody, fun j k h => ht.bond_lt j k (hbonds bonds h), ?_⟩
    exact ht.related_of_bonds _ fun j k h => ⟨hbonds bonds h, fun _ s _ hs => ⟨s, hs, rfl⟩⟩
  | @nested i s hs =>
    rw [bondsAfter, hs]
    refine ⟨hcustody, ht.bond_lt_concat hs, ht.related_concat hs _ (.inr ?_)⟩
    rw [newKin, hs]
    exact List.mem_append_right _ (List.mem_singleton.mpr rfl)
  | @clone i s hs =>
    rw [bondsAfter, hs]
    exact ⟨hcustody, ht.bond_lt_concat hs, ht.related_concat hs _ (.inl rfl)⟩
  | cancel | advance =>
    exact ⟨hcustody, ht.bond_lt, ht.related_of_bonds _ fun j k h =>
      ⟨h, fun _ s _ hs => ⟨s, hs, rfl⟩⟩⟩
  | replaceToken hs =>
    exact ht.of_set hs hcustody fun j k h => ⟨(hleft h).1, fun hjk => absurd hjk (hleft h).2⟩
  | renewToken hs =>
    exact ht.of_set hs hcustody fun j k h => ⟨(hleft h).1, fun hjk => absurd hjk (hleft h).2⟩
  | drop hs => exact ht.of_set hs hcustody fun j k h => ⟨h, fun _ s' hs' => by cases hs'⟩
  | setDeadline hs =>
    exact ht.of_set hs hcustody fun j k h => ⟨h, fun _ s' hs' => by cases hs'; rfl⟩

/-! ## What a cancellation gives up

It gives up the scopes whose tokens stand in the line of the cancelled one. A chain of scopes that
are there is such a line. -/

theorem line_iff {v : Token} :
    Line kin (t.forest.isHeld · = true) v u ↔ Line kin t.Holds v u :=
  ⟨fun h => h.congr fun _ => ht.isHeld_iff_holds.mp, fun h => h.congr fun _ =>
    ht.isHeld_iff_holds.mpr⟩

/-- The tokens of a chain of scopes are on one line. -/
theorem line_of_chain (hs : t.get? i = some s) (h : t.Chain bonds i j) (hs' : t.get? j = some s') :
    Line kin t.Holds s.token s'.token := by
  induction h generalizing s' with
  | self =>
    obtain rfl := Option.some.inj (hs.symm.trans hs')
    exact .self (holds_of_get? hs)
  | @step j k r h hbond hk ih =>
    obtain ⟨s₁, hs₁⟩ := h.exists_scope hs
    rcases ht.related j k s₁ s' hbond hs₁ hs' with hsame | hkin
    · rw [hsame]
      exact ih hs₁
    · exact .child (ih hs₁) hkin (holds_of_get? hs')

/-- Nothing that is done to the table takes a flag down. -/
theorem isCancelled_of_effect (heffect : Effect t op t') (hup : t.forest.isCancelled u = true) :
    t'.forest.isCancelled u = true := by
  cases heffect with
  | nothing | setDeadline | advance => exact hup
  | nested =>
    have hne := Nat.ne_of_lt (lt_length_of_isCancelled hup)
    rw [isCancelled_child ht.toWellFormed, if_neg hne]
    exact hup
  | clone => exact ((sameTree_retain _ _).isCancelled u).trans hup
  | cancel => exact isCancelled_cancel_of ht.unlocked hup
  | replaceToken =>
    exact ((sameTree_retain _ _).trans (sameTree_release _ _)).isCancelled u |>.trans hup
  | renewToken =>
    exact ((sameTree_release _ _).isCancelled u).trans ((isCancelled_create _ _).trans hup)
  | drop => exact ((sameTree_release _ _).isCancelled u).trans hup

/-- **Whatever is done to a table, its books are right.** -/
theorem applyAll (ops : List Operation) :
    (t.applyAll ops).Kept (kin ++ t.kinships ops) (t.bondsFrom bonds ops) := by
  induction ops generalizing t kin bonds with
  | nil =>
    rw [kinships, List.append_nil]
    exact ht
  | cons op ops ih =>
    rw [kinships, ← List.append_assoc]
    exact ih (ht.of_effect (effect_apply t op))

end Kept

/-- The books of a table with one request are right. -/
theorem kept_single (request : Request) : (single request).Kept [] [] where
  toCustody := by
    have hempty : Custody {} (fun _ => 0) [] := ⟨.empty, fun _ => rfl⟩
    exact hempty.create fun u => count_concat [] u 0
  bond_lt _ _ h := by cases h
  related _ _ _ _ h := by cases h

/-- **A cancellation gives up the scopes that it reaches, and keeps them given up.** After any
operations on the scopes of a request:

* cancelling a scope gives up, of those that were not, exactly the scopes whose tokens are on the line
  of its token: from parent to child, through tokens that some scope still has;
* while a scope is cancelled, all that were made from it and from each other are given up too, if each
  scope in between is still there and none of them was given another token;
* a token that is cancelled stays so. -/
theorem cancel_reaches_held_scopes (request : Request) (ops : List Operation) :
    let t := (single request).applyAll ops
    let kin := (single request).kinships ops
    let bonds := (single request).bondsFrom [] ops
    (∀ i s j s', t.get? i = some s → t.get? j = some s' →
      (t.cancel i).get? j = some s' ∧ (t.cancel i).now = t.now ∧
      (s'.isDone (t.cancel i).forest t.now = true ↔
        s'.isDone t.forest t.now = true ∨ Line kin t.Holds s.token s'.token)) ∧
    (∀ i s j s', t.get? i = some s → t.get? j = some s' → t.forest.isCancelled s.token = true →
      t.Chain bonds i j → s'.isDone t.forest t.now = true) ∧
    ∀ op u, t.forest.isCancelled u = true → (t.apply op).forest.isCancelled u = true := by
  intro t kin bonds
  have ht : t.Kept kin bonds := (kept_single request).applyAll ops
  refine ⟨fun i s j s' hs hs' => ?_, fun i s j s' hs hs' hup hchain => ?_, fun op u hup => ?_⟩
  · have hcancel : t.cancel i = { t with forest := t.forest.cancel s.token } := by
      rw [ScopeTable.cancel, hs]
    rw [hcancel]
    refine ⟨hs', rfl, ?_⟩
    have hheld := ht.isHeld_iff_holds.mpr (holds_of_get? hs)
    rw [Scope.isDone, Bool.or_eq_true, ht.toKindred.isCancelled_cancel_iff hheld, ht.line_iff,
      Scope.isDone, Bool.or_eq_true]
    exact or_right_comm
  · have hline := ht.line_iff.mpr (ht.line_of_chain hs hchain hs')
    rw [Scope.isDone, Bool.or_eq_true]
    exact .inl (ht.toKindred.isCancelled_of_line hline hup)
  · exact ht.isCancelled_of_effect (effect_apply t op) hup

/-- A scope two below the first one, with nothing dropped. -/
def nestedTwice : List Operation := [.nested 0, .nested 1]

/-- While the scope in between is there, a cancellation gets to the scope below it. -/
theorem cancel_reaches_held_scopes_nestedTwice :
    ∃ s s', ((single { id := "r" }).applyAll nestedTwice).get? 0 = some s ∧
      ((single { id := "r" }).applyAll nestedTwice).get? 2 = some s' ∧
      s'.isDone ((single { id := "r" }).applyAll nestedTwice).forest Instant.start = false ∧
      s'.isDone (((single { id := "r" }).applyAll nestedTwice).cancel 0).forest Instant.start =
        true := by
  obtain ⟨hcancel, -⟩ := cancel_reaches_held_scopes { id := "r" } nestedTwice
  refine ⟨⟨{ id := "r" }, 0, none⟩, ⟨{ id := "r" }, 2, none⟩, by rfl, by rfl, by rfl, ?_⟩
  refine (hcancel 0 _ 2 _ (by rfl) (by rfl)).2.2.mpr (.inr ?_)
  have hline : Line ((single { id := "r" }).kinships nestedTwice)
      ((single { id := "r" }).applyAll nestedTwice).Holds 0 1 :=
    .child (.self (holds_of_get? (i := 0) (s := ⟨{ id := "r" }, 0, none⟩) rfl)) (by decide)
      (holds_of_get? (i := 1) (s := ⟨{ id := "r" }, 1, none⟩) rfl)
  exact .child hline (by decide) (holds_of_get? (i := 2) (s := ⟨{ id := "r" }, 2, none⟩) rfl)

/-- **A scope is missed behind one that was dropped, or given another token.** It was made from a scope
that was made from the first one, and has had its own token ever since; but it is not given up when
the first one is cancelled. -/
theorem cancel_misses_scope_behind_dropped :
    (single { id := "r" }).bondsFrom [] [.nested 0, .nested 1, .drop 1] = [(0, 1), (1, 2)] ∧
      ((single { id := "r" }).applyAll [.nested 0, .nested 1, .drop 1, .cancel 0]).done =
        [some true, none, some false] ∧
      ((single { id := "r" }).applyAll [.nested 0, .nested 1, .renewToken 1, .cancel 0]).done =
        [some true, some false, some false] := by
  refine ⟨by rfl, by rfl, by rfl⟩

end ScopeTable

end EdgeInclude
