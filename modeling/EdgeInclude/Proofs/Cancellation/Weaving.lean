import EdgeInclude.Cancellation.Interleaving
import EdgeInclude.Proofs.Cancellation.Deeds

/-!
# Calls woven together

Between two actions of a call any other call can go on, so a cancelled token may still have links, and
a child of it may still have its flag down. But then one of the calls has the matter on its agenda: to
take the links, to follow the one to the child, to raise its flag, or to find out under the lock
whether to do so. In the same way one who sleeps at a cancelled token has been notified or will be.

* **`agenda`**: what the calls have still to do.
* **`Knit`**: what ties links and flags to the agenda. **`Knit.perform`**: each action keeps it.
* **`Attended`**: what ties those who wait to the agenda. **`Attended.perform`**.
-/

namespace EdgeInclude.Cancellation

open Forest

variable {f g : Forest} {action a b : Action} {next todo before after : List Action}
variable {calls : List Call} {call : Call} {kin : List (Token × Token)} {p c t u : Token}

/-! ## What is still to be done

The agenda is what all calls together have still to do. When one of them goes on, one action is
taken out of the midst of it and others are put in its place. -/

/-- The actions that calls have still to carry out. -/
def agenda (calls : List Call) : List Action :=
  calls.flatMap Call.todo

theorem agenda_concat (calls : List Call) (call : Call) :
    agenda (calls ++ [call]) = agenda calls ++ call.todo := by
  rw [agenda, List.flatMap_append, List.flatMap_singleton]
  rfl

theorem mem_agenda (hcall : call ∈ calls) (ha : a ∈ call.todo) : a ∈ agenda calls :=
  List.mem_flatMap.mpr ⟨call, hcall, ha⟩

/-- An action that a call carries out gives way to those that it leads to. -/
theorem agenda_set {i : Nat} (hcall : calls[i]? = some call) (htodo : call.todo = action :: todo)
    (next : List Action) : ∃ before after, agenda calls = before ++ action :: after ∧
      agenda (calls.set i { call with todo := next ++ todo }) = before ++ (next ++ after) := by
  obtain ⟨hi, hget⟩ := List.getElem?_eq_some_iff.mp hcall
  refine ⟨agenda (calls.take i), todo ++ agenda (calls.drop (i + 1)), ?_, ?_⟩
  · rw [← List.cons_append, ← htodo, ← hget]
    conv_lhs => rw [← List.take_append_drop i calls, List.drop_eq_getElem_cons hi]
    rw [agenda, List.flatMap_append, List.flatMap_cons]
    rfl
  · rw [List.set_eq_take_append_cons_drop, if_pos hi, agenda, List.flatMap_append, List.flatMap_cons,
      List.append_assoc]
    rfl

/-- What is on the agenda stays on it, but for the action that is carried out. -/
theorem mem_agenda_of_ne (hb : b ∈ before ++ action :: after) (hne : b ≠ action) :
    b ∈ before ++ (next ++ after) := by
  rcases List.mem_append.mp hb with hb | hb
  · exact List.mem_append_left _ hb
  · rcases List.mem_cons.mp hb with rfl | hb
    · exact absurd rfl hne
    · exact List.mem_append_right _ (List.mem_append_right _ hb)

theorem mem_agenda_next (hb : b ∈ next) : b ∈ before ++ (next ++ after) :=
  List.mem_append_right _ (List.mem_append_left _ hb)

/-- Whatever is on the agenda then was there before, or the action has led to it. -/
theorem mem_agenda_cases (hb : b ∈ before ++ (next ++ after)) :
    b ∈ before ++ action :: after ∨ b ∈ next := by
  rcases List.mem_append.mp hb with hb | hb
  · exact .inl (List.mem_append_left _ hb)
  · rcases List.mem_append.mp hb with hb | hb
    · exact .inr hb
    · exact .inl (List.mem_append_right _ (List.mem_cons_of_mem _ hb))

theorem mem_agenda_self : action ∈ before ++ action :: after :=
  List.mem_append_right _ List.mem_cons_self

/-- Counts over the agenda change by the action and by what it leads to. -/
theorem countP_agenda (before after next : List Action) (action : Action) (P : Action → Bool) :
    (before ++ (next ++ after)).countP P + (P action).toNat =
      (before ++ action :: after).countP P + next.countP P := by
  have htoNat : (P action).toNat = if P action = true then 1 else 0 := by cases P action <;> rfl
  rw [htoNat]
  simp only [List.countP_append, List.countP_cons]
  omega

/-! ## Calls by themselves

Within one call the order of actions is fixed: it locks before it attaches, and gives its token back
at the end. -/

/-- A call that locks does so at first, and then finds out what to do with the child. A call that waits
does nothing else. -/
structure Call.Orderly (call : Call) : Prop where
  locks_first : (∀ p, .lock p ∉ call.todo) ∨
    ∃ p c rest, call.todo = .lock p :: .attach p c :: rest ∧ ∀ q, .lock q ∉ rest
  waits : call.purpose = .wait → ∀ a ∈ call.todo, Waits a

/-- An orderly call stays orderly when it goes on. -/
theorem Call.Orderly.perform (h : call.Orderly) (htodo : call.todo = action :: todo)
    (hperform : f.perform action = some (g, next)) :
    Call.Orderly { call with todo := next ++ todo } where
  locks_first := by
    -- no action leads to a lock, so only the first one of a call takes one
    have hnext (q : Token) : .lock q ∉ next := (performed_of_perform hperform).lock_notMem
    refine .inl fun q hq => ?_
    rcases List.mem_append.mp hq with hq | hq
    · exact hnext q hq
    · rcases h.locks_first with hfree | ⟨p, c, rest, hfirst, hrest⟩
      · exact hfree q (htodo ▸ List.mem_cons_of_mem _ hq)
      · obtain rfl : todo = .attach p c :: rest := by
          rw [htodo] at hfirst
          exact (List.cons.inj hfirst).2
        rcases List.mem_cons.mp hq with hq | hq
        · cases hq
        · exact hrest q hq
  waits hwait a ha := by
    have hwaits := h.waits hwait
    rw [htodo] at hwaits
    rcases List.mem_append.mp ha with ha | ha
    · exact (perform_waits (hwaits action List.mem_cons_self) hperform).2 a ha
    · exact hwaits a (List.mem_cons_of_mem _ ha)

/-- For each that is going to lock there is one that finds out afterwards. -/
theorem countP_locks_le (h : ∀ call ∈ calls, call.Orderly) (p : Token) :
    (agenda calls).countP (·.locks p) ≤ (agenda calls).countP (·.attaches p) := by
  induction calls with
  | nil => exact Nat.le_refl _
  | cons call calls ih =>
    have hcalls := ih fun c hc => h c (List.mem_cons_of_mem _ hc)
    rw [agenda, List.flatMap_cons, List.countP_append, List.countP_append]
    refine Nat.add_le_add ?_ hcalls
    rcases (h call List.mem_cons_self).locks_first with hfree | ⟨q, c, rest, htodo, hrest⟩
    · rw [Action.countP_locks_eq_zero hfree]
      exact Nat.zero_le _
    · simp only [htodo, List.countP_cons, Action.countP_locks_eq_zero hrest]
      show 0 + 0 + (if decide (q = p) = true then 1 else 0) ≤
        _ + (if decide (q = p) = true then 1 else 0) + 0
      omega

/-! ## Links and flags

A child that is neither linked nor cancelled yet is still to be attached, and that is on the agenda.
-/

/-- What ties the links and flags of a forest to an agenda. Links lead from parents to children. Those
that are locked have one call that is about to unlock them. A token whose flag is up has no links any
more, or they are going to be taken, also when a call is about to link a child. A child that something
holds has its flag up, or is linked, or one of the calls is going to see to it. -/
structure Knit (f : Forest) (l : List Action) (kin : List (Token × Token)) : Prop
    extends Pedigree f.nodes.length kin where
  mem_kin : ∀ p c, c ∈ f.childrenOf p → (p, c) ∈ kin
  newborn : ∀ p c, .attach p c ∈ l ∨ .link p c ∈ l → (p, c) ∈ kin
  locked : ∀ p, (f.isLocked p).toNat + l.countP (·.locks p) =
    l.countP (·.attaches p) + l.countP (·.unlocks p)
  emptied : ∀ p, f.isCancelled p = true → f.childrenOf p = [] ∨ .takeChildren p ∈ l
  linking : ∀ p c, .link p c ∈ l → f.isCancelled p = true → .takeChildren p ∈ l
  reached : ∀ p c, (p, c) ∈ kin → f.isHeld c = true → f.isCancelled c = true ∨
    c ∈ f.childrenOf p ∨ ∃ a ∈ l, a.minds p c = true

namespace Knit

variable {l : List Action}

/-- Nothing is amiss where there is nothing. -/
theorem empty : Knit {} [] [] where
  toPedigree := .empty _
  mem_kin _ _ h := by cases h
  newborn _ _ h := by rcases h with h | h <;> cases h
  locked _ := rfl
  emptied _ h := by cases h
  linking _ _ h := by cases h
  reached _ _ h := by cases h

/-- Whoever is about to unlock has locked, since the others have yet to do so. -/
theorem isLocked_of_unlocks (hf : Knit f l kin)
    (hlocks : l.countP (·.locks p) ≤ l.countP (·.attaches p)) (ha : a ∈ l)
    (hunlocks : a.unlocks p = true) : f.isLocked p = true := by
  have hpos : 0 < l.countP (·.unlocks p) := List.countP_pos_iff.mpr ⟨a, ha, hunlocks⟩
  have hlocked := hf.locked p
  cases h : f.isLocked p with
  | true => rfl
  | false =>
    rw [h, Bool.toNat_false] at hlocked
    omega

theorem lt_length (hf : Knit f l kin) (h : (p, c) ∈ kin) : p < f.nodes.length :=
  Nat.lt_trans (hf.lt_child p c h) (hf.child_lt p c h)

/-- Every lock belongs to a call that will unlock. -/
theorem locked_perform (hf : Knit f (before ++ action :: after) kin)
    (hlocks : ∀ p, (before ++ action :: after).countP (·.locks p) ≤
      (before ++ action :: after).countP (·.attaches p))
    (h : Performed f action g next) (p : Token) :
    (g.isLocked p).toNat + (before ++ (next ++ after)).countP (·.locks p) =
      (before ++ (next ++ after)).countP (·.attaches p) +
        (before ++ (next ++ after)).countP (·.unlocks p) := by
  have hexists (hp : action.locks p = true) : p < f.nodes.length := by
    -- the same call is going to find out about a child of the token
    have hone : 0 < (before ++ action :: after).countP (·.attaches p) :=
      Nat.lt_of_lt_of_le (List.countP_pos_iff.mpr ⟨action, mem_agenda_self, hp⟩) (hlocks p)
    obtain ⟨a, ha, hattaches⟩ := List.countP_pos_iff.mp hone
    cases a with
    | attach q c =>
      obtain rfl : q = p := by simpa [Action.attaches] using hattaches
      exact hf.lt_length (hf.newborn q c (.inl ha))
    | _ => cases hattaches
  have hstep := h.isLocked_add hexists (hf.isLocked_of_unlocks (hlocks p) mem_agenda_self)
  have hbefore := hf.locked p
  have hlockers := countP_agenda before after next action (·.locks p)
  have hattachers := countP_agenda before after next action (·.attaches p)
  have hunlockers := countP_agenda before after next action (·.unlocks p)
  rw [h.countP_locks] at hlockers
  rw [h.countP_attaches] at hattachers
  omega

/-- **Every action keeps it.** -/
theorem perform (hf : Knit f (before ++ action :: after) kin)
    (hlocks : ∀ p, (before ++ action :: after).countP (·.locks p) ≤
      (before ++ action :: after).countP (·.attaches p))
    (h : Performed f action g next) : Knit g (before ++ (next ++ after)) kin := by
  have hunlocks {a : Action} {p : Token} (ha : a ∈ before ++ action :: after)
      (hp : a.unlocks p = true) : f.isLocked p = true :=
    hf.isLocked_of_unlocks (hlocks p) ha hp
  refine
    { toPedigree := hf.toPedigree.mono (Nat.le_of_eq h.length_nodes.symm)
      mem_kin := fun p c hc => ?mem_kin, newborn := fun p c hc => ?newborn
      locked := fun p => ?locked, emptied := fun p hup => ?emptied
      linking := fun p c hlink hup => ?linking, reached := fun p c hkin hheld => ?reached }
  case mem_kin =>
    rcases h.mem_childrenOf hc with hc | rfl
    · exact hf.mem_kin p c hc
    · exact hf.newborn p c (.inr mem_agenda_self)
  -- a link that is still to be made comes from an attachment
  case newborn =>
    refine hf.newborn p c ?_
    rcases hc with hc | hc
    · exact .inl ((mem_agenda_cases hc).resolve_right h.attach_notMem)
    · rcases mem_agenda_cases hc with hc | hc
      · exact .inr hc
      · obtain ⟨rfl, -⟩ := h.link_mem hc
        exact .inl mem_agenda_self
  case locked => exact hf.locked_perform hlocks h p
  case emptied =>
    cases hdown : f.isCancelled p with
    | false => exact .inr (mem_agenda_next (h.mem_of_isCancelled hdown hup).2)
    | true =>
      rcases hf.emptied p hdown with hnil | htake
      · by_cases hlink : ∃ c, action = .link p c
        · -- a link is made, but whoever cancelled the parent has yet to take it
          obtain ⟨c, rfl⟩ := hlink
          exact .inr (mem_agenda_of_ne (hf.linking p c mem_agenda_self hdown) (by simp))
        · refine .inl (List.eq_nil_iff_forall_not_mem.mpr fun c hc => ?_)
          rcases h.mem_childrenOf hc with hc | hc
          · rw [hnil] at hc
            cases hc
          · exact hlink ⟨c, hc⟩
      · by_cases hself : action = .takeChildren p
        · subst hself
          exact .inl h.childrenOf_takeChildren.1
        · exact .inr (mem_agenda_of_ne htake (Ne.symm hself))
  case linking =>
    cases hdown : f.isCancelled p with
    | false => exact mem_agenda_next (h.mem_of_isCancelled hdown hup).2
    | true =>
      rcases mem_agenda_cases hlink with hlink | hlink
      · have htake := hf.linking p c hlink hdown
        by_cases hself : action = .takeChildren p
        · -- the links cannot be taken now: they are locked
          subst hself
          have hlocked := hunlocks (p := p) hlink (by simp [Action.unlocks])
          cases h with
          | moot hm => exact hm.elim
          | takeChildren hfree =>
            rw [hfree] at hlocked
            cases hlocked
        · exact mem_agenda_of_ne htake (Ne.symm hself)
      · rw [(h.link_mem hlink).2] at hdown
        cases hdown
  -- a child is cancelled, linked, or minded by an action to come; each action hands it on
  case reached =>
    have hc := h.isHeld_of hheld
    rcases hf.reached p c hkin hc with hup | hlink | ⟨a, ha, hminds⟩
    · exact .inl (h.isCancelled_of hup)
    · rcases h.mem_childrenOf_or_follow hlink hc with hlink | hfollow
      · exact .inr (.inl hlink)
      · exact .inr (.inr ⟨_, mem_agenda_next hfollow, by simp [Action.minds]⟩)
    · by_cases hself : a = action
      · subst hself
        rcases h.minds_or hminds (hf.lt_length hkin) hc with hup | hlink | ⟨b, hb, hminds⟩
        · exact .inl hup
        · exact .inr (.inl hlink)
        · exact .inr (.inr ⟨b, mem_agenda_next hb, hminds⟩)
      · exact .inr (.inr ⟨a, mem_agenda_of_ne ha hself, hminds⟩)

/-- A new token has no links and is not linked. -/
theorem create (hf : Knit f l kin) : Knit f.create.2 l kin where
  toPedigree := hf.toPedigree.mono (by rw [length_nodes_create]; exact Nat.le_succ _)
  mem_kin p c hc := by
    rw [childrenOf_create] at hc
    exact hf.mem_kin p c hc
  newborn := hf.newborn
  locked p := by
    rw [isLocked_create]
    exact hf.locked p
  emptied p hup := by
    rw [isCancelled_create] at hup
    rw [childrenOf_create]
    exact hf.emptied p hup
  linking p c hlink hup := by
    rw [isCancelled_create] at hup
    exact hf.linking p c hlink hup
  reached p c hkin hheld := by
    have hne : c ≠ f.nodes.length := Nat.ne_of_lt (hf.child_lt p c hkin)
    rw [isHeld_eq, holdersOf_create, if_neg hne, ← isHeld_eq] at hheld
    rw [isCancelled_create, childrenOf_create]
    exact hf.reached p c hkin hheld

/-- What looks the same, and holds no more, is knit as well. -/
theorem of_sameTree (hf : Knit f l kin) (h : SameTree f g)
    (hheld : ∀ c, g.isHeld c = true → f.isHeld c = true) : Knit g l kin where
  toPedigree := hf.toPedigree.mono (Nat.le_of_eq h.length_nodes.symm)
  mem_kin p c hc := by
    rw [h.childrenOf] at hc
    exact hf.mem_kin p c hc
  newborn := hf.newborn
  locked p := by
    rw [h.isLocked]
    exact hf.locked p
  emptied p hup := by
    rw [h.isCancelled] at hup
    rw [h.childrenOf]
    exact hf.emptied p hup
  linking p c hlink hup := by
    rw [h.isCancelled] at hup
    exact hf.linking p c hlink hup
  reached p c hkin hc := by
    rw [h.isCancelled, h.childrenOf]
    exact hf.reached p c hkin (hheld c hc)

/-- A call begins. If it makes a child, it is going to see to it. -/
theorem begin (hf : Knit f l kin) {new : List (Token × Token)}
    (hpedigree : Pedigree f.nodes.length (kin ++ new))
    (hattach : ∀ p c, .attach p c ∈ todo ↔ (p, c) ∈ new) (hlink : ∀ p c, .link p c ∉ todo)
    (hlocks : ∀ p, todo.countP (·.locks p) = todo.countP (·.attaches p) + todo.countP (·.unlocks p)) :
    Knit f (l ++ todo) (kin ++ new) where
  toPedigree := hpedigree
  mem_kin p c hc := List.mem_append_left _ (hf.mem_kin p c hc)
  -- links are only made on behalf of attachments, and the call has made none yet
  newborn p c h := by
    have hold : .attach p c ∈ l ∨ .link p c ∈ l ∨ .attach p c ∈ todo := by
      rcases h with h | h
      · rcases List.mem_append.mp h with h | h
        · exact .inl h
        · exact .inr (.inr h)
      · rcases List.mem_append.mp h with h | h
        · exact .inr (.inl h)
        · exact absurd h (hlink p c)
    rcases hold with h | h | h
    · exact List.mem_append_left _ (hf.newborn p c (.inl h))
    · exact List.mem_append_left _ (hf.newborn p c (.inr h))
    · exact List.mem_append_right _ ((hattach p c).mp h)
  locked p := by
    have hbefore := hf.locked p
    have hcall := hlocks p
    rw [List.countP_append, List.countP_append, List.countP_append]
    omega
  emptied p hup := (hf.emptied p hup).imp_right (List.mem_append_left _)
  linking p c h hup := by
    rcases List.mem_append.mp h with h | h
    · exact List.mem_append_left _ (hf.linking p c h hup)
    · exact absurd h (hlink p c)
  reached p c hkin hheld := by
    rcases List.mem_append.mp hkin with hkin | hnew
    · rcases hf.reached p c hkin hheld with hup | hc | ⟨a, ha, hminds⟩
      · exact .inl hup
      · exact .inr (.inl hc)
      · exact .inr (.inr ⟨a, List.mem_append_left _ ha, hminds⟩)
    · refine .inr (.inr ⟨.attach p c, ?_, by simp [Action.minds]⟩)
      exact List.mem_append_right _ ((hattach p c).mpr hnew)

/-- **When nothing but waiting is on the agenda, the forest is as after calls one by one.** -/
theorem kindred (hf : Knit f l kin) (hl : ∀ a ∈ l, Waits a) : f.Kindred kin where
  toPedigree := hf.toPedigree
  lt_length p c hc := hf.child_lt p c (hf.mem_kin p c hc)
  unlocked p := by
    -- who only waits has no link to make and no lock to give back
    have hnone (P : Action → Bool) (hP : ∀ a, Waits a → P a = false) : l.countP P = 0 :=
      List.countP_eq_zero.mpr fun a ha => by simp [hP a (hl a ha)]
    have hlocked := hf.locked p
    rw [hnone (·.attaches p) (by intro a ha; cases a <;> first | rfl | exact ha.elim),
      hnone (·.unlocks p) (by intro a ha; cases a <;> first | rfl | exact ha.elim)] at hlocked
    cases h : f.isLocked p with
    | false => rfl
    | true =>
      rw [h, Bool.toNat_true] at hlocked
      omega
  childrenOf_eq_nil p hup := (hf.emptied p hup).resolve_right fun htake => hl _ htake
  mem_kin := hf.mem_kin
  linked p c hkin hheld := by
    rcases hf.reached p c hkin hheld with hup | hc | ⟨a, ha, hminds⟩
    · exact .inl hup
    · exact .inr hc
    · have hwaits := hl a ha
      cases a <;> first | cases hminds | exact hwaits.elim

end Knit

/-! ## Those who wait

A waiter whose flag is up has been notified or will be, or has still to read the flag. -/

/-- What ties those who wait to an agenda. Each is attended by one action at most. Once it has begun to
listen it does so until it is awake, and if it sleeps though the flag is up, it has been notified or is
going to be. -/
structure Attended (f : Forest) (l : List Action) : Prop where
  lt_length : ∀ a ∈ l, ∀ w, a.attends w = true → w < f.waiters.length
  alone : ∀ w, l.countP (·.attends w) ≤ 1
  listening : ∀ w v, .check w ∈ l ∨ .sleep w ∈ l → f.waiters[w]? = some v → v.isListening = true
  alert : ∀ w v, .sleep w ∈ l → f.waiters[w]? = some v → f.isCancelled v.token = true →
    v.isNotified = true ∨ .notify v.token ∈ l

namespace Attended

variable {l : List Action} {w : WaiterId}

/-- Nobody waits where there is nobody. -/
theorem empty : Attended {} [] where
  lt_length _ h := by cases h
  alone _ := Nat.zero_le _
  listening _ _ h := by rcases h with h | h <;> cases h
  alert _ _ h := by cases h

/-- Whoever is attended by the action is attended from then on by what it leads to, if at all. -/
theorem mem_next (hf : Attended f (before ++ action :: after)) (haction : action.attends w = true)
    (hb : b ∈ before ++ (next ++ after)) (hattends : b.attends w = true) : b ∈ next := by
  have hone := hf.alone w
  rw [List.countP_append, List.countP_cons, if_pos haction] at hone
  have hnone {l : List Action} (hl : l.countP (·.attends w) = 0) : b ∉ l := fun hmem =>
    List.countP_eq_zero.mp hl b hmem hattends
  rcases List.mem_append.mp hb with hb | hb
  · exact absurd hb (hnone (by omega))
  · rcases List.mem_append.mp hb with hb | hb
    · exact hb
    · exact absurd hb (hnone (by omega))

/-- Nobody else is attended from then on who was not before. -/
theorem mem_of_other (h : Performed f action g next) (haction : action.attends w = false)
    (hb : b ∈ before ++ (next ++ after)) (hattends : b.attends w = true) :
    b ∈ before ++ action :: after := by
  refine (mem_agenda_cases hb).resolve_right fun hb => ?_
  have hle := h.countP_attends_le w
  have hpos : 0 < next.countP (·.attends w) := List.countP_pos_iff.mpr ⟨b, hb, hattends⟩
  rw [haction] at hle
  exact Nat.not_lt.mpr hle hpos

/-- **Every action keeps it.** -/
theorem perform (hf : Attended f (before ++ action :: after)) (h : Performed f action g next) :
    Attended g (before ++ (next ++ after)) := by
  have hlength : g.waiters.length = f.waiters.length := by
    have := congrArg List.length h.waitedFor_eq
    simpa [waitedFor] using this
  refine
    { lt_length := fun a ha w hw => ?lt_length, alone := fun w => ?alone
      listening := fun w v hmem hv => ?listening, alert := fun w v hmem hv hup => ?alert }
  case lt_length =>
    rw [hlength]
    cases haction : action.attends w with
    | true => exact hf.lt_length action mem_agenda_self w haction
    | false => exact hf.lt_length a (mem_of_other h haction ha hw) w hw
  -- an action that attends to a waiter is followed by at most one that does
  case alone =>
    have hcount := countP_agenda before after next action (·.attends w)
    have hle := h.countP_attends_le w
    have hone := hf.alone w
    omega
  case listening =>
    -- the waiter listened before, unless it is attended by the action
    have hother (haction : action.attends w = false)
        (hmem : .check w ∈ before ++ action :: after ∨ .sleep w ∈ before ++ action :: after) :
        v.isListening = true := by
      rw [h.getElem?_waiters haction] at hv
      obtain ⟨v', hv', rfl⟩ := Option.map_eq_some_iff.mp hv
      have hlistening := hf.listening w v' hmem hv'
      split
      · rw [Waiter.wake, if_pos hlistening]
        exact hlistening
      · exact hlistening
    cases haction : action.attends w with
    | true =>
      rcases hmem with hcheck | hsleep
      · have hnext := hf.mem_next haction hcheck (Action.attends_check w)
        exact (h.check_mem hnext hv).2
      · have hnext := hf.mem_next haction hsleep (Action.attends_sleep w)
        obtain ⟨rfl, rfl, -⟩ := h.sleep_mem hnext hv
        exact hf.listening w v (.inl mem_agenda_self) hv
    | false =>
      refine hother haction ?_
      rcases hmem with hcheck | hsleep
      · exact .inl (mem_of_other h haction hcheck (Action.attends_check w))
      · exact .inr (mem_of_other h haction hsleep (Action.attends_sleep w))
  -- between the flag going up and the notification, the notification is on the agenda
  case alert =>
    cases haction : action.attends w with
    | true =>
      have hnext := hf.mem_next haction hmem (Action.attends_sleep w)
      obtain ⟨-, rfl, hdown⟩ := h.sleep_mem hnext hv
      rw [hdown] at hup
      cases hup
    | false =>
      have hsleep := mem_of_other h haction hmem (Action.attends_sleep w)
      rw [h.getElem?_waiters haction] at hv
      obtain ⟨v', hv', rfl⟩ := Option.map_eq_some_iff.mp hv
      have htoken : (if action = .notify v'.token then v'.wake else v').token = v'.token := by
        split
        · exact v'.token_wake
        · rfl
      rw [htoken] at hup ⊢
      cases hdown : f.isCancelled v'.token with
      | false => exact .inr (mem_agenda_next (h.mem_of_isCancelled hdown hup).1)
      | true =>
        by_cases hself : action = .notify v'.token
        · rw [if_pos hself, Waiter.wake, if_pos (hf.listening w v' (.inr hsleep) hv')]
          exact .inl rfl
        · rw [if_neg hself]
          rcases hf.alert w v' hsleep hv' hdown with hn | hnotify
          · exact .inl hn
          · exact .inr (mem_agenda_of_ne hnotify (Ne.symm hself))

/-- Nothing changes for those who wait if neither they nor the flags change. -/
theorem of_waiters_eq (hf : Attended f l) (hwaiters : g.waiters = f.waiters)
    (hflags : ∀ t, g.isCancelled t = f.isCancelled t) : Attended g l where
  lt_length := by
    rw [hwaiters]
    exact hf.lt_length
  alone := hf.alone
  listening := by
    rw [hwaiters]
    exact hf.listening
  alert w v hsleep hv hup := by
    rw [hwaiters] at hv
    rw [hflags] at hup
    exact hf.alert w v hsleep hv hup

/-- A call begins that does not wait. -/
theorem begin (hf : Attended f l) (htodo : ∀ a ∈ todo, ∀ w, a.attends w = false) :
    Attended f (l ++ todo) := by
  have hold {a : Action} {w : WaiterId} (ha : a ∈ l ++ todo) (hattends : a.attends w = true) :
      a ∈ l := by
    refine (List.mem_append.mp ha).resolve_right fun ha => ?_
    rw [htodo a ha w] at hattends
    cases hattends
  refine ⟨fun a ha w hw => hf.lt_length a (hold ha hw) w hw, fun w => ?_, fun w v h hv => ?_,
    fun w v h hv hup => ?_⟩
  · have hnone : todo.countP (·.attends w) = 0 :=
      List.countP_eq_zero.mpr fun a ha => by simp [htodo a ha w]
    rw [List.countP_append, hnone]
    exact hf.alone w
  · exact hf.listening w v (h.imp (hold · (Action.attends_check w)) (hold · (Action.attends_sleep w))) hv
  · exact (hf.alert w v (hold h (Action.attends_sleep w)) hv hup).imp_right
      (List.mem_append_left _)

/-- A call begins that waits: nobody has attended the new waiter so far. -/
theorem wait (hf : Attended f l) (t : Token) :
    Attended (f.addWaiter t).2 (l ++ waitCall f.waiters.length) := by
  have hflags (u : Token) : (f.addWaiter t).2.isCancelled u = f.isCancelled u :=
    (sameTree_retain f t).isCancelled u
  have hlength : (f.addWaiter t).2.waiters.length = f.waiters.length + 1 := List.length_append ..
  -- no action on the agenda knows the new waiter
  have hold {a : Action} {w : WaiterId} {v : Waiter} (ha : a ∈ l) (hattends : a.attends w = true)
      (hv : (f.addWaiter t).2.waiters[w]? = some v) : f.waiters[w]? = some v := by
    rw [addWaiter, List.getElem?_append_left (hf.lt_length a ha w hattends)] at hv
    exact hv
  have hmem {a : Action} (ha : a ∈ l ++ waitCall f.waiters.length)
      (hlisten : ∀ w, a ≠ .listen w) : a ∈ l :=
    (List.mem_append.mp ha).resolve_right fun ha => hlisten _ (List.mem_singleton.mp ha)
  refine ⟨fun a ha w hw => ?_, fun w => ?_, fun w v h hv => ?_, fun w v h hv hup => ?_⟩
  · rw [hlength]
    rcases List.mem_append.mp ha with ha | ha
    · exact Nat.lt_succ_of_lt (hf.lt_length a ha w hw)
    · obtain rfl := List.mem_singleton.mp ha
      obtain rfl : f.waiters.length = w := by simpa [Action.attends] using hw
      exact Nat.lt_succ_self _
  · -- the one action of the call attends to the new waiter, and no other action does
    rw [List.countP_append]
    by_cases hw : f.waiters.length = w
    · have hnone : l.countP (·.attends w) = 0 := List.countP_eq_zero.mpr fun a ha hattends =>
        Nat.lt_irrefl _ (hw ▸ hf.lt_length a ha w hattends)
      rw [hnone, Nat.zero_add]
      exact List.countP_le_length
    · have hnone : (waitCall f.waiters.length).countP (·.attends w) = 0 := by
        simp [waitCall, Action.attends, hw]
      rw [hnone]
      exact hf.alone w
  · rcases h with h | h
    · have h := hmem h (by simp)
      exact hf.listening w v (.inl h) (hold h (Action.attends_check w) hv)
    · have h := hmem h (by simp)
      exact hf.listening w v (.inr h) (hold h (Action.attends_sleep w) hv)
  · have h := hmem h (by simp)
    rw [hflags] at hup
    exact (hf.alert w v h (hold h (Action.attends_sleep w) hv) hup).imp_right
      (List.mem_append_left _)

end Attended

end EdgeInclude.Cancellation
