import Mathlib.Data.List.Basic
import EdgeInclude.Proofs.Batch.Bookkeeping

/-!
# All fragments or none

What a finished batch ends with, told from its workers.

* **`firstError_eq_none_iff`**: a finished batch has no error exactly when every worker has handed
  over its fragment and the deadline was never seen.
* **`collected_perm`**: behind a closed channel the collector has what was handed over, each once.
* **`result_all_or_nothing`**: hence all fragments, each with the bytes of its own fetch, or none.
-/

namespace EdgeInclude.Batch

variable {b : Setup} {s₀ s : State} {labels : List Label} {tags : List Include}

theorem isFinished_iff {s : State} :
    s.isFinished = true ↔ s.isOpen = false ∧ (∀ w ∈ s.workers, w.isJoined = true) ∧
      s.alarm = none := by
  simp [State.isFinished, List.all_eq_true, and_assoc]

theorem result_eq_ok_iff {s : State} {fragments : List Fragment} :
    s.result = .ok fragments ↔ s.firstError = none ∧ s.collected = fragments := by
  unfold State.result
  cases s.firstError <;> simp

theorem result_eq_error_iff {s : State} {error : BatchError} :
    s.result = .error error ↔ s.firstError = some error := by
  unfold State.result
  cases s.firstError <;> simp

/-- **A loss is an error and an error is a loss.** A worker that is joined has ended; one that has
ended has handed over its fragment, has kept an error, or broke down, which the collector has met. -/
theorem firstError_eq_none_iff (hb : Bookkeeping tags labels s) (hfin : s.isFinished = true) :
    s.firstError = none ↔
      (∀ w ∈ s.workers, ∃ data, w.phase = .published data) ∧ s.isExpired = false := by
  obtain ⟨-, hjoined, halarm⟩ := isFinished_iff.mp hfin
  constructor
  · intro hnone
    have hmet : ¬ s.CollectorMet := fun hm => hb.accounted.of_met halarm hm hnone
    refine ⟨fun w hmem => ?_, Bool.eq_false_iff.mpr fun hx => hmet (.inl hx)⟩
    obtain ⟨i, hw⟩ := List.mem_iff_getElem?.mp hmem
    have hended := hb.channel.joined i w hw (hjoined w hmem)
    have hkept : w.phase.hasKept = false :=
      Bool.eq_false_iff.mpr fun hk => hb.accounted.of_kept i w hw hk hnone
    -- an ended worker that has published nothing has kept an error, or broke down
    cases hp : w.phase with
    | published data => exact ⟨data, rfl⟩
    | failed cause => rw [hp] at hkept; cases hkept
    | unpublished data => rw [hp] at hkept; cases hkept
    | crashed message => exact absurd (.inr ⟨i, w, message, hw, hjoined w hmem, hp⟩) hmet
    | waiting | fetching _ | fetched _ | offering _ | failing _ _ | withdrawing _ _ =>
      rw [hp] at hended; cases hended
  · rintro ⟨hpublished, hx⟩
    by_contra he
    rcases hb.accounted.cause he with ⟨i, w, hw, hk⟩ | hexpired | ⟨i, w, message, hw, -, hp⟩
    · obtain ⟨data, hp⟩ := hpublished w (List.mem_of_getElem? hw)
      rw [hp] at hk
      cases hk
    · rw [hx] at hexpired
      cases hexpired
    · obtain ⟨data, hp'⟩ := hpublished w (List.mem_of_getElem? hw)
      rw [hp] at hp'
      cases hp'

/-- Nothing is left in a closed channel: what was handed over has been collected. -/
theorem collected_perm (hc : Channel s) (hopen : s.isOpen = false) :
    s.collected.Perm (s.workers.filterMap Worker.delivered?) := by
  have hperm := hc.perm
  rw [(hc.closed hopen).1] at hperm
  simpa using hperm

/-- The bytes that a worker has handed over, or none. -/
def Worker.data (w : Worker) : Bytes :=
  match w.phase with
  | .published data => data
  | _ => []

/-- When every worker has handed over its fragment, these are the fragments of the page filled with
what the workers have. -/
theorem filterMap_delivered?_eq (hp : ∀ w ∈ s.workers, ∃ data, w.phase = .published data)
    (htags : s.workers.map Worker.tag = tags) :
    s.workers.filterMap Worker.delivered? = tags.mapIdx fun i tag =>
      { tag.fragment with data := (s.workers[i]?.map Worker.data).getD [] } := by
  have hsome : s.workers.filterMap Worker.delivered? =
      s.workers.map fun w => { w.tag.fragment with data := w.data } := by
    refine List.filterMap_eq_map_iff_forall_eq_some.mpr fun w hmem => ?_
    obtain ⟨data, hphase⟩ := hp w hmem
    simp [Worker.delivered?, Worker.data, hphase]
  rw [hsome, ← htags]
  refine List.ext_getElem? fun i => ?_
  simp only [List.getElem?_map, List.getElem?_mapIdx]
  cases s.workers[i]? <;> rfl

/-- **All or nothing.** However the steps of a batch are ordered: when it is finished it ends with
fragments exactly if every worker has handed over its fragment and the collector never saw the
deadline, and else with an error. The fragments are those of all tags of the page, in some order,
each in its own place and with the bytes that its own fetch ended with; that fetch ended once. -/
theorem result_all_or_nothing {r : Resolver} {scope : Scope} {t : Timeline}
    (hstart : r.start tags scope t = some (b, s₀)) (hrun : run b s₀ labels = some s)
    (hfin : s.isFinished = true) :
    ((∃ fragments, s.result = .ok fragments) ↔
      (∀ i < tags.length, ∃ w data, s.workers[i]? = some w ∧ w.phase = .published data) ∧
        Label.expire ∉ labels) ∧
    ((∃ error, s.result = .error error) ↔
      ¬ ((∀ i < tags.length, ∃ w data, s.workers[i]? = some w ∧ w.phase = .published data) ∧
        Label.expire ∉ labels)) ∧
    ∀ fragments, s.result = .ok fragments →
      ∃ data : Nat → Bytes,
        (∀ i < tags.length, ∀ outcome,
          Label.finish i outcome ∈ labels ↔ outcome = .bytes (data i)) ∧
        fragments.Perm (tags.mapIdx fun i tag => { tag.fragment with data := data i }) := by
  have hb := bookkeeping_of_run hstart hrun
  have hlength : s.workers.length = tags.length := by
    rw [← hb.recorded.map_tag, List.length_map]
  -- the same of the workers by index as of the workers by membership
  have hindex : (∀ i < tags.length, ∃ w data, s.workers[i]? = some w ∧ w.phase = .published data) ↔
      ∀ w ∈ s.workers, ∃ data, w.phase = .published data := by
    constructor
    · intro h w hmem
      obtain ⟨i, hw⟩ := List.mem_iff_getElem?.mp hmem
      obtain ⟨hi, -⟩ := List.getElem?_eq_some_iff.mp hw
      obtain ⟨v, data, hv, hp⟩ := h i (hlength ▸ hi)
      rw [hw] at hv
      cases hv
      exact ⟨data, hp⟩
    · intro h i hi
      rw [← hlength] at hi
      obtain ⟨data, hp⟩ := h s.workers[i] (List.getElem_mem hi)
      exact ⟨s.workers[i], data, List.getElem?_eq_getElem hi, hp⟩
  have hexpire : Label.expire ∉ labels ↔ s.isExpired = false := by
    rw [hb.recorded.expire_mem_iff, Bool.not_eq_true]
  have hnone := firstError_eq_none_iff hb hfin
  rw [hindex, hexpire, ← hnone]
  refine ⟨by simp [result_eq_ok_iff], ?_, fun fragments hok => ?_⟩
  · simp [result_eq_error_iff, Option.ne_none_iff_exists']
  · obtain ⟨hfirst, rfl⟩ := result_eq_ok_iff.mp hok
    have hpublished := (hnone.mp hfirst).1
    refine ⟨fun i => (s.workers[i]?.map Worker.data).getD [], fun i hi outcome => ?_, ?_⟩
    · obtain ⟨w, data, hw, hp⟩ := hindex.mpr hpublished i hi
      rw [hb.recorded.finish_mem_iff i w hw outcome]
      simp [Phase.outcome?, Worker.data, hw, hp, eq_comm]
    · rw [← filterMap_delivered?_eq hpublished hb.recorded.map_tag]
      exact collected_perm hb.channel (isFinished_iff.mp hfin).1

/-- A page with two tags, side by side. -/
def twoTags : List Include := [Include.ofTag [] 0 10, Include.ofTag [] 10 20]

/-- The scope of a request with the only token there is. -/
def loneScope : Scope := { request := { id := "" }, token := 0 }

/-- A clock that has just been started, with one token. -/
def loneTimeline : Timeline := { forest := { nodes := [{}] } }

/-- The second tag is quicker; the first has to wait until the slot is free. -/
def overtaking : List Label :=
  [.fetch 0, .fetch 1, .finish 1 (.bytes [2]), .offer 1, .publish 1, .finish 0 (.bytes [1]), .join 1,
    .collect, .offer 0, .publish 0, .join 0, .collect, .close]

/-- The batch of a lone scope, which is the only child of its token. -/
def loneSetup : Setup := { requestToken := 0, scope := { loneScope with token := 1 } }

/-- Two fragments, of which the second is ready first. -/
theorem result_all_or_nothing_overtaking :
    ∃ s, Resolver.start {} twoTags loneScope loneTimeline =
        some (loneSetup, beginning {} twoTags loneScope loneTimeline) ∧
      run loneSetup (beginning {} twoTags loneScope loneTimeline) overtaking = some s ∧
      s.isFinished = true ∧ s.result = .ok [⟨10, 20, [2]⟩, ⟨0, 10, [1]⟩] ∧
      ∃ data : Nat → Bytes,
        (∀ i < twoTags.length, ∀ outcome,
          Label.finish i outcome ∈ overtaking ↔ outcome = .bytes (data i)) ∧
        [⟨10, 20, [2]⟩, ⟨0, 10, [1]⟩].Perm
          (twoTags.mapIdx fun i tag => { tag.fragment with data := data i }) := by
  have hstart : Resolver.start {} twoTags loneScope loneTimeline =
      some (loneSetup, beginning {} twoTags loneScope loneTimeline) := by rfl
  obtain ⟨s, hrun, hfin, hok⟩ :
      ∃ s, run loneSetup (beginning {} twoTags loneScope loneTimeline) overtaking = some s ∧
        s.isFinished = true ∧ s.result = .ok [⟨10, 20, [2]⟩, ⟨0, 10, [1]⟩] :=
    ⟨_, by rfl, by rfl, by rfl⟩
  exact ⟨s, hstart, hrun, hfin, hok, (result_all_or_nothing hstart hrun hfin).2.2 _ hok⟩

end EdgeInclude.Batch
