import EdgeInclude.Include.Source
import EdgeInclude.Proofs.Lists
import Mathlib.Data.List.Induction
import Mathlib.Data.List.Nodup

/-!
# Sources in the order of insertion

A source is made when its index is asked for the first time. Sources are kept in a list, and a table
tells the place of each index; whatever is asked for, and in whatever order, the two stay in step.

* **`Sources.InStep`**: no index stands twice, and the table tells where each index stands.
* **`InStep.update`**, **`InStep.get?_update`**, **`InStep.indices_update`**: what asking for an index,
  and changing what is found there, does to sources in step.
* **`Sources.content`**: what changes make of the source under an index.
* **`Sources.kept_in_order_of_insertion`**: sources after any changes.
-/

namespace EdgeInclude.Sources

/-- An index that is asked for, and what is done to the source that is found there. -/
structure Change where
  index : Nat
  action : Source → Source

/-- What a change makes of a source. The index of a source does not change. -/
def Change.applied (c : Change) (source : Source) : Source :=
  { c.action source with index := source.index }

/-- Sources after changes, of which there were none at first. -/
def changeAll (cs : List Change) : Sources :=
  cs.foldl (fun s c => s.update c.index c.action) {}

/-- The indices of the sources, in the order in which the sources stand. -/
def indices (s : Sources) : List Nat :=
  s.items.map Source.index

/-- What changes make of the source under an index. It is a new one at first. -/
def content (i : Nat) (cs : List Change) : Source :=
  (cs.filter fun c => c.index = i).foldl (fun source c => c.applied source) { index := i }

/-- No index stands twice, and the table tells where each index stands, and of no other index. -/
structure InStep (s : Sources) : Prop where
  nodup : s.indices.Nodup
  lookup_iff : ∀ i p, s.positions.lookup i = some p ↔ s.indices[p]? = some i

variable {s : Sources} {i j p : Nat} {source : Source} {g : Source → Source}

theorem length_indices (s : Sources) : s.indices.length = s.items.length :=
  List.length_map ..

theorem getElem?_indices (s : Sources) (p : Nat) : s.indices[p]? = s.items[p]?.map Source.index :=
  List.getElem?_map ..

theorem inStep_empty : InStep {} :=
  ⟨List.nodup_nil, by simp [indices]⟩

namespace InStep

/-! ## What is found

While list and table are in step, a source is found under an index exactly if it has that index. -/

/-- The table tells no place for an index that is not there. -/
theorem lookup_eq_none_iff (h : s.InStep) : s.positions.lookup i = none ↔ i ∉ s.indices := by
  constructor
  · intro hnone hmem
    obtain ⟨p, hp⟩ := List.mem_iff_getElem?.mp hmem
    have hsome := (h.lookup_iff i p).mpr hp
    rw [hnone] at hsome
    cases hsome
  · intro hmem
    cases hlookup : s.positions.lookup i with
    | none => rfl
    | some p => exact absurd (List.mem_of_getElem? ((h.lookup_iff i p).mp hlookup)) hmem

/-- No place that the table tells is outside the list. -/
theorem lt_length (h : s.InStep) (hp : s.positions.lookup i = some p) : p < s.items.length := by
  rw [← length_indices]
  exact (List.getElem?_eq_some_iff.mp ((h.lookup_iff i p).mp hp)).1

/-- What is found under an index is the source that has it. -/
theorem get?_eq_some_iff (h : s.InStep) :
    s.get? i = some source ↔ source ∈ s.items ∧ source.index = i := by
  unfold get?
  constructor
  · intro hget
    split at hget
    · rename_i p hp
      have hindex := (h.lookup_iff i p).mp hp
      rw [getElem?_indices, hget] at hindex
      exact ⟨List.mem_of_getElem? hget, Option.some.inj hindex⟩
    · cases hget
  · rintro ⟨hmem, rfl⟩
    obtain ⟨p, hp⟩ := List.mem_iff_getElem?.mp hmem
    have hplace : s.indices[p]? = some source.index := by
      rw [getElem?_indices, hp]
      rfl
    rw [(h.lookup_iff _ p).mpr hplace]
    exact hp

theorem exists_get?_iff (h : s.InStep) : (∃ source, s.get? i = some source) ↔ i ∈ s.indices := by
  simp [h.get?_eq_some_iff, indices]

theorem get?_eq_none (h : s.InStep) (hi : i ∉ s.indices) : s.get? i = none := by
  rw [get?, h.lookup_eq_none_iff.mpr hi]

/-! ## Asking for an index

An index that is there is found as before. Any other gets a new source at the end, so the sources
before it keep their places. -/

/-- Asking for an index that is there changes nothing. -/
theorem ensure_of_mem (h : s.InStep) (hi : i ∈ s.indices) : s.ensure i = s := by
  unfold Sources.ensure
  split
  · rfl
  · rename_i hnone
    exact absurd hi (h.lookup_eq_none_iff.mp hnone)

theorem ensure_of_notMem (h : s.InStep) (hi : i ∉ s.indices) : s.ensure i =
    { items := s.items ++ [{ index := i }], positions := (i, s.items.length) :: s.positions } := by
  rw [Sources.ensure, h.lookup_eq_none_iff.mpr hi]

/-- The index stands where it did, or last. -/
theorem indices_ensure (h : s.InStep) (i : Nat) :
    (s.ensure i).indices = if i ∈ s.indices then s.indices else s.indices ++ [i] := by
  by_cases hi : i ∈ s.indices
  · rw [h.ensure_of_mem hi, if_pos hi]
  · rw [h.ensure_of_notMem hi, if_neg hi]
    simp [indices]

/-- A new source stands behind the others, where the table says. -/
theorem ensure (h : s.InStep) (i : Nat) : (s.ensure i).InStep := by
  by_cases hi : i ∈ s.indices
  · rwa [h.ensure_of_mem hi]
  have hindices : (s.ensure i).indices = s.indices ++ [i] := by
    rw [h.indices_ensure, if_neg hi]
  refine ⟨?_, fun j p => ?_⟩
  · rw [hindices, ← List.concat_eq_append]
    exact h.nodup.concat hi
  · rw [hindices, getElem?_concat_eq_some_iff, ← h.lookup_iff, h.ensure_of_notMem hi,
      List.lookup_cons, ← length_indices]
    by_cases hj : j = i
    · subst hj
      rw [h.lookup_eq_none_iff.mpr hi]
      simp [eq_comm]
    · rw [beq_eq_false_iff_ne.mpr hj]
      simp [Ne.symm hj]

/-- Nothing else is found under any other index. -/
theorem get?_ensure (h : s.InStep) (i j : Nat) :
    (s.ensure i).get? j = if j = i then some ((s.get? i).getD { index := i }) else s.get? j := by
  by_cases hi : i ∈ s.indices
  · rw [h.ensure_of_mem hi]
    obtain ⟨source, hsource⟩ := h.exists_get?_iff.mpr hi
    by_cases hj : j = i
    · rw [if_pos hj, hj, hsource]
      rfl
    · rw [if_neg hj]
  · rw [h.get?_eq_none hi, h.ensure_of_notMem hi]
    by_cases hj : j = i
    · simp [get?, hj]
    · rw [if_neg hj, get?, get?, List.lookup_cons, beq_eq_false_iff_ne.mpr hj]
      cases hq : s.positions.lookup j with
      | none => rfl
      | some q => exact List.getElem?_append_left (h.lt_length hq)

/-! ## Changing what is found

A change happens at the place the table tells, and that place belongs to one index alone. -/

/-- A change is made at the place that the table tells. -/
theorem exists_update_eq (h : s.InStep) (i : Nat) (g : Source → Source) :
    ∃ p, (s.ensure i).positions.lookup i = some p ∧ s.update i g = { s.ensure i with
      items := (s.ensure i).items.modify p (Change.applied ⟨i, g⟩) } := by
  have hmem : i ∈ (s.ensure i).indices := by
    rw [h.indices_ensure]
    split
    · assumption
    · exact List.mem_append_right _ (List.mem_singleton_self i)
  obtain ⟨p, hp⟩ := List.mem_iff_getElem?.mp hmem
  have hlookup := ((h.ensure i).lookup_iff i p).mpr hp
  refine ⟨p, hlookup, ?_⟩
  unfold Sources.update
  simp only [hlookup]
  rfl

/-- A change moves no index. -/
theorem indices_update (h : s.InStep) (i : Nat) (g : Source → Source) :
    (s.update i g).indices = if i ∈ s.indices then s.indices else s.indices ++ [i] := by
  obtain ⟨p, -, hupdate⟩ := h.exists_update_eq i g
  rw [hupdate, ← h.indices_ensure]
  have hindex (source : Source) : (Change.applied ⟨i, g⟩ source).index = source.index := rfl
  exact map_modify_of_forall hindex (s.ensure i).items p

/-- List and table stay in step. -/
theorem update (h : s.InStep) (i : Nat) (g : Source → Source) : (s.update i g).InStep := by
  have hindices : (s.update i g).indices = (s.ensure i).indices := by
    rw [h.indices_update, h.indices_ensure]
  obtain ⟨p, -, hupdate⟩ := h.exists_update_eq i g
  refine ⟨?_, fun j q => ?_⟩
  · rw [hindices]
    exact (h.ensure i).nodup
  · rw [hindices, hupdate]
    exact (h.ensure i).lookup_iff j q

/-- A change changes the source under its index and no other. -/
theorem get?_update (h : s.InStep) (i j : Nat) (g : Source → Source) :
    (s.update i g).get? j =
      if j = i then some (Change.applied ⟨i, g⟩ ((s.get? i).getD { index := i }))
      else s.get? j := by
  obtain ⟨p, hp, hupdate⟩ := h.exists_update_eq i g
  have hensure := h.get?_ensure i j
  cases hq : (s.ensure i).positions.lookup j with
  | none =>
    have hj : j ≠ i := by
      rintro rfl
      rw [hp] at hq
      cases hq
    rw [if_neg hj] at hensure ⊢
    rw [← hensure, hupdate]
    simp only [get?, hq]
  | some q =>
    have hget : (s.update i g).get? j = (fun source => if p = q then
        Change.applied ⟨i, g⟩ source else source) <$> (s.ensure i).get? j := by
      rw [hupdate]
      simp only [get?, hq, List.getElem?_modify]
    rw [hget, hensure]
    by_cases hj : j = i
    · subst hj
      rw [hp] at hq
      cases hq
      simp
    · -- two indices do not stand in one place
      have hpq : p ≠ q := by
        rintro rfl
        have hip := ((h.ensure i).lookup_iff i p).mp hp
        rw [((h.ensure i).lookup_iff j p).mp hq] at hip
        exact hj (Option.some.inj hip)
      simp [hj, hpq]

end InStep

/-! ## Changes one after the other

The induction is on the changes from the last one back, since each is made to what those before it
have left. -/

section Changes

variable {cs : List Change} {c : Change}

theorem changeAll_concat (cs : List Change) (c : Change) :
    changeAll (cs ++ [c]) = (changeAll cs).update c.index c.action := by
  rw [changeAll, List.foldl_append]
  rfl

/-- The last change counts for its own index alone. -/
theorem content_concat (i : Nat) (cs : List Change) (c : Change) :
    content i (cs ++ [c]) = if c.index = i then c.applied (content i cs) else content i cs := by
  unfold content
  rw [List.filter_append, List.foldl_append]
  by_cases hc : c.index = i <;> simp [hc]

/-- Until an index is asked for, its source is a new one. -/
theorem content_of_notMem (h : i ∉ cs.map Change.index) : content i cs = { index := i } := by
  unfold content
  rw [List.filter_eq_nil_iff.mpr]
  · rfl
  · intro c hc
    simp only [decide_eq_true_eq]
    rintro rfl
    exact h (List.mem_map_of_mem hc)

/-- List and table are in step after any changes. -/
theorem inStep_changeAll (cs : List Change) : (changeAll cs).InStep := by
  induction cs using List.reverseRecOn with
  | nil => exact inStep_empty
  | append_singleton cs c ih =>
    rw [changeAll_concat]
    exact ih.update c.index c.action

/-- The sources stand in the order in which their indices were first asked for. -/
theorem indices_changeAll (cs : List Change) :
    (changeAll cs).indices = (cs.map Change.index).eraseDups := by
  induction cs using List.reverseRecOn with
  | nil => rfl
  | append_singleton cs c ih =>
    rw [changeAll_concat, (inStep_changeAll cs).indices_update, List.map_append,
      List.map_singleton, eraseDups_concat, ih]
    simp only [List.mem_eraseDups]

theorem mem_indices_changeAll : i ∈ (changeAll cs).indices ↔ i ∈ cs.map Change.index := by
  rw [indices_changeAll, List.mem_eraseDups]

/-- What is found under an index is what the changes for it have made. -/
theorem get?_changeAll (i : Nat) (cs : List Change) :
    (changeAll cs).get? i = if i ∈ cs.map Change.index then some (content i cs) else none := by
  induction cs using List.reverseRecOn with
  | nil => rfl
  | append_singleton cs c ih =>
    rw [changeAll_concat, (inStep_changeAll cs).get?_update, content_concat, List.map_append,
      List.map_singleton]
    by_cases hi : i = c.index
    · subst hi
      rw [ih]
      by_cases hold : c.index ∈ cs.map Change.index
      · simp [hold]
      · simp [hold, content_of_notMem hold]
    · rw [if_neg hi, ih, if_neg (Ne.symm hi)]
      simp [hi]

/-- The first source is that of the index that was asked for first. -/
theorem primary?_changeAll (cs : List Change) :
    (changeAll cs).primary? = cs.head?.bind fun c => (changeAll cs).get? c.index := by
  cases cs with
  | nil => rfl
  | cons c cs =>
    have hindices := indices_changeAll (c :: cs)
    rw [List.map_cons, List.eraseDups_cons, indices] at hindices
    obtain ⟨source, sources, hitems, hindex, -⟩ := List.map_eq_cons_iff.mp hindices
    have hget : (changeAll (c :: cs)).get? c.index = some source := by
      rw [(inStep_changeAll (c :: cs)).get?_eq_some_iff, hitems]
      exact ⟨List.mem_cons_self, hindex⟩
    rw [primary?, hitems]
    exact hget.symm

/-- **Sources after any changes.** No two have the same index, and they stand in the order in which
their indices were first asked for. The table tells the place of each, of no other index, and no place
outside the list. Under an index there is a source exactly if it was asked for, the one that has this
index; it is what the changes for it have made of a new source. To ask for such an index once more
leaves everything as it is, and a change is then made to the source that is there: the others stay, and
so does the order. The first source is that of the index that was asked for first, whether or not
there are lesser ones. -/
theorem kept_in_order_of_insertion (cs : List Change) :
    (changeAll cs).indices.Nodup ∧
    (changeAll cs).indices = (cs.map Change.index).eraseDups ∧
    (∀ i p, (changeAll cs).positions.lookup i = some p ↔ (changeAll cs).indices[p]? = some i) ∧
    (∀ i p, (changeAll cs).positions.lookup i = some p → p < (changeAll cs).items.length) ∧
    (∀ i, (∃ source, (changeAll cs).get? i = some source) ↔ i ∈ cs.map Change.index) ∧
    (∀ i source, (changeAll cs).get? i = some source ↔
      source ∈ (changeAll cs).items ∧ source.index = i) ∧
    (∀ i source, (changeAll cs).get? i = some source →
      source = content i cs ∧ (changeAll cs).ensure i = changeAll cs ∧
      ∀ g, ((changeAll cs).update i g).get? i = some { g source with index := i } ∧
        ((changeAll cs).update i g).indices = (changeAll cs).indices ∧
        ∀ j, j ≠ i → ((changeAll cs).update i g).get? j = (changeAll cs).get? j) ∧
    (changeAll cs).primary? = cs.head?.bind fun c => (changeAll cs).get? c.index := by
  have hstep := inStep_changeAll cs
  refine ⟨hstep.nodup, indices_changeAll cs, hstep.lookup_iff, fun i p => hstep.lt_length,
    fun i => hstep.exists_get?_iff.trans mem_indices_changeAll,
    fun i source => hstep.get?_eq_some_iff, fun i source hget => ?_, primary?_changeAll cs⟩
  have hi : i ∈ (changeAll cs).indices := hstep.exists_get?_iff.mp ⟨source, hget⟩
  -- what is found is what the changes for its index have made
  have hcontent : source = content i cs := by
    have hmade := get?_changeAll i cs
    rw [hget, if_pos (mem_indices_changeAll.mp hi)] at hmade
    exact Option.some.inj hmade
  refine ⟨hcontent, hstep.ensure_of_mem hi, fun g => ⟨?_, ?_, fun j hj => ?_⟩⟩
  · rw [hstep.get?_update, if_pos rfl, hget]
    obtain ⟨-, rfl⟩ := hstep.get?_eq_some_iff.mp hget
    rfl
  · rw [hstep.indices_update, if_pos hi]
  · rw [hstep.get?_update, if_neg hj]

/-- The source of the greater index was made first, and keeps what it was given. -/
example :
    let s := changeAll [⟨3, fun source => { source with isUrl := true }⟩, ⟨1, id⟩, ⟨3, id⟩]
    s.indices = [3, 1] ∧ s.primary? = some { index := 3, isUrl := true } := by
  decide

end Changes

end EdgeInclude.Sources
