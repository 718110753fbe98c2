import EdgeInclude.Proofs.Include.Contents
import EdgeInclude.Proofs.Include.InsertionOrder
import EdgeInclude.Proofs.Template.Grammar

/-!
# Building the sources of a tag

Each `src` opens the next source, and the last of the keys behind it is tried for it as well. Keys that
come before any source are for the first one. A call that fails is as if it had not been made.

* **`Sources.Dense`**: sources that are found under 0, 1, 2 and so on, in the order in which they stand.
* **`Call.address?`**: what a call gives. **`groups`**: each source with the keys behind it.
* **`slot_attemptAll`**: what calls make of a builder, whatever it held before.
* **`sources_of_calls`**: which calls fail, and what is built of the others.
-/

namespace EdgeInclude

/-! ## Sources under successive indices

Calls count indices up from 0, so each source is found at its index and a change reaches that one
alone. -/

namespace Sources

/-- Each source is found under its place. -/
structure Dense (s : Sources) : Prop where
  lookup : ∀ i, s.positions.lookup i = if i < s.items.length then some i else none
  index : ∀ (i : Nat) (source : Source), s.items[i]? = some source → source.index = i

/-- The source under an index; a new one if there is none. -/
def slot (s : Sources) (i : Nat) : Source :=
  s.items[i]?.getD { index := i }

variable {s : Sources} {i j : Nat}

theorem dense_empty : Dense {} := ⟨by simp, by simp⟩

/-- Sources are found under their places exactly if they are in step and their indices are successive. -/
theorem dense_iff : s.Dense ↔ s.InStep ∧ s.indices = List.range s.items.length := by
  have hrange (p i : Nat) : (List.range s.items.length)[p]? = some i ↔
      p < s.items.length ∧ p = i := by
    simp [List.getElem?_eq_some_iff]
  constructor
  · intro h
    have hindices : s.indices = List.range s.items.length := by
      refine List.ext_getElem? fun p => ?_
      rw [getElem?_indices]
      cases hp : s.items[p]? with
      | none => simpa using hp
      | some source =>
        rw [(hrange p p).mpr ⟨(List.getElem?_eq_some_iff.mp hp).1, rfl⟩, Option.map_some,
          h.index p source hp]
    refine ⟨⟨hindices ▸ List.nodup_range, fun i p => ?_⟩, hindices⟩
    rw [hindices, hrange, h.lookup]
    split <;> simp <;> omega
  · rintro ⟨h, hindices⟩
    have hlookup (i p : Nat) : s.positions.lookup i = some p ↔ p < s.items.length ∧ p = i := by
      rw [h.lookup_iff, hindices, hrange]
    refine ⟨fun i => ?_, fun i source hi => ?_⟩
    · by_cases hlt : i < s.items.length
      · rw [if_pos hlt]
        exact (hlookup i i).mpr ⟨hlt, rfl⟩
      · rw [if_neg hlt, Option.eq_none_iff_forall_ne_some]
        intro p hp
        obtain ⟨hplace, rfl⟩ := (hlookup i p).mp hp
        exact hlt hplace
    · have hindex := getElem?_indices s i
      rw [hi, hindices, Option.map_some, hrange] at hindex
      exact hindex.2.symm

/-- Where indices are dense, looking an index up is looking at the position. -/
theorem Dense.get?_eq (h : s.Dense) (i : Nat) : s.get? i = s.items[i]? := by
  rw [get?, h.lookup]
  by_cases hi : i < s.items.length
  · rw [if_pos hi]
  · rw [if_neg hi, List.getElem?_eq_none (Nat.not_lt.mp hi)]

/-- A slot knows its own index, whether it is filled or not. -/
theorem Dense.index_slot (h : s.Dense) (i : Nat) : (s.slot i).index = i := by
  unfold slot
  cases hi : s.items[i]? with
  | none => rfl
  | some source => exact h.index i source hi

theorem getElem?_items (hi : i < s.items.length) : s.items[i]? = some (s.slot i) := by
  rw [slot, List.getElem?_eq_getElem hi]
  rfl

/-- A change under an index, which is one of those there are or the next one, changes that source and
no other. -/
theorem Dense.update (h : s.Dense) (hi : i ≤ s.items.length) (g : Source → Source) :
    (s.update i g).Dense ∧ (s.update i g).items.length = max s.items.length (i + 1) ∧
      ∀ j, (s.update i g).slot j = if j = i then { g (s.slot i) with index := i } else s.slot j := by
  obtain ⟨hstep, hindices⟩ := dense_iff.mp h
  have hindices' : (s.update i g).indices = List.range (max s.items.length (i + 1)) := by
    rw [hstep.indices_update, hindices]
    rcases Nat.lt_or_eq_of_le hi with hlt | rfl
    · rw [if_pos (List.mem_range.mpr hlt), Nat.max_eq_left hlt]
    · rw [if_neg (by simp), ← List.range_succ, Nat.max_eq_right (Nat.le_succ _)]
  have hlength : (s.update i g).items.length = max s.items.length (i + 1) := by
    rw [← length_indices, hindices', List.length_range]
  have hdense : (s.update i g).Dense := dense_iff.mpr ⟨hstep.update i g, hlength ▸ hindices'⟩
  refine ⟨hdense, hlength, fun j => ?_⟩
  rw [slot, ← hdense.get?_eq, hstep.get?_update, h.get?_eq, h.get?_eq]
  by_cases hj : j = i
  · subst hj
    rw [if_pos rfl, if_pos rfl]
    show ({ g (s.slot j) with index := (s.slot j).index } : Source) = _
    rw [h.index_slot]
  · rw [if_neg hj, if_neg hj]
    rfl

end Sources

/-! ## Addresses

What a call makes of its text: an address, or nothing where the text has to be compiled and does not
compile. -/

namespace SourceBuilder

/-- The text that is given in a call. -/
def Call.text : Call → String
  | .src text => text
  | .key text => text

/-- The text of a call has to be a template: that of a key with opening braces in it, and that of a
source with opening braces in it if it is a URL. -/
def Call.NeedsTemplate : Call → Prop
  | .src text => "://".toList <:+: text.toList ∧ "\x7b\x7b".toList <:+: text.toList
  | .key text => "\x7b\x7b".toList <:+: text.toList

instance (c : Call) : Decidable c.NeedsTemplate := by
  cases c <;> unfold Call.NeedsTemplate <;> infer_instance

/-- The address that a call gives, if its text is a template where it has to be. -/
def Call.address? (c : Call) : Option Address :=
  if c.NeedsTemplate then (Template.compile c.text).toOption.map .template
  else some (.literal c.text)

variable {b : SourceBuilder} {c : Call} {cs : List Call} {a : Address} {text : String}
variable {cause : Template.CompileError}

/-- What a key gives is what its text is parsed to. -/
theorem Call.address?_key (text : String) :
    (Call.key text).address? = (Address.parse text).toOption := by
  unfold Call.address? Address.parse
  by_cases h : (Call.key text).NeedsTemplate
  · rw [if_pos h, if_pos (Template.isTemplate_iff.mpr h)]
    show (Template.compile text).toOption.map Address.template = _
    cases Template.compile text <;> rfl
  · rw [if_neg h, if_neg (mt Template.isTemplate_iff.mp h)]
    rfl

/-- What a source gives is what its text is parsed to as a URL or an alias. -/
theorem Call.address?_src (text : String) :
    (Call.src text).address? = (parseSrc text).toOption := by
  unfold parseSrc schemeSeparator
  by_cases hurl : "://".toList <:+: text.toList
  · rw [if_pos (Text.contains_iff.mpr hurl), ← Call.address?_key]
    simp only [Call.address?, Call.NeedsTemplate, hurl, true_and, Call.text]
  · rw [if_neg (mt Text.contains_iff.mp hurl), Call.address?, if_neg fun h => hurl h.1]
    rfl

/-- Where a call gives a template, it is its compiled text. -/
theorem Call.compile_of_address? {t : Template} (h : c.address? = some (.template t)) :
    Template.compile c.text = .ok t := by
  unfold Call.address? at h
  split at h
  · cases hcompile : Template.compile c.text with
    | error =>
      rw [hcompile] at h
      cases h
    | ok t =>
      rw [hcompile] at h
      cases h
      rfl
  · cases h

/-- An address keeps the text it was made from. -/
theorem Call.source_of_address? (h : c.address? = some a) : a.source = c.text := by
  cases a with
  | template t => exact (Template.compile_eq_ok_iff.mp (Call.compile_of_address? h)).1
  | literal text =>
    unfold Call.address? at h
    split at h
    · cases hcompile : Template.compile c.text <;> simp [hcompile, Except.toOption] at h
    · cases h
      rfl

/-! ## Calls

A call that is refused leaves the builder as it was, so of a sequence of calls those count that give
an address. -/

/-- A call is refused exactly where its text needs compiling and does not compile. -/
theorem attempt_eq_error_iff :
    (b.attempt c).2 = some cause ↔ c.NeedsTemplate ∧ Template.compile c.text = .error cause := by
  have hcall : b.call c = .error cause ↔
      c.NeedsTemplate ∧ Template.compile c.text = .error cause := by
    cases c with
    | src text => exact addSrc_eq_error_iff.trans and_assoc.symm
    | key text => exact addKey_eq_error_iff
  rw [← hcall, attempt]
  cases b.call c <;> simp

end SourceBuilder

namespace Source

/-- The source as a call that names it by the text leaves it. -/
def opened (text : String) (s : Source) : Source :=
  { s with
    isUrl := decide ("://".toList <:+: text.toList)
    url := (SourceBuilder.Call.src text).address? }

/-- The source after keys were given for it, of which the last counts. -/
def keyed (keys : List String) (s : Source) : Source :=
  match keys.getLast? with
  | some text => { s with key := (SourceBuilder.Call.key text).address? }
  | none => s

@[simp]
theorem keyed_nil (s : Source) : s.keyed [] = s := rfl

/-- Keys are added one by one. -/
theorem keyed_cons (text : String) (keys : List String) (s : Source) :
    s.keyed (text :: keys) = (s.keyed [text]).keyed keys := by
  unfold keyed
  rw [List.getLast?_cons]
  cases keys.getLast? <;> rfl

end Source

namespace SourceBuilder

variable {b : SourceBuilder} {c : Call} {cs : List Call} {a : Address}

/-- The builder behind a call that succeeded. -/
def Call.applied (b : SourceBuilder) : Call → SourceBuilder
  | .src text => ⟨b.sources.update b.srcCount (Source.opened text), b.srcCount + 1⟩
  | .key text => { b with sources := b.sources.update (b.srcCount - 1) (Source.keyed [text]) }

/-- A call that gives an address is carried out. -/
theorem attempt_of_some (h : c.address? = some a) : b.attempt c = (c.applied b, none) := by
  cases c with
  | src text =>
    rw [Call.address?_src] at h
    cases hparse : parseSrc text with
    | error =>
      rw [hparse] at h
      cases h
    | ok url =>
      have hurl : Text.contains text schemeSeparator = decide ("://".toList <:+: text.toList) := by
        rw [Bool.eq_iff_iff, decide_eq_true_eq]
        exact Text.contains_iff
      unfold attempt call addSrc Call.applied Source.opened
      simp only [hparse, hurl, Call.address?_src, Except.toOption]
  | key text =>
    rw [Call.address?_key] at h
    cases hparse : Address.parse text with
    | error =>
      rw [hparse] at h
      cases h
    | ok key =>
      unfold attempt call addKey Call.applied Source.keyed
      simp only [hparse, Call.address?_key, Except.toOption, List.getLast?_singleton]

/-- Only a text that needs compiling gives no address, and only if it does not compile. -/
theorem Call.address?_eq_none_iff :
    c.address? = none ↔ c.NeedsTemplate ∧ ∃ cause, Template.compile c.text = .error cause := by
  unfold Call.address?
  split
  · rename_i hneeds
    cases Template.compile c.text <;> simp [hneeds, Except.toOption]
  · rename_i hneeds
    simp [hneeds]

/-- A call that gives no address leaves the builder alone and reports why. -/
theorem attempt_of_none (h : c.address? = none) : ∃ cause, b.attempt c = (b, some cause) := by
  obtain ⟨hneeds, cause, hcompile⟩ := Call.address?_eq_none_iff.mp h
  have hcause := (attempt_eq_error_iff (b := b)).mpr ⟨hneeds, hcompile⟩
  unfold attempt at hcause ⊢
  split at hcause
  · exact ⟨_, rfl⟩
  · cases hcause

/-- Refused calls may as well not be made. -/
theorem attemptAll_filter (b : SourceBuilder) (cs : List Call) :
    b.attemptAll (cs.filter fun c => c.address?.isSome) = b.attemptAll cs := by
  induction cs generalizing b with
  | nil => rfl
  | cons c cs ih =>
    cases h : c.address? with
    | none =>
      obtain ⟨cause, hattempt⟩ := attempt_of_none (b := b) h
      rw [List.filter_cons_of_neg (by simp [h]), attemptAll, hattempt, ih]
    | some a =>
      rw [List.filter_cons_of_pos (by simp [h]), attemptAll, attemptAll, ih]

/-! ## Each source with its keys

Calls are grouped by the source they are about: keys before the first address, then each address
with the keys that follow it. What a builder ends up with is told from these groups, and adding one
call at the front moves it into the group it belongs to. -/

/-- The keys before any source, and each source with the keys behind it. -/
def groups : List Call → List String × List (String × List String)
  | [] => ([], [])
  | .key text :: cs => (text :: (groups cs).1, (groups cs).2)
  | .src text :: cs => ([], (text, (groups cs).1) :: (groups cs).2)

/-- Calls for keys, and then for sources with keys behind each. -/
def spelled (keys : List String) (groups : List (String × List String)) : List Call :=
  keys.map .key ++ groups.flatMap fun g => .src g.1 :: g.2.map .key

/-- Grouping calls loses none of them and keeps their order. -/
theorem spelled_groups (cs : List Call) : spelled (groups cs).1 (groups cs).2 = cs := by
  induction cs with
  | nil => rfl
  | cons c cs ih =>
    cases c with
    | src text => exact congrArg (Call.src text :: ·) ih
    | key text => exact congrArg (Call.key text :: ·) ih

theorem src_mem_spelled {keys : List String} {gs : List (String × List String)} {text : String} :
    .src text ∈ spelled keys gs ↔ ∃ g ∈ gs, g.1 = text := by
  simp [spelled, eq_comm]

theorem key_mem_spelled {keys : List String} {gs : List (String × List String)} {text : String} :
    .key text ∈ spelled keys gs ↔ text ∈ keys ∨ ∃ g ∈ gs, text ∈ g.2 := by
  simp [spelled]

theorem src_mem_of_mem_groups {g : String × List String} (h : g ∈ (groups cs).2) :
    .src g.1 ∈ cs := by
  rw [← spelled_groups cs]
  exact src_mem_spelled.mpr ⟨g, h, rfl⟩

/-- There is a place for each source that was opened; before any is, there can be one for its keys. -/
structure Orderly (b : SourceBuilder) : Prop where
  dense : b.sources.Dense
  srcCount_le : b.srcCount ≤ b.sources.items.length
  length_le : b.sources.items.length ≤ max b.srcCount 1

theorem orderly_empty : Orderly {} := ⟨Sources.dense_empty, Nat.le_refl 0, Nat.zero_le 1⟩

/-- An address opens the slot at the number of addresses before it, and no other slot changes. -/
theorem Orderly.applied_src (h : b.Orderly) (text : String) :
    ((Call.src text).applied b).Orderly ∧ ∀ j, ((Call.src text).applied b).sources.slot j =
      if j = b.srcCount then (b.sources.slot j).opened text else b.sources.slot j := by
  obtain ⟨hdense, hlength, hslot⟩ := h.dense.update h.srcCount_le (Source.opened text)
  have hle := h.length_le
  refine ⟨⟨hdense, ?_, ?_⟩, fun j => ?_⟩
  · show b.srcCount + 1 ≤ (b.sources.update b.srcCount (Source.opened text)).items.length
    omega
  · show (b.sources.update b.srcCount (Source.opened text)).items.length ≤ max (b.srcCount + 1) 1
    omega
  · refine (hslot j).trans ?_
    split
    · rename_i hj
      rw [hj]
      simp [Source.opened, h.dense.index_slot]
    · rfl

/-- A key goes to the slot opened last, and no other slot changes. -/
theorem Orderly.applied_key (h : b.Orderly) (text : String) :
    ((Call.key text).applied b).Orderly ∧ ∀ j, ((Call.key text).applied b).sources.slot j =
      if j = b.srcCount - 1 then (b.sources.slot j).keyed [text] else b.sources.slot j := by
  have hle := h.srcCount_le
  have hle' := h.length_le
  obtain ⟨hdense, hlength, hslot⟩ :=
    h.dense.update (i := b.srcCount - 1) (by omega) (Source.keyed [text])
  refine ⟨⟨hdense, ?_, ?_⟩, fun j => ?_⟩
  · show b.srcCount ≤ (b.sources.update (b.srcCount - 1) (Source.keyed [text])).items.length
    omega
  · show (b.sources.update (b.srcCount - 1) (Source.keyed [text])).items.length ≤ max b.srcCount 1
    omega
  · refine (hslot j).trans ?_
    split
    · rename_i hj
      rw [hj]
      simp [Source.keyed, h.dense.index_slot]
    · rfl

/-- The source in place `j` when keys and then groups of a source and its keys come to a builder. -/
def finished (b : SourceBuilder) (keys : List String) (groups : List (String × List String))
    (j : Nat) : Source :=
  let s := if j = b.srcCount - 1 then (b.sources.slot j).keyed keys else b.sources.slot j
  match if b.srcCount ≤ j then groups[j - b.srcCount]? else none with
  | some (text, keys) => (s.opened text).keyed keys
  | none => s

/-- Adding a key first is having one more key in front of the groups. -/
theorem Orderly.finished_applied_key (h : b.Orderly) (text : String) (keys : List String)
    (groups : List (String × List String)) (j : Nat) :
    ((Call.key text).applied b).finished keys groups j = b.finished (text :: keys) groups j := by
  obtain ⟨-, hslot⟩ := h.applied_key text
  have hcount : ((Call.key text).applied b).srcCount = b.srcCount := rfl
  rw [finished, finished, hslot, hcount]
  by_cases hj : j = b.srcCount - 1
  · simp only [hj, if_true, ← Source.keyed_cons]
  · simp only [hj, if_false]

/-- Adding an address first is having one more group in front. -/
theorem Orderly.finished_applied_src (h : b.Orderly) (text : String) (keys : List String)
    (groups : List (String × List String)) (j : Nat) :
    ((Call.src text).applied b).finished keys groups j =
      b.finished [] ((text, keys) :: groups) j := by
  obtain ⟨-, hslot⟩ := h.applied_src text
  have hcount : ((Call.src text).applied b).srcCount = b.srcCount + 1 := rfl
  rw [finished, finished, hslot, hcount, Nat.add_sub_cancel]
  -- places before that of the new source, its own, and those behind it
  rcases Nat.lt_trichotomy j b.srcCount with hj | rfl | hj
  · simp [Nat.not_le.mpr hj, Nat.ne_of_lt hj, Nat.not_le.mpr (Nat.lt_succ_of_lt hj)]
  · rw [if_neg (Nat.not_succ_le_self b.srcCount)]
    simp
  · obtain ⟨k, rfl⟩ := Nat.exists_eq_add_of_lt hj
    have hplace : b.srcCount + (k + 1) - (b.srcCount + 1) = k := by omega
    simp [Nat.add_assoc, hplace]

/-- **What calls make of a builder**, whatever it held before. -/
theorem slot_attemptAll (hb : b.Orderly) (hcs : ∀ c ∈ cs, c.address?.isSome = true) :
    (b.attemptAll cs).Orderly ∧
      (b.attemptAll cs).srcCount = b.srcCount + (groups cs).2.length ∧
        ∀ j, (b.attemptAll cs).sources.slot j = b.finished (groups cs).1 (groups cs).2 j := by
  induction cs generalizing b with
  | nil =>
    refine ⟨hb, rfl, fun j => ?_⟩
    simp [attemptAll, groups, finished]
  | cons c cs ih =>
    obtain ⟨hc, hcs'⟩ := List.forall_mem_cons.mp hcs
    obtain ⟨a, ha⟩ := Option.isSome_iff_exists.mp hc
    rw [attemptAll, attempt_of_some ha]
    cases c with
    | key text =>
      -- the key joins those in front of the groups of the other calls
      obtain ⟨horderly, hcount, hslot⟩ := ih (hb.applied_key text).1 hcs'
      refine ⟨horderly, hcount, fun j => ?_⟩
      rw [hslot, hb.finished_applied_key]
      rfl
    | src text =>
      -- the keys in front of them become those of the new source
      obtain ⟨horderly, hcount, hslot⟩ := ih (hb.applied_src text).1 hcs'
      refine ⟨horderly, ?_, fun j => ?_⟩
      · rw [hcount]
        show b.srcCount + 1 + (groups cs).2.length = b.srcCount + ((groups cs).2.length + 1)
        omega
      · rw [hslot, hb.finished_applied_src]
        rfl

/-- A refused call changes nothing, and a call is refused exactly where it gives no address. -/
theorem attempt_spec (b : SourceBuilder) (c : Call) :
    ((b.attempt c).2 ≠ none → (b.attempt c).1 = b) ∧
      ((b.attempt c).2 = none ↔ ∃ a, c.address? = some a) := by
  cases h : c.address? with
  | none =>
    obtain ⟨cause, hattempt⟩ := attempt_of_none (b := b) h
    simp [hattempt]
  | some a => simp [attempt_of_some h]

/-- Nothing is built exactly when no address was given. -/
theorem Orderly.finish_eq_none_iff (h : b.Orderly) : b.finish = none ↔ b.srcCount = 0 := by
  have hle := h.srcCount_le
  unfold finish
  split
  · rename_i hempty
    refine iff_of_true rfl (hempty.elim (fun hnil => ?_) id)
    rw [hnil] at hle
    exact Nat.le_zero.mp hle
  · rename_i hfull
    exact iff_of_false nofun fun hzero => hfull (.inr hzero)

/-- There are as many groups as addresses. -/
theorem length_groups (cs : List Call) : (groups cs).2.length = cs.countP Call.isSrc := by
  induction cs with
  | nil => rfl
  | cons c cs ih =>
    cases c with
    | src text =>
      rw [List.countP_cons_of_pos rfl, ← ih]
      rfl
    | key text =>
      rw [List.countP_cons_of_neg Bool.false_ne_true, ← ih]
      rfl

end SourceBuilder

/-! ## What is built

Keys given before the first address end up in front of the first source's own keys. -/

open SourceBuilder

/-- The source in place `i` that a `src` opens, when the last of some keys is tried for it. -/
def Source.ofCalls (i : Nat) (text : String) (keys : List String) : Source where
  index := i
  isUrl := decide ("://".toList <:+: text.toList)
  url := (Call.src text).address?
  key := keys.getLast?.bind fun key => (Call.key key).address?

/-- Keys stay around an address that is put in between. -/
theorem Source.keyed_opened (i : Nat) (text : String) (before keys : List String) :
    (((({ index := i } : Source).keyed before).opened text).keyed keys) =
      ofCalls i text (before ++ keys) := by
  unfold keyed opened ofCalls
  rw [List.getLast?_append]
  cases keys.getLast? <;> cases before.getLast? <;> rfl

theorem Source.isKeyOnly_ofCalls {text : String} (h : (Call.src text).address?.isSome = true)
    (i : Nat) (keys : List String) : (ofCalls i text keys).isKeyOnly = false := by
  obtain ⟨a, ha⟩ := Option.isSome_iff_exists.mp h
  simp [isKeyOnly, ofCalls, ha]

/-- An empty builder ends up with one source for each group. -/
theorem finished_empty (keys : List String) (groups : List (String × List String)) {j : Nat}
    (hj : j < groups.length) : finished {} keys groups j =
      .ofCalls j groups[j].1 (if j = 0 then keys ++ groups[j].2 else groups[j].2) := by
  have hslot : Sources.slot {} j = { index := j } := rfl
  cases j with
  | zero => simp [finished, List.getElem?_eq_getElem hj, hslot, Source.keyed_opened]
  | succ j =>
    have hkeyed := Source.keyed_opened (j + 1) groups[j + 1].1 [] groups[j + 1].2
    simpa [finished, List.getElem?_eq_getElem hj, hslot] using hkeyed

/-- The sources built are the groups in order, numbered from zero. -/
theorem items_attemptAll {cs : List Call} (hcs : ∀ c ∈ cs, c.address?.isSome = true)
    (hne : (groups cs).2 ≠ []) :
    (attemptAll {} cs).sources.items = (groups cs).2.mapIdx fun i g =>
      .ofCalls i g.1 (if i = 0 then (groups cs).1 ++ g.2 else g.2) := by
  obtain ⟨⟨hdense, hle, hle'⟩, hcount, hslot⟩ := slot_attemptAll orderly_empty hcs
  have hpos : 0 < (groups cs).2.length := List.length_pos_of_ne_nil hne
  have hlength : (attemptAll {} cs).sources.items.length = (groups cs).2.length := by
    have hzero : ({} : SourceBuilder).srcCount = 0 := rfl
    omega
  refine List.ext_getElem? fun j => ?_
  rw [List.getElem?_mapIdx]
  by_cases hj : j < (groups cs).2.length
  · rw [Sources.getElem?_items (by omega), hslot, finished_empty _ _ hj,
      List.getElem?_eq_getElem hj]
    rfl
  · rw [List.getElem?_eq_none (by omega), List.getElem?_eq_none (by omega)]
    rfl

/-- **The sources after any calls.** A call fails if its text has to be a template and is none, and then
the builder is left as it was. What is built is built of the other calls: keys that come before any
source, and then each source with the keys behind it. There is nothing if there is no source among
them. Otherwise there is one source for each, found under its number: its address is what the call
gives, and its second address is what the last of its keys gives; those before any source count among
the keys of the first. -/
theorem sources_of_calls (cs : List Call) :
    (∀ (b : SourceBuilder) (c : Call),
      (∀ cause, (b.attempt c).2 = some cause ↔
        c.NeedsTemplate ∧ Template.compile c.text = .error cause) ∧
      ((b.attempt c).2 ≠ none → (b.attempt c).1 = b) ∧
      ((b.attempt c).2 = none ↔ ∃ a, c.address? = some a) ∧
      ∀ a, c.address? = some a → a.source = c.text) ∧
    ((attemptAll {} cs).finish = none ↔
      ∀ text, .src text ∈ cs → (Call.src text).address? = none) ∧
    ∃ keys groups, spelled keys groups = (cs.filter fun c => c.address?.isSome) ∧
      groups.length = (cs.countP fun c => c.isSrc && c.address?.isSome) ∧
      ∀ sources, (attemptAll {} cs).finish = some sources →
        sources.items = (groups.mapIdx fun i g =>
          .ofCalls i g.1 (if i = 0 then keys ++ g.2 else g.2)) ∧
        (∀ i, sources.get? i = sources.items[i]?) ∧ ∀ s ∈ sources.items, s.isKeyOnly = false := by
  have hgood : ∀ c ∈ cs.filter fun c => c.address?.isSome, c.address?.isSome = true :=
    fun c hc => (List.mem_filter.mp hc).2
  obtain ⟨horderly, hcount, -⟩ := slot_attemptAll orderly_empty hgood
  have hitems := items_attemptAll hgood
  rw [attemptAll_filter] at horderly hcount hitems
  have hlength := length_groups (cs.filter fun c => c.address?.isSome)
  rw [List.countP_filter] at hlength
  have hnone := horderly.finish_eq_none_iff.trans (Eq.congr_left hcount)
  refine ⟨fun b c => ⟨fun cause => attempt_eq_error_iff, (attempt_spec b c).1, (attempt_spec b c).2,
    fun a => Call.source_of_address?⟩, ?_, _, _, spelled_groups _, hlength, ?_⟩
  · rw [hnone]
    show 0 + _ = 0 ↔ _
    rw [Nat.zero_add, hlength, List.countP_eq_zero]
    constructor
    · intro hnone text hmem
      simpa [Call.isSrc] using hnone _ hmem
    · rintro hnone (text | text) hmem
      · simp [hnone text hmem]
      · simp [Call.isSrc]
  · intro sources hfinish
    -- there is a source among the calls, or nothing would have been built
    have hne : (groups (cs.filter fun c => c.address?.isSome)).2 ≠ [] := by
      intro hnil
      rw [hnil] at hnone
      rw [hnone.mpr rfl] at hfinish
      cases hfinish
    obtain rfl := Directives.sources_of_finish hfinish
    refine ⟨hitems hne, horderly.dense.get?_eq, ?_⟩
    rw [hitems hne]
    intro s hs
    obtain ⟨i, hi, rfl⟩ := List.mem_mapIdx.mp hs
    exact Source.isKeyOnly_ofCalls (hgood _ (src_mem_of_mem_groups (List.getElem_mem hi))) i _

/-- Calls for sources and keys, some of which fail. -/
def interleaved : List Call :=
  [.key "k", .src "http://a/\x7b\x7b", .src "b\x7b\x7b", .key "\x7b\x7b",
    .src "http://c/\x7b\x7bpath\x7d\x7d", .key "l", .key "m"]

/-- What they build. -/
def built : List Source := [
  { index := 0, url := some (.literal "b\x7b\x7b"), key := some (.literal "k") },
  { index := 1
    isUrl := true
    url := some (.template ⟨"http://c/\x7b\x7bpath\x7d\x7d", [.text "http://c/", .action .path]⟩)
    key := some (.literal "m") }]

/-- Keys before, between and after two addresses, and a call that is refused. -/
theorem sources_of_calls_interleaved :
    ∃ sources, (attemptAll {} interleaved).finish = some sources ∧ sources.items = built ∧
      (∀ s ∈ sources.items, s.isKeyOnly = false) ∧ sources.get? 1 = built[1]? ∧
      (attempt {} (.src "http://a/\x7b\x7b")).2 = some (.unclosedAction 9) := by
  obtain ⟨hcalls, -, keys, groups, -, -, hsources⟩ := sources_of_calls interleaved
  have hcompile : Template.compile "http://a/\x7b\x7b" = .error (.unclosedAction 9) := by
    decide +kernel
  have hitems : (attemptAll {} interleaved).finish.map Sources.items = some built := by
    decide +kernel
  obtain ⟨sources, hfinish, hbuilt⟩ := Option.map_eq_some_iff.mp hitems
  obtain ⟨-, hget, hkeyOnly⟩ := hsources sources hfinish
  exact ⟨sources, hfinish, hbuilt, hkeyOnly, hbuilt ▸ hget 1,
    ((hcalls {} (.src "http://a/\x7b\x7b")).1 _).mpr ⟨by decide, hcompile⟩⟩

end EdgeInclude
