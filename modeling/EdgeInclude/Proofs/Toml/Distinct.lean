import Mathlib.Data.List.Nodup
import EdgeInclude.Toml.Document

/-!
# Nothing is defined twice

Each statement of a document adds a key that is new, or changes what stands under one that is there. So
no key of a document comes twice, whatever its text.

* **`Distinct.modifyAt`**: a change that keeps keys apart does so wherever it is made.
* **`Distinct.extend?`**: so does a statement. **`distinct_of_parse?`**: and so does a document.
-/

namespace EdgeInclude.Toml

variable {entries entries' : Entries} {key : String} {value : Toml} {path : List String}
variable {missing kind : TableKind} {change : TableKind → Entries → Option Entries}

/-- No key of a table comes twice. -/
def Distinct (entries : Entries) : Prop :=
  (entries.map Prod.fst).Nodup

/-! ## One table

Entries are added behind the others, or changed where they stand. -/

/-- An entry that is changed keeps its key. -/
theorem Distinct.replace (h : Distinct entries) : Distinct (replace entries key value) := by
  have hkeys : (Toml.replace entries key value).map Prod.fst = entries.map Prod.fst := by
    rw [Toml.replace, List.map_map]
    refine List.map_congr_left fun entry _ => ?_
    show (if entry.1 = key then (key, value) else entry).1 = entry.1
    split
    · exact (‹entry.1 = key›).symm
    · rfl
  rw [Distinct, hkeys]
  exact h

/-- An entry is added under a key that is not there. -/
theorem Distinct.concat (h : Distinct entries) (hnew : entries.lookup key = none) :
    Distinct (entries ++ [(key, value)]) := by
  rw [Distinct, List.map_append, List.map_singleton]
  refine List.nodup_append.mpr ⟨h, List.nodup_singleton key, ?_⟩
  rintro name hname _ hkey rfl
  obtain rfl := List.mem_singleton.mp hkey
  obtain ⟨entry, hentry, hfst⟩ := List.mem_map.mp hname
  simpa [hfst] using List.lookup_eq_none_iff.mp hnew entry hentry

/-- Entries that are left are as far apart as before. -/
theorem Distinct.filter (h : Distinct entries) (p : String × Toml → Bool) :
    Distinct (entries.filter p) :=
  h.sublist (List.filter_sublist.map Prod.fst)

theorem Distinct.addNew (h : Distinct entries) (hadd : addNew entries key value = some entries') :
    Distinct entries' := by
  unfold Toml.addNew at hadd
  split at hadd
  · cases hadd
  · rename_i hnew
    cases hadd
    exact h.concat hnew

/-! ## Tables in tables

On the way to the table that is changed an entry is added, or one is changed where it stands. -/

/-- **A change keeps the keys of a table apart if it keeps them apart where it is made.** -/
theorem Distinct.modifyAt (h : Distinct entries)
    (hchange : ∀ kind entries entries', change kind entries = some entries' →
      Distinct entries → Distinct entries')
    (hmodify : modifyAt missing change path kind entries = some entries') : Distinct entries' := by
  cases path with
  | nil => exact hchange _ _ _ hmodify h
  | cons key path =>
    unfold Toml.modifyAt at hmodify
    split at hmodify
    · -- the table is missing, so its key is new
      rename_i hnew
      obtain ⟨inner, -, rfl⟩ := Option.map_eq_some_iff.mp hmodify
      exact h.concat hnew
    · split at hmodify
      · cases hmodify
      · obtain ⟨inner, -, rfl⟩ := Option.map_eq_some_iff.mp hmodify
        exact h.replace
    · split at hmodify
      · cases hmodify
      · obtain ⟨last, -, rfl⟩ := Option.map_eq_some_iff.mp hmodify
        exact h.replace
    · cases hmodify

theorem Distinct.addAt (h : Distinct entries)
    (hadd : addAt path key value kind entries = some entries') : Distinct entries' := by
  refine h.modifyAt (fun kind entries entries' hchange h => ?_) hadd
  split at hchange
  · cases hchange
  · exact h.addNew hchange

/-- A header adds its table behind the others, and takes it away where it stood. -/
theorem Distinct.openTable (h : Distinct entries)
    (hopen : openTable path key entries = some entries') : Distinct entries' := by
  refine h.modifyAt (fun _ entries entries' hchange h => ?_) hopen
  split at hchange
  · rename_i hnew
    cases hchange
    exact h.concat hnew
  · cases hchange
    refine (h.filter _).concat (List.lookup_eq_none_iff.mpr fun entry hentry => ?_)
    simpa using Ne.symm (by simpa using (List.mem_filter.mp hentry).2)
  · cases hchange

theorem Distinct.openItem (h : Distinct entries)
    (hopen : openItem path key entries = some entries') : Distinct entries' := by
  refine h.modifyAt (fun _ entries entries' hchange h => ?_) hopen
  split at hchange
  · rename_i hnew
    cases hchange
    exact h.concat hnew
  · cases hchange
    exact h.replace
  · cases hchange

/-! ## Documents

What a statement keeps all statements keep. -/

/-- **A statement keeps the keys of a document apart.** -/
theorem Distinct.extend? {d d' : Document} {statement : Statement} (h : Distinct d.root)
    (hextend : d.extend? statement = some d') : Distinct d'.root := by
  cases statement with
  | blank =>
    cases hextend
    exact h
  | header parts =>
    obtain ⟨root, hroot, rfl⟩ := Option.map_eq_some_iff.mp hextend
    exact h.openTable hroot
  | arrayHeader parts =>
    obtain ⟨root, hroot, rfl⟩ := Option.map_eq_some_iff.mp hextend
    exact h.openItem hroot
  | pair parts value =>
    obtain ⟨root, hroot, rfl⟩ := Option.map_eq_some_iff.mp hextend
    exact h.modifyAt (fun _ _ _ hadd h => h.addAt hadd) hroot

/-- So do all statements of a document. -/
theorem Distinct.ofStatements? {statements : List Statement} {d d' : Document}
    (h : Distinct d.root) (hall : d.ofStatements? statements = some d') : Distinct d'.root := by
  induction statements generalizing d with
  | nil =>
    cases hall
    exact h
  | cons statement statements ih =>
    rw [Document.ofStatements?] at hall
    split at hall
    · rename_i hextend
      exact ih (h.extend? hextend) hall
    · cases hall

/-- **No key of a document comes twice.** -/
theorem distinct_of_parse? {text : String} (h : parse? text = some entries) : Distinct entries := by
  unfold parse? at h
  simp only at h
  split at h
  · cases h
  · obtain ⟨d, hd, rfl⟩ := Option.map_eq_some_iff.mp h
    exact Distinct.ofStatements? (d := {}) List.nodup_nil hd

end EdgeInclude.Toml
