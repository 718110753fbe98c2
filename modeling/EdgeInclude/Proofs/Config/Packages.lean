import EdgeInclude.Batch.Resolver
import EdgeInclude.Proofs.Config.Settings
import EdgeInclude.Proofs.Json.Reading
import EdgeInclude.Proofs.Toml.Lines

/-!
# Configurations are read back, whatever package writes and reads them

Of a package for a format it is assumed that members it writes are among those it reads, with the names
and the texts they were written with, if these are plain. In which order it reads them is left open. Such
a package reads a configuration back as it was.

* **`Package.ReadsBack`**: what is assumed.
* **`takeMembers_found`**, **`foldl_giveMember`**: members in any order give the configuration back.
* **`config_round_trip`**: a configuration is read back from any such format, and from a file.
-/

namespace EdgeInclude.Config

variable {c : Config} {d d' : Draft} {name text : String} {members found : List (String × String)}

/-! ## Plain texts

What a configuration is written with needs no escape in any format, so little has to be asked of a
package. -/

/-- A small letter, a digit or an underscore. -/
def isPlainChar (c : Char) : Bool :=
  Text.isDigit c || c = '_' || ('a' ≤ c && c ≤ 'z')

/-- The text is made of small letters, digits and underscores, of one at least. No format has to escape
anything in it. -/
def IsPlain (text : String) : Prop :=
  text.toList ≠ [] ∧ ∀ c ∈ text.toList, isPlainChar c = true

/-- Plain members of different names are read back by the package when it has written them, in whatever
order. -/
def Package.ReadsBack (p : Package) : Prop :=
  ∀ members : List (String × String), (members.map Prod.fst).Nodup →
    (∀ member ∈ members, IsPlain member.1 ∧ IsPlain member.2) →
      ∃ found, p.read? (p.write members) = some found ∧ found.Perm members

theorem Key.isPlain_name (key : Key) : IsPlain key.name := by
  cases key <;> exact ⟨by decide, List.all_eq_true.mp (by decide)⟩

/-- A written duration is plain. -/
theorem isPlain_print (d : Duration) : IsPlain d.print := by
  have hsymbol (scale : Duration.Scale) : ∀ c ∈ scale.symbol.toList, isPlainChar c = true := by
    rw [← List.all_eq_true]
    cases scale <;> decide
  obtain ⟨n, scale, hchars, -⟩ := d.exists_written
  rw [IsPlain, hchars, Duration.Term.chars_ofNat]
  refine ⟨List.append_ne_nil_of_left_ne_nil (Text.digits_ne_nil n) _, fun c hc => ?_⟩
  rcases List.mem_append.mp hc with hdigit | hunit
  · simp [isPlainChar, Text.isDigit_of_mem_digits hdigit]
  · exact hsymbol scale c hunit

/-- The texts of settings are plain. -/
theorem isPlain_of_text {key : Key} (h : c.text? key = some text) : IsPlain text := by
  cases key with
  | defaultTimeout => exact Option.some.inj h ▸ isPlain_print _
  | maxTimeout | batchDeadline =>
    obtain ⟨d, -, rfl⟩ := Option.map_eq_some_iff.mp h
    exact isPlain_print d
  | logFormat =>
    obtain rfl := Option.some.inj h
    cases c.logFormat <;> exact ⟨by decide, List.all_eq_true.mp (by decide)⟩
  | logLevel =>
    obtain rfl := Option.some.inj h
    cases c.logLevel <;> exact ⟨by decide, List.all_eq_true.mp (by decide)⟩

/-! ## Members in any order

A package may read members back in another order; each sets its own setting, so the order does not
count. -/

/-- What a member of a written configuration does to a draft. -/
def giveMember (c : Config) (d : Draft) (member : String × String) : Draft :=
  match Key.ofName? member.1 with
  | none => d
  | some key => d.give c key

/-- The member is one that the configuration is written with. -/
def IsSetting (c : Config) (member : String × String) : Prop :=
  ∃ key : Key, member.1 = key.name ∧ c.text? key = some member.2

/-- What a configuration is written with are its settings. -/
theorem isSetting_of_mem {member : String × String} (h : member ∈ c.settings.map named) :
    IsSetting c member := by
  obtain ⟨⟨key, text⟩, hmem, rfl⟩ := List.mem_map.mp h
  obtain ⟨key', -, hsome⟩ := List.mem_filterMap.mp hmem
  obtain ⟨text', htext, hpair⟩ := Option.map_eq_some_iff.mp hsome
  obtain ⟨rfl, rfl⟩ := Prod.mk.inj hpair
  exact ⟨key', rfl, htext⟩

/-- Where members of other names are still to be taken, their settings are not given yet. -/
theorem isNew_of_takeMember {member : String × String} (h : d.takeMember member = .ok d')
    (hfirst : member.1 ∉ found.map Prod.fst)
    (hnew : ∀ other ∈ member :: found, ∀ key : Key, other.1 = key.name → d.has key = false) :
    ∀ other ∈ found, ∀ key : Key, other.1 = key.name → d'.has key = false := by
  intro other hother key hkey
  have hne : member.1 ≠ key.name := fun heq =>
    hfirst (heq ▸ hkey ▸ List.mem_map_of_mem hother)
  rw [Draft.has_takeMember h hne]
  exact hnew other (List.mem_cons_of_mem member hother) key hkey

/-- Members of different names are taken one after the other, each as what it was written for. -/
theorem takeMembers_found (hnames : (found.map Prod.fst).Nodup)
    (hsettings : ∀ member ∈ found, IsSetting c member)
    (hnew : ∀ member ∈ found, ∀ key : Key, member.1 = key.name → d.has key = false) :
    d.takeMembers found = .ok (found.foldl (giveMember c) d) := by
  induction found generalizing d with
  | nil => rfl
  | cons member found ih =>
    obtain ⟨⟨key, hname, htext⟩, hrest⟩ := List.forall_mem_cons.mp hsettings
    obtain ⟨hfirst, hnames⟩ := List.nodup_cons.mp hnames
    have hset : d.set key member.2 = .ok (d.give c key) := d.set_text htext
    have hgive : giveMember c d member = d.give c key := by
      rw [giveMember, hname, Key.ofName?_name]
    have htake : d.takeMember member = .ok (d.give c key) := by
      have hfresh := hnew member List.mem_cons_self key hname
      rw [Draft.takeMember, hname, Key.ofName?_name]
      simp only [hfresh, Bool.false_eq_true, if_false, hset]
    rw [Draft.takeMembers, htake, List.foldl_cons, hgive]
    exact ih hnames hrest (isNew_of_takeMember htake hfirst hnew)

/-- Two members may change places. -/
theorem giveMember_comm (c : Config) (d : Draft) (member other : String × String) :
    giveMember c (giveMember c d member) other = giveMember c (giveMember c d other) member := by
  unfold giveMember
  cases Key.ofName? member.1 with
  | none => rfl
  | some key =>
    cases Key.ofName? other.1 with
    | none => rfl
    | some key' => cases key <;> cases key' <;> rfl

/-- The settings of a configuration give it back. -/
theorem foldl_giveMember (c : Config) (d : Draft) :
    (c.settings.map named).foldl (giveMember c) d = Key.all.foldl (Draft.give c) d := by
  rw [Config.settings]
  generalize Key.all = keys
  induction keys generalizing d with
  | nil => rfl
  | cons key keys ih =>
    rw [List.foldl_cons]
    cases htext : c.text? key with
    | none => rw [List.filterMap_cons_none (by rw [htext]; rfl), ih, d.give_of_text_none htext]
    | some text =>
      rw [List.filterMap_cons_some (by rw [htext]; rfl), List.map_cons, List.foldl_cons, ih]
      rw [giveMember, named, Key.ofName?_name]

/-! ## Any format

With a package that reads back what it writes, whatever the format. -/

/-- A configuration is read back. -/
theorem readWith_writeWith {p : Package} (hp : p.ReadsBack) (c : Config) :
    readWith p (writeWith p c) = .ok c := by
  have hnames : ((c.settings.map named).map Prod.fst).Nodup := nodup_names (nodup_keys c)
  obtain ⟨found, hread, hperm⟩ := hp _ hnames fun member hmember => by
    obtain ⟨key, hname, htext⟩ := isSetting_of_mem hmember
    exact ⟨hname ▸ key.isPlain_name, isPlain_of_text htext⟩
  have htake : Draft.takeMembers {} found = .ok (found.foldl (giveMember c) {}) :=
    takeMembers_found ((hperm.map Prod.fst).nodup_iff.mpr hnames)
      (fun member hmember => isSetting_of_mem (hperm.mem_iff.mp hmember))
      fun _ _ key _ => by cases key <;> rfl
  have hfold : found.foldl (giveMember c) {} = Key.all.foldl (Draft.give c) {} :=
    (hperm.foldl_eq' (fun x _ y _ d => giveMember_comm c d x y) {}).trans (foldl_giveMember c {})
  rw [readWith, writeWith, hread]
  dsimp only
  rw [htake, hfold]
  exact congrArg Except.ok (finish_give c)

/-- **Configurations survive being written and read.** Let packages for TOML and for JSON read back what
they write. Then every configuration is read back from the text that is written of it in either format,
and from a file with the text of the format that the name of the file asks for. So the rule for timeouts
and the resolver that are made with the one that is read are the same as those made with the one that was
written. -/
theorem config_round_trip {toml json : Package} (htoml : toml.ReadsBack) (hjson : json.ReadsBack)
    (c : Config) :
    readWith toml (writeWith toml c) = .ok c ∧ readWith json (writeWith json c) = .ok c ∧
    (readWith toml (writeWith toml c)).map timeouts = .ok c.timeouts ∧
    (readWith json (writeWith json c)).map timeouts = .ok c.timeouts ∧
    (readWith toml (writeWith toml c)).map Resolver.ofConfig = .ok (Resolver.ofConfig c) ∧
    (readWith json (writeWith json c)).map Resolver.ofConfig = .ok (Resolver.ofConfig c) ∧
    ∀ name, loadBy (readWith json) (readWith toml) name (some (Utf8.encode
      (if jsonSuffix.toList.isSuffixOf name.toList then writeWith json c
        else writeWith toml c))) = .ok c := by
  have htoml := readWith_writeWith htoml c
  have hjson := readWith_writeWith hjson c
  refine ⟨htoml, hjson, ?_, ?_, ?_, ?_, loadBy_written hjson htoml⟩
  · rw [htoml, Except.map]
  · rw [hjson, Except.map]
  · rw [htoml, Except.map]
  · rw [hjson, Except.map]

/-! ## Two packages

The readers and writers of the model are packages of that kind. -/

/-- The members of an object or of a table, if all their values are texts. -/
def allTexts {α : Type} (text? : α → Option String) : List (String × α) →
    Option (List (String × String))
  | [] => some []
  | (name, value) :: members =>
    match text? value, allTexts text? members with
    | some text, some texts => some ((name, text) :: texts)
    | _, _ => none

/-- Texts are found where there are only texts. -/
theorem allTexts_map {α : Type} {text? : α → Option String} {mk : String → α}
    (h : ∀ text, text? (mk text) = some text) (members : List (String × String)) :
    allTexts text? (members.map fun member => (member.1, mk member.2)) = some members := by
  induction members with
  | nil => rfl
  | cons member members ih => rw [List.map_cons, allTexts, h, ih]

/-- The text that an entry of a document has for a value. -/
def tomlText? : Toml → Option String
  | .string text => some text
  | _ => none

/-- The text that a member of an object has for a value. -/
def jsonText? : Json → Option String
  | .string text => some text
  | _ => none

/-- The members of a JSON object all of whose values are texts. -/
def jsonMembers? : Json → Option (List (String × String))
  | .object members => allTexts jsonText? members
  | _ => none

/-- Members are written as lines, and read as the entries of a document. -/
def tomlPackage : Package where
  write members := String.ofList (members.flatMap Toml.line)
  read? text := (Toml.parse? text).bind (allTexts tomlText?)

/-- Members are written and read as those of an object. -/
def jsonPackage : Package where
  write members := Json.printMembers (members.map fun member => (member.1, .string member.2))
  read? text := (Json.read? text).bind jsonMembers?

theorem writeWith_tomlPackage (c : Config) : writeWith tomlPackage c = c.toToml := by
  refine String.toList_inj.mp ?_
  simp only [writeWith, tomlPackage, toToml, String.toList_ofList, String.toList_join,
    List.flatMap_map, tomlLine, named, Toml.line, String.toList_append]

theorem writeWith_jsonPackage (c : Config) : writeWith jsonPackage c = c.toJson := by
  simp only [writeWith, jsonPackage, toJson, named, List.map_map, Function.comp_def]

/-- Digits need no escape. -/
theorem isUnescaped_digit {c : Char} (hc : Text.isDigit c = true) :
    Toml.isUnescaped c = true := by
  have hlow : 48 ≤ c.toNat := of_decide_eq_true (Bool.and_eq_true_iff.mp hc).1
  have hhigh : c.toNat ≤ 57 := of_decide_eq_true (Bool.and_eq_true_iff.mp hc).2
  refine Toml.isUnescaped_iff.mpr ⟨?_, ?_, ?_⟩
  · rintro rfl; exact absurd hc (by decide)
  · rintro rfl; exact absurd hc (by decide)
  · simp only [Toml.Scanner.isPlain, Bool.or_eq_true, Bool.and_eq_true, decide_eq_true_eq]
    omega

/-- A plain character can stand in a bare key and needs no escape. -/
theorem isKeyChar_of_isPlainChar {c : Char} (h : isPlainChar c = true) :
    Toml.Scanner.isKeyChar c = true ∧ Toml.isUnescaped c = true := by
  simp only [isPlainChar, Bool.or_eq_true, Bool.and_eq_true, decide_eq_true_eq] at h
  rcases h with (hdigit | rfl) | ⟨hlow, hhigh⟩
  · exact ⟨by simp [Toml.Scanner.isKeyChar, hdigit], isUnescaped_digit hdigit⟩
  · decide
  · refine ⟨by simp [Toml.Scanner.isKeyChar, hlow, hhigh], Toml.isUnescaped_iff.mpr ⟨?_, ?_, ?_⟩⟩
    · rintro rfl
      exact absurd hlow (by decide)
    · rintro rfl
      exact absurd hlow (by decide)
    · have hlow : 97 ≤ c.toNat := UInt32.le_iff_toNat_le.mp hlow
      have hhigh : c.toNat ≤ 122 := UInt32.le_iff_toNat_le.mp hhigh
      simp only [Toml.Scanner.isPlain, Bool.or_eq_true, Bool.and_eq_true, decide_eq_true_eq]
      omega

/-- The package for TOML reads back what it writes. -/
theorem tomlPackage_readsBack : tomlPackage.ReadsBack := by
  intro members hnames hplain
  have hbare : ∀ pair ∈ members, Toml.IsBareKey pair.1 := fun pair hpair =>
    ⟨fun hnil => (hplain pair hpair).1.1 (hnil ▸ rfl),
      fun c hc => (isKeyChar_of_isPlainChar ((hplain pair hpair).1.2 c hc)).1⟩
  have htexts : ∀ pair ∈ members, Toml.IsUnescaped pair.2 := fun pair hpair c hc =>
    (isKeyChar_of_isPlainChar ((hplain pair hpair).2.2 c hc)).2
  have hread := Toml.parse?_lines String.toList_ofList hbare htexts hnames
  have htext (text : String) : tomlText? (.string text) = some text := rfl
  refine ⟨members, ?_, .refl _⟩
  simp only [tomlPackage, hread, Option.bind_some]
  exact allTexts_map htext members

/-- The package for JSON reads back what it writes. -/
theorem jsonPackage_readsBack : jsonPackage.ReadsBack := by
  intro members _ _
  have hread := Json.read?_print (.object (members.map fun member => (member.1, .string member.2)))
  rw [Json.print, Json.chars] at hread
  have htext (text : String) : jsonText? (.string text) = some text := rfl
  refine ⟨members, ?_, .refl _⟩
  simp only [jsonPackage, Json.printMembers, hread, Option.bind_some]
  exact allTexts_map htext members

/-- A configuration with settings that are left out and others that are not whole seconds. -/
def sparse : Config :=
  { defaultTimeout := .ofMillis 1500, batchDeadline := some (.ofSeconds 7200), logLevel := .warn }

/-- A configuration with a setting left out, read back by both packages. -/
theorem config_round_trip_sparse : tomlPackage.ReadsBack ∧ jsonPackage.ReadsBack ∧
    writeWith tomlPackage sparse = "default_timeout = \"1500ms\"\nbatch_deadline = \"2h\"\n" ++
      "log_format = \"json\"\nlog_level = \"warn\"\n" ∧
    readWith tomlPackage (writeWith tomlPackage sparse) = .ok sparse ∧
    readWith jsonPackage (writeWith jsonPackage sparse) = .ok sparse := by
  obtain ⟨htoml, hjson, -⟩ := config_round_trip tomlPackage_readsBack jsonPackage_readsBack sparse
  exact ⟨tomlPackage_readsBack, jsonPackage_readsBack, by decide +kernel, htoml, hjson⟩

end EdgeInclude.Config
