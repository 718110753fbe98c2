import EdgeInclude.Proofs.Config.Packages
import EdgeInclude.Proofs.Toml.Distinct

/-!
# The readers of TOML and JSON

A text in which all members have texts for values can be read in two ways: as a configuration at once, or
as members of which a configuration is made. Both come to the same, errors included. So what holds of
every package that reads back what it writes holds of these readers.

* **`ofToml_eq_readWith`**, **`ofJson_eq_readWith`**: the two ways come to the same.
* **`ofToml_toToml`**, **`ofJson_toJson`**, **`load_written`**: a configuration is read back from TOML,
  from JSON and from a file.
-/

namespace EdgeInclude.Config

variable {c : Config} {d d' : Draft} {key : Key} {name text : String}
variable {members : List (String × String)}

/-! ## Texts for values

Where all values are texts nothing of an entry is lost when it is taken as a member. -/

/-- The first value is a text, and so are the others. -/
theorem exists_of_allTexts_cons {α : Type} {text? : α → Option String} {value : α}
    {entries : List (String × α)} (h : allTexts text? ((name, value) :: entries) = some members) :
    ∃ text others, text? value = some text ∧ allTexts text? entries = some others ∧
      members = (name, text) :: others := by
  unfold allTexts at h
  split at h
  · rename_i text others htext hothers
    cases h
    exact ⟨text, others, htext, hothers, rfl⟩
  · cases h

/-- Members keep their names. -/
theorem map_fst_of_allTexts {α : Type} {text? : α → Option String} {entries : List (String × α)}
    (h : allTexts text? entries = some members) :
    members.map Prod.fst = entries.map Prod.fst := by
  induction entries generalizing members with
  | nil =>
    cases h
    rfl
  | cons entry entries ih =>
    obtain ⟨text, others, -, hothers, rfl⟩ := exists_of_allTexts_cons h
    rw [List.map_cons, List.map_cons, ih hothers]

theorem eq_string_of_tomlText? {value : Toml} (h : tomlText? value = some text) :
    value = .string text := by
  cases value with
  | string => cases h; rfl
  | _ => cases h

theorem eq_string_of_jsonText? {value : Json} (h : jsonText? value = some text) :
    value = .string text := by
  cases value with
  | string => cases h; rfl
  | _ => cases h

/-- A text that is read as a configuration is read as members. -/
theorem exists_read?_of_readWith {p : Package} (h : readWith p text = .ok c) :
    ∃ members, p.read? text = some members := by
  unfold readWith at h
  split at h
  · cases h
  · exact ⟨_, ‹_›⟩

/-! ## TOML

No key of a document comes twice, so it makes no difference that only members are refused for that. -/

/-- An entry with a text is taken as the member with its name and text, if its setting is new. -/
theorem takeEntry_string (hnew : ∀ key : Key, name = key.name → d.has key = false) :
    takeEntry d (name, .string text) = d.takeMember (name, text) := by
  unfold takeEntry Draft.takeMember
  cases hname : Key.ofName? name with
  | none => rfl
  | some key => simp [hnew key (Key.eq_name_of_ofName? hname)]

/-- Entries are taken as members are. The induction is on the entries, and whatever setting is still to
come is not given yet. -/
theorem takeEntries_of_allTexts {entries : Toml.Entries}
    (htexts : allTexts tomlText? entries = some members) (hnames : (members.map Prod.fst).Nodup)
    (hnew : ∀ member ∈ members, ∀ key : Key, member.1 = key.name → d.has key = false) :
    takeEntries d entries = d.takeMembers members := by
  induction entries generalizing members d with
  | nil =>
    cases htexts
    rfl
  | cons entry entries ih =>
    obtain ⟨text, others, htext, hothers, rfl⟩ := exists_of_allTexts_cons htexts
    obtain ⟨name, value⟩ := entry
    obtain rfl := eq_string_of_tomlText? htext
    obtain ⟨hfirst, hnames⟩ := List.nodup_cons.mp hnames
    rw [takeEntries, takeEntry_string (hnew _ List.mem_cons_self), Draft.takeMembers]
    cases htake : d.takeMember (name, text) with
    | error e => rfl
    | ok d' => exact ih hothers hnames (isNew_of_takeMember htake hfirst hnew)

/-- **A document of texts is read as a configuration in either way.** -/
theorem ofToml_eq_readWith (h : tomlPackage.read? text = some members) :
    ofToml text = readWith tomlPackage text := by
  obtain ⟨entries, hparse, htexts⟩ := Option.bind_eq_some_iff.mp h
  have hnames : (members.map Prod.fst).Nodup := by
    rw [map_fst_of_allTexts htexts]
    exact Toml.distinct_of_parse? hparse
  have htake : takeEntries {} entries = Draft.takeMembers {} members :=
    takeEntries_of_allTexts htexts hnames fun _ _ key _ => by cases key <;> rfl
  rw [ofToml, readWith, hparse, h]
  exact congrArg (Except.map Draft.finish) htake

/-! ## JSON

The text is read member by member, each as it comes. Behind a fault the text is not looked at any more,
so a fault counts in either way if the text is well formed. -/

open Json.Scanner

variable {cs cs' cs'' rest : List Char} {found : List (String × Json)} {fuel bound : Nat}

/-- A string is read as the text of a setting. -/
theorem readSetting_of_takeString (d : Draft) (key : Key) (h : takeString cs = some (text, rest)) :
    readSetting d key ('"' :: cs) = (d.set key text).map fun d => (d, rest) := by
  have htext : readText d key cs = (d.set key text).map fun d => (d, rest) := by
    simp only [readText, h]
    cases d.set key text <;> rfl
  rw [← htext]
  unfold readSetting
  split <;> rfl

/-- A member with a string is taken with its text. A string is passed over, too, where its name is not
known. -/
theorem readMember_of_takeString (d : Draft) (name : String) (hcolon : skipBlank cs = ':' :: cs')
    (hquote : skipBlank cs' = '"' :: cs'') (h : takeString cs'' = some (text, rest)) :
    readMember d name cs = (d.takeMember (name, text)).map fun d => (d, rest) := by
  have htake : takeColon cs = .ok ('"' :: cs'') := by
    rw [takeColon, hcolon]
    exact congrArg Except.ok hquote
  unfold readMember Draft.takeMember
  cases Key.ofName? name with
  | none =>
    obtain ⟨pieces, hpieces⟩ := exists_of_takeString h
    have hskip : skipValue (('"' :: cs'').length + 1) ('"' :: cs'') = some rest := by
      show (takePieces cs'').map (·.2) = some rest
      rw [hpieces]
      rfl
    simp only [htake, hskip, Except.map]
  | some key =>
    by_cases hgiven : d.has key = true
    · simp only [hgiven, if_true]
      rfl
    · simp only [hgiven, htake]
      exact readSetting_of_takeString d key h

/-- Members are read as they are taken. The induction is on how many of them are left; the reading has a
bound of its own, and every member takes up a character at least. -/
theorem readMembers_of_takeMembers (h : takeMembers fuel cs = some (found, rest))
    (htexts : allTexts jsonText? found = some members) (hbound : cs.length < bound) (d : Draft) :
    readMembers bound d cs = (d.takeMembers members).map fun d => (d, rest) := by
  induction fuel generalizing cs found members bound d with
  | zero => cases h
  | succ fuel ih =>
    obtain ⟨_, cs₁, name, cs₂, cs₃, value, cs₄, others, hfuel, hopen, hname, hcolon, hvalue, rfl,
      hothers⟩ := exists_of_takeMembers h
    obtain rfl := Nat.succ.inj hfuel
    obtain ⟨text, texts, htext, hrest, rfl⟩ := exists_of_allTexts_cons htexts
    obtain rfl := eq_string_of_jsonText? htext
    obtain ⟨cs', hquote, hstring⟩ := exists_of_takeValue_string hvalue
    obtain ⟨bound, rfl⟩ := Nat.exists_eq_succ_of_ne_zero (Nat.ne_of_gt (Nat.zero_lt_of_lt hbound))
    rw [readMembers, hopen]
    simp only [hname, readMember_of_takeString d name hcolon hquote hstring, Draft.takeMembers]
    cases d.takeMember (name, text) with
    | error e => rfl
    | ok d' =>
      rcases hothers with ⟨rfl, hclosed⟩ | ⟨cs₅, hcomma, hmembers⟩
      · cases hrest
        simp only [Except.map, hclosed, Draft.takeMembers]
      · -- what is left is shorter by a name, a value and what stands around them
        have hlt₁ := length_lt_of_skipBlank hopen
        obtain ⟨_, hpieces⟩ := exists_of_takeString hname
        have hlt₂ := length_lt_of_takePieces hpieces
        have hlt₃ := length_lt_of_skipBlank hcolon
        have hlt' := length_lt_of_skipBlank hquote
        obtain ⟨_, hpieces'⟩ := exists_of_takeString hstring
        have hlt₄ := length_lt_of_takePieces hpieces'
        have hlt₅ := length_lt_of_skipBlank hcomma
        simp only [Except.map, hcomma]
        exact ih hmembers hrest (by omega) d'

/-- An object is read as the settings that its members give. -/
theorem readJson_of_takeValue (h : takeValue fuel cs = some (.object found, rest))
    (htexts : allTexts jsonText? found = some members) :
    readJson cs = (Draft.takeMembers {} members).map fun d => (d, rest) := by
  obtain ⟨fuel', cs', hbrace, hmembers⟩ := exists_of_takeValue_object h
  rw [readJson, hbrace]
  rcases hmembers with ⟨rfl, hclosed⟩ | ⟨hopen, hmembers⟩
  · cases htexts
    simp only [hclosed]
    rfl
  · -- no closing brace comes first, so there is a member to be read
    simp only
    exact readMembers_of_takeMembers hmembers htexts (Nat.lt_succ_self _) {}

/-- **An object of texts is read as a configuration in either way.** -/
theorem ofJson_eq_readWith (h : jsonPackage.read? text = some members) :
    ofJson text = readWith jsonPackage text := by
  obtain ⟨value, hread, hobject⟩ := Option.bind_eq_some_iff.mp h
  unfold Json.read? at hread
  split at hread
  · rename_i value' rest hvalue
    split at hread
    · rename_i hend
      cases hread
      cases value with
      | object found =>
        rw [ofJson, readWith, readJson_of_takeValue hvalue hobject, h]
        dsimp only
        cases Draft.takeMembers {} members with
        | error e => rfl
        | ok d => exact if_pos hend
      | _ => cases hobject
    · cases hread
  · cases hread

/-! ## Configurations

Both readers undo their writers, and so does loading a file. -/

theorem ofToml_toToml (c : Config) : ofToml c.toToml = .ok c := by
  have hback := readWith_writeWith tomlPackage_readsBack c
  rw [writeWith_tomlPackage] at hback
  obtain ⟨members, hread⟩ := exists_read?_of_readWith hback
  rw [ofToml_eq_readWith hread, hback]

theorem ofJson_toJson (c : Config) : ofJson c.toJson = .ok c := by
  have hback := readWith_writeWith jsonPackage_readsBack c
  rw [writeWith_jsonPackage] at hback
  obtain ⟨members, hread⟩ := exists_read?_of_readWith hback
  rw [ofJson_eq_readWith hread, hback]

theorem load_written (c : Config) (name : String) :
    load name (some (Utf8.encode
      (if jsonSuffix.toList.isSuffixOf name.toList then c.toJson else c.toToml))) = .ok c :=
  loadBy_written (ofJson_toJson c) (ofToml_toToml c) name

/-- A setting that is left out has no line. -/
example : ({ maxTimeout := some (.ofMillis 1500) } : Config).toToml =
    "default_timeout = \"20s\"\nmax_timeout = \"1500ms\"\n" ++
      "log_format = \"json\"\nlog_level = \"info\"\n" := by
  decide +kernel

end EdgeInclude.Config
