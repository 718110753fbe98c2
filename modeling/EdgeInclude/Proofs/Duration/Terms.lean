import EdgeInclude.Duration.Parser
import EdgeInclude.Proofs.Text.Runs

/-!
# Pairs of a duration as they are written

A duration is written as pairs of a decimal number and a unit. A number is digits with a point among
them, or without one; a unit is everything up to the next digit or point.

A pair is counted in a word of 128 bits. Before the point what does not fit is refused; what stands
behind it is added unguarded, and the sum wraps around.

* **`Numeral`**, **`Term`**: a number and a pair as they are written.
* **`Term.sum`**, **`Term.nanos`**: what a pair comes to, and as what it is read.
* **`Fit`**: pairs that are added up without being refused.
* **`FaultAt`**: what is wrong with the pair at the front of a text.
* **`value_split_term`**, **`exists_term_of_value`**: a pair is read off the front as it is written.
* **`faultAt_of_scaled`**, **`sumPairs_of_faultAt`**: it is refused for what is wrong with it.
* **`sumPairs_flatMap`**: pairs one behind the other are added up.
-/

namespace EdgeInclude.Duration

/-! ## Units

Each unit has its spellings, and no spelling belongs to two units. -/

/-- The ways in which a unit is written. -/
def Scale.spellings : Scale → List String
  | hours => ["h"]
  | minutes => ["m"]
  | seconds => ["s"]
  | millis => ["ms"]
  | micros => ["us", "\u00B5s", "\u03BCs"]
  | nanos => ["ns"]

/-- A unit is read from its spellings alone. -/
theorem Scale.ofChars?_eq_some_iff {unit : List Char} {scale : Scale} :
    ofChars? unit = some scale ↔ String.ofList unit ∈ scale.spellings := by
  constructor
  · intro h
    unfold ofChars? at h
    split at h <;> cases h <;> decide
  · intro h
    have hunit : unit ∈ scale.spellings.map String.toList :=
      List.mem_map.mpr ⟨_, h, String.toList_ofList⟩
    revert hunit
    cases scale <;> simp only [spellings, List.map_cons, List.map_nil, List.mem_cons,
      List.not_mem_nil, or_false] <;> rintro (rfl | rfl | rfl) <;> rfl

/-! ## Numbers and pairs

A number is digits, with a point and places behind them or not. It has a digit or a point, so there
is no empty one. -/

/-- A number as it is written: the digits before the point and, if there is a point, the digits
behind it. There is one digit at least. -/
structure Numeral where
  whole : List Char
  places : Option (List Char)
  isDigit_whole : ∀ c ∈ whole, Text.isDigit c = true
  isDigit_places : ∀ ds ∈ places, ∀ c ∈ ds, Text.isDigit c = true
  has_digit : whole ≠ [] ∨ places.getD [] ≠ []

/-- A number and its unit as they are written. -/
structure Term where
  numeral : Numeral
  scale : Scale
  symbol : String
  symbol_mem : symbol ∈ scale.spellings

/-- What the digits behind the point count for in a unit of the given size. The first digit is that
of the tenths, and each counts for a whole number of nanoseconds. -/
def placesNanos (size : Nat) (ds : List Char) : Nat :=
  (ds.mapIdx fun i d => Text.digitValue d * (size / Nat.pow 10 (i + 1))).foldr (· + ·) 0

namespace Numeral

/-- The characters of a number. -/
def chars (n : Numeral) : List Char :=
  match n.places with
  | none => n.whole
  | some ds => n.whole ++ '.' :: ds

/-- The number ends before `rest`: no digit follows and, if it has no point, no point either. -/
def EndsAt (n : Numeral) (rest : List Char) : Prop :=
  ∀ c ∈ rest.head?, Text.isDigit c = false ∧ (n.places = none → c ≠ '.')

variable {n : Numeral}

theorem whole_ne_nil (hplaces : n.places = none) : n.whole ≠ [] := by
  refine n.has_digit.resolve_right (not_not.mpr ?_)
  rw [hplaces]
  rfl

/-- A number has characters. -/
theorem chars_ne_nil (n : Numeral) : n.chars ≠ [] := by
  unfold chars
  split
  · exact whole_ne_nil ‹_›
  · exact List.append_ne_nil_of_right_ne_nil _ (List.cons_ne_nil _ _)

/-- A number begins with a digit or a point. -/
theorem exists_head_chars (n : Numeral) : ∃ c cs, n.chars = c :: cs ∧
    (c = '.' ∨ Text.isDigit c = true) := by
  unfold chars
  cases hds : n.whole with
  | nil =>
    cases hplaces : n.places with
    | none => exact absurd hds (whole_ne_nil hplaces)
    | some ds => exact ⟨'.', ds, rfl, .inl rfl⟩
  | cons d ds =>
    have hd := n.isDigit_whole d (hds ▸ List.mem_cons_self)
    cases n.places with
    | none => exact ⟨d, ds, rfl, .inr hd⟩
    | some places => exact ⟨d, _, rfl, .inr hd⟩

end Numeral

namespace Term

/-- The characters of a pair. -/
def chars (t : Term) : List Char :=
  t.numeral.chars ++ t.symbol.toList

/-- The nanoseconds before the point of a pair. -/
def wholeNanos (t : Term) : Nat :=
  Text.digitsValue t.numeral.whole * t.scale.size

/-- What is counted of a pair, before the point and behind it. -/
def sum (t : Term) : Nat :=
  t.wholeNanos + placesNanos t.scale.size (t.numeral.places.getD [])

/-- The nanoseconds of a pair: the sum, as a word holds it. -/
def nanos (t : Term) : Nat :=
  t.sum % Pair.wordLimit

/-- The pair fits the word up to its point, and with what stands behind it no longer does. -/
def Outgrows (t : Term) : Prop :=
  t.wholeNanos < Pair.wordLimit ∧ Pair.wordLimit ≤ t.sum

instance (t : Term) : Decidable t.Outgrows :=
  inferInstanceAs (Decidable (_ ∧ _))

theorem nanos_of_lt {t : Term} (h : t.sum < Pair.wordLimit) : t.nanos = t.sum :=
  Nat.mod_eq_of_lt h

end Term

/-- The nanoseconds of pairs together. -/
def totalNanos : List Term → Nat
  | [] => 0
  | t :: terms => t.nanos + totalNanos terms

theorem totalNanos_cons (t : Term) (terms : List Term) :
    totalNanos (t :: terms) = t.nanos + totalNanos terms :=
  rfl

theorem totalNanos_single (t : Term) : totalNanos [t] = t.nanos :=
  rfl

/-- The pairs are added to `total` nanoseconds without being refused: what stands before the points fits
a word, and so does the sum. -/
structure Fit (total : Nat) (terms : List Term) : Prop where
  whole : ∀ t ∈ terms, t.wholeNanos < Pair.wordLimit
  sum : total + totalNanos terms < Pair.wordLimit

/-- There is room for the total itself. -/
theorem Fit.total_lt {total : Nat} {terms : List Term} (h : Fit total terms) :
    total < Pair.wordLimit :=
  Nat.lt_of_le_of_lt (Nat.le_add_right _ _) h.sum

theorem fit_nil_iff {total : Nat} : Fit total [] ↔ total < Pair.wordLimit :=
  ⟨fun h => h.sum, fun h => ⟨by simp, h⟩⟩

/-- Each pair has to fit, and the others on top of it. -/
theorem fit_cons_iff {total : Nat} {t : Term} {terms : List Term} :
    Fit total (t :: terms) ↔ t.wholeNanos < Pair.wordLimit ∧ Fit (total + t.nanos) terms := by
  constructor
  · rintro ⟨hwhole, hsum⟩
    rw [totalNanos_cons, ← Nat.add_assoc] at hsum
    exact ⟨hwhole t List.mem_cons_self, fun u hu => hwhole u (List.mem_cons_of_mem t hu), hsum⟩
  · rintro ⟨ht, hwhole, hsum⟩
    refine ⟨List.forall_mem_cons.mpr ⟨ht, hwhole⟩, ?_⟩
    rwa [totalNanos_cons, ← Nat.add_assoc]

/-- A unit ends where a digit or a point follows, and at the end of the text. -/
def EndsUnit (rest : List Char) : Prop :=
  ∀ c ∈ rest.head?, c = '.' ∨ Text.isDigit c = true

/-- What is wrong with the pair at the front of a text, when the pairs before it come to `total`
nanoseconds. -/
inductive FaultAt (input : String) (total : Nat) : List Char → ReadError → Prop
  /-- No number stands there. -/
  | noNumber {cs : List Char} (hnone : ∀ (n : Numeral) (rest : List Char), cs ≠ n.chars ++ rest) :
      FaultAt input total cs (.invalid input)
  /-- Behind the number the text is at its end, or there is a point. -/
  | noUnit (n : Numeral) {rest : List Char} (hends : n.EndsAt rest)
      (hrest : rest = [] ∨ rest.head? = some '.') :
      FaultAt input total (n.chars ++ rest) (.missingUnit input)
  /-- Behind the number stands what is no unit. -/
  | unknownUnit (n : Numeral) {unit rest : List Char} (hne : unit ≠ [])
      (hunit : ∀ c ∈ unit, c ≠ '.' ∧ Text.isDigit c = false) (hends : EndsUnit rest)
      (hunknown : ∀ scale : Scale, String.ofList unit ∉ scale.spellings) :
      FaultAt input total (n.chars ++ (unit ++ rest)) (.unknownUnit (String.ofList unit) input)
  /-- What stands before the point of the pair does not fit a word, or the nanoseconds no longer do with
  the pair. -/
  | tooLarge (t : Term) {rest : List Char} (hends : EndsUnit rest)
      (hlarge : Pair.wordLimit ≤ t.wholeNanos ∨ Pair.wordLimit ≤ total + t.nanos) :
      FaultAt input total (t.chars ++ rest) (.outOfRange input)

/-! ## Splitting a pair off

A pair ends where the next number begins: at a digit or a point behind its unit. So what is split
off is told by the text in front of it and the first character behind it. -/

namespace Pair

variable {c : Char} {cs ds unit rest : List Char} {n : Numeral} {t : Term}

theorem isUnitChar_iff : isUnitChar c = true ↔ c ≠ '.' ∧ Text.isDigit c = false := by
  simp [isUnitChar]

theorem isUnitChar_eq_false_iff : isUnitChar c = false ↔ c = '.' ∨ Text.isDigit c = true := by
  rw [isUnitChar, Bool.not_eq_false', Bool.or_eq_true, decide_eq_true_eq]

/-- Without a point there are no places. -/
theorem splitFraction_of_ne (h : ∀ c ∈ cs.head?, c ≠ '.') : splitFraction cs = ([], cs) := by
  unfold splitFraction
  split
  · exact absurd rfl (h '.' rfl)
  · rfl

/-- A number ends before a unit. -/
theorem endsAt_unit (n : Numeral) (hne : unit ≠ []) (hunit : ∀ c ∈ unit, isUnitChar c = true)
    (rest : List Char) : n.EndsAt (unit ++ rest) := by
  obtain ⟨c, cs, rfl⟩ := List.exists_cons_of_ne_nil hne
  have hc := isUnitChar_iff.mp (hunit c List.mem_cons_self)
  rintro _ ⟨⟩
  exact ⟨hc.2, fun _ => hc.1⟩

/-- A number is split off where it ends, and its unit behind it. -/
theorem split_numeral (hends : n.EndsAt rest) : split (n.chars ++ rest) =
    { whole := n.whole, fraction := n.places.getD [], unit := rest.takeWhile isUnitChar
      rest := rest.dropWhile isUnitChar } := by
  have hpoint : Text.isDigit '.' = false := by decide
  rw [split, Numeral.chars]
  cases hplaces : n.places with
  | none =>
    obtain ⟨htake, hdrop⟩ :=
      Text.takeWhile_dropWhile_append n.isDigit_whole fun c hc => (hends c hc).1
    have hfraction := splitFraction_of_ne fun c hc => (hends c hc).2 hplaces
    simp only [htake, hdrop, hfraction, Option.getD_none]
  | some ds =>
    have hrun :=
      Text.takeWhile_dropWhile_append (n.isDigit_places ds hplaces) fun c hc => (hends c hc).1
    obtain ⟨htake, hdrop⟩ := Text.takeWhile_dropWhile_append n.isDigit_whole
      (show ∀ c ∈ ('.' :: (ds ++ rest)).head?, Text.isDigit c = false by simpa using hpoint)
    simp only [List.append_assoc, List.cons_append, htake, hdrop, splitFraction, hrun,
      Option.getD_some]

/-- Of a number at the front something is read, be it all of it or not. -/
theorem split_append_ne_nil (n : Numeral) (rest : List Char) :
    (split (n.chars ++ rest)).whole ≠ [] ∨ (split (n.chars ++ rest)).fraction ≠ [] := by
  have htake {d : Char} {ds : List Char} (hd : Text.isDigit d = true) :
      (d :: ds).takeWhile Text.isDigit ≠ [] := by
    rw [List.takeWhile_cons_of_pos hd]
    exact List.cons_ne_nil _ _
  -- the digit that the number has stands before the point or behind it
  cases hwhole : n.whole with
  | cons d ds =>
    have hd := n.isDigit_whole d (hwhole ▸ List.mem_cons_self)
    left
    cases hplaces : n.places with
    | none =>
      simp only [split, Numeral.chars, hplaces, hwhole, List.cons_append]
      exact htake hd
    | some =>
      simp only [split, Numeral.chars, hplaces, hwhole, List.cons_append]
      exact htake hd
  | nil =>
    right
    have hdigit := n.has_digit.resolve_left (not_not.mpr hwhole)
    cases hplaces : n.places with
    | none => exact absurd hwhole (Numeral.whole_ne_nil hplaces)
    | some ds =>
      cases ds with
      | nil => exact absurd (by rw [hplaces]; rfl) hdigit
      | cons d ds =>
        have hd := n.isDigit_places _ hplaces d List.mem_cons_self
        have hpoint : ¬ Text.isDigit '.' = true := by decide
        simp only [split, Numeral.chars, hplaces, hwhole, List.nil_append, List.cons_append,
          List.dropWhile_cons_of_neg hpoint, splitFraction]
        exact htake hd

/-- What has digits or places is split off as a number. -/
theorem exists_numeral_of_split (h : (split cs).whole ≠ [] ∨ (split cs).fraction ≠ []) :
    ∃ n : Numeral, n.whole = (split cs).whole ∧ n.places.getD [] = (split cs).fraction ∧
      cs = n.chars ++ ((split cs).unit ++ (split cs).rest) ∧
      n.EndsAt ((split cs).unit ++ (split cs).rest) := by
  have hwhole : ∀ c ∈ cs.takeWhile Text.isDigit, Text.isDigit c = true :=
    fun _ => List.mem_takeWhile_imp
  have hcs : cs.takeWhile Text.isDigit ++ cs.dropWhile Text.isDigit = cs :=
    List.takeWhile_append_dropWhile
  by_cases hpoint : ∃ ds, cs.dropWhile Text.isDigit = '.' :: ds
  · obtain ⟨ds, hdrop⟩ := hpoint
    rw [hdrop] at hcs
    simp only [split, hdrop, splitFraction, List.takeWhile_append_dropWhile] at h ⊢
    refine ⟨⟨_, some (ds.takeWhile Text.isDigit), hwhole, ?_, h⟩, rfl, rfl, ?_, fun c hc => ?_⟩
    · intro _ hds c hc
      obtain rfl := Option.some.inj hds
      exact List.mem_takeWhile_imp hc
    · rw [Numeral.chars, List.append_assoc, List.cons_append, List.takeWhile_append_dropWhile, hcs]
    · exact ⟨Text.eq_false_of_mem_head?_dropWhile hc, fun hnone => by cases hnone⟩
  · have hne : ∀ c ∈ (cs.dropWhile Text.isDigit).head?, c ≠ '.' := by
      rintro c hc rfl
      exact hpoint (List.head?_eq_some_iff.mp hc)
    simp only [split, splitFraction_of_ne hne, List.takeWhile_append_dropWhile] at h ⊢
    exact ⟨⟨_, none, hwhole, by simp, h⟩, rfl, rfl, hcs.symm,
      fun c hc => ⟨Text.eq_false_of_mem_head?_dropWhile hc, fun _ => hne c hc⟩⟩

/-- A unit has characters, none of them a digit or a point. -/
theorem spellings_spec (scale : Scale) : ∀ symbol ∈ scale.spellings,
    symbol.toList ≠ [] ∧ symbol.toList.all isUnitChar = true := by
  cases scale <;> simp only [Scale.spellings] <;> decide

theorem symbol_toList_ne_nil (t : Term) : t.symbol.toList ≠ [] :=
  (spellings_spec t.scale t.symbol t.symbol_mem).1

theorem isUnitChar_of_mem_symbol (t : Term) : ∀ c ∈ t.symbol.toList, isUnitChar c = true :=
  List.all_eq_true.mp (spellings_spec t.scale t.symbol t.symbol_mem).2

/-- A pair is split off as it is written. -/
theorem split_term (hends : EndsUnit rest) : split (t.chars ++ rest) =
    { whole := t.numeral.whole, fraction := t.numeral.places.getD [], unit := t.symbol.toList
      rest } := by
  have hunit := isUnitChar_of_mem_symbol t
  have hends' := endsAt_unit t.numeral (symbol_toList_ne_nil t) hunit rest
  obtain ⟨htake, hdrop⟩ := Text.takeWhile_dropWhile_append hunit
    fun c hc => isUnitChar_eq_false_iff.mpr (hends c hc)
  rw [Term.chars, List.append_assoc, split_numeral hends', htake, hdrop]

theorem endsUnit_rest_split (cs : List Char) : EndsUnit (split cs).rest := by
  intro c hc
  exact isUnitChar_eq_false_iff.mp (Text.eq_false_of_mem_head?_dropWhile hc)

theorem isUnitChar_of_mem_unit (hc : c ∈ (split cs).unit) : isUnitChar c = true :=
  List.mem_takeWhile_imp hc

/-! ## The nanoseconds of a pair

The digits of a pair are scaled first, which can overflow, and its places are added one by one. -/

/-- The first place and the others, each worth a tenth of the one before. -/
theorem placesNanos_cons (size : Nat) (d : Char) (ds : List Char) :
    placesNanos size (d :: ds) =
      Text.digitValue d * (size / 10) + placesNanos (size / 10) ds := by
  have hplace (i : Nat) : size / Nat.pow 10 (i + 1 + 1) = size / 10 / Nat.pow 10 (i + 1) := by
    rw [Nat.div_div_eq_div_mul, Nat.mul_comm]
    rfl
  simp only [placesNanos, List.mapIdx_cons, List.foldr_cons, hplace]

theorem placesNanos_zero (ds : List Char) : placesNanos 0 ds = 0 := by
  induction ds with
  | nil => rfl
  | cons d ds ih => rw [placesNanos_cons, Nat.zero_div, ih, Nat.mul_zero]

/-- Where a digit counts for less than one nanosecond, those behind it count for nothing. -/
theorem placesNanos_of_div_eq_zero {place : Nat} (hplace : place / 10 = 0) (ds : List Char) :
    placesNanos place ds = 0 := by
  cases ds with
  | nil => rfl
  | cons d ds => rw [placesNanos_cons, hplace, placesNanos_zero, Nat.mul_zero]

/-- **What stands behind the point is added in a word.** It makes no difference whether the sum wraps
around at each digit or at the end. -/
theorem addFraction_eq {nanos : Nat} (hnanos : nanos < wordLimit) (place : Nat) (ds : List Char) :
    addFraction nanos place ds = (nanos + placesNanos place ds) % wordLimit := by
  induction ds generalizing nanos place with
  | nil => exact (Nat.mod_eq_of_lt hnanos).symm
  | cons d ds ih =>
    rw [addFraction]
    split
    · rename_i hplace
      rw [placesNanos_of_div_eq_zero hplace, Nat.add_zero, Nat.mod_eq_of_lt hnanos]
    · rw [ih (Nat.mod_lt _ (by decide)), Nat.mod_add_mod, placesNanos_cons, Nat.add_assoc]

theorem wordLimit_le_iff (n : Nat) (scale : Scale) :
    (wordLimit ≤ n ∨ wordLimit ≤ n * scale.size) ↔ wordLimit ≤ n * scale.size := by
  have := Nat.le_mul_of_pos_right n scale.size_pos
  omega

/-- A pair is scaled if its digits do not overflow. -/
theorem scaled_split_term (hends : EndsUnit rest) : (split (t.chars ++ rest)).scaled =
    if wordLimit ≤ t.wholeNanos then .error .tooLarge else .ok (t.scale, t.wholeNanos) := by
  have hdigit : ¬ (t.numeral.whole = [] ∧ t.numeral.places.getD [] = []) :=
    not_and_or.mpr t.numeral.has_digit
  have hscale : Scale.ofChars? t.symbol.toList = some t.scale :=
    Scale.ofChars?_eq_some_iff.mpr (String.ofList_toList ▸ t.symbol_mem)
  have hlarge := wordLimit_le_iff (Text.digitsValue t.numeral.whole) t.scale
  rw [split_term hends]
  simp only [scaled, if_neg hdigit, if_neg (symbol_toList_ne_nil t), hscale]
  exact if_congr hlarge rfl rfl

/-- A pair that can be scaled counts as its digits and places. -/
theorem value_split_term (hends : EndsUnit rest) : (split (t.chars ++ rest)).value =
    if wordLimit ≤ t.wholeNanos then .error .tooLarge else .ok t.nanos := by
  rw [value, scaled_split_term hends]
  by_cases hwhole : wordLimit ≤ t.wholeNanos
  · simp only [if_pos hwhole]
  · simp only [if_neg hwhole, split_term hends, addFraction_eq (not_le.mp hwhole)]
    rfl

/-- Where the number and the unit are known, a pair stands at the front. -/
theorem exists_term_of_split {scale : Scale}
    (hdigit : ¬ ((split cs).whole = [] ∧ (split cs).fraction = []))
    (hscale : Scale.ofChars? (split cs).unit = some scale) :
    ∃ t : Term, cs = t.chars ++ (split cs).rest := by
  obtain ⟨n, -, -, hcs, -⟩ := exists_numeral_of_split (not_and_or.mp hdigit)
  refine ⟨⟨n, scale, _, Scale.ofChars?_eq_some_iff.mp hscale⟩, ?_⟩
  rwa [Term.chars, String.toList_ofList, List.append_assoc]

/-- What can be scaled is a pair. -/
theorem exists_term_of_scaled {x : Scale × Nat} (h : (split cs).scaled = .ok x) :
    ∃ t : Term, cs = t.chars ++ (split cs).rest := by
  unfold scaled at h
  split at h
  · cases h
  rename_i hdigit
  split at h
  · cases h
  split at h
  · cases h
  rename_i hscale
  exact exists_term_of_split hdigit hscale

/-- What has a value is a pair, and has that value. -/
theorem exists_term_of_value {nanos : Nat} (h : (split cs).value = .ok nanos) :
    ∃ t : Term, cs = t.chars ++ (split cs).rest ∧ t.wholeNanos < wordLimit ∧ t.nanos = nanos := by
  cases hscaled : (split cs).scaled with
  | error fault =>
    rw [value, hscaled] at h
    cases h
  | ok x =>
    obtain ⟨t, ht⟩ := exists_term_of_scaled hscaled
    rw [ht, value_split_term (endsUnit_rest_split cs)] at h
    split at h
    · cases h
    · exact ⟨t, ht, not_le.mp ‹_›, Except.ok.inj h⟩

/-- No pair fails for its places. -/
theorem scaled_of_value {fault : Fault} (h : (split cs).value = .error fault) :
    (split cs).scaled = .error fault := by
  cases hscaled : (split cs).scaled with
  | error cause =>
    rw [value, hscaled] at h
    cases h
    rfl
  | ok x =>
    rw [value, hscaled] at h
    cases h

/-- What cannot be scaled has one of the faults of a pair. -/
theorem faultAt_of_scaled {fault : Fault} (h : (split cs).scaled = .error fault) (input : String)
    (total : Nat) : FaultAt input total cs (fault.toError input) := by
  have hends := endsUnit_rest_split cs
  -- the reading stops at the first of four tests that fails, and each has its own fault
  have hfull := h
  unfold scaled at h
  split at h
  · rename_i hnone
    cases h
    refine .noNumber fun n rest hcs => ?_
    have := split_append_ne_nil n rest
    rw [← hcs] at this
    exact not_and_or.mpr this hnone
  rename_i hdigit
  obtain ⟨n, hwhole, hplaces, hcs, hn⟩ := exists_numeral_of_split (not_and_or.mp hdigit)
  split at h
  · -- behind a number comes the end or a second point, since nothing else ends a unit
    rename_i hunit
    cases h
    rw [hunit, List.nil_append] at hcs hn
    rw [hcs]
    refine .noUnit n hn ?_
    cases hrest : (split cs).rest with
    | nil => exact .inl rfl
    | cons c rest =>
      have hc : c ∈ (split cs).rest.head? := by rw [hrest]; rfl
      have hpoint := (hends c hc).resolve_right (Bool.eq_false_iff.mp (hn c hc).1)
      exact .inr (congrArg some hpoint)
  rename_i hunit
  split at h
  · rename_i hscale
    cases h
    have hunknown : ∀ scale : Scale, String.ofList (split cs).unit ∉ scale.spellings := by
      intro scale hmem
      rw [Scale.ofChars?_eq_some_iff.mpr hmem] at hscale
      cases hscale
    have hchars : ∀ c ∈ (split cs).unit, c ≠ '.' ∧ Text.isDigit c = false :=
      fun c hc => isUnitChar_iff.mp (isUnitChar_of_mem_unit hc)
    have hfault : FaultAt input total _ _ := .unknownUnit n hunit hchars hends hunknown
    rwa [← hcs] at hfault
  rename_i scale hscale
  simp only at h
  split at h
  · cases h
    obtain ⟨t, ht⟩ := exists_term_of_split hdigit hscale
    rw [ht, scaled_split_term hends] at hfull
    split at hfull
    · rename_i hwhole
      rw [ht]
      exact .tooLarge t hends (.inl hwhole)
    · cases hfull
  · cases h

end Pair

/-! ## The sum of the pairs

The induction is on the number of characters left, since a pair takes up at least one of them. -/

section Sum

variable {cs rest : List Char} {input : String} {total n : Nat} {t : Term} {e : ReadError}

/-- The first pair is added to the total, and the others to that. -/
theorem sumPairs_of_ne_nil (hne : cs ≠ []) : sumPairs total cs =
    match (Pair.split cs).value with
    | .error fault => .error fault
    | .ok nanos =>
      if Pair.wordLimit ≤ total + nanos then .error .tooLarge
      else sumPairs (total + nanos) (Pair.split cs).rest := by
  obtain ⟨c, cs, rfl⟩ := List.exists_cons_of_ne_nil hne
  exact sumPairs.eq_def total (c :: cs)

/-- A number begins with a digit or with the point, so the unit before it ends there. -/
theorem Numeral.endsUnit_append (n : Numeral) (rest : List Char) : EndsUnit (n.chars ++ rest) := by
  obtain ⟨c, cs, hcs, hc⟩ := n.exists_head_chars
  rw [hcs]
  rintro _ ⟨⟩
  exact hc

theorem endsUnit_nil : EndsUnit [] :=
  fun _ hc => by cases hc

/-- A unit ends where another pair begins. -/
theorem endsUnit_flatMap_chars (terms : List Term) (hends : terms = [] → EndsUnit rest) :
    EndsUnit (terms.flatMap Term.chars ++ rest) := by
  cases terms with
  | nil => exact hends rfl
  | cons t terms =>
    rw [List.flatMap_cons, Term.chars, List.append_assoc, List.append_assoc]
    exact t.numeral.endsUnit_append _

/-- The pair at the front is added, unless it is refused. -/
theorem sumPairs_term (hends : EndsUnit rest) : sumPairs total (t.chars ++ rest) =
    if Pair.wordLimit ≤ t.wholeNanos ∨ Pair.wordLimit ≤ total + t.nanos then .error .tooLarge
    else sumPairs (total + t.nanos) rest := by
  have hne : t.chars ++ rest ≠ [] :=
    List.append_ne_nil_of_left_ne_nil (List.append_ne_nil_of_left_ne_nil t.numeral.chars_ne_nil _) _
  rw [sumPairs_of_ne_nil hne, Pair.value_split_term hends, Pair.split_term hends]
  by_cases hwhole : Pair.wordLimit ≤ t.wholeNanos
  · simp only [if_pos hwhole, if_pos (Or.inl hwhole)]
  · simp only [hwhole, if_false, false_or]

/-- Pairs that fit are added up. -/
theorem sumPairs_flatMap {terms : List Term} (hends : terms ≠ [] → EndsUnit rest)
    (hfit : Fit total terms) :
    sumPairs total (terms.flatMap Term.chars ++ rest) =
      sumPairs (total + totalNanos terms) rest := by
  induction terms generalizing total with
  | nil => rfl
  | cons t terms ih =>
    obtain ⟨hwhole, hfit⟩ := fit_cons_iff.mp hfit
    have hsum := hfit.total_lt
    have hends' : EndsUnit (terms.flatMap Term.chars ++ rest) :=
      endsUnit_flatMap_chars terms fun _ => hends (List.cons_ne_nil _ _)
    rw [List.flatMap_cons, List.append_assoc, sumPairs_term hends', if_neg (by omega),
      ih (fun _ => hends (List.cons_ne_nil _ _)) hfit, totalNanos_cons, Nat.add_assoc]

/-- What is wrong with the pair at the front is what the sum is refused for. -/
theorem sumPairs_of_faultAt (hne : cs ≠ []) (h : FaultAt input total cs e) :
    ∃ fault, sumPairs total cs = .error fault ∧ fault.toError input = e := by
  cases h with
  | noNumber hnone =>
    have hdigit : (Pair.split cs).whole = [] ∧ (Pair.split cs).fraction = [] := by
      by_contra hdigit
      obtain ⟨n, -, -, hcs, -⟩ := Pair.exists_numeral_of_split (not_and_or.mp hdigit)
      exact hnone n _ hcs
    rw [sumPairs_of_ne_nil hne, Pair.value, Pair.scaled, if_pos hdigit]
    exact ⟨.noNumber, rfl, rfl⟩
  -- nothing of the rest can be a unit: there is none, or it begins with a point
  | @noUnit n rest hends hrest =>
    have hunit : rest.takeWhile Pair.isUnitChar = [] := by
      obtain rfl | hpoint := hrest
      · rfl
      · obtain ⟨rest, rfl⟩ := List.head?_eq_some_iff.mp hpoint
        rfl
    rw [sumPairs_of_ne_nil hne, Pair.split_numeral hends, Pair.value, Pair.scaled,
      if_neg (not_and_or.mpr n.has_digit), if_pos hunit]
    exact ⟨.noUnit, rfl, rfl⟩
  | @unknownUnit n unit rest hunit hchars hends hunknown =>
    have hunitChar : ∀ c ∈ unit, Pair.isUnitChar c = true :=
      fun c hc => Pair.isUnitChar_iff.mpr (hchars c hc)
    have htake := (Text.takeWhile_dropWhile_append hunitChar
      fun c hc => Pair.isUnitChar_eq_false_iff.mpr (hends c hc)).1
    have hscale : Scale.ofChars? unit = none :=
      Option.eq_none_iff_forall_ne_some.mpr fun scale hscale =>
        hunknown scale (Scale.ofChars?_eq_some_iff.mp hscale)
    rw [sumPairs_of_ne_nil hne, Pair.split_numeral (Pair.endsAt_unit n hunit hunitChar rest),
      Pair.value, Pair.scaled, if_neg (not_and_or.mpr n.has_digit)]
    simp only [htake, if_neg hunit, hscale]
    exact ⟨.unknownUnit unit, rfl, rfl⟩
  | tooLarge t hends hlarge =>
    rw [sumPairs_term hends, if_pos hlarge]
    exact ⟨.tooLarge, rfl, rfl⟩

/-- What is added up is the sum of the pairs of which the text consists. -/
theorem exists_terms_of_sumPairs (h : sumPairs total cs = .ok n) (htotal : total < Pair.wordLimit) :
    ∃ terms : List Term, cs = terms.flatMap Term.chars ∧ n = total + totalNanos terms ∧
      Fit total terms := by
  fun_induction sumPairs total cs with
  | case1 total =>
    cases h
    exact ⟨[], rfl, rfl, fit_nil_iff.mpr htotal⟩
  | case2 => cases h
  | case3 => cases h
  | case4 total c cs nanos hvalue hfits ih =>
    rw [not_le] at hfits
    obtain ⟨terms, hcs, hn, hfit⟩ := ih h hfits
    obtain ⟨t, ht, hwhole, rfl⟩ := Pair.exists_term_of_value hvalue
    refine ⟨t :: terms, ?_, ?_, fit_cons_iff.mpr ⟨hwhole, hfit⟩⟩
    · rw [List.flatMap_cons, ← hcs, ← ht]
    · rw [hn, totalNanos_cons, Nat.add_assoc]

/-- A sum is refused for the first pair at fault: the pairs before it are read. -/
theorem exists_faultAt_of_sumPairs {fault : Fault} (h : sumPairs total cs = .error fault)
    (htotal : total < Pair.wordLimit) (input : String) :
    ∃ (terms : List Term) (rest : List Char), cs = terms.flatMap Term.chars ++ rest ∧ rest ≠ [] ∧
      (terms ≠ [] → EndsUnit rest) ∧ Fit total terms ∧
      FaultAt input (total + totalNanos terms) rest (fault.toError input) := by
  fun_induction sumPairs total cs with
  | case1 => cases h
  | case2 total c cs fault' hvalue =>
    cases h
    exact ⟨[], c :: cs, rfl, List.cons_ne_nil _ _, fun hne => absurd rfl hne,
      fit_nil_iff.mpr htotal, Pair.faultAt_of_scaled (Pair.scaled_of_value hvalue) input total⟩
  | case3 total c cs nanos hvalue hlarge =>
    cases h
    obtain ⟨t, ht, -, rfl⟩ := Pair.exists_term_of_value hvalue
    refine ⟨[], c :: cs, rfl, List.cons_ne_nil _ _, fun hne => absurd rfl hne,
      fit_nil_iff.mpr htotal, ?_⟩
    rw [ht]
    exact .tooLarge t (Pair.endsUnit_rest_split _) (.inr hlarge)
  | case4 total c cs nanos hvalue hfits ih =>
    rw [not_le] at hfits
    obtain ⟨terms, rest, hcs, hne, hends, hfit, hfault⟩ := ih h hfits
    obtain ⟨t, ht, hwhole, rfl⟩ := Pair.exists_term_of_value hvalue
    refine ⟨t :: terms, rest, ?_, hne, fun _ => ?_, fit_cons_iff.mpr ⟨hwhole, hfit⟩, ?_⟩
    · rw [List.flatMap_cons, List.append_assoc, ← hcs, ← ht]
    · -- behind the pair comes another one, or what is at fault
      cases terms with
      | nil =>
        have hends := Pair.endsUnit_rest_split (c :: cs)
        rwa [hcs] at hends
      | cons u terms => exact hends (List.cons_ne_nil _ _)
    · rwa [totalNanos_cons, ← Nat.add_assoc]

end Sum

end EdgeInclude.Duration
