import Mathlib.Data.Nat.Cast.Order.Field
import Mathlib.Data.Rat.Floor
import Mathlib.Tactic.Linarith
import EdgeInclude.Proofs.Duration.Checked

/-!
# Fractions of a unit

Each digit behind a point counts for a whole number of nanoseconds. For the units up to a second, and
in the places in which a minute or an hour has whole nanoseconds, nothing but parts of a nanosecond is
dropped. Behind these places a minute has six tenths of a nanosecond and an hour three and six tenths,
of which at most the three are counted. Apart from that, a pair whose nanoseconds fit a word up to the
point and no longer behind it is read as what is left of the sum when it wraps around, which it does
once; a build that checks its sums reads no text with such a pair.

* **`Term.exact`**: the nanoseconds of a pair as a rational number. **`Term.lost`**: the whole ones among
  them that are not counted.
* **`floor_exact`**, **`lost_le`**, **`lost_of_tail_nil`**: what is counted of a pair.
* **`Term.sum_eq_nanos_add`**: how that is held in a word.
* **`fractions_are_counted_by_place`**: what is counted of a text.
* **`last_places_are_cut_short`**: two texts that fall short of what is written.
-/

namespace EdgeInclude.Duration

/-! ## What is written

The exact value of a text is a rational number. What is read differs from it by what places lose in
the division by ten. -/

/-- What the digits behind a point come to. -/
def placesValue : List Char → ℚ
  | [] => 0
  | d :: ds => (Text.digitValue d + placesValue ds) / 10

/-- The number that is written. -/
def Numeral.value (n : Numeral) : ℚ :=
  Text.digitsValue n.whole + placesValue (n.places.getD [])

/-- The nanoseconds of a pair, and parts of one. -/
def Term.exact (t : Term) : ℚ :=
  t.numeral.value * t.scale.size

/-- In how many places behind the point a digit stands for a whole number of nanoseconds. -/
def Scale.evenPlaces : Scale → Nat
  | hours => 11
  | minutes => 10
  | seconds => 9
  | millis => 6
  | micros => 3
  | nanos => 0

/-- The nanoseconds that a one stands for in the last of these places, or before the point if there is
none. -/
def Scale.lastPlace : Scale → Nat
  | hours => 36
  | minutes => 6
  | _ => 1

/-- The digits behind these places. -/
def Term.tail (t : Term) : List Char :=
  (t.numeral.places.getD []).drop t.scale.evenPlaces

/-- The whole nanoseconds to which the digits behind these places come, less those that are counted. -/
def Term.lost (t : Term) : Nat :=
  ⌊(t.scale.lastPlace : ℚ) * placesValue t.tail⌋₊ - placesNanos t.scale.lastPlace t.tail

/-- The most of a pair that is not counted. -/
def Scale.mostLost : Scale → Nat
  | hours => 8
  | minutes => 5
  | _ => 0

theorem Scale.size_eq (s : Scale) : s.size = s.lastPlace * 10 ^ s.evenPlaces := by
  cases s <;> decide

variable {c d : Char} {ds : List Char} {place : Nat} {t : Term} {terms : List Term}

/-- A digit is worth nine at most. -/
theorem digitValue_le_nine (h : Text.isDigit c = true) : Text.digitValue c ≤ 9 := by
  rw [Text.isDigit, Bool.and_eq_true, decide_eq_true_eq, decide_eq_true_eq] at h
  have hle : c.toNat ≤ '9'.toNat := UInt32.le_iff_toNat_le.mp h.2
  have hnine : '9'.toNat = '0'.toNat + 9 := by decide
  rw [Text.digitValue]
  omega

/-- Places are worth nothing or more. -/
theorem placesValue_nonneg (ds : List Char) : 0 ≤ placesValue ds := by
  induction ds with
  | nil => exact le_refl 0
  | cons d ds ih =>
    rw [placesValue]
    have hd : (0 : ℚ) ≤ Text.digitValue d := Nat.cast_nonneg _
    linarith

/-- Places are worth less than one. -/
theorem placesValue_lt_one (hds : ∀ c ∈ ds, Text.isDigit c = true) : placesValue ds < 1 := by
  induction ds with
  | nil => exact one_pos
  | cons d ds ih =>
    obtain ⟨hd, hds⟩ := List.forall_mem_cons.mp hds
    have hnine : (Text.digitValue d : ℚ) ≤ 9 := by exact_mod_cast digitValue_le_nine hd
    have := ih hds
    rw [placesValue]
    linarith

/-! ## Place by place

Dividing by ten rounds down, so each place is worth at most its exact share. -/

/-- What is counted is never more than what is written. -/
theorem placesNanos_le (place : Nat) (ds : List Char) :
    (placesNanos place ds : ℚ) ≤ place * placesValue ds := by
  induction ds generalizing place with
  | nil => simp [placesNanos, placesValue]
  | cons d ds ih =>
    have htenth : ((place / 10 : ℕ) : ℚ) ≤ place / 10 := Nat.cast_div_le
    have hsum : (0 : ℚ) ≤ Text.digitValue d + placesValue ds :=
      add_nonneg (Nat.cast_nonneg _) (placesValue_nonneg ds)
    rw [Pair.placesNanos_cons, placesValue, Nat.cast_add, Nat.cast_mul]
    calc (Text.digitValue d * (place / 10 : ℕ) + placesNanos (place / 10) ds : ℚ)
        ≤ Text.digitValue d * (place / 10 : ℕ) + (place / 10 : ℕ) * placesValue ds := by
          linarith [ih (place / 10)]
      _ = (place / 10 : ℕ) * (Text.digitValue d + placesValue ds) := by ring
      _ ≤ place / 10 * (Text.digitValue d + placesValue ds) :=
          mul_le_mul_of_nonneg_right htenth hsum
      _ = place * ((Text.digitValue d + placesValue ds) / 10) := by ring

theorem placesNanos_le_floor (place : Nat) (ds : List Char) :
    placesNanos place ds ≤ ⌊(place : ℚ) * placesValue ds⌋₊ :=
  Nat.le_floor (placesNanos_le place ds)

/-- A digit that stands for a whole number of nanoseconds is counted in full. -/
theorem floor_cons (place : Nat) (d : Char) (ds : List Char) :
    ⌊((place * 10 : ℕ) : ℚ) * placesValue (d :: ds)⌋₊ =
      Text.digitValue d * place + ⌊(place : ℚ) * placesValue ds⌋₊ := by
  have hnonneg : (0 : ℚ) ≤ place * placesValue ds :=
    mul_nonneg (Nat.cast_nonneg _) (placesValue_nonneg ds)
  have hsplit : ((place * 10 : ℕ) : ℚ) * placesValue (d :: ds) =
      place * placesValue ds + (Text.digitValue d * place : ℕ) := by
    rw [placesValue, Nat.cast_mul, Nat.cast_mul, Nat.cast_ofNat]
    ring
  rw [hsplit, Nat.floor_add_natCast hnonneg, Nat.add_comm]

/-- In the first places everything is counted, so that only those behind them make a difference. -/
theorem floor_add_placesNanos_drop (place k : Nat) (ds : List Char) :
    ⌊((place * 10 ^ k : ℕ) : ℚ) * placesValue ds⌋₊ + placesNanos place (ds.drop k) =
      placesNanos (place * 10 ^ k) ds + ⌊(place : ℚ) * placesValue (ds.drop k)⌋₊ := by
  induction k generalizing ds with
  | zero => rw [Nat.pow_zero, Nat.mul_one, List.drop_zero, Nat.add_comm]
  | succ k ih =>
    cases ds with
    | nil => simp [placesNanos, placesValue]
    | cons d ds =>
      have := ih ds
      rw [Nat.pow_succ, ← Nat.mul_assoc, floor_cons, Pair.placesNanos_cons,
        Nat.mul_div_cancel _ (by decide : 0 < 10), List.drop_succ_cons]
      omega

/-- A digit that stands for less than a nanosecond is not counted. -/
theorem placesNanos_of_lt_ten (hplace : place < 10) (ds : List Char) : placesNanos place ds = 0 := by
  cases ds with
  | nil => rfl
  | cons d ds =>
    rw [Pair.placesNanos_cons, Nat.div_eq_of_lt hplace, Pair.placesNanos_zero, Nat.mul_zero]

/-! ## One pair

A place that is divided without a remainder loses nothing, so the loss begins where the first
remainder does. -/

/-- **What is counted of a pair, and what is lost of it, is what is written.** -/
theorem floor_exact (t : Term) : ⌊t.exact⌋₊ = t.sum + t.lost := by
  generalize hplaces : t.numeral.places.getD [] = places
  have hnonneg : (0 : ℚ) ≤ t.scale.size * placesValue places :=
    mul_nonneg (Nat.cast_nonneg _) (placesValue_nonneg _)
  have hexact : t.exact = t.scale.size * placesValue places + (t.wholeNanos : ℕ) := by
    rw [Term.exact, Numeral.value, hplaces, Term.wholeNanos, Nat.cast_mul]
    ring
  have hdrop := floor_add_placesNanos_drop t.scale.lastPlace t.scale.evenPlaces places
  have hle := placesNanos_le_floor t.scale.lastPlace (places.drop t.scale.evenPlaces)
  rw [← Scale.size_eq] at hdrop
  rw [hexact, Nat.floor_add_natCast hnonneg, Term.sum, Term.lost, Term.tail, hplaces]
  omega

/-- Places are digits. -/
theorem isDigit_of_mem_places (hc : c ∈ t.numeral.places.getD []) : Text.isDigit c = true := by
  cases hp : t.numeral.places with
  | none =>
    rw [hp] at hc
    cases hc
  | some places =>
    rw [hp] at hc
    exact t.numeral.isDigit_places places hp c hc

/-- What stands behind the point is less than one unit. -/
theorem placesNanos_lt_size (t : Term) :
    placesNanos t.scale.size (t.numeral.places.getD []) < t.scale.size := by
  have hone := placesValue_lt_one fun c hc => isDigit_of_mem_places (t := t) hc
  have hle := placesNanos_le t.scale.size (t.numeral.places.getD [])
  have hpos : (0 : ℚ) < t.scale.size := Nat.cast_pos.mpr t.scale.size_pos
  have hlt := mul_lt_mul_of_pos_left hone hpos
  rw [mul_one] at hlt
  exact_mod_cast hle.trans_lt hlt

/-- **A pair that outgrows the word wraps around once.** -/
theorem Term.sum_eq_nanos_add (h : t.wholeNanos < Pair.wordLimit) :
    t.sum = t.nanos + if t.Outgrows then Pair.wordLimit else 0 := by
  have hunit : t.scale.size < Pair.wordLimit := by
    cases t.scale <;> decide
  have hplaces := placesNanos_lt_size t
  by_cases hgrows : Pair.wordLimit ≤ t.sum
  · have hover : t.sum - Pair.wordLimit < Pair.wordLimit := by
      rw [Term.sum]
      omega
    rw [if_pos ⟨h, hgrows⟩, Term.nanos, Nat.mod_eq_sub_mod hgrows, Nat.mod_eq_of_lt hover]
    omega
  · rw [if_neg fun hgrows' => hgrows hgrows'.2, Term.nanos_of_lt (not_le.mp hgrows), Nat.add_zero]

theorem isDigit_of_mem_tail (hc : c ∈ t.tail) : Text.isDigit c = true :=
  isDigit_of_mem_places (List.mem_of_mem_drop hc)

/-- With no digit behind the last even place nothing is lost. -/
theorem lost_of_tail_nil (h : t.tail = []) : t.lost = 0 := by
  simp [Term.lost, h, placesValue]

/-- Of a place that stands for three nanoseconds and six tenths three are counted. -/
theorem floor_le_of_hours (hds : ∀ c ∈ ds, Text.isDigit c = true) :
    ⌊((36 : ℕ) : ℚ) * placesValue ds⌋₊ ≤ placesNanos 36 ds + 8 := by
  cases ds with
  | nil => simp [placesValue]
  | cons d ds =>
    obtain ⟨hd, hds⟩ := List.forall_mem_cons.mp hds
    have hnine : (Text.digitValue d : ℚ) ≤ 9 := by exact_mod_cast digitValue_le_nine hd
    have hone := placesValue_lt_one hds
    have hnanos : placesNanos 36 (d :: ds) = Text.digitValue d * 3 := by
      rw [Pair.placesNanos_cons, placesNanos_of_lt_ten (by decide)]
      rfl
    refine Nat.le_of_lt_succ ((Nat.floor_lt' (Nat.succ_ne_zero _)).mpr ?_)
    rw [hnanos, placesValue]
    push_cast
    linarith

/-- **Of a pair of minutes no more than five nanoseconds are lost, of one of hours no more than eight,
and of the others none.** -/
theorem lost_le (t : Term) : t.lost ≤ t.scale.mostLost := by
  have hdigit : ∀ c ∈ t.tail, Text.isDigit c = true := fun _ => isDigit_of_mem_tail
  have hone := placesValue_lt_one hdigit
  have hsmall (place : Nat) (hplace : 0 < place) :
      ⌊(place : ℚ) * placesValue t.tail⌋₊ < place := by
    have hpos : (0 : ℚ) < place := Nat.cast_pos.mpr hplace
    refine (Nat.floor_lt' (Nat.ne_of_gt hplace)).mpr ?_
    simpa using mul_lt_mul_of_pos_left hone hpos
  have hminutes := hsmall 6 (by decide)
  have hothers := hsmall 1 (by decide)
  have hhours := floor_le_of_hours hdigit
  unfold Term.lost
  cases t.scale <;> simp only [Scale.lastPlace, Scale.mostLost] <;> omega

/-! ## The whole text

What is lost in the pairs adds up, and a pair that outgrows the word wraps around on top of that. -/

/-- However a text is split into pairs, they are counted, and their sum is what it is read as. -/
theorem fit_of_sumPairs {total n : Nat} (htotal : total < Pair.wordLimit)
    (h : sumPairs total (terms.flatMap Term.chars) = .ok n) :
    Fit total terms ∧ n = total + totalNanos terms := by
  induction terms generalizing total with
  | nil =>
    rw [List.flatMap_nil, sumPairs] at h
    cases h
    exact ⟨fit_nil_iff.mpr htotal, rfl⟩
  | cons t terms ih =>
    have hends : EndsUnit (terms.flatMap Term.chars ++ []) :=
      endsUnit_flatMap_chars terms fun _ => endsUnit_nil
    rw [List.append_nil] at hends
    rw [List.flatMap_cons, sumPairs_term hends] at h
    split at h
    · cases h
    · rename_i hcounted
      rw [not_or, not_le, not_le] at hcounted
      obtain ⟨hfit, hn⟩ := ih hcounted.2 h
      exact ⟨fit_cons_iff.mpr ⟨hcounted.1, hfit⟩, by rw [hn, totalNanos_cons, Nat.add_assoc]⟩

/-- The exact values, rounded down, are what is read, what is lost, and the words that wrapped around. -/
theorem sum_floor_exact (hwhole : ∀ t ∈ terms, t.wholeNanos < Pair.wordLimit) :
    (terms.map fun t => ⌊t.exact⌋₊).sum = totalNanos terms + (terms.map Term.lost).sum +
      Pair.wordLimit * terms.countP (·.Outgrows) := by
  induction terms with
  | nil => rfl
  | cons t terms ih =>
    obtain ⟨ht, hterms⟩ := List.forall_mem_cons.mp hwhole
    rw [List.map_cons, List.sum_cons, ih hterms, floor_exact, Term.sum_eq_nanos_add ht,
      totalNanos_cons, List.map_cons, List.sum_cons, List.countP_cons]
    by_cases hgrows : t.Outgrows
    · simp only [hgrows, if_true, decide_true, Nat.mul_add, Nat.mul_one]
      omega
    · simp only [hgrows, if_false, decide_false, Bool.false_eq_true, Nat.add_zero]
      omega

/-- **A fraction is counted place by place.** A text that is read is a bare zero or pairs one behind the
other, and is read as the whole nanoseconds of these, less what is lost of each: five nanoseconds at most
of minutes, eight of hours, and none of any other unit or where no digit stands behind the places in
which a minute or an hour has whole nanoseconds. For each pair whose nanoseconds fit a word up to the
point and no longer behind it, the text is read as one word less; a build that checks its sums reads the
texts without such a pair, and reads them the same. -/
theorem fractions_are_counted_by_place {input : String} {d : Duration} (h : parse input = .ok d) :
    (∃ negative cs, Signed input.toList negative cs ∧ (cs = ['0'] ∧ d.nanos = 0 ∨
      ∃ terms : List Term, terms ≠ [] ∧ cs = terms.flatMap Term.chars)) ∧
    ∀ (negative : Bool) (terms : List Term), Signed input.toList negative (terms.flatMap Term.chars) →
      (terms.map fun t => ⌊t.exact⌋₊).sum = d.nanos + (terms.map Term.lost).sum +
        Pair.wordLimit * terms.countP (·.Outgrows) ∧
      (parseChecked input = some (.ok d) ↔ ∀ t ∈ terms, ¬ t.Outgrows) ∧
      ∀ t ∈ terms, t.lost ≤ t.scale.mostLost ∧ (t.tail = [] → t.lost = 0) := by
  refine ⟨?_, fun negative terms hsigned => ?_⟩
  · obtain ⟨negative, cs, hsigned⟩ := exists_signed input.toList
    refine ⟨negative, cs, hsigned, ?_⟩
    by_cases hzero : cs = ['0']
    · subst hzero
      rw [parse_of_zero hsigned] at h
      cases h
      exact .inl ⟨rfl, rfl⟩
    · obtain ⟨terms, hne, hcs, -⟩ := exists_terms_of_parse h hsigned hzero
      exact .inr ⟨terms, hne, hcs⟩
  · have hsum := sumPairs_of_parse h hsigned (Term.flatMap_chars_ne_zero terms)
    obtain ⟨hfit, hnanos⟩ := fit_of_sumPairs (by decide) hsum
    have hne : terms ≠ [] := by
      -- an empty text is refused
      rintro rfl
      rw [parse_of_nil hsigned] at h
      cases h
    refine ⟨?_, parseChecked_terms_iff h hfit hne hsigned,
      fun t _ => ⟨lost_le t, lost_of_tail_nil⟩⟩
    rw [hnanos, Nat.zero_add]
    exact sum_floor_exact hfit.whole

/-- Three nanoseconds in the place behind the last even one of a minute. -/
def shortMinute : Term where
  numeral :=
    { whole := []
      places := some "00000000005".toList
      isDigit_whole := nofun
      isDigit_places := by
        rintro ds ⟨rfl⟩
        exact List.all_eq_true.mp (by decide +kernel)
      has_digit := by decide +kernel }
  scale := .minutes
  symbol := "m"
  symbol_mem := by decide +kernel

/-- Thirty-five nanoseconds in the two places behind the last even one of an hour. -/
def shortHour : Term where
  numeral :=
    { whole := []
      places := some "0000000000099".toList
      isDigit_whole := nofun
      isDigit_places := by
        rintro ds ⟨rfl⟩
        exact List.all_eq_true.mp (by decide +kernel)
      has_digit := by decide +kernel }
  scale := .hours
  symbol := "h"
  symbol_mem := by decide +kernel

/-- Two pairs of which one loses eight nanoseconds. -/
theorem fractions_are_counted_by_place_short :
    parse ".0000000000099h.00000000005m" = .ok ⟨27, by decide⟩ ∧
      Signed ".0000000000099h.00000000005m".toList false ([shortHour, shortMinute].flatMap Term.chars) ∧
      ⌊shortHour.exact⌋₊ + ⌊shortMinute.exact⌋₊ = 27 + (shortHour.lost + shortMinute.lost) ∧
      shortHour.lost = Scale.hours.mostLost ∧ shortMinute.lost ≤ Scale.minutes.mostLost := by
  have h : parse ".0000000000099h.00000000005m" = .ok ⟨27, by decide⟩ := by decide +kernel
  have hsigned : Signed ".0000000000099h.00000000005m".toList false
      ([shortHour, shortMinute].flatMap Term.chars) :=
    .bare (show IsUnsigned ".0000000000099h.00000000005m" by decide +kernel)
  obtain ⟨hsum, -, hlost⟩ := (fractions_are_counted_by_place h).2 false _ hsigned
  exact ⟨h, hsigned, hsum, by decide +kernel, (hlost shortMinute (by simp)).1⟩

/-- **The places of a minute and of an hour behind the even ones are cut short.** What is read of these
texts is not the whole nanoseconds that are written. -/
theorem last_places_are_cut_short :
    parse ".00000000005m" = .ok ⟨0, by decide⟩ ∧ ⌊shortMinute.exact⌋₊ = 3 ∧
      parse ".0000000000099h" = .ok ⟨27, by decide⟩ ∧ ⌊shortHour.exact⌋₊ = 35 ∧
      ¬ ∀ (input : String) (d : Duration) (negative : Bool) (terms : List Term),
        parse input = .ok d → Signed input.toList negative (terms.flatMap Term.chars) →
        d.nanos = (terms.map fun t => ⌊t.exact⌋₊).sum := by
  have hminute : parse ".00000000005m" = .ok ⟨0, by decide⟩ := by decide +kernel
  have hthree : ⌊shortMinute.exact⌋₊ = 3 := by decide +kernel
  refine ⟨hminute, hthree, by decide +kernel, by decide +kernel, fun hall => ?_⟩
  have hsigned : Signed ".00000000005m".toList false ([shortMinute].flatMap Term.chars) :=
    .bare (show IsUnsigned ".00000000005m" by decide +kernel)
  have hsum := hall _ _ _ _ hminute hsigned
  rw [List.map_singleton, hthree] at hsum
  cases hsum

end EdgeInclude.Duration
