import EdgeInclude.Duration.Printer
import EdgeInclude.Proofs.Duration.Grammar
import EdgeInclude.Proofs.Text.Decimal

/-!
# Durations that are written and read back

A duration is written as one pair: a whole number of a unit. Read back it is the same duration.

* **`exists_written`**: the pair as which a duration is written.
* **`parse_print`**: it is read back.
* **`print_round_trip`**: what is written, and that it is read back.
-/

namespace EdgeInclude.Duration

/-! ## The pair that is written

A duration is written as one pair in whole numbers, in the largest unit that divides it. -/

theorem Scale.symbol_mem_spellings (s : Scale) : s.symbol ∈ s.spellings := by
  cases s <;> decide

/-- A number of a unit, as it is written. -/
def Term.ofNat (n : Nat) (scale : Scale) : Term where
  numeral :=
    { whole := Text.digits n
      places := none
      isDigit_whole := fun _ => Text.isDigit_of_mem_digits
      isDigit_places := fun _ h => nomatch h
      has_digit := .inl (Text.digits_ne_nil n) }
  scale := scale
  symbol := scale.symbol
  symbol_mem := scale.symbol_mem_spellings

theorem Term.chars_ofNat (n : Nat) (scale : Scale) :
    (ofNat n scale).chars = Text.digits n ++ scale.symbol.toList :=
  rfl

theorem Term.wholeNanos_ofNat (n : Nat) (scale : Scale) :
    (ofNat n scale).wholeNanos = n * scale.size :=
  congrArg (· * scale.size) (Text.digitsValue_digits n)

theorem Term.nanos_ofNat {n : Nat} {scale : Scale} (h : n * scale.size < Pair.wordLimit) :
    (ofNat n scale).nanos = n * scale.size := by
  rw [← wholeNanos_ofNat n scale] at h ⊢
  exact Nat.mod_eq_of_lt h

/-- A pair in whole numbers fits if its nanoseconds do. -/
theorem Term.fit_ofNat {n : Nat} {scale : Scale} (h : n * scale.size < Pair.wordLimit) :
    Fit 0 [ofNat n scale] := by
  refine fit_cons_iff.mpr ⟨?_, fit_nil_iff.mpr ?_⟩
  · rwa [wholeNanos_ofNat]
  · rwa [Nat.zero_add, nanos_ofNat h]

/-- The largest unit that divides is no smaller than another one that does. -/
theorem Scale.size_le_largest {n : Nat} {scale : Scale} (h : scale.size ∣ n) :
    scale.size ≤ (largest n).size := by
  have hmod := Nat.mod_eq_zero_of_dvd h
  unfold largest
  cases scale <;> repeat' split
  all_goals first | contradiction | decide

/-- A duration is written as a whole number of a unit. -/
theorem exists_written (d : Duration) : ∃ (n : Nat) (scale : Scale),
    d.print.toList = (Term.ofNat n scale).chars ∧ n * scale.size = d.nanos ∧
      (0 < d.nanos → scale = Scale.largest d.nanos) := by
  by_cases hzero : d.nanos = 0
  · refine ⟨0, .seconds, ?_, ?_, fun hpos => absurd hzero (Nat.ne_of_gt hpos)⟩
    · rw [print, if_pos hzero]
      decide
    · rw [hzero, Nat.zero_mul]
  · refine ⟨d.nanos / (Scale.largest d.nanos).size, Scale.largest d.nanos, ?_, ?_, fun _ => rfl⟩
    · simp only [print, if_neg hzero, Text.decimal, String.toList_append, String.toList_ofList,
        Term.chars_ofNat]
    · exact Nat.div_mul_cancel (Nat.dvd_of_mod_eq_zero (Scale.mod_size_largest d.nanos))

/-! ## Reading it back

The pair that is written is one of the texts that the grammar spells. -/

/-- A number begins with no sign. -/
theorem signed_digits (n : Nat) (rest : List Char) :
    Signed (Text.digits n ++ rest) false (Text.digits n ++ rest) := by
  refine .bare fun c hc => ?_
  obtain ⟨d, ds, hds⟩ := List.exists_cons_of_ne_nil (Text.digits_ne_nil n)
  have hd : Text.isDigit d = true := Text.isDigit_of_mem_digits (hds ▸ List.mem_cons_self)
  rw [hds] at hc
  cases hc
  constructor <;> rintro rfl <;> exact absurd hd (by decide)

/-- What is written is read back. -/
theorem parse_print (d : Duration) : parse d.print = .ok d := by
  obtain ⟨n, scale, hchars, hnanos, -⟩ := exists_written d
  have hsigned : Signed d.print.toList false (Term.ofNat n scale).chars := by
    rw [hchars]
    exact signed_digits n _
  have hword : n * scale.size < Pair.wordLimit :=
    hnanos ▸ Nat.lt_of_le_of_lt d.le_max (by decide)
  have hspells := Spells.pairs (List.cons_ne_nil _ _) (Term.fit_ofNat hword)
  rw [List.flatMap_singleton, totalNanos_single, Term.nanos_ofNat hword, hnanos] at hspells
  exact parse_of_spells hsigned hspells d.le_max (fun h => nomatch h)

/-- **Durations survive being written and read.** Every duration is read back from its text. A
duration that is not zero is written as one whole number without leading zeros and the largest unit
of which it is a whole number. No two durations are written alike. -/
theorem print_round_trip :
    (∀ d : Duration, parse d.print = .ok d) ∧
    (∀ d : Duration, 0 < d.nanos → ∃ (ds : List Char) (scale : Scale),
      d.print.toList = ds ++ scale.symbol.toList ∧
      ds ≠ [] ∧ (∀ c ∈ ds, Text.isDigit c = true) ∧ ds.head? ≠ some '0' ∧
      Text.digitsValue ds * scale.size = d.nanos ∧
      scale.size ∣ d.nanos ∧ ∀ scale' : Scale, scale'.size ∣ d.nanos → scale'.size ≤ scale.size) ∧
    Function.Injective print := by
  refine ⟨parse_print, fun d hpos => ?_, fun d e h => ?_⟩
  · obtain ⟨n, scale, hchars, hnanos, hlargest⟩ := exists_written d
    obtain rfl := hlargest hpos
    have hn : 0 < n := by
      by_contra hn
      rw [Nat.eq_zero_of_not_pos hn, Nat.zero_mul] at hnanos
      exact Nat.ne_of_lt hpos hnanos
    refine ⟨Text.digits n, Scale.largest d.nanos, hchars, Text.digits_ne_nil n,
      fun _ => Text.isDigit_of_mem_digits, Text.head?_digits_ne_zero hn, ?_, ?_,
      fun _ => Scale.size_le_largest⟩
    · rw [Text.digitsValue_digits, hnanos]
    · exact Nat.dvd_of_mod_eq_zero (Scale.mod_size_largest d.nanos)
  · have hread := parse_print d
    rw [h, parse_print e] at hread
    exact (Except.ok.inj hread).symm

/-- A minute and a half is no whole number of minutes. -/
example : (ofSeconds 90).print = "90s" := by
  decide

end EdgeInclude.Duration
