import Mathlib.Data.List.Basic
import EdgeInclude.Proofs.Duration.Grammar

/-!
# Durations one behind the other

The unit at the end of a text ends where the next number begins, so that the pairs of two texts one
behind the other are the pairs of both. They are read as the sum of the two durations, if there is one
that long.

* **`sumPairs_of_parse`**, **`exists_terms_of_parse`**: what is read, but for a bare zero, is the sum of
  pairs.
* **`parse_append`**: texts one behind the other are read as the sum.
-/

namespace EdgeInclude.Duration

variable {input a b : String} {negative : Bool} {cs : List Char} {d e : Duration} {n total : Nat}

/-- The text begins with no sign. -/
def IsUnsigned (text : String) : Prop :=
  ∀ c ∈ text.toList.head?, c ≠ '-' ∧ c ≠ '+'

instance (text : String) : Decidable (IsUnsigned text) :=
  decidable_of_iff (text.toList.head?.all fun c => c != '-' && c != '+') (by
    simp [IsUnsigned, Option.all_eq_true])

/-- Pairs behind pairs add up. -/
theorem totalNanos_append (terms us : List Term) :
    totalNanos (terms ++ us) = totalNanos terms + totalNanos us := by
  induction terms with
  | nil => exact (Nat.zero_add _).symm
  | cons t terms ih => rw [List.cons_append, totalNanos_cons, totalNanos_cons, ih, Nat.add_assoc]

/-! ## What was read

A text that is read is pairs that fit, unless it is a zero without a unit. -/

/-- A duration that is read, but for a bare zero, is the sum of the pairs behind the sign. -/
theorem sumPairs_of_parse (h : parse input = .ok d) (hsigned : Signed input.toList negative cs)
    (hzero : cs ≠ ['0']) : sumPairs 0 cs = .ok d.nanos := by
  by_cases hne : cs = []
  · subst hne
    rw [parse_of_nil hsigned] at h
    cases h
  rw [parse_of_ne hsigned hzero hne] at h
  cases hsum : sumPairs 0 cs with
  | error fault =>
    rw [hsum] at h
    cases h
  | ok n =>
    simp only [hsum] at h
    split at h
    · cases h
    split at h
    · cases h
      rfl
    · cases h

/-- The pairs of a text that is read. -/
theorem exists_terms_of_parse (h : parse input = .ok d) (hsigned : Signed input.toList negative cs)
    (hzero : cs ≠ ['0']) :
    ∃ terms : List Term, terms ≠ [] ∧ cs = terms.flatMap Term.chars ∧ Fit 0 terms ∧
      d.nanos = totalNanos terms := by
  have hsum := sumPairs_of_parse h hsigned hzero
  obtain ⟨terms, hcs, hnanos, hfit⟩ := exists_terms_of_sumPairs hsum (by decide)
  rw [Nat.zero_add] at hnanos
  refine ⟨terms, ?_, hcs, hfit, hnanos⟩
  -- an empty text is refused
  rintro rfl
  subst hcs
  rw [parse_of_nil hsigned] at h
  cases h

/-! ## One text behind the other

Without a sign or a unit cut in two, the pairs of both texts are those of the one and then those of
the other. -/

theorem IsUnsigned.signed (h : IsUnsigned input) : Signed input.toList false input.toList :=
  .bare h

theorem IsUnsigned.append (h : IsUnsigned a) (hne : a.toList ≠ []) : IsUnsigned (a ++ b) := by
  unfold IsUnsigned at h ⊢
  rwa [String.toList_append, List.head?_append_of_ne_nil _ hne]

/-- The sum of two durations is counted with, even where there is no duration that long. -/
theorem add_lt_wordLimit (d e : Duration) : d.nanos + e.nanos < Pair.wordLimit := by
  have htwo : maxDurationNanos + maxDurationNanos < Pair.wordLimit := by decide
  exact Nat.lt_of_le_of_lt (Nat.add_le_add d.le_max e.le_max) htwo

/-- Pairs that are counted are counted one behind the other, if their sum fits the word. -/
theorem Fit.append {terms us : List Term} (h : Fit 0 terms) (h' : Fit 0 us)
    (hsum : totalNanos (terms ++ us) < Pair.wordLimit) : Fit 0 (terms ++ us) where
  whole t ht := (List.mem_append.mp ht).elim (h.whole t) (h'.whole t)
  sum := by rwa [Nat.zero_add]

/-- **Durations one behind the other are read as their sum.** Two texts that are read, neither of them a
bare zero or with a sign in front, are read one behind the other as the sum of the two durations. If that
is longer than the longest one, the text is refused for that. -/
theorem parse_append (ha : parse a = .ok d) (hb : parse b = .ok e) (hsigna : IsUnsigned a)
    (hsignb : IsUnsigned b) (hzeroa : a ≠ "0") (hzerob : b ≠ "0") :
    parse (a ++ b) =
      if h : d.nanos + e.nanos ≤ maxDurationNanos then .ok ⟨d.nanos + e.nanos, h⟩
      else .error (.outOfRange (a ++ b)) := by
  have hbare {text : String} (hzero : text ≠ "0") : text.toList ≠ ['0'] := fun h =>
    hzero (String.toList_inj.mp h)
  obtain ⟨terms, hne, hchars, hfit, hnanos⟩ := exists_terms_of_parse ha hsigna.signed (hbare hzeroa)
  obtain ⟨us, -, hchars', hfit', hnanos'⟩ := exists_terms_of_parse hb hsignb.signed (hbare hzerob)
  have hnonempty : a.toList ≠ [] := hchars ▸ Term.flatMap_chars_ne_nil hne
  have hsigned : Signed (a ++ b).toList false ((terms ++ us).flatMap Term.chars) := by
    rw [List.flatMap_append, ← hchars, ← hchars', ← String.toList_append]
    exact (hsigna.append hnonempty).signed
  -- the sum of both is no more than twice the longest duration, so it fits the word
  have htotal : totalNanos (terms ++ us) = d.nanos + e.nanos := by
    rw [totalNanos_append, hnanos, hnanos']
  have hboth : Fit 0 (terms ++ us) := hfit.append hfit' (htotal ▸ add_lt_wordLimit d e)
  split
  · rename_i hmax
    have hspells : Spells ((terms ++ us).flatMap Term.chars) (d.nanos + e.nanos) :=
      htotal ▸ .pairs (List.append_ne_nil_of_left_ne_nil hne us) hboth
    exact parse_of_spells hsigned hspells hmax fun hsign => absurd hsign Bool.false_ne_true
  · rename_i hmax
    refine parse_of_refused hsigned (.tooLong ?_ hboth)
    rw [htotal]
    exact Nat.lt_of_not_le hmax

/-- Two texts of two pairs each, and two that are too long together. -/
theorem parse_append_compound :
    (parse "1h.5m" = .ok ⟨3630000000000, by decide⟩ ∧ IsUnsigned "1h.5m" ∧
      parse "2.s7ns" = .ok ⟨2000000007, by decide⟩ ∧ IsUnsigned "2.s7ns" ∧
      parse ("1h.5m" ++ "2.s7ns") = .ok ⟨3632000000007, by decide⟩) ∧
    parse "18446744073709551615s" = .ok ⟨18446744073709551615000000000, by decide⟩ ∧
      parse "1s" = .ok ⟨1000000000, by decide⟩ ∧
      parse ("18446744073709551615s" ++ "1s") = .error (.outOfRange "18446744073709551615s1s") := by
  have hfront : parse "1h.5m" = .ok ⟨3630000000000, by decide⟩ := by decide +kernel
  have hback : parse "2.s7ns" = .ok ⟨2000000007, by decide⟩ := by decide +kernel
  have hlongest : parse "18446744073709551615s" =
      .ok ⟨18446744073709551615000000000, by decide⟩ := by decide +kernel
  have hsecond : parse "1s" = .ok ⟨1000000000, by decide⟩ := by decide +kernel
  have hone : IsUnsigned "1h.5m" ∧ "1h.5m" ≠ "0" := by decide +kernel
  have htwo : IsUnsigned "2.s7ns" ∧ "2.s7ns" ≠ "0" := by decide +kernel
  have hmost : IsUnsigned "18446744073709551615s" ∧ "18446744073709551615s" ≠ "0" := by
    decide +kernel
  have hmore : IsUnsigned "1s" ∧ "1s" ≠ "0" := by decide +kernel
  exact ⟨⟨hfront, hone.1, hback, htwo.1, parse_append hfront hback hone.1 htwo.1 hone.2 htwo.2⟩,
    hlongest, hsecond, parse_append hlongest hsecond hmost.1 hmore.1 hmost.2 hmore.2⟩

end EdgeInclude.Duration
