import EdgeInclude.Proofs.Duration.Sums

/-!
# Builds that check their sums

What stands behind the point of a pair is added to a word that may have no room for it. A build that
checks its sums breaks down there, where another goes on with what is left of the sum. Nothing else
distinguishes them.

* **`Pair.addFractionChecked_eq`**: when the addition breaks down, and what it comes to otherwise.
* **`BreaksAt`**: a text with a pair that outgrows the word, behind pairs that are counted.
  **`sumPairsChecked_spec`**: a checked sum breaks down there, or is the sum.
* **`parseChecked_spec`**, **`parseChecked_eq_none_iff`**, **`eq_parse_of_parseChecked`**: the reading
  breaks down at such a pair, and comes to the same otherwise.
* **`parseChecked_terms_iff`**: the texts that are read either way.
-/

namespace EdgeInclude.Duration

variable {input : String} {negative : Bool} {cs rest : List Char} {total : Nat} {t : Term}
variable {terms : List Term} {d : Duration}

/-! ## One pair

A build that checks its sums breaks down where the places push a pair over the word; all else it
does like the other. -/

namespace Pair

/-- The addition breaks down where the sum of it all does not fit the word. It makes no difference that
the sum is checked at each digit, for it only grows. -/
theorem addFractionChecked_eq {nanos : Nat} (hnanos : nanos < wordLimit) (place : Nat)
    (ds : List Char) :
    addFractionChecked nanos place ds =
      if wordLimit ≤ nanos + placesNanos place ds then none
      else some (addFraction nanos place ds) := by
  induction ds generalizing nanos place with
  | nil => exact (if_neg (Nat.not_le_of_lt hnanos)).symm
  | cons d ds ih =>
    rw [addFractionChecked, addFraction]
    by_cases hplace : place / 10 = 0
    · rw [placesNanos_of_div_eq_zero hplace, Nat.add_zero, if_pos hplace, if_pos hplace,
        if_neg (Nat.not_le_of_lt hnanos)]
    · rw [if_neg hplace, if_neg hplace, placesNanos_cons, ← Nat.add_assoc]
      by_cases hsum : wordLimit ≤ nanos + Text.digitValue d * (place / 10)
      · rw [if_pos hsum, if_pos (Nat.le_trans hsum (Nat.le_add_right _ _))]
      · rw [if_neg hsum, ih (not_le.mp hsum), Nat.mod_eq_of_lt (not_le.mp hsum)]

/-- A pair that outgrows the word breaks down. -/
theorem valueChecked_split_term (hends : EndsUnit rest) :
    (split (t.chars ++ rest)).valueChecked =
      if t.Outgrows then none else some (split (t.chars ++ rest)).value := by
  unfold valueChecked value
  rw [scaled_split_term hends, split_term hends]
  by_cases hwhole : wordLimit ≤ t.wholeNanos
  · have hrefused : ¬ t.Outgrows := fun h => Nat.not_lt_of_le hwhole h.1
    simp only [if_pos hwhole, if_neg hrefused]
  · simp only [if_neg hwhole, addFractionChecked_eq (not_le.mp hwhole)]
    by_cases hsum : wordLimit ≤ t.sum
    · rw [if_pos (show t.Outgrows from ⟨not_le.mp hwhole, hsum⟩)]
      exact congrArg _ (if_pos hsum)
    · rw [if_neg (show ¬ t.Outgrows from fun h => hsum h.2)]
      exact congrArg _ (if_neg hsum)

/-- A pair that is refused before its fraction is added is refused in either build. -/
theorem valueChecked_of_scaled {p : Pair} {fault : Fault} (h : p.scaled = .error fault) :
    p.valueChecked = some p.value := by
  rw [valueChecked, value, h]

end Pair

/-! ## All pairs

Pairs are read one after the other, so the first that breaks down or has a fault decides. -/

/-- The first pair breaks down, or is added to the total. -/
theorem sumPairsChecked_of_ne_nil (hne : cs ≠ []) : sumPairsChecked total cs =
    match (Pair.split cs).valueChecked with
    | none => none
    | some (.error fault) => some (.error fault)
    | some (.ok nanos) =>
      if Pair.wordLimit ≤ total + nanos then some (.error .tooLarge)
      else sumPairsChecked (total + nanos) (Pair.split cs).rest := by
  obtain ⟨c, cs, rfl⟩ := List.exists_cons_of_ne_nil hne
  exact sumPairsChecked.eq_def total (c :: cs)

/-- The pair at the front is added, unless the addition breaks down or the pair is refused. -/
theorem sumPairsChecked_term (hends : EndsUnit rest) : sumPairsChecked total (t.chars ++ rest) =
    if t.Outgrows then none
    else if Pair.wordLimit ≤ t.wholeNanos ∨ Pair.wordLimit ≤ total + t.nanos then
      some (.error .tooLarge)
    else sumPairsChecked (total + t.nanos) rest := by
  rw [sumPairsChecked_of_ne_nil (List.append_ne_nil_of_left_ne_nil t.chars_ne_nil _),
    Pair.valueChecked_split_term hends]
  by_cases hgrows : t.Outgrows
  · simp only [if_pos hgrows]
  rw [if_neg hgrows, if_neg hgrows, Pair.value_split_term hends, Pair.split_term hends]
  by_cases hwhole : Pair.wordLimit ≤ t.wholeNanos
  · simp only [if_pos hwhole, if_pos (Or.inl hwhole)]
  · simp only [hwhole, if_false, false_or]

/-- Pairs that are counted are added up, unless one of them outgrows the word. -/
theorem sumPairsChecked_flatMap (hends : terms ≠ [] → EndsUnit rest) (hfit : Fit total terms) :
    sumPairsChecked total (terms.flatMap Term.chars ++ rest) =
      if ∃ t ∈ terms, t.Outgrows then none
      else sumPairsChecked (total + totalNanos terms) rest := by
  induction terms generalizing total with
  | nil => simp [totalNanos]
  | cons t terms ih =>
    obtain ⟨hwhole, hfit⟩ := fit_cons_iff.mp hfit
    have hsum := hfit.total_lt
    have hcounted : ¬ (Pair.wordLimit ≤ t.wholeNanos ∨ Pair.wordLimit ≤ total + t.nanos) := by
      omega
    have hends' : EndsUnit (terms.flatMap Term.chars ++ rest) :=
      endsUnit_flatMap_chars terms fun _ => hends (List.cons_ne_nil _ _)
    rw [List.flatMap_cons, List.append_assoc, sumPairsChecked_term hends', if_neg hcounted,
      ih (fun _ => hends (List.cons_ne_nil _ _)) hfit, totalNanos_cons, Nat.add_assoc]
    by_cases hgrows : t.Outgrows <;> simp [hgrows]

/-- Behind pairs that are counted, of which none outgrows the word, stands one that does. -/
def BreaksAt (total : Nat) (cs : List Char) : Prop :=
  ∃ (terms : List Term) (t : Term) (rest : List Char),
    cs = terms.flatMap Term.chars ++ (t.chars ++ rest) ∧ EndsUnit rest ∧ Fit total terms ∧
      (∀ u ∈ terms, ¬ u.Outgrows) ∧ t.Outgrows

/-- The pairs before it may be none. -/
theorem BreaksAt.head (ht : cs = t.chars ++ (Pair.split cs).rest) (hgrows : t.Outgrows)
    (htotal : total < Pair.wordLimit) : BreaksAt total cs :=
  ⟨[], t, _, ht, Pair.endsUnit_rest_split _, fit_nil_iff.mpr htotal, by simp, hgrows⟩

/-- Where a pair breaks down so does the sum. -/
theorem sumPairsChecked_of_breaksAt (h : BreaksAt total cs) : sumPairsChecked total cs = none := by
  obtain ⟨terms, t, rest, rfl, hends, hfit, hgrows, ht⟩ := h
  have hunit : EndsUnit (t.chars ++ rest) := by
    rw [Term.chars, List.append_assoc]
    exact t.numeral.endsUnit_append _
  rw [sumPairsChecked_flatMap (fun _ => hunit) hfit, if_neg (by simpa using hgrows),
    sumPairsChecked_term hends, if_pos ht]

/-- What stands at the front of a text, as either build looks at it: a pair that outgrows the word, one
that both refuse, or one that both count. -/
theorem valueChecked_cases (cs : List Char) :
    (∃ t : Term, cs = t.chars ++ (Pair.split cs).rest ∧ t.Outgrows ∧
      (Pair.split cs).valueChecked = none) ∨
    (Pair.split cs).valueChecked = some (Pair.split cs).value ∧
      ∀ nanos, (Pair.split cs).value = .ok nanos →
        ∃ t : Term, cs = t.chars ++ (Pair.split cs).rest ∧ t.wholeNanos < Pair.wordLimit ∧
          t.nanos = nanos ∧ ¬ t.Outgrows := by
  cases hscaled : (Pair.split cs).scaled with
  | error fault =>
    refine .inr ⟨Pair.valueChecked_of_scaled hscaled, fun nanos h => ?_⟩
    rw [Pair.value, hscaled] at h
    cases h
  | ok x =>
    obtain ⟨t, ht⟩ := Pair.exists_term_of_scaled hscaled
    have hends := Pair.endsUnit_rest_split cs
    have hchecked := Pair.valueChecked_split_term (t := t) hends
    have hvalue := Pair.value_split_term (t := t) hends
    rw [← ht] at hchecked hvalue
    -- the one way to break down is a pair that fits before its places are added and not after
    by_cases hgrows : t.Outgrows
    · exact .inl ⟨t, ht, hgrows, hchecked.trans (if_pos hgrows)⟩
    · refine .inr ⟨hchecked.trans (if_neg hgrows), fun nanos h => ?_⟩
      rw [hvalue] at h
      split at h
      · cases h
      · exact ⟨t, ht, not_le.mp ‹_›, Except.ok.inj h, hgrows⟩

/-- **A checked sum breaks down at the first pair that outgrows the word, or is the sum.** -/
theorem sumPairsChecked_spec (htotal : total < Pair.wordLimit) :
    BreaksAt total cs ∨ sumPairsChecked total cs = some (sumPairs total cs) := by
  fun_induction sumPairs total cs with
  | case1 total => exact .inr (by rw [sumPairsChecked])
  | case2 total c cs fault hvalue =>
    rcases valueChecked_cases (c :: cs) with ⟨t, ht, hgrows, -⟩ | ⟨hchecked, -⟩
    · exact .inl (.head ht hgrows htotal)
    · exact .inr (by rw [sumPairsChecked, hchecked, hvalue])
  | case3 total c cs nanos hvalue hlarge =>
    rcases valueChecked_cases (c :: cs) with ⟨t, ht, hgrows, -⟩ | ⟨hchecked, -⟩
    · exact .inl (.head ht hgrows htotal)
    · exact .inr (by rw [sumPairsChecked, hchecked, hvalue]; exact if_pos hlarge)
  -- the pair is added, and the rest decides unless the pair has broken down
  | case4 total c cs nanos hvalue hfits ih =>
    rcases valueChecked_cases (c :: cs) with ⟨t, ht, hgrows, -⟩ | ⟨hchecked, hterm⟩
    · exact .inl (.head ht hgrows htotal)
    · obtain ⟨t, ht, hwhole, rfl, hgrows⟩ := hterm nanos hvalue
      rcases ih (not_le.mp hfits) with ⟨terms, u, rest, hrest, hends, hfit, hterms, hu⟩ | hsum
      · refine .inl ⟨t :: terms, u, rest, ?_, hends, fit_cons_iff.mpr ⟨hwhole, hfit⟩,
          List.forall_mem_cons.mpr ⟨hgrows, hterms⟩, hu⟩
        rw [List.flatMap_cons, List.append_assoc, ← hrest, ← ht]
      · refine .inr ?_
        rw [sumPairsChecked, hchecked, hvalue]
        exact (if_neg hfits).trans hsum

theorem sumPairsChecked_zero (cs : List Char) :
    BreaksAt 0 cs ∨ sumPairsChecked 0 cs = some (sumPairs 0 cs) :=
  sumPairsChecked_spec (by decide)

/-! ## The whole text

The three cases behind the sign, of which only the last can break down. -/

theorem parseChecked_of_zero (h : Signed input.toList negative ['0']) :
    parseChecked input = some (parse input) := by
  rw [parse_of_zero h, parseChecked, splitSign_eq_iff.mpr h]
  rfl

theorem parseChecked_of_nil (h : Signed input.toList negative []) :
    parseChecked input = some (parse input) := by
  rw [parse_of_nil h, parseChecked, splitSign_eq_iff.mpr h]

/-- Anything else breaks down if its pairs do. -/
theorem parseChecked_of_ne (h : Signed input.toList negative cs) (hzero : cs ≠ ['0'])
    (hne : cs ≠ []) :
    parseChecked input = (sumPairsChecked 0 cs).map (ofSum input negative) := by
  rw [parseChecked, splitSign_eq_iff.mpr h]
  split
  · exact absurd (Prod.mk.inj ‹_›).2 hzero
  · exact absurd (Prod.mk.inj ‹_›).2 hne
  · rename_i heq
    obtain ⟨rfl, rfl⟩ := Prod.mk.inj heq
    rfl

/-- A pair has a digit and a unit, so that a text with one is no bare zero. -/
theorem BreaksAt.two_le_length (h : BreaksAt total cs) : 2 ≤ cs.length := by
  obtain ⟨terms, t, rest, rfl, -⟩ := h
  have hnumeral := List.length_pos_of_ne_nil t.numeral.chars_ne_nil
  have hsymbol := List.length_pos_of_ne_nil (Pair.symbol_toList_ne_nil t)
  simp only [Term.chars, List.length_append]
  omega

/-- The reading breaks down where the sum does. -/
theorem parseChecked_of_breaksAt (hsigned : Signed input.toList negative cs) (h : BreaksAt 0 cs) :
    parseChecked input = none := by
  have hlength := h.two_le_length
  have hzero : cs ≠ ['0'] := fun h => by simp [h] at hlength
  have hne : cs ≠ [] := fun h => by simp [h] at hlength
  rw [parseChecked_of_ne hsigned hzero hne, sumPairsChecked_of_breaksAt h]
  rfl

/-- Everywhere else it comes to what the other build reads. -/
theorem parseChecked_spec (hsigned : Signed input.toList negative cs) :
    BreaksAt 0 cs ∨ parseChecked input = some (parse input) := by
  by_cases hzero : cs = ['0']
  · exact .inr (parseChecked_of_zero (hzero ▸ hsigned))
  by_cases hne : cs = []
  · exact .inr (parseChecked_of_nil (hne ▸ hsigned))
  refine (sumPairsChecked_zero cs).imp_right fun hsum => ?_
  rw [parseChecked_of_ne hsigned hzero hne, hsum, parse_eq_ofSum hsigned hzero hne]
  rfl

/-- **When the reading breaks down.** It does so at the first pair whose nanoseconds fit the word up to
the point and no longer behind it, if the pairs before it are counted. -/
theorem parseChecked_eq_none_iff : parseChecked input = none ↔
    ∃ negative cs, Signed input.toList negative cs ∧ BreaksAt 0 cs := by
  constructor
  · intro h
    obtain ⟨negative, cs, hsigned⟩ := exists_signed input.toList
    refine ⟨negative, cs, hsigned, (parseChecked_spec hsigned).resolve_right ?_⟩
    rw [h]
    nofun
  · rintro ⟨negative, cs, hsigned, hbreaks⟩
    exact parseChecked_of_breaksAt hsigned hbreaks

/-- **Where the reading does not break down, it comes to the same.** -/
theorem eq_parse_of_parseChecked {r : Except ReadError Duration} (h : parseChecked input = some r) :
    r = parse input := by
  obtain ⟨negative, cs, hsigned⟩ := exists_signed input.toList
  rcases parseChecked_spec hsigned with hbreaks | hsum
  · rw [parseChecked_of_breaksAt hsigned hbreaks] at h
    cases h
  · rw [hsum] at h
    exact (Option.some.inj h).symm

/-- Nine tenths of an hour have no room any more in the word that holds the hours. -/
example : parseChecked "94522879700260684295381835.9h" = none ∧
    parse "94522879700260684295381835.9h" = .ok ⟨1808231788544, by decide⟩ := by
  decide +kernel

/-- Of a text that is read in pairs, a checked build reads the same if none of them outgrows the
word. -/
theorem parseChecked_terms_iff (h : parse input = .ok d) (hfit : Fit 0 terms) (hne : terms ≠ [])
    (hsigned : Signed input.toList negative (terms.flatMap Term.chars)) :
    parseChecked input = some (.ok d) ↔ ∀ t ∈ terms, ¬ t.Outgrows := by
  have hzero := Term.flatMap_chars_ne_zero terms
  have hnil := Term.flatMap_chars_ne_nil hne
  have hsum := sumPairsChecked_flatMap (fun _ => endsUnit_nil) hfit
  rw [List.append_nil, sumPairsChecked, Nat.zero_add, ← sumPairs_terms hfit] at hsum
  rw [parseChecked_of_ne hsigned hzero hnil, hsum]
  by_cases hgrows : ∃ t ∈ terms, t.Outgrows
  · simp [hgrows]
  · rw [if_neg hgrows, Option.map_some, ← parse_eq_ofSum hsigned hzero hnil, h]
    simpa using hgrows

end EdgeInclude.Duration
