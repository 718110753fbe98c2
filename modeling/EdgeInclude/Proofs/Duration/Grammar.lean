import EdgeInclude.Proofs.Duration.Terms

/-!
# The written form of durations

Which texts are durations, of which length, and what the others are refused for.

* **`Spells`**: a text without a sign spells a number of nanoseconds.
* **`Refused`**: what a text is refused for.
* **`parse_recognises_grammar`**: a text is read as what it spells, or is refused for what is wrong.
-/

namespace EdgeInclude.Duration

/-- A text begins with a sign, or has none. -/
inductive Signed : List Char → Bool → List Char → Prop
  | minus (cs : List Char) : Signed ('-' :: cs) true cs
  | plus (cs : List Char) : Signed ('+' :: cs) false cs
  | bare {cs : List Char} (hhead : ∀ c ∈ cs.head?, c ≠ '-' ∧ c ≠ '+') : Signed cs false cs

/-- A text without a sign spells a number of nanoseconds: a bare zero, or pairs that come to it and are
counted without being refused. -/
inductive Spells : List Char → Nat → Prop
  | zero : Spells ['0'] 0
  | pairs {terms : List Term} (hne : terms ≠ []) (hfit : Fit 0 terms) :
      Spells (terms.flatMap Term.chars) (totalNanos terms)

/-- What a text without its sign is refused for. -/
inductive Refused (input : String) : Bool → List Char → ReadError → Prop
  /-- A pair is at fault, and those before it are counted. -/
  | fault {negative : Bool} {terms : List Term} {rest : List Char} {e : ReadError}
      (hzero : terms.flatMap Term.chars ++ rest ≠ ['0'])
      (hbefore : terms ≠ [] → rest ≠ [] ∧ EndsUnit rest)
      (hfit : Fit 0 terms)
      (hfault : FaultAt input (totalNanos terms) rest e) :
      Refused input negative (terms.flatMap Term.chars ++ rest) e
  /-- All pairs are in order, but come to a length below zero. -/
  | negative {terms : List Term} (hpos : 0 < totalNanos terms) (hfit : Fit 0 terms) :
      Refused input true (terms.flatMap Term.chars) (.negative input)
  /-- All pairs are in order, but come to more than the longest duration. -/
  | tooLong {terms : List Term} (hlong : maxDurationNanos < totalNanos terms)
      (hfit : Fit 0 terms) :
      Refused input false (terms.flatMap Term.chars) (.outOfRange input)

/-- The text that an error is about. -/
def ReadError.input : ReadError → String
  | invalid input => input
  | missingUnit input => input
  | unknownUnit _ input => input
  | negative input => input
  | outOfRange input => input

variable {input : String} {negative : Bool} {cs rest : List Char} {n total : Nat} {e : ReadError}

theorem FaultAt.input_eq (h : FaultAt input total cs e) : e.input = input := by
  cases h <;> rfl

/-- Of an empty text a number is missing. -/
theorem FaultAt.eq_invalid (h : FaultAt input total cs e) (hcs : cs = []) :
    e = .invalid input := by
  have hne (n : Numeral) (rest : List Char) : n.chars ++ rest ≠ [] :=
    List.append_ne_nil_of_left_ne_nil n.chars_ne_nil rest
  cases h with
  | noNumber => rfl
  | noUnit n => exact absurd hcs (hne n _)
  | unknownUnit n => exact absurd hcs (hne n _)
  | tooLarge t =>
    rw [Term.chars, List.append_assoc] at hcs
    exact absurd hcs (hne t.numeral _)

/-- Any reason to refuse a text quotes the whole of it. -/
theorem Refused.input_eq (h : Refused input negative cs e) : e.input = input := by
  cases h with
  | fault _ _ _ hfault => exact hfault.input_eq
  | negative => rfl
  | tooLong => rfl

/-! ## The sign

At most one sign is taken, and it is taken if it is there. -/

/-- What is split off is the sign. -/
theorem splitSign_eq_iff : splitSign cs = (negative, rest) ↔ Signed cs negative rest := by
  constructor
  · intro h
    unfold splitSign at h
    split at h <;> obtain ⟨rfl, rfl⟩ := Prod.mk.inj h
    · exact .minus _
    · exact .plus _
    · rename_i hminus hplus
      refine .bare fun c hc => ?_
      obtain ⟨cs, rfl⟩ := List.head?_eq_some_iff.mp hc
      exact ⟨fun hc => hminus cs (hc ▸ rfl), fun hc => hplus cs (hc ▸ rfl)⟩
  · rintro (_ | _ | hhead)
    · rfl
    · rfl
    · unfold splitSign
      split
      · exact absurd rfl (hhead '-' rfl).1
      · exact absurd rfl (hhead '+' rfl).2
      · rfl

theorem exists_signed (cs : List Char) : ∃ negative rest, Signed cs negative rest :=
  ⟨_, _, splitSign_eq_iff.mp rfl⟩

/-! ## Reading behind the sign

Three cases: a single zero needs no unit, an empty text is no duration, and anything else is read as
pairs. -/

theorem Term.chars_ne_nil (t : Term) : t.chars ≠ [] :=
  List.append_ne_nil_of_left_ne_nil t.numeral.chars_ne_nil _

/-- A zero alone is no pair, for it has no unit. -/
theorem Term.flatMap_chars_ne_zero (terms : List Term) : terms.flatMap Term.chars ≠ ['0'] := by
  intro h
  cases terms with
  | nil => cases h
  | cons t terms =>
    obtain ⟨c, cs, hcs⟩ := List.exists_cons_of_ne_nil t.numeral.chars_ne_nil
    rw [List.flatMap_cons, Term.chars, hcs, List.cons_append, List.cons_append] at h
    exact List.append_ne_nil_of_left_ne_nil
      (List.append_ne_nil_of_right_ne_nil _ (Pair.symbol_toList_ne_nil t)) _ (List.cons.inj h).2

theorem parse_of_zero (h : Signed input.toList negative ['0']) : parse input = .ok zero := by
  rw [parse, splitSign_eq_iff.mpr h]
  rfl

theorem parse_of_nil (h : Signed input.toList negative []) :
    parse input = .error (.invalid input) := by
  rw [parse, splitSign_eq_iff.mpr h]

/-- Anything else is what the sum of its pairs comes to. -/
theorem parse_eq_ofSum (h : Signed input.toList negative cs) (hzero : cs ≠ ['0']) (hne : cs ≠ []) :
    parse input = ofSum input negative (sumPairs 0 cs) := by
  rw [parse, splitSign_eq_iff.mpr h]
  split
  · exact absurd (Prod.mk.inj ‹_›).2 hzero
  · exact absurd (Prod.mk.inj ‹_›).2 hne
  · rename_i heq
    obtain ⟨rfl, rfl⟩ := Prod.mk.inj heq
    rfl

/-- The sum is refused if it is below zero or too large for a duration. -/
theorem parse_of_ne (h : Signed input.toList negative cs) (hzero : cs ≠ ['0']) (hne : cs ≠ []) :
    parse input =
      match sumPairs 0 cs with
      | .error fault => .error (fault.toError input)
      | .ok n =>
        if negative = true ∧ 0 < n then .error (.negative input)
        else if hmax : n ≤ maxDurationNanos then .ok ⟨n, hmax⟩
        else .error (.outOfRange input) := by
  rw [parse_eq_ofSum h hzero hne]
  cases sumPairs 0 cs with
  | error fault => rfl
  | ok n =>
    by_cases hmax : n ≤ maxDurationNanos
    · simp only [ofSum, ofNanos?, dif_pos hmax]
    · simp only [ofSum, ofNanos?, dif_neg hmax]

/-! ## What is read, and what is refused

Each text is spelled by the grammar or has a reason to be refused, and the two exclude each other.
-/

/-- Pairs have characters. -/
theorem Term.flatMap_chars_ne_nil {terms : List Term} (hne : terms ≠ []) :
    terms.flatMap Term.chars ≠ [] := by
  obtain ⟨t, terms, rfl⟩ := List.exists_cons_of_ne_nil hne
  rw [List.flatMap_cons]
  exact List.append_ne_nil_of_left_ne_nil t.chars_ne_nil _

/-- Pairs that fit add up to their total. -/
theorem sumPairs_terms {terms : List Term} (hfit : Fit 0 terms) :
    sumPairs 0 (terms.flatMap Term.chars) = .ok (totalNanos terms) := by
  have hends : terms ≠ [] → EndsUnit [] := fun _ => endsUnit_nil
  have hsum := sumPairs_flatMap hends hfit
  rwa [List.append_nil, Nat.zero_add, sumPairs] at hsum

/-- What the grammar spells is read as it says. -/
theorem parse_of_spells (h : Signed input.toList negative cs) (hspells : Spells cs n)
    (hmax : n ≤ maxDurationNanos) (hsign : negative = true → n = 0) :
    parse input = .ok ⟨n, hmax⟩ := by
  cases hspells with
  | zero => exact parse_of_zero h
  | @pairs terms hne hfit =>
    have hsum := sumPairs_terms hfit
    have hneg : ¬ (negative = true ∧ 0 < totalNanos terms) :=
      fun hneg => Nat.ne_of_gt hneg.2 (hsign hneg.1)
    rw [parse_of_ne h (Term.flatMap_chars_ne_zero terms) (Term.flatMap_chars_ne_nil hne), hsum]
    simp only [if_neg hneg, dif_pos hmax]

/-- What has a reason to be refused is refused for it. -/
theorem parse_of_refused (h : Signed input.toList negative cs)
    (hrefused : Refused input negative cs e) : parse input = .error e := by
  have hne {terms : List Term} (hpos : 0 < totalNanos terms) : terms ≠ [] := by
    rintro rfl
    exact absurd hpos (Nat.lt_irrefl 0)
  cases hrefused with
  | @fault _ terms rest _ hzero hbefore hfit hfault =>
    by_cases hrest : rest = []
    · -- A text that ends before its first pair is empty.
      obtain rfl : terms = [] := by
        by_contra hterms
        exact (hbefore hterms).1 hrest
      subst hrest
      rw [hfault.eq_invalid rfl]
      exact parse_of_nil h
    · obtain ⟨fault, hsum, rfl⟩ := sumPairs_of_faultAt hrest hfault
      rw [parse_of_ne h hzero (List.append_ne_nil_of_right_ne_nil _ hrest),
        sumPairs_flatMap (fun hterms => (hbefore hterms).2) hfit, Nat.zero_add, hsum]
  | @negative terms hpos hfit =>
    rw [parse_of_ne h (Term.flatMap_chars_ne_zero terms) (Term.flatMap_chars_ne_nil (hne hpos)),
      sumPairs_terms hfit]
    exact if_pos ⟨rfl, hpos⟩
  | @tooLong terms hlong hfit =>
    have hterms := hne (Nat.zero_lt_of_lt hlong)
    rw [parse_of_ne h (Term.flatMap_chars_ne_zero terms) (Term.flatMap_chars_ne_nil hterms),
      sumPairs_terms hfit]
    simp only [Bool.false_eq_true, false_and, if_false, dif_neg (Nat.not_le_of_lt hlong)]

/-- A text either spells a length within the bounds or is refused. -/
theorem spells_or_refused (input : String) (negative : Bool) (cs : List Char) :
    (∃ n, Spells cs n ∧ n ≤ maxDurationNanos ∧ (negative = true → n = 0)) ∨
      ∃ e, Refused input negative cs e := by
  by_cases hzero : cs = ['0']
  · subst hzero
    exact .inl ⟨0, .zero, Nat.zero_le _, fun _ => rfl⟩
  by_cases hne : cs = []
  · subst hne
    have hnone (n : Numeral) (rest : List Char) : [] ≠ n.chars ++ rest :=
      (List.append_ne_nil_of_left_ne_nil n.chars_ne_nil rest).symm
    have hfault : FaultAt input (totalNanos []) [] _ := .noNumber hnone
    exact .inr ⟨_, .fault hzero (absurd rfl) (fit_nil_iff.mpr (by decide)) hfault⟩
  cases hsum : sumPairs 0 cs with
  | error fault =>
    obtain ⟨terms, rest, rfl, hrest, hends, hfit, hfault⟩ :=
      exists_faultAt_of_sumPairs hsum (by decide) input
    rw [Nat.zero_add] at hfault
    exact .inr ⟨_, .fault hzero (fun hterms => ⟨hrest, hends hterms⟩) hfit hfault⟩
  | ok n =>
    obtain ⟨terms, rfl, rfl, hfit⟩ := exists_terms_of_sumPairs hsum (by decide)
    have hspells := Spells.pairs (fun hterms : terms = [] => hne (hterms ▸ rfl)) hfit
    by_cases hmax : totalNanos terms ≤ maxDurationNanos
    · by_cases hsign : negative = true → totalNanos terms = 0
      · exact .inl ⟨_, hspells, hmax, hsign⟩
      · obtain ⟨rfl, hsum⟩ := Classical.not_imp.mp hsign
        exact .inr ⟨_, .negative (Nat.pos_of_ne_zero hsum) hfit⟩
    · have hlong := Nat.lt_of_not_le hmax
      -- a sum that is too long is not zero, so its sign is told first
      cases negative with
      | true => exact .inr ⟨_, .negative (Nat.zero_lt_of_lt hlong) hfit⟩
      | false => exact .inr ⟨_, .tooLong hlong hfit⟩

/-- **The grammar of durations.** A text is read exactly when, behind a sign or without one, it
spells a length that a duration can have, and zero behind a minus. Any other text is refused for the
first pair at fault or, where all pairs are in order, for a length below zero and then for one that
is too long. The error carries the whole text. -/
theorem parse_recognises_grammar (input : String) :
    (∀ d : Duration, parse input = .ok d ↔ ∃ negative cs, Signed input.toList negative cs ∧
      Spells cs d.nanos ∧ (negative = true → d.nanos = 0)) ∧
    ((∃ d, parse input = .ok d) ↔ ∃ negative cs n, Signed input.toList negative cs ∧
      Spells cs n ∧ n ≤ maxDurationNanos ∧ (negative = true → n = 0)) ∧
    (∀ e, parse input = .error e ↔ ∃ negative cs, Signed input.toList negative cs ∧
      Refused input negative cs e) ∧
    ∀ e, parse input = .error e → e.input = input := by
  obtain ⟨negative, cs, hsigned⟩ := exists_signed input.toList
  -- text and sign determine how it is read, so it is enough to look at one way to take the sign
  -- off
  have hread (d : Duration) (h : parse input = .ok d) :
      Spells cs d.nanos ∧ (negative = true → d.nanos = 0) := by
    obtain ⟨n, hspells, hmax, hsign⟩ | ⟨e, hrefused⟩ := spells_or_refused input negative cs
    · cases h.symm.trans (parse_of_spells hsigned hspells hmax hsign)
      exact ⟨hspells, hsign⟩
    · cases h.symm.trans (parse_of_refused hsigned hrefused)
  have hrefused (e : ReadError) (h : parse input = .error e) : Refused input negative cs e := by
    obtain ⟨n, hspells, hmax, hsign⟩ | ⟨e', hrefused⟩ := spells_or_refused input negative cs
    · cases h.symm.trans (parse_of_spells hsigned hspells hmax hsign)
    · cases h.symm.trans (parse_of_refused hsigned hrefused)
      exact hrefused
  refine ⟨fun d => ⟨fun h => ⟨negative, cs, hsigned, hread d h⟩, ?_⟩, ⟨?_, ?_⟩,
    fun e => ⟨fun h => ⟨negative, cs, hsigned, hrefused e h⟩, ?_⟩, fun e h => ?_⟩
  · rintro ⟨negative, cs, hsigned, hspells, hsign⟩
    exact parse_of_spells hsigned hspells d.le_max hsign
  · rintro ⟨d, h⟩
    obtain ⟨hspells, hsign⟩ := hread d h
    exact ⟨negative, cs, _, hsigned, hspells, d.le_max, hsign⟩
  · rintro ⟨negative, cs, n, hsigned, hspells, hmax, hsign⟩
    exact ⟨_, parse_of_spells hsigned hspells hmax hsign⟩
  · rintro ⟨negative, cs, hsigned, hrefused⟩
    exact parse_of_refused hsigned hrefused
  · exact (hrefused e h).input_eq

/-- The first pair at fault counts, whatever stands behind it. -/
example : parse "1h5x.3" = .error (.unknownUnit "x" "1h5x.3") := by
  decide +kernel

end EdgeInclude.Duration
