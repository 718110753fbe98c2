import EdgeInclude.Include.Page
import EdgeInclude.Proofs.Include.Verdict

/-!
# How far a page is read

The tags of a page are read in order, up to the first that cannot be read. What was read before it
stays, and what stands behind it is not looked at. A build that checks its sums does the same, unless it
breaks down at a tag before that one.

* **`Page.ReadTo`**: what reading includes one after the other comes to. **`readTo_parseAll`** and
  **`parseAll_of_readTo`**: it comes to that, and to nothing else.
* **`Page.FailsAt`**: the tag at a place of a page cannot be read. **`Page.BreaksDownAt`**: a build that
  checks its sums breaks down there.
* **`Page.read_in_order`**: when a page can be read, what becomes of it if it cannot, and what reading
  it a second time comes to.
-/

namespace EdgeInclude

namespace Page

variable {p : Page} {n : Nat} {i parsed : Include} {is before read : List Include}
variable {r : List Include × Option PageError} {e : PageError}

/-! ## Includes one after the other

Read includes are put in front of those that are still to be read, so the result for a page is built
from the first include on. -/

/-- What reading includes comes to, the first of which is at place `n`: all of them are read, or those
before the first that cannot be read. -/
inductive ReadTo (n : Nat) (is : List Include) : List Include × Option PageError → Prop
  | all {read : List Include} (h : is.map Include.parse = read.map .ok) : ReadTo n is (read, none)
  | upTo (before read : List Include) {after : List Include} {i : Include} {cause : TagError}
      (his : is = before ++ i :: after) (hbefore : before.map Include.parse = read.map .ok)
      (hi : i.parse = .error cause) :
      ReadTo n is (read ++ i :: after, some ⟨n + before.length, cause⟩)

theorem place_cons (n : Nat) (i : Include) (before : List Include) :
    n + 1 + before.length = n + (i :: before).length := by
  rw [List.length_cons]
  omega

/-- An include that is read comes before whatever the others come to. -/
theorem ReadTo.cons (hi : i.parse = .ok parsed) (h : ReadTo (n + 1) is r) :
    ReadTo n (i :: is) (parsed :: r.1, r.2) := by
  cases h with
  | all h => exact .all (by rw [List.map_cons, List.map_cons, hi, h])
  | upTo before read his hbefore hj =>
    rw [place_cons n i before]
    exact .upTo (i :: before) (parsed :: read) (by rw [his, List.cons_append])
      (by rw [List.map_cons, List.map_cons, hi, hbefore]) hj

/-- Reading includes comes to one of the two. -/
theorem readTo_parseAll (n : Nat) (is : List Include) : ReadTo n is (parseAll n is) := by
  induction is generalizing n with
  | nil => exact .all rfl
  | cons i is ih =>
    unfold parseAll
    cases hi : i.parse with
    | error cause => exact .upTo [] [] rfl rfl hi
    | ok parsed => exact .cons hi (ih (n + 1))

/-- Includes that can be read are read first, and then the others. -/
theorem parseAll_append (h : before.map Include.parse = read.map .ok) (n : Nat)
    (is : List Include) :
    parseAll n (before ++ is) =
      (read ++ (parseAll (n + before.length) is).1, (parseAll (n + before.length) is).2) := by
  induction before generalizing n read with
  | nil =>
    obtain rfl := List.map_eq_nil_iff.mp h.symm
    rfl
  | cons i before ih =>
    obtain ⟨parsed, read, rfl, hi, hrest⟩ := List.map_eq_cons_iff.mp h.symm
    rw [List.cons_append, parseAll, ← hi]
    dsimp only
    rw [ih hrest.symm, place_cons]
    rfl

/-- Each of the two is what reading comes to. -/
theorem parseAll_of_readTo (h : ReadTo n is r) : parseAll n is = r := by
  cases h with
  | @all read h =>
    have hall := parseAll_append h n []
    rw [List.append_nil] at hall
    rw [hall, parseAll, List.append_nil]
  | upTo before read his hbefore hi =>
    rw [his, parseAll_append hbefore, parseAll, hi]

/-- Includes that were read are read as they are. -/
theorem map_parse_of_map_parse (h : before.map Include.parse = read.map .ok) :
    read.map Include.parse = read.map .ok := by
  refine List.map_congr_left fun parsed hparsed => ?_
  have hmem : (Except.ok parsed : Except TagError Include) ∈ before.map Include.parse := by
    rw [h]
    exact List.mem_map_of_mem hparsed
  obtain ⟨i, -, hi⟩ := List.mem_map.mp hmem
  exact Include.parse_of_parse hi

theorem length_of_map_parse (h : before.map Include.parse = read.map .ok) :
    before.length = read.length := by
  have hlength := congrArg List.length h
  rwa [List.length_map, List.length_map] at hlength

/-- Reading what was read comes to the same. -/
theorem ReadTo.again (h : ReadTo n is r) : ReadTo n r.1 r := by
  cases h with
  | all h => exact .all (map_parse_of_map_parse h)
  | upTo before read his hbefore hi =>
    rw [length_of_map_parse hbefore]
    exact .upTo read read rfl (map_parse_of_map_parse hbefore) hi

/-- Reading leaves alone whatever of an include its directives have no part in. -/
theorem map_of_map_parse {α : Type} (f : Include → α)
    (hf : ∀ (i : Include) (d : Directives), f { i with directives := d } = f i)
    (h : before.map Include.parse = read.map .ok) : read.map f = before.map f := by
  induction before generalizing read with
  | nil =>
    obtain rfl := List.map_eq_nil_iff.mp h.symm
    rfl
  | cons i before ih =>
    obtain ⟨parsed, read, rfl, hi, hrest⟩ := List.map_eq_cons_iff.mp h.symm
    rw [List.map_cons, List.map_cons, ih hrest.symm, Include.eq_of_parse hi.symm, hf]

/-- Reading up to an include that cannot be read leaves alone as much of each. -/
theorem ReadTo.map_eq {α : Type} (f : Include → α)
    (hf : ∀ (i : Include) (d : Directives), f { i with directives := d } = f i)
    (h : ReadTo n is r) : r.1.map f = is.map f := by
  cases h with
  | all h => exact map_of_map_parse f hf h
  | upTo before read his hbefore hi =>
    rw [his, List.map_append, List.map_append, map_of_map_parse f hf hbefore]

/-! ## Builds that check their sums

The same with readings that can break down: the first place where one does, or where a tag cannot be
read, decides. -/

/-- At place `k` of the includes stands a tag at which the reading breaks down in a build that checks its
sums, and those before it are read. -/
def BreaksAt (is : List Include) (k : Nat) : Prop :=
  ∃ i, is[k]? = some i ∧ i.parseChecked = none ∧
    ∃ read : List Include,
      (is.take k).map Include.parseChecked = read.map fun parsed => some (.ok parsed)

theorem not_breaksAt_nil (k : Nat) : ¬ BreaksAt [] k := by
  rintro ⟨i, hi, -⟩
  cases hi

/-- At the first place it is the first include that breaks down. -/
theorem breaksAt_zero_iff : BreaksAt (i :: is) 0 ↔ i.parseChecked = none := by
  constructor
  · rintro ⟨j, hj, hnone, -⟩
    cases hj
    exact hnone
  · exact fun hnone => ⟨i, rfl, hnone, [], rfl⟩

/-- Further on the first include is read. -/
theorem breaksAt_succ_iff {k : Nat} : BreaksAt (i :: is) (k + 1) ↔
    (∃ parsed, i.parseChecked = some (.ok parsed)) ∧ BreaksAt is k := by
  constructor
  · rintro ⟨j, hj, hnone, read, hread⟩
    rw [List.take_succ_cons, List.map_cons] at hread
    obtain ⟨parsed, read, rfl, hi, hrest⟩ := List.map_eq_cons_iff.mp hread.symm
    exact ⟨⟨parsed, hi.symm⟩, j, hj, hnone, read, hrest.symm⟩
  · rintro ⟨⟨parsed, hi⟩, j, hj, hnone, read, hread⟩
    refine ⟨j, hj, hnone, parsed :: read, ?_⟩
    rw [List.take_succ_cons, List.map_cons, List.map_cons, hi, hread]

/-- Reading includes breaks down if one of them does behind others that are read. -/
theorem parseAllChecked_eq_none_iff : parseAllChecked n is = none ↔ ∃ k, BreaksAt is k := by
  induction is generalizing n with
  | nil => exact iff_of_false (fun h => by cases h) fun ⟨k, hk⟩ => not_breaksAt_nil k hk
  | cons i is ih =>
    rw [parseAllChecked]
    cases hi : i.parseChecked with
    | none => exact iff_of_true rfl ⟨0, breaksAt_zero_iff.mpr hi⟩
    | some r =>
      -- a breakdown further on needs the first include read
      have hshift : (∃ k, BreaksAt (i :: is) k) ↔
          (∃ parsed, i.parseChecked = some (.ok parsed)) ∧ ∃ k, BreaksAt is k := by
        constructor
        · rintro ⟨_ | k, hk⟩
          · rw [breaksAt_zero_iff, hi] at hk
            cases hk
          · obtain ⟨hparsed, hk⟩ := breaksAt_succ_iff.mp hk
            exact ⟨hparsed, k, hk⟩
        · exact fun ⟨hparsed, k, hk⟩ => ⟨k + 1, breaksAt_succ_iff.mpr ⟨hparsed, hk⟩⟩
      rw [hshift, hi, ← ih (n := n + 1)]
      cases r with
      | error cause => simp
      | ok parsed => cases parseAllChecked (n + 1) is <;> simp

/-- Where the reading does not break down, it comes to the same. -/
theorem eq_parseAll_of_parseAllChecked (h : parseAllChecked n is = some r) : r = parseAll n is := by
  induction is generalizing n r with
  | nil => exact (Option.some.inj h).symm
  | cons i is ih =>
    rw [parseAllChecked] at h
    rw [parseAll]
    cases hi : i.parseChecked with
    | none =>
      rw [hi] at h
      cases h
    | some result =>
      rw [hi] at h
      rw [← Include.eq_parse_of_parseChecked hi]
      cases result with
      | error cause => exact (Option.some.inj h).symm
      | ok parsed =>
        cases hrest : parseAllChecked (n + 1) is with
        | none =>
          simp only [hrest] at h
          cases h
        | some rest =>
          simp only [hrest] at h
          rw [← Option.some.inj h, ← ih hrest]

/-! ## The page

What holds of includes one after the other, said of the includes of a page. -/

/-- The tag at place `k` of the page cannot be read, and why. -/
def FailsAt (p : Page) (k : Nat) (cause : TagError) : Prop :=
  ∃ i, p.includes[k]? = some i ∧ i.parse = .error cause

/-- A build that checks its sums breaks down at the tag at place `k` of the page, behind tags that are
read. -/
def BreaksDownAt (p : Page) (k : Nat) : Prop :=
  BreaksAt p.includes k

theorem readTo_parse (p : Page) : ReadTo 0 p.includes (p.parse.1.includes, p.parse.2) :=
  readTo_parseAll 0 p.includes

theorem parse_of_readTo (h : ReadTo 0 p.includes r) :
    p.parse = ({ p with includes := r.1 }, r.2) := by
  unfold parse
  rw [parseAll_of_readTo h]

/-- Each of the includes that are read is read on its own. -/
theorem exists_parse_of_map_parse (h : is.map Include.parse = read.map .ok) (hi : i ∈ is) :
    ∃ parsed, i.parse = .ok parsed := by
  have hmem : i.parse ∈ read.map Except.ok := by
    rw [← h]
    exact List.mem_map_of_mem hi
  obtain ⟨parsed, -, hparsed⟩ := List.mem_map.mp hmem
  exact ⟨parsed, hparsed.symm⟩

/-- There is no error exactly if each include can be read. -/
theorem parse_eq_none_iff (p : Page) :
    p.parse.2 = none ↔ ∀ i ∈ p.includes, ∃ parsed, i.parse = .ok parsed := by
  have h := readTo_parse p
  generalize p.parse.2 = error at h ⊢
  generalize p.parse.1.includes = includes at h
  cases h with
  | all h => exact iff_of_true rfl fun i hi => exists_parse_of_map_parse h hi
  | @upTo before read after i cause his hbefore hi =>
    refine iff_of_false (by simp) fun hall => ?_
    obtain ⟨parsed, hparsed⟩ := hall i (by simp [his])
    rw [hi] at hparsed
    cases hparsed

/-- Without an error each include is what reading it alone makes of it. -/
theorem parse_eq_none (h : p.parse.2 = none) :
    p.parse.1.includes.map .ok = p.includes.map Include.parse := by
  have hread := readTo_parse p
  rw [h] at hread
  generalize p.parse.1.includes = includes at hread ⊢
  cases hread with
  | all h => exact h.symm

/-- A page that cannot be read is read up to the first tag that cannot. -/
theorem parse_eq_some (h : p.parse.2 = some e) :
    p.FailsAt e.index e.cause ∧ (∀ k cause, p.FailsAt k cause → e.index ≤ k) ∧
      (p.parse.1.includes.take e.index).map .ok = (p.includes.take e.index).map Include.parse ∧
      p.parse.1.includes.drop e.index = p.includes.drop e.index := by
  have hread := readTo_parse p
  rw [h] at hread
  generalize p.parse.1.includes = includes at hread ⊢
  unfold FailsAt
  cases hread with
  | @upTo before read after i cause his hbefore hi =>
    have hlength := length_of_map_parse hbefore
    simp only [Nat.zero_add]
    rw [his]
    refine ⟨⟨i, by simp, hi⟩, ?_, ?_, ?_⟩
    · rintro k cause' ⟨j, hj, hfails⟩
      by_contra hlt
      rw [List.getElem?_append_left (by omega)] at hj
      obtain ⟨parsed, hparsed⟩ := exists_parse_of_map_parse hbefore (List.mem_of_getElem? hj)
      rw [hfails] at hparsed
      cases hparsed
    · rw [List.take_left, hlength, List.take_left, hbefore]
    · rw [List.drop_left, hlength, List.drop_left]

theorem parseChecked_eq_none_iff : p.parseChecked = none ↔ ∃ k, p.BreaksDownAt k := by
  rw [parseChecked, Option.map_eq_none_iff]
  exact parseAllChecked_eq_none_iff

theorem eq_parse_of_parseChecked {result : Page × Option PageError}
    (h : p.parseChecked = some result) : result = p.parse := by
  obtain ⟨r, hread, rfl⟩ := Option.map_eq_some_iff.mp h
  rw [parse, ← eq_parseAll_of_parseAllChecked hread]

/-- **A page is read in order, up to the first tag that cannot be read.** If there is none, each of its
includes is what reading it alone makes of it. If there is one, the error names the first and says what
reading it alone says; the includes before it are read, and those from there on are left as they were.
No include is lost or moved, none gets another tag or another place, and reading the page again is no
change and comes to the same. A build that checks its sums comes to the same too, unless it breaks down
at a tag behind others that are read. -/
theorem read_in_order (p : Page) :
    (p.parse.2 = none ↔ ∀ i ∈ p.includes, ∃ parsed, i.parse = .ok parsed) ∧
    (p.parse.2 = none → p.parse.1.includes.map .ok = p.includes.map Include.parse) ∧
    (∀ e, p.parse.2 = some e →
      p.FailsAt e.index e.cause ∧ (∀ k cause, p.FailsAt k cause → e.index ≤ k) ∧
        (p.parse.1.includes.take e.index).map .ok = (p.includes.take e.index).map Include.parse ∧
        p.parse.1.includes.drop e.index = p.includes.drop e.index) ∧
    p.parse.1.includes.length = p.includes.length ∧
    p.parse.1.includes.map Include.raw = p.includes.map Include.raw ∧
    p.parse.1.includes.map Include.fragment = p.includes.map Include.fragment ∧
    p.parse.1.logger = p.logger ∧
    p.parse.1.parse = p.parse ∧
    (p.parseChecked = none ↔ ∃ k, p.BreaksDownAt k) ∧
    ∀ result, p.parseChecked = some result → result = p.parse := by
  have hread := readTo_parse p
  have hraw := hread.map_eq Include.raw fun _ _ => rfl
  have hfragment := hread.map_eq Include.fragment fun _ _ => rfl
  have hlength := congrArg List.length hraw
  rw [List.length_map, List.length_map] at hlength
  exact ⟨parse_eq_none_iff p, parse_eq_none, fun e h => parse_eq_some h, hlength, hraw, hfragment,
    rfl, parse_of_readTo (p := p.parse.1) hread.again, parseChecked_eq_none_iff,
    fun result => eq_parse_of_parseChecked⟩

/-- A page of four tags, of which the second is empty and the third names no source. -/
def mixed : Page :=
  { includes := [.ofTag (Utf8.encode "<a src='u' ttl='1s'/>") 0 21, .ofTag [] 21 21,
      .ofTag (Utf8.encode "<a key='k'/>") 30 42, .ofTag (Utf8.encode "<a src='v'/>") 42 54] }

/-- The third of its tags cannot be read: two come before it and one behind it. -/
theorem read_in_order_mixed :
    mixed.parse.2 = some ⟨2, .missingSource "<a key='k'/>"⟩ ∧
      mixed.FailsAt 2 (.missingSource "<a key='k'/>") ∧
      (mixed.parse.1.includes.take 2).map .ok = (mixed.includes.take 2).map Include.parse ∧
      mixed.parse.1.includes.drop 2 = mixed.includes.drop 2 ∧
      mixed.parse.1 ≠ mixed ∧ mixed.parse.1.parse = mixed.parse := by
  have herror : mixed.parse.2 = some ⟨2, .missingSource "<a key='k'/>"⟩ := by decide +kernel
  obtain ⟨-, -, hfails, -, -, -, -, hagain, -⟩ := read_in_order mixed
  obtain ⟨hat, -, hread, hleft⟩ := hfails _ herror
  exact ⟨herror, hat, hread, hleft, by decide +kernel, hagain⟩

/-- A build that checks its sums does not get past a duration that outgrows the word. -/
example : ({ includes := [.ofTag (Utf8.encode "<a src='u'/>") 0 12,
      .ofTag (Utf8.encode "<a src='v' ttl='94522879700260684295381835.9h'/>") 12 60] } :
    Page).parseChecked = none := by
  decide +kernel

end Page

end EdgeInclude
