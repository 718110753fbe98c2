import EdgeInclude.Include.Page
import EdgeInclude.Proofs.Text.OneLine
import EdgeInclude.Proofs.Text.Splitting

/-!
# The lines of a listing

A listing gives each include two lines and an empty one. The texts of an include are quoted, and its
other parts are numbers and words, so nothing that a tag holds can end a line or begin one.

* **`isOneLine_askingLine`**, **`isOneLine_rawLine`**: what an include puts into its lines keeps to them.
* **`splitAt_listFrom_cons`**: an include adds its three lines in front of those of the rest.
* **`listing_keeps_its_lines`**: the lines of a listing, by their numbers.
-/

namespace EdgeInclude

theorem HeaderSelection.isOneLine_describe (s : HeaderSelection) :
    Text.IsOneLine s.describe.toList := by
  unfold HeaderSelection.describe
  split <;> simp

/-- Directives are told in one line, since each text in them is quoted. -/
theorem Directives.isOneLine_describe (d : Directives) : Text.IsOneLine d.describe.toList := by
  have hforward := d.forwarded.isOneLine_describe
  have hreturn := d.returned.isOneLine_describe
  have hcondition : Text.IsOneLine (if d.condition.isSome then "true" else "false").toList := by
    split <;> simp
  unfold describe
  simp [hforward, hreturn, hcondition]

namespace Page

open Text

variable {k n : Nat} {i : Include} {is : List Include}

/-! ## The lines of one include

Texts of a tag are escaped before they are put in a line, so the line breaks are those that the
listing makes itself. -/

theorem isOneLine_askingLine (n : Nat) (i : Include) : IsOneLine (askingLine n i).toList := by
  simp [askingLine, i.directives.isOneLine_describe]

theorem isOneLine_rawLine (n : Nat) (i : Include) : IsOneLine (rawLine n i).toList := by
  simp [rawLine]

/-- Where the include stands is told first. -/
theorem prefix_askingLine (n : Nat) (i : Include) :
    (decimal n ++ ": tag=" ++ decimal i.fragment.start ++ ".." ++ decimal i.fragment.stop ++
      " ").toList <+: (askingLine n i).toList := by
  have htext : (askingLine n i).toList = (decimal n ++ ": tag=" ++ decimal i.fragment.start ++
      ".." ++ decimal i.fragment.stop ++ " ").toList ++ i.directives.describe.toList :=
    String.toList_append
  rw [htext]
  exact List.prefix_append _ _

/-- The line of a tag begins with its number. -/
theorem prefix_rawLine (n : Nat) (i : Include) :
    (decimal n ++ ": RawTag: \"").toList <+: (rawLine n i).toList := by
  have hquote : ": RawTag: \"".toList = ": RawTag: ".toList ++ ['"'] := by simp
  simp only [rawLine, quote, String.toList_append, String.toList_ofList, hquote, List.append_assoc,
    List.prefix_append_right_inj, List.cons_append]
  exact List.prefix_append ['"'] _

/-! ## The lines of many includes

The induction is on the includes; each puts three lines in front of the others. -/

/-- An include adds its three lines in front of those of the rest. -/
theorem splitAt_listFrom_cons (n : Nat) (i : Include) (is : List Include) :
    splitAt '\n' (listFrom n (i :: is)).toList =
      (askingLine n i).toList :: (rawLine n i).toList :: [] ::
        splitAt '\n' (listFrom (n + 1) is).toList := by
  have hbreak : "\n".toList = ['\n'] := by simp
  have hasking := (isOneLine_askingLine n i).notMem_lineFeed
  have hraw := (isOneLine_rawLine n i).notMem_lineFeed
  have htext : (listFrom n (i :: is)).toList = (askingLine n i).toList ++
      '\n' :: ((rawLine n i).toList ++ '\n' :: ([] ++ '\n' :: (listFrom (n + 1) is).toList)) := by
    simp only [listFrom, listInclude, String.toList_append, hbreak, List.append_assoc,
      List.cons_append, List.nil_append]
  rw [htext, splitAt_append_cons, splitAt_append_cons, splitAt_append_cons,
    splitAt_of_notMem hasking, splitAt_of_notMem hraw]
  rfl

/-- Three lines for each include, and the empty one at the end. -/
theorem length_splitAt_listFrom (n : Nat) (is : List Include) :
    (splitAt '\n' (listFrom n is).toList).length = 3 * is.length + 1 := by
  induction is generalizing n with
  | nil => rfl
  | cons i is ih =>
    rw [splitAt_listFrom_cons, List.length_cons, List.length_cons, List.length_cons, ih,
      List.length_cons]
    omega

/-- Behind the last include the text ends. -/
theorem getLast?_splitAt_listFrom (n : Nat) (is : List Include) :
    (splitAt '\n' (listFrom n is).toList).getLast? = some [] := by
  induction is generalizing n with
  | nil => rfl
  | cons i is ih =>
    have hne := splitAt_ne_nil '\n' (listFrom (n + 1) is).toList
    rw [splitAt_listFrom_cons, List.getLast?_cons_cons, List.getLast?_cons_cons,
      List.getLast?_cons_of_ne_nil hne, ih]

/-- The three lines of the include at a place. -/
theorem getElem?_splitAt_listFrom (n : Nat) (h : is[k]? = some i) :
    (splitAt '\n' (listFrom n is).toList)[3 * k]? = some (askingLine (n + k) i).toList ∧
      (splitAt '\n' (listFrom n is).toList)[3 * k + 1]? = some (rawLine (n + k) i).toList ∧
      (splitAt '\n' (listFrom n is).toList)[3 * k + 2]? = some [] := by
  induction is generalizing n k with
  | nil => cases h
  | cons j is ih =>
    rw [splitAt_listFrom_cons]
    cases k with
    | zero =>
      obtain rfl : j = i := Option.some.inj h
      exact ⟨rfl, rfl, rfl⟩
    | succ k =>
      -- the lines of the first include stand before those looked for
      have hplace : n + (k + 1) = n + 1 + k := by omega
      rw [hplace]
      exact ih (n + 1) h

/-- **A listing keeps its lines, whatever the includes hold.** Three lines belong to each include, in the
order of the page: one that begins with the number of the include and its place, one that begins with
the number and the opening quote of the tag, and an empty one. So there are three line feeds for each
include, and no line holds a control character. -/
theorem listing_keeps_its_lines (p : Page) :
    (∀ k i, p.includes[k]? = some i → ∃ asking raw,
      (splitAt '\n' p.list.toList)[3 * k]? = some asking ∧
      (splitAt '\n' p.list.toList)[3 * k + 1]? = some raw ∧
      (splitAt '\n' p.list.toList)[3 * k + 2]? = some [] ∧
      (decimal k ++ ": tag=" ++ decimal i.fragment.start ++ ".." ++ decimal i.fragment.stop ++
        " ").toList <+: asking ∧
      (decimal k ++ ": RawTag: \"").toList <+: raw ∧
      IsOneLine asking ∧ IsOneLine raw) ∧
    (splitAt '\n' p.list.toList).length = 3 * p.includes.length + 1 ∧
    (splitAt '\n' p.list.toList).getLast? = some [] ∧
    p.list.toList.count '\n' = 3 * p.includes.length := by
  have hlength := length_splitAt_listFrom 0 p.includes
  refine ⟨fun k i h => ?_, hlength, getLast?_splitAt_listFrom 0 p.includes, ?_⟩
  · obtain ⟨hasking, hraw, hempty⟩ := getElem?_splitAt_listFrom 0 h
    rw [Nat.zero_add] at hasking hraw
    exact ⟨_, _, hasking, hraw, hempty, prefix_askingLine k i, prefix_rawLine k i,
      isOneLine_askingLine k i, isOneLine_rawLine k i⟩
  · have hcount := length_splitAt '\n' p.list.toList
    rw [list] at hcount ⊢
    omega

/-- A page of two includes. The texts of the first end lines, and begin lines of the second. -/
def forging : Page where
  includes := [
    { raw := Utf8.encode "<a/>\r\n1: RawTag: \"" ++ [0xFF]
      fragment := { start := 4, stop := 24 }
      directives := {
        sources.items :=
          [{ index := 0, url := some (.literal "u\n"), key := some (.literal "\"\n") }]
        onError := "\n\n1: tag=9..9 "
        forwarded := { names := ["x\n"] } } },
    .ofTag (Utf8.encode "<b/>") 24 28]

/-- A tag that would forge a line of the listing. -/
theorem listing_keeps_its_lines_forging :
    forging.list.toList.count '\n' = 6 ∧ (splitAt '\n' forging.list.toList).length = 7 ∧
      (∃ raw, (splitAt '\n' forging.list.toList)[1]? = some raw ∧
        "0: RawTag: \"".toList <+: raw ∧ IsOneLine raw) ∧
      ∃ asking, (splitAt '\n' forging.list.toList)[3]? = some asking ∧
        "1: tag=24..28 ".toList <+: asking ∧ IsOneLine asking := by
  obtain ⟨hlines, hlength, -, hcount⟩ := listing_keeps_its_lines forging
  obtain ⟨-, raw, -, hraw, -, -, hquoted, -, honeLine⟩ := hlines 0 _ rfl
  obtain ⟨asking, -, hasking, -, -, hplace, -, honeLine', -⟩ := hlines 1 _ rfl
  exact ⟨hcount, hlength, ⟨raw, hraw, hquoted, honeLine⟩, asking, hasking, hplace, honeLine'⟩

end Page

end EdgeInclude
