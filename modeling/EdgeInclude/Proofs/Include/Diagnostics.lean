import Mathlib.Data.List.Forall2
import EdgeInclude.Proofs.Include.Pages
import EdgeInclude.Proofs.Log.Lines

/-!
# What is logged of reading a page

Reading a page tells of each tag that is read, in order, and of the one that ends the reading. An empty
tag asks for nothing, and nothing is told of it. A build that checks its sums tells the same, up to the
tag where it breaks down.

The strings of JSON texts are written by `quote`, of which nothing is known but what is assumed where it
matters.

* **`Include.TellsRead`**, **`Include.TellsFailed`**: what a line says of a tag.
* **`Page.Built`**: the pages there are. They log under no name or under that of pages.
* **`Page.forall₂_linesOf`**: a line for each tag that is read. **`Page.linesOf_failing`**: one line for
  the tag that cannot be read, and none for those behind it.
* **`Page.linesOfChecked_of_breaksAt`**: where a checked build breaks down, the tags before are told of.
* **`Page.diagnostics_are_complete`**: all that is logged of reading a page.
-/

namespace EdgeInclude

open Log

variable {quote : String → List Char}

/-- The line is one that the logger writes, of a level and with a message, and some of its fields have
the given texts. -/
def Log.Logger.Writes (quote : String → List Char) (l : Logger) (level : Level) (message : String)
    (texts : List (String × String)) (line : Line) : Prop :=
  ∃ fields elapsed, l.line? level message fields elapsed quote = some line ∧
    ∀ field ∈ texts, fields.get? field.1 = some (.string field.2)

namespace Include

variable {i parsed : Include} {d : Directives} {cause : TagError} {l : Logger} {elapsed : Nat}
variable {line : Line}

/-- The line tells that the tag is read. -/
def TellsRead (quote : String → List Char) (l : Logger) (i : Include) (line : Line) : Prop :=
  l.Writes quote .debug "esi tag parsed" [("tag", i.rawText)] line

/-- The line tells that the tag cannot be read, and why. -/
def TellsFailed (quote : String → List Char) (l : Logger) (i : Include) (cause : TagError)
    (line : Line) : Prop :=
  l.Writes quote .error "esi tag parse failed" [("tag", i.rawText), ("error", cause.message)] line

theorem parseLines_of_nil (h : i.raw = []) : i.parseLines l elapsed quote = [] := by
  unfold parseLines parseReport
  rw [if_pos h]

/-- What is told of a tag that is read. -/
theorem parseReport_of_ok (hraw : i.raw ≠ []) (h : Directives.ofTag i.raw = .ok d) :
    i.parseReport = some (.debug, "esi tag parsed",
      (((({} : Fields).text "tag" i.rawText).count "resources" d.sources.items.length).millis
        "timeout_ms" d.timeout).millis "ttl_ms" d.ttl) := by
  unfold parseReport
  rw [if_neg hraw, h]

/-- What is told of a tag that cannot be read. -/
theorem parseReport_of_error (hraw : i.raw ≠ []) (h : Directives.ofTag i.raw = .error cause) :
    i.parseReport = some (.error, "esi tag parse failed",
      (({} : Fields).text "tag" i.rawText).text "error" cause.message) := by
  unfold parseReport
  rw [if_neg hraw, h]

/-- A tag that is read is told in one line. -/
theorem exists_tellsRead (hi : i.parse = .ok parsed) (hraw : i.raw ≠ []) (l : Logger)
    (elapsed : Nat) (quote : String → List Char) :
    ∃ line, i.parseLines (l.admitting .trace) elapsed quote = [line] ∧
      TellsRead quote (l.admitting .trace) i line := by
  obtain ⟨d, hd, -⟩ := (parse_eq_ok_iff hraw).mp hi
  unfold parseLines
  rw [parseReport_of_ok hraw hd]
  dsimp only
  obtain ⟨line, hline⟩ := l.exists_line?_trace .debug "esi tag parsed" _ elapsed quote
  refine ⟨line, by rw [hline]; rfl, _, elapsed, hline, ?_⟩
  simp [Fields.text, Fields.count, Fields.millis, Fields.get?_set]

/-- A tag that cannot be read is told in one line. -/
theorem exists_tellsFailed (hi : i.parse = .error cause) (l : Logger) (elapsed : Nat)
    (quote : String → List Char) :
    ∃ line, i.parseLines (l.admitting .trace) elapsed quote = [line] ∧
      TellsFailed quote (l.admitting .trace) i cause line := by
  -- an empty tag does not fail
  have hraw : i.raw ≠ [] := by
    intro hraw
    rw [parse_of_nil hraw] at hi
    cases hi
  have herror : Directives.ofTag i.raw = .error cause := by
    rw [parse_eq hraw] at hi
    cases hd : Directives.ofTag i.raw with
    | ok d =>
      rw [hd] at hi
      cases hi
    | error e =>
      rw [hd] at hi
      exact congrArg Except.error (Except.error.inj hi)
  unfold parseLines
  rw [parseReport_of_error hraw herror]
  dsimp only
  obtain ⟨line, hline⟩ := l.exists_line?_trace .error "esi tag parse failed" _ elapsed quote
  refine ⟨line, by rw [hline]; rfl, _, elapsed, hline, ?_⟩
  simp [Fields.text, Fields.get?_set]

/-- The message and the names of the fields, which are written as they are, are no part of the tag. -/
theorem isUnbroken_parseReport {report : Level × String × Fields}
    (h : i.parseReport = some report) :
    Text.IsUnbroken report.2.1.toList ∧ report.2.2.NamesUnbroken := by
  unfold parseReport at h
  split at h
  · cases h
  · dsimp only at h
    -- the text of the tag is a value, and only names are looked at
    have htag : (({} : Fields).text "tag" i.rawText).NamesUnbroken :=
      Fields.namesUnbroken_empty.set _ (by simp)
    split at h
    · obtain rfl := Option.some.inj h
      exact ⟨by simp, htag.set _ (by simp)⟩
    · obtain rfl := Option.some.inj h
      exact ⟨by simp, ((htag.set _ (by simp)).set _ (by simp)).set _ (by simp)⟩

/-- No line of a tag breaks, if quoted texts and the component do not. -/
theorem isUnbroken_of_mem_parseLines (hquote : ∀ text, Text.IsUnbroken (quote text))
    (hline : line ∈ i.parseLines l elapsed quote)
    (hcomponent : ∀ name, l.component = some name → Text.IsUnbroken name.toList) :
    Text.IsUnbroken line.text.toList := by
  unfold parseLines at hline
  split at hline
  · cases hline
  · rename_i hreport
    obtain ⟨hmessage, hnames⟩ := isUnbroken_parseReport hreport
    exact Logger.isUnbroken_of_line? hquote (Option.mem_toList.mp hline) hcomponent hmessage hnames

/-- A higher level leaves lines out and changes none. -/
theorem parseLines_admitting (i : Include) (l : Logger) (least : Level) (elapsed : Nat)
    (quote : String → List Char) :
    i.parseLines (l.admitting least) elapsed quote =
      (i.parseLines (l.admitting .trace) elapsed quote).filter
        fun line => least.rank ≤ line.level.rank := by
  unfold parseLines
  split
  · rfl
  · exact l.toList_line? least _ _ _ elapsed quote

end Include

namespace Page

variable {p : Page} {n : Nat} {i : Include} {is before read after : List Include}
variable {e : PageError} {l : Logger} {clock : Nat → Nat} {cause : TagError} {line : Line}

/-! ## The pages there are

Pages are built by adding tags and setting loggers, so each of them is told with unbroken names. -/

/-- The pages that can be built: an empty one at first, whose logger is the default one until another is
given. -/
inductive Built : Page → Prop
  | empty : Built {}
  | withLogger {p : Page} (logger : Logger) (h : Built p) : Built (p.withLogger logger)
  | push {p : Page} (i : Include) (h : Built p) : Built (p.push i)
  | parse {p : Page} (h : Built p) : Built p.parse.1

/-- The page, with another least level of its logger. -/
def admitting (p : Page) (least : Level) : Page :=
  { p with logger := p.logger.admitting least }

/-- No page logs under a name that was given from outside. -/
theorem Built.component_eq (h : p.Built) {name : String} (hname : p.logger.component = some name) :
    name = component := by
  induction h with
  | empty => cases hname
  | withLogger logger h ih => exact (Option.some.inj hname).symm
  | push i h ih => exact ih hname
  | parse h ih => exact ih hname

/-! ## Includes one after the other

The lines of includes follow each other in the order of the includes, up to the first that cannot be
read. -/

/-- Lines of includes that are read come before those of the others. -/
theorem linesOf_append (h : before.map Include.parse = read.map .ok) (n : Nat)
    (is : List Include) :
    linesOf l clock n (before ++ is) quote =
      linesOf l clock n before quote ++ linesOf l clock (n + before.length) is quote := by
  induction before generalizing n read with
  | nil => rfl
  | cons i before ih =>
    obtain ⟨parsed, read, rfl, hi, hrest⟩ := List.map_eq_cons_iff.mp h.symm
    rw [List.cons_append, linesOf, linesOf, ← hi]
    dsimp only
    -- the tag is read, so the reading goes on behind it
    rw [ih hrest.symm, place_cons, List.append_assoc]

/-- Each tag that is read is told of, in order, except for the empty ones. -/
theorem forall₂_linesOf (h : before.map Include.parse = read.map .ok) (n : Nat) :
    List.Forall₂ (Include.TellsRead quote (l.admitting .trace))
      (before.filter fun i => i.raw ≠ []) (linesOf (l.admitting .trace) clock n before quote) := by
  induction before generalizing n read with
  | nil => exact .nil
  | cons i before ih =>
    obtain ⟨parsed, read, rfl, hi, hrest⟩ := List.map_eq_cons_iff.mp h.symm
    rw [linesOf, ← hi]
    dsimp only
    -- an empty tag is on neither side
    by_cases hraw : i.raw = []
    · rw [Include.parseLines_of_nil hraw, List.filter_cons_of_neg (by simpa using hraw)]
      exact ih hrest.symm (n + 1)
    · obtain ⟨line, hlines, htells⟩ := Include.exists_tellsRead hi.symm hraw l (clock n) quote
      rw [hlines, List.filter_cons_of_pos (by simpa using hraw)]
      exact .cons htells (ih hrest.symm (n + 1))

/-- The tag that cannot be read is told of, and none behind it is. -/
theorem linesOf_failing (hi : i.parse = .error cause) (l : Logger) (clock : Nat → Nat) (n : Nat)
    (after : List Include) (quote : String → List Char) :
    ∃ line, linesOf (l.admitting .trace) clock n (i :: after) quote = [line] ∧
      Include.TellsFailed quote (l.admitting .trace) i cause line := by
  rw [linesOf, hi]
  exact Include.exists_tellsFailed hi l (clock n) quote

/-- A line that is logged of includes is logged of one of them. -/
theorem exists_mem_parseLines (h : line ∈ linesOf l clock n is quote) :
    ∃ i ∈ is, ∃ elapsed, line ∈ i.parseLines l elapsed quote := by
  induction is generalizing n with
  | nil => cases h
  | cons i is ih =>
    rw [linesOf] at h
    split at h
    · exact ⟨i, List.mem_cons_self, _, h⟩
    · rcases List.mem_append.mp h with hhere | hthere
      · exact ⟨i, List.mem_cons_self, _, hhere⟩
      · obtain ⟨j, hj, hline⟩ := ih hthere
        exact ⟨j, List.mem_cons_of_mem i hj, hline⟩

/-- A higher level leaves lines out and changes none. -/
theorem linesOf_admitting (l : Logger) (least : Level) (n : Nat) (is : List Include) :
    linesOf (l.admitting least) clock n is quote =
      (linesOf (l.admitting .trace) clock n is quote).filter
        fun line => least.rank ≤ line.level.rank := by
  induction is generalizing n with
  | nil => rfl
  | cons i is ih =>
    rw [linesOf, linesOf]
    split
    · exact i.parseLines_admitting l least (clock n) quote
    · rw [List.filter_append, ← ih (n + 1), ← i.parseLines_admitting l least (clock n) quote]

/-! ## Builds that check their sums

Up to the tag at which it breaks down such a build logs what the other does. -/

/-- Where the reading does not break down, the same is told. -/
theorem linesOfChecked_of_ne_none (h : parseAllChecked n is ≠ none) (l : Logger)
    (clock : Nat → Nat) (quote : String → List Char) :
    linesOfChecked l clock n is quote = linesOf l clock n is quote := by
  induction is generalizing n with
  | nil => rfl
  | cons i is ih =>
    rw [parseAllChecked] at h
    rw [linesOfChecked, linesOf]
    cases hi : i.parseChecked with
    | none => simp [hi] at h
    | some r =>
      rw [← Include.eq_parse_of_parseChecked hi]
      cases r with
      | error cause => rfl
      | ok parsed =>
        have hrest : parseAllChecked (n + 1) is ≠ none := fun hnone => by simp [hi, hnone] at h
        simp only [ih hrest]

/-- Where it breaks down, the tags before are told of. -/
theorem linesOfChecked_of_breaksAt {k : Nat} (h : BreaksAt is k) (l : Logger) (clock : Nat → Nat)
    (n : Nat) (quote : String → List Char) :
    linesOfChecked l clock n is quote = linesOf l clock n (is.take k) quote := by
  induction is generalizing n k with
  | nil => exact absurd h (not_breaksAt_nil k)
  | cons i is ih =>
    rw [linesOfChecked]
    cases k with
    | zero =>
      rw [breaksAt_zero_iff.mp h]
      rfl
    | succ k =>
      obtain ⟨⟨parsed, hi⟩, hrest⟩ := breaksAt_succ_iff.mp h
      rw [hi, List.take_succ_cons, linesOf, ← Include.eq_parse_of_parseChecked hi]
      simp only [ih hrest]

/-- What a checked build reads before it breaks down, another one reads too. -/
theorem BreaksAt.exists_map_parse {k : Nat} (h : BreaksAt is k) :
    ∃ read : List Include, (is.take k).map Include.parse = read.map .ok := by
  obtain ⟨i, -, -, read, hread⟩ := h
  refine ⟨read, ?_⟩
  generalize is.take k = before at hread
  induction before generalizing read with
  | nil => simpa using hread
  | cons j before ih =>
    obtain ⟨parsed, read, rfl, hj, hrest⟩ := List.map_eq_cons_iff.mp hread.symm
    rw [List.map_cons, List.map_cons, ih read hrest.symm,
      ← Include.eq_parse_of_parseChecked hj.symm]

/-! ## The page

A line for each tag that was read, then one for the first that could not be, and none behind it. -/

/-- Without an error no tag fails. -/
theorem not_failsAt_of_parse_eq_none (h : p.parse.2 = none) (k : Nat) (cause : TagError) :
    ¬p.FailsAt k cause := by
  rintro ⟨i, hi, hfails⟩
  obtain ⟨parsed, hparsed⟩ := (parse_eq_none_iff p).mp h i (List.mem_of_getElem? hi)
  rw [hfails] at hparsed
  cases hparsed

/-- The lines of a page that cannot be read: those of the tags before the one that fails, then its
own. -/
theorem exists_parseLinesAt_eq (h : p.parse.2 = some e) (clock : Nat → Nat)
    (quote : String → List Char) :
    ∃ i lines line, p.includes[e.index]? = some i ∧ i.parse = .error e.cause ∧
      (p.admitting .trace).parseLinesAt clock quote = lines ++ [line] ∧
      List.Forall₂ (Include.TellsRead quote (p.logger.admitting .trace))
        ((p.includes.take e.index).filter fun i => i.raw ≠ []) lines ∧
      Include.TellsFailed quote (p.logger.admitting .trace) i e.cause line := by
  obtain ⟨⟨i, hi, hfails⟩, -, hread, -⟩ := parse_eq_some h
  obtain ⟨hlt, hget⟩ := List.getElem?_eq_some_iff.mp hi
  have hsplit : p.includes.take e.index ++ i :: p.includes.drop (e.index + 1) = p.includes := by
    rw [← hget, ← List.drop_eq_getElem_cons hlt, List.take_append_drop]
  obtain ⟨line, hlast, htells⟩ := linesOf_failing hfails p.logger clock
    (0 + (p.includes.take e.index).length) (p.includes.drop (e.index + 1)) quote
  have hlines : (p.admitting .trace).parseLinesAt clock quote =
      linesOf (p.logger.admitting .trace) clock 0 (p.includes.take e.index) quote ++ [line] := by
    rw [← hlast, ← linesOf_append hread.symm, hsplit]
    rfl
  exact ⟨i, _, line, hi, hfails, hlines, forall₂_linesOf hread.symm 0, htells⟩

/-- No line that is logged of includes under the name of a page is broken, whatever their tags hold. -/
theorem Built.isUnbroken (hp : p.Built) (hquote : ∀ text, Text.IsUnbroken (quote text))
    (least : Level) (hline : line ∈ linesOf (p.logger.admitting least) clock n is quote) :
    line.IsUnbroken := by
  obtain ⟨i, -, elapsed, hline⟩ := exists_mem_parseLines hline
  -- the name of the component is written as it is, and it is that of pages
  refine Text.IsUnbroken.encode
    (Include.isUnbroken_of_mem_parseLines hquote hline fun name hname => ?_)
  rw [hp.component_eq hname]
  simp [component]

/-- **What is logged of reading a page is complete, and no tag can forge any of it.** With a logger that
admits all levels there is one line for each tag that is read and not empty, in the order of the page;
if the reading ends at a tag, one line for that tag comes last. There are no others. No line holds a
line feed or a carriage return, provided that JSON strings are written without them. With a higher least
level those of the lines are written whose levels it admits.

A build that checks its sums writes the same lines, unless it breaks down at a tag. Then it has written
one line for each tag before that one that is not empty, and writes no other. -/
theorem diagnostics_are_complete (hp : p.Built) (hquote : ∀ text, Text.IsUnbroken (quote text))
    (clock : Nat → Nat) :
    (p.parse.2 = none → (∀ k cause, ¬p.FailsAt k cause) ∧
      List.Forall₂ (Include.TellsRead quote (p.logger.admitting .trace))
        (p.includes.filter fun i => i.raw ≠ []) ((p.admitting .trace).parseLinesAt clock quote)) ∧
    (∀ e, p.parse.2 = some e → (∀ k cause, p.FailsAt k cause → e.index ≤ k) ∧
      ∃ i lines line, p.includes[e.index]? = some i ∧ i.parse = .error e.cause ∧
        (p.admitting .trace).parseLinesAt clock quote = lines ++ [line] ∧
        List.Forall₂ (Include.TellsRead quote (p.logger.admitting .trace))
          ((p.includes.take e.index).filter fun i => i.raw ≠ []) lines ∧
        Include.TellsFailed quote (p.logger.admitting .trace) i e.cause line) ∧
    (∀ least, ∀ line ∈ (p.admitting least).parseLinesAt clock quote, line.IsUnbroken) ∧
    (∀ least, (p.admitting least).parseLinesAt clock quote =
      ((p.admitting .trace).parseLinesAt clock quote).filter
        fun line => least.rank ≤ line.level.rank) ∧
    (p.parseChecked ≠ none → ∀ least, (p.admitting least).parseLinesCheckedAt clock quote =
      (p.admitting least).parseLinesAt clock quote) ∧
    ∀ k, p.BreaksDownAt k →
      List.Forall₂ (Include.TellsRead quote (p.logger.admitting .trace))
        ((p.includes.take k).filter fun i => i.raw ≠ [])
        ((p.admitting .trace).parseLinesCheckedAt clock quote) ∧
      ∀ least, (∀ line ∈ (p.admitting least).parseLinesCheckedAt clock quote, line.IsUnbroken) ∧
        (p.admitting least).parseLinesCheckedAt clock quote =
          ((p.admitting .trace).parseLinesCheckedAt clock quote).filter
            fun line => least.rank ≤ line.level.rank := by
  refine ⟨fun h => ⟨not_failsAt_of_parse_eq_none h, ?_⟩, fun e h => ⟨(parse_eq_some h).2.1, ?_⟩,
    fun least line hline => ?_, fun least => ?_, fun h least => ?_, fun k hk => ?_⟩
  · exact forall₂_linesOf (parse_eq_none h).symm 0
  · exact exists_parseLinesAt_eq h clock quote
  · exact hp.isUnbroken hquote least hline
  · exact linesOf_admitting p.logger least 0 p.includes
  · exact linesOfChecked_of_ne_none (mt Option.map_eq_none_iff.mpr h) _ clock quote
  · -- up to the breakdown the lines are those of the includes before it, which are read
    have hlines (least : Level) : (p.admitting least).parseLinesCheckedAt clock quote =
        linesOf (p.logger.admitting least) clock 0 (p.includes.take k) quote :=
      linesOfChecked_of_breaksAt hk _ clock 0 quote
    obtain ⟨read, hread⟩ := hk.exists_map_parse
    simp only [hlines]
    exact ⟨forall₂_linesOf hread 0, fun least => ⟨fun line => hp.isUnbroken hquote least,
      linesOf_admitting p.logger least 0 _⟩⟩

/-- A page of four tags, whose logger writes for people. Behind the first stand a line break, the
beginning of a line, and a byte that is no text; the second is empty; the third has a unit that is
none, and a line break behind it. -/
def hostile : Page where
  includes := [.ofTag (Utf8.encode "<a src='u'/>\r\n[ERROR] esi-parser: forged" ++ [0xFF]) 0 41,
    .ofTag [] 41 41, .ofTag (Utf8.encode "<a src='v' ttl='1x'/>\n") 41 63,
    .ofTag (Utf8.encode "<a src='w'/>") 63 75]
  logger := { component := some component, minLevel := .warn, format := .human }

/-- A tag with line breaks in it that is read, and one that cannot be. -/
theorem diagnostics_are_complete_hostile : hostile.Built ∧
    ∃ told last, (hostile.admitting .trace).parseLinesAt id = [told, last] ∧
      told.level = .debug ∧ last.level = .error ∧ told.IsUnbroken ∧ last.IsUnbroken ∧
      hostile.parseLinesAt id = [last] := by
  have hbuilt : hostile.Built := .push _ (.push _ (.push _ (.push _
    (.withLogger { minLevel := .warn, format := .human } .empty))))
  have herror : hostile.parse.2 = some ⟨2, .duration "ttl" "1x" "<a src='v' ttl='1x'/>\n"
      (.unknownUnit "x" "1x")⟩ := by decide +kernel
  have htags : (hostile.includes.take 2).filter (fun i => i.raw ≠ []) =
      hostile.includes.take 1 := by decide +kernel
  have hquote (text : String) : Text.IsUnbroken (Json.quoteChars text) :=
    (Json.isOneLine_quoteChars text).isUnbroken
  obtain ⟨-, hfailing, hunbroken, hleast, -, -⟩ := diagnostics_are_complete hbuilt hquote id
  obtain ⟨-, i, lines, last, -, -, hlines, hread, hfailed⟩ := hfailing _ herror
  rw [htags] at hread
  obtain _ | ⟨hread, ⟨⟩⟩ := hread
  rename_i told
  obtain ⟨_, _, htold, -⟩ := hread
  obtain ⟨_, _, hlast, -⟩ := hfailed
  have hdebug := Logger.level_of_line? htold
  have herrors := Logger.level_of_line? hlast
  have hhigher := hleast .warn
  rw [hlines] at hhigher
  refine ⟨hbuilt, told, last, hlines, hdebug, herrors, hunbroken .trace told ?_,
    hunbroken .trace last ?_, hhigher.trans ?_⟩
  · rw [hlines]
    exact List.mem_cons_self
  · rw [hlines]
    exact List.mem_cons_of_mem told List.mem_cons_self
  · simp [hdebug, herrors, Level.rank]

end Page

end EdgeInclude
