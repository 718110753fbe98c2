import EdgeInclude.Template.Basic
import EdgeInclude.Text.Blank
import EdgeInclude.Text.Decimal
import EdgeInclude.Text.Quoted

/-!
# Compiling a template

An action stands between double braces. It is the name of a function followed by its arguments,
which are texts between double quotes or between backquotes; white space may stand between all of
them. Errors name the place of their fault by its byte offset in the source.
-/

namespace EdgeInclude.Template

/-- Why a text is no template. -/
inductive CompileError where
  /-- An action that begins at the offset does not end. -/
  | unclosedAction (offset : Nat)
  /-- An action that begins at the offset has nothing in it. -/
  | emptyAction (offset : Nat)
  /-- An argument that begins at the offset does not end. -/
  | unterminatedString (offset : Nat)
  /-- There is no such function. -/
  | unknownFunction (name : String)
  /-- A function stands with a wrong number of arguments. -/
  | arity (function : String) (expected found : Nat)
  /-- Something stands where it cannot. -/
  | unexpectedToken (token : String)
deriving DecidableEq, Repr

/-- What the error says. -/
def CompileError.message : CompileError → String
  | unclosedAction offset => "unclosed action starting at byte " ++ Text.decimal offset
  | emptyAction offset => "empty action at byte " ++ Text.decimal offset
  | unterminatedString offset => "unterminated string starting at byte " ++ Text.decimal offset
  | unknownFunction name => "unknown function " ++ Text.quote name
  | arity function expected found =>
    "function " ++ Text.quote function ++ " takes " ++ Text.decimal expected ++
      " argument(s), got " ++ Text.decimal found
  | unexpectedToken token => "unexpected " ++ Text.quote token ++ " in action"

/-- The bytes that a list of characters takes. -/
def byteLength (cs : List Char) : Nat :=
  cs.foldr (fun c length => c.utf8Size + length) 0

/-! ### Words and arguments -/

/-- One element of an action. -/
inductive Token where
  /-- A run of characters other than white space and quotes. -/
  | word (cs : List Char)
  /-- What stands between two quotes of one kind. -/
  | quoted (cs : List Char)
deriving DecidableEq, Repr

/-- How an error names a token. -/
def Token.shown : Token → String
  | word cs => String.ofList cs
  | quoted cs => Text.quote (String.ofList cs)

/-- A character that begins and ends an argument. -/
def isQuote (c : Char) : Bool :=
  c = '"' || c = '\x60'

/-- Takes a word: everything up to white space, a quote or closing braces. -/
def takeWord : List Char → List Char × List Char
  | [] => ([], [])
  | '\x7d' :: '\x7d' :: cs => ([], '\x7d' :: '\x7d' :: cs)
  | c :: cs =>
    if Text.isBlank c || isQuote c then ([], c :: cs)
    else
      let (word, rest) := takeWord cs
      (c :: word, rest)

/-- Takes what stands before the next quote of the given kind, if there is one. -/
def takeQuoted (quote : Char) : List Char → Option (List Char × List Char)
  | [] => none
  | c :: cs =>
    if c = quote then some ([], cs)
    else (takeQuoted quote cs).map fun (body, rest) => (c :: body, rest)

theorem length_takeWord_le (cs : List Char) : (takeWord cs).2.length ≤ cs.length := by
  fun_induction takeWord cs with
  | case1 => simp
  | case2 => simp
  | case3 => simp
  | case4 c cs _ _ word rest h ih =>
    simp only [h] at ih
    simp only [List.length_cons]
    omega

theorem length_takeQuoted_lt {quote : Char} {cs body rest : List Char}
    (h : takeQuoted quote cs = some (body, rest)) : rest.length < cs.length := by
  induction cs generalizing body with
  | nil => simp [takeQuoted] at h
  | cons c cs ih =>
    rw [takeQuoted] at h
    split at h
    · cases h; simp
    · obtain ⟨⟨body', rest'⟩, hq, heq⟩ := Option.map_eq_some_iff.1 h
      cases heq
      have := ih hq
      simp only [List.length_cons]
      omega

/-- The elements of an action and what follows its closing braces. -/
structure Lexed where
  tokens : List Token
  rest : List Char
deriving DecidableEq, Repr

-- The recursion below is bounded by the equation of its match, which the linter does not see.
set_option linter.unusedVariables false in
/-- Reads the elements of the action that begins at byte `start`, from byte `pos` on, up to the
closing braces. -/
def lexAction (start pos : Nat) (cs : List Char) : Except CompileError Lexed :=
  match cs with
  | [] => .error (.unclosedAction start)
  | '\x7d' :: '\x7d' :: rest => .ok ⟨[], rest⟩
  | c :: cs =>
    if Text.isBlank c then lexAction start (pos + c.utf8Size) cs
    else if isQuote c then
      match h : takeQuoted c cs with
      | none => .error (.unterminatedString pos)
      | some (body, rest) =>
        match lexAction start (pos + byteLength body + 2) rest with
        | .error e => .error e
        | .ok l => .ok { l with tokens := .quoted body :: l.tokens }
    else
      match lexAction start (pos + byteLength (c :: (takeWord cs).1)) (takeWord cs).2 with
      | .error e => .error e
      | .ok l => .ok { l with tokens := .word (c :: (takeWord cs).1) :: l.tokens }
termination_by cs.length
decreasing_by
  · simp
  · have := length_takeQuoted_lt h
    simp only [List.length_cons]
    omega
  · have := length_takeWord_le cs
    simp only [List.length_cons]
    omega

/-! ### Actions -/

/-- A character that can stand in the name of a function. -/
def isNameChar (c : Char) : Bool :=
  ('a' ≤ c && c ≤ 'z') || c = '_'

/-- The texts of the arguments; a word is no argument. -/
def arguments : List Token → Except CompileError (List String)
  | [] => .ok []
  | .word cs :: _ => .error (.unexpectedToken (String.ofList cs))
  | .quoted cs :: tokens =>
    match arguments tokens with
    | .error e => .error e
    | .ok args => .ok (String.ofList cs :: args)

/-- The action that a function makes of its arguments. -/
def applyFunction (name : String) (args : List String) : Except CompileError Action :=
  let unary (action : String → Action) : Except CompileError Action :=
    match args with
    | [arg] => .ok (action arg)
    | _ => .error (.arity name 1 args.length)
  let constant (action : Action) : Except CompileError Action :=
    match args with
    | [] => .ok action
    | _ => .error (.arity name 0 args.length)
  match name with
  | "header" => unary .header
  | "query" => unary .query
  | "param" => unary .param
  | "path" => constant .path
  | "method" => constant .method
  | "request_id" => constant .requestId
  | _ => .error (.unknownFunction name)

/-- The action that elements make which begin at byte `start`. -/
def actionOf (start : Nat) : List Token → Except CompileError Action
  | [] => .error (.emptyAction start)
  | .quoted cs :: _ => .error (.unexpectedToken (Token.quoted cs).shown)
  | .word cs :: tokens =>
    if cs.all isNameChar then
      match arguments tokens with
      | .error e => .error e
      | .ok args => applyFunction (String.ofList cs) args
    else .error (.unexpectedToken (Token.word cs).shown)

/-! ### Text and actions -/

/-- The text before the next opening braces, and what follows them if there are any. -/
def splitMarker : List Char → List Char × Option (List Char)
  | [] => ([], none)
  | '\x7b' :: '\x7b' :: cs => ([], some cs)
  | c :: cs =>
    let (text, rest) := splitMarker cs
    (c :: text, rest)

/-- A part of literal text; empty text makes none. -/
def textPart : List Char → List Part
  | [] => []
  | c :: cs => [.text (String.ofList (c :: cs))]

theorem length_splitMarker_lt {cs text body : List Char} (h : splitMarker cs = (text, some body)) :
    body.length < cs.length := by
  fun_induction splitMarker cs generalizing text with
  | case1 => simp at h
  | case2 cs => cases h; simp only [List.length_cons]; omega
  | case3 c cs _ text' rest hs ih =>
    cases h
    have := ih hs
    simp only [List.length_cons]
    omega

theorem length_rest_lexAction_lt {start pos : Nat} {cs : List Char} {l : Lexed}
    (h : lexAction start pos cs = .ok l) : l.rest.length < cs.length := by
  fun_induction lexAction start pos cs generalizing l with
  | case1 => simp at h
  | case2 => cases h; simp only [List.length_cons]; omega
  | case3 pos c cs _ _ ih =>
    have := ih h
    simp only [List.length_cons]
    omega
  | case4 => simp at h
  | case5 => simp at h
  | case6 pos c cs _ _ _ body rest hq l' hl ih =>
    cases h
    have := ih hl
    have := length_takeQuoted_lt hq
    simp only [List.length_cons]
    omega
  | case7 => simp at h
  | case8 pos c cs _ _ _ l' hl ih =>
    cases h
    have := ih hl
    have := length_takeWord_le cs
    simp only [List.length_cons]
    omega

-- The recursion below is bounded by the equations of its matches, which the linter does not see.
set_option linter.unusedVariables false in
/-- The parts of a text that begins at byte `pos`. -/
def compileFrom (pos : Nat) (cs : List Char) : Except CompileError (List Part) :=
  match h : splitMarker cs with
  | (text, none) => .ok (textPart text)
  | (text, some body) =>
    let start := pos + byteLength text
    match hl : lexAction start (start + 2) body with
    | .error e => .error e
    | .ok l =>
      match actionOf start l.tokens with
      | .error e => .error e
      | .ok action =>
        match compileFrom (pos + byteLength cs - byteLength l.rest) l.rest with
        | .error e => .error e
        | .ok parts => .ok (textPart text ++ .action action :: parts)
termination_by cs.length
decreasing_by
  have := length_splitMarker_lt h
  have := length_rest_lexAction_lt hl
  omega

/-- Compiles a template. -/
def compile (source : String) : Except CompileError Template :=
  match compileFrom 0 source.toList with
  | .error e => .error e
  | .ok parts => .ok ⟨source, parts⟩

/-- The text has opening braces in it. -/
def isTemplate (text : String) : Bool :=
  (splitMarker text.toList).2.isSome

end EdgeInclude.Template
