import PrismPath.Lib.Dict
import PrismPath.Python.Lines

/-!
This module contains the documents that safety policies are written in and the parser that reads them.
-/

open Python

namespace Guard

/-- The flags a policy may write after a regex. -/
inductive Flag where
  | ignoreCase
  | dotAll
  | multiline
  deriving DecidableEq

/--
What the parser uses of the runtime: `\w`, `str.lower`, `repr`, the complaint `re.compile` has about a regex if it has one,
and the hash of a document.
-/
structure Runtime where
  isWord : Char → Bool
  lower : List Char → List Char
  repr : List Char → List Char
  complaint : List Char → List Flag → Option (List Char)
  sha256 : List Char → List Char

/-- A compiled matcher. -/
inductive Pattern where
  | literal (value : List Char)
  | regex (body : List Char) (flags : List Flag)
  deriving DecidableEq

inductive Direction where
  | inbound
  | outbound
  deriving DecidableEq

def directions : List Direction :=
  [.inbound, .outbound]

structure Rule where
  name : List Char
  directions : List Direction
  patterns : List Pattern
  message : List Char
  citation : List Char
  rationale : List Char
  policy : List Char
  precedence : List Char
  deriving DecidableEq

structure Policy where
  name : List Char
  authority : List Char
  precedence : List Char
  rules : List Rule
  sourceHash : List Char
  deriving DecidableEq

/-- The text of a `PolicyError`. -/
abbrev PolicyError : Type :=
  List Char

def ofRule (rule : List Char) (complaint : String) : PolicyError :=
  "rule '".toList ++ rule ++ "': ".toList ++ complaint.toList

def ofPolicy (policy : List Char) (complaint : String) : PolicyError :=
  "policy '".toList ++ policy ++ "': ".toList ++ complaint.toList

/- Patterns. -/

def maxPatternLen : Nat :=
  1000

def hasUnbounded : List Char → Bool
  | [] => false
  | ['\\'] => false
  | '\\' :: _ :: cs => hasUnbounded cs
  | c :: cs => c = '*' || c = '+' || hasUnbounded cs

/-- The scan from `index` on, where the groups of the stack are open; the last argument is `body[index:]`. -/
def catastrophicFrom (body : List Char) : (stack : List Nat) → (index : Nat) → List Char → Bool
  | _, _, [] => false
  | _, _, ['\\'] => false
  | stack, index, '\\' :: _ :: cs => catastrophicFrom body stack (index + 2) cs
  | stack, index, '(' :: cs => catastrophicFrom body (index :: stack) (index + 1) cs
  | start :: stack, index, ')' :: cs =>
    if (cs.head? = some '*' || cs.head? = some '+')
        && hasUnbounded ((body.take index).drop (start + 1)) then
      true
    else
      catastrophicFrom body stack (index + 1) cs
  | stack, index, _ :: cs => catastrophicFrom body stack (index + 1) cs

def looksCatastrophic (body : List Char) : Bool :=
  catastrophicFrom body [] 0 body

/-- What `^/(.*)/([a-zA-Z]*)$` matches in a text: the last slash ends the body. -/
def regexLiteral : List Char → Option (List Char × List Char)
  | '/' :: rest =>
    let body := rest.rdropWhile Char.isAlpha
    if body.getLast? = some '/' then some (body.dropLast, rest.rtakeWhile Char.isAlpha) else none
  | _ => none

def flagOf (rule : List Char) (c : Char) : Except PolicyError Flag :=
  if c = 'i' then .ok .ignoreCase
  else if c = 's' then .ok .dotAll
  else if c = 'm' then .ok .multiline
  else .error (ofRule rule "unknown regex flag '" ++ [c] ++ ['\''])

/-- A text without the quotes around it. -/
def unquoted (value : List Char) : List Char :=
  if 2 ≤ value.length ∧ value.head? = value.getLast? ∧ (value.head? = some '"' ∨ value.head? = some '\'') then
    (value.drop 1).dropLast
  else
    value

/-- `_parse_pattern` -/
def parsePattern (rt : Runtime) (raw rule : List Char) : Except PolicyError Pattern := do
  let value := stripChars raw
  if value = [] then
    throw (ofRule rule "empty deny pattern")
  match regexLiteral value with
  | some (body, letters) =>
    let flags ← letters.mapM (flagOf rule)
    if maxPatternLen < body.length then
      throw (ofRule rule "regex is " ++ Nat.toDigits 10 body.length ++ " chars, exceeds ".toList
        ++ Nat.toDigits 10 maxPatternLen ++ " — a policy pattern is a phrase, not a program".toList)
    if looksCatastrophic body then
      throw (ofRule rule "regex /" ++ body
        ++ "/ nests an unbounded quantifier inside a quantified group (the (a+)+ family), which can ".toList
        ++ "backtrack catastrophically (ReDoS) and hang the guard. Rewrite without the nested ".toList
        ++ "quantifier, or use a bare phrase.".toList)
    match rt.complaint body flags with
    | some complaint => throw (ofRule rule "invalid regex /" ++ body ++ "/: ".toList ++ complaint)
    | none => return .regex body flags
  | none =>
    if unquoted value = [] then
      throw (ofRule rule "empty deny pattern")
    return .literal (unquoted value)

/- Directions. -/

def directionOf (rule part : List Char) : Except PolicyError Direction :=
  if part = "inbound".toList then .ok .inbound
  else if part = "outbound".toList then .ok .outbound
  else
    .error (ofRule rule "unknown direction '" ++ part ++ "' (expected inbound, outbound, or both)".toList)

/-- `_parse_directions` -/
def parseDirections (rt : Runtime) (raw rule : List Char) : Except PolicyError (List Direction) := do
  let value := rt.lower (stripChars raw)
  if value = "both".toList ∨ value = [] ∨ value = "*".toList then
    return directions
  let words := (value.splitOnP fun c => c = ',' || isSpace c).filter (· ≠ [])
  let parts ← words.mapM (directionOf rule)
  return if parts = [] then directions else parts

/- Lines. -/

/-- What `^([a-zA-Z_][\w-]*)\s*:\s*(.*)$` matches in a line: a key, and a value without the white space around it. -/
def attrOf (rt : Runtime) : List Char → Option (List Char × List Char)
  | [] => none
  | c :: cs =>
    if c.isAlpha || c = '_' then
      match lstripChars (cs.dropWhile fun c => rt.isWord c || c = '-') with
      | ':' :: value => some (c :: cs.takeWhile (fun c => rt.isWord c || c = '-'), stripChars value)
      | _ => none
    else
      none

/-- What `^##\s+(.+?)\s*$` matches in a line: the name, without the white space around it. -/
def headingOf : List Char → Option (List Char)
  | '#' :: '#' :: c :: name => if isSpace c && !name.isEmpty then some (stripChars name) else none
  | _ => none

/- The front matter. -/

/-- What is left of a text after each of the ways `\s*\n` matches at its start, the longest match first. -/
def blankEnds : List Char → List (List Char)
  | [] => []
  | c :: cs => if isSpace c then blankEnds cs ++ (if c = '\n' then [cs] else []) else []

def fence : List Char :=
  "---".toList

/-- What follows if `\n---\s*\n` matches at the start of a text. -/
def closingAt (cs : List Char) : Option (List Char) :=
  if ('\n' :: fence).isPrefixOf cs then (blankEnds (cs.drop 4)).head? else none

/-- What stands before and after the first place where the closing fence matches. -/
def closing : List Char → Option (List Char × List Char)
  | [] => none
  | c :: cs =>
    match closingAt (c :: cs) with
    | some body => some ([], body)
    | none => (closing cs).map fun (fm, body) => (c :: fm, body)

/-- What `^---\s*\n(.*?)\n---\s*\n(.*)$` matches in a document: the front matter and the body. -/
def frontmatter (text : List Char) : Option (List Char × List Char) :=
  if fence.isPrefixOf text then (blankEnds (text.drop 3)).findSome? closing else none

abbrev Meta : Type :=
  List (List Char × List Char)

def readMetaLine (rt : Runtime) (found : Meta) (line : List Char) : Except PolicyError Meta :=
  let line := stripChars line
  if line = [] ∨ line.head? = some '#' then
    .ok found
  else
    match attrOf rt line with
    | some (key, value) => .ok (Dict.set found (rt.lower key) value)
    | none => .error ("malformed frontmatter line: ".toList ++ rt.repr line)

/- Rules. -/

/-- A rule whose section is still open. -/
structure Draft where
  name : List Char
  directions : List Direction := Guard.directions
  patterns : List Pattern := []
  message : List Char := []
  citation : List Char := []

structure State where
  rules : List Rule := []
  current : Option Draft := none
  prose : List (List Char) := []

/-- What every rule of a policy carries of it. -/
structure Header where
  name : List Char
  authority : List Char
  precedence : List Char

def flush (header : Header) (st : State) : Except PolicyError (List Rule) :=
  match st.current with
  | none => .ok st.rules
  | some draft =>
    if draft.patterns = [] then
      .error (ofPolicy header.name "rule '" ++ draft.name
        ++ "' declares no 'deny:' pattern. A rule that denies nothing is almost certainly a mistake.".toList)
    else
      .ok (st.rules ++ [{
        name := draft.name
        directions := draft.directions
        patterns := draft.patterns
        message := draft.message
        citation := draft.citation
        rationale := stripChars (['\n'].intercalate st.prose)
        policy := header.name
        precedence := header.precedence
      }])

/-- A line of prose, unless it is blank. -/
def State.withProse (st : State) (line : List Char) : State :=
  if stripChars line = [] then st else { st with prose := st.prose ++ [stripChars line] }

/-- A line under a heading. -/
def readRuleLine (rt : Runtime) (header : Header) (st : State) (draft : Draft) (line : List Char)
    : Except PolicyError State :=
  match attrOf rt (stripChars line) with
  | none => .ok (st.withProse line)
  | some (key, value) =>
    let key := rt.lower key
    if key = "deny".toList then do
      let pattern ← parsePattern rt value draft.name
      return { st with current := some { draft with patterns := draft.patterns ++ [pattern] } }
    else if key = "allow".toList then
      .error (ofPolicy header.name "rule '" ++ draft.name
        ++ "' uses 'allow:'. The policy language has no permitting verb — composition is ".toList
        ++ "union-of-denials so that an augmentation can never weaken the floor. Remove the rule instead.".toList)
    else if key = "direction".toList then do
      let directions ← parseDirections rt value draft.name
      return { st with current := some { draft with directions } }
    else if key = "message".toList then
      .ok { st with current := some { draft with message := value } }
    else if key = "citation".toList then
      .ok { st with current := some { draft with citation := value } }
    else
      .ok (st.withProse line)

def readLine (rt : Runtime) (header : Header) (st : State) (line : List Char) : Except PolicyError State :=
  match headingOf line with
  | some name => do
    let rules ← flush header st
    return { rules, current := some { name } }
  | none =>
    match st.current with
    | none => .ok st
    | some draft => readRuleLine rt header st draft line

def precedences : List (List Char) :=
  ["floor".toList, "augmentation".toList]

/-- `meta.get(key, default)` -/
def Meta.get (found : Meta) (key : String) (default : List Char) : List Char :=
  (found.lookup key.toList).getD default

local instance lawfulBEq_chars : LawfulBEq (List Char) :=
  inferInstance

def readHeader (rt : Runtime) (found : Meta) : Except PolicyError Header := do
  let name := stripChars (found.get "name" [])
  if name = [] then
    throw "policy frontmatter must set 'name'".toList
  let authority := stripChars (found.get "authority" [])
  if authority = [] then
    throw (ofPolicy name "frontmatter must set 'authority' (who owns this policy)")
  let precedence := rt.lower (stripChars (found.get "precedence" "augmentation".toList))
  if precedence ∉ precedences then
    throw (ofPolicy name "precedence must be one of ('floor', 'augmentation'), got " ++ rt.repr precedence)
  return { name, authority, precedence }

/-- `parse_policy` -/
def parsePolicy (rt : Runtime) (text : List Char) : Except PolicyError Policy := do
  match frontmatter text with
  | none => throw "policy document must open with a --- frontmatter block".toList
  | some (fm, body) =>
    let found ← (splitlines fm).foldlM (readMetaLine rt) []
    let header ← readHeader rt found
    let st ← (splitlines body).foldlM (readLine rt header) {}
    let rules ← flush header st
    if rules = [] then
      throw (ofPolicy header.name "declares no rules")
    return {
      name := header.name
      authority := header.authority
      precedence := header.precedence
      rules
      sourceHash := rt.sha256 text
    }

end Guard
