import PrismPath.Lib.OrderedMap
import PrismPath.Python.Number
import PrismPath.Python.Text

/-!
This module contains the Rust side of the edge conditions: how a condition's text selects its tier, the tokenizer and
the parser of its expression, and the evaluator.
-/

namespace Rust

namespace Kernel

open Python (PyFloat)

/-- JSON and the ellipsis. Nothing here reads the sign a zero has as an `f64`. -/
inductive Value where
  | null
  | bool (b : Bool)
  | num (x : PyFloat)
  | str (s : String)
  | list (vs : List Value)
  | obj (kvs : List (String × Value))
  | ellipsis

/- Texts. -/

def isJsWs (c : Char) : Bool :=
  let n := c.toNat
  (9 ≤ n && n ≤ 13) || n = 32 || n = 0xA0 || n = 0x1680 || (0x2000 ≤ n && n ≤ 0x200A) || n = 0x2028 || n = 0x2029
    || n = 0x202F || n = 0x205F || n = 0x3000 || n = 0xFEFF

def isPyWs (c : Char) : Bool :=
  isJsWs c || c.toNat = 0x85 || (0x1C ≤ c.toNat && c.toNat ≤ 0x1F)

/-- `text.trim_matches(is_py_ws)` -/
def pyTrim (text : String) : String :=
  .ofList ((text.toList.dropWhile isPyWs).rdropWhile isPyWs)

/-- `to_lowercase`, of which the tests below only see the letters of a keyword. -/
def toLowercase (text : String) : String :=
  Python.lower text

def always : List String :=
  ["always", "true", "else", "otherwise", "default", "_"]

def never : List String :=
  ["false", "never"]

def pyKeywords : List String :=
  ["as", "assert", "async", "await", "break", "class", "continue", "def", "del", "elif", "else", "except", "finally",
    "for", "from", "global", "if", "import", "is", "lambda", "nonlocal", "pass", "raise", "return", "try", "while",
    "with", "yield"]

def isDeterministic (condition : String) : Bool :=
  let condText := toLowercase (pyTrim condition)
  Python.startsWith condText "when " || condText ∈ always || condText ∈ never

def isError (condition : String) : Bool :=
  Python.startsWith (toLowercase (pyTrim condition)) "on error"

def isEvent (condition : String) : Bool :=
  let condText := toLowercase (pyTrim condition)
  Python.startsWith condText "on event" || Python.startsWith condText "on timeout"

def eventName (condition : String) : String :=
  let condText := pyTrim condition
  if Python.startsWith (toLowercase condText) "on timeout" then
    "__timeout__"
  else
    pyTrim (Python.dropChars condText "on event".length)

def isSemantic (condition : String) : Bool :=
  !isDeterministic condition && !isError condition && !isEvent condition

def errorExpr (condition : String) : String :=
  pyTrim (Python.dropChars (pyTrim condition) "on error".length)

def exprOf (condition : String) : String :=
  let condText := pyTrim condition
  if Python.startsWith (toLowercase condText) "when " then pyTrim (Python.dropChars condText 5) else condText

/- Tokens. -/

inductive Op where
  | eq
  | ne
  | le
  | ge
  | lt
  | gt
  | openBracket
  | closeBracket
  | openParen
  | closeParen
  | comma
  | minus
  | plus
  deriving DecidableEq

inductive Tok where
  | name (name : String)
  | num (x : PyFloat) (isFloat : Bool)
  | str (s : String)
  | ellipsis
  | op (op : Op)

inductive PredicateError where
  | unterminatedString
  | bytesLiteral
  | malformedNumber
  | complexLiteral
  | disallowedNear (near : List Char)
  | tooDeep
  | expectedIn
  | expected (op : Op)
  | unexpectedEnd
  | disallowedUnary (op : Op)
  | unexpectedKeyword (name : String)
  | keywordAsName (name : String)
  | disallowed (op : Op)
  | trailingTokens

def isHexDigit (c : Char) : Bool :=
  c.isDigit || ('a' ≤ c && c ≤ 'f') || ('A' ≤ c && c ≤ 'F')

/-- `to_digit` of a digit of the radix. -/
def toDigit (c : Char) : ℕ :=
  if c.isDigit then c.toNat - '0'.toNat
  else if 'a' ≤ c then c.toNat - 'a'.toNat + 10
  else c.toNat - 'A'.toNat + 10

def hexValue (cs : List Char) : ℕ :=
  cs.foldl (fun n c => 16 * n + toDigit c) 0

/-- `char::from_u32(n).unwrap_or('\u{fffd}')` -/
def charOf (n : ℕ) : Char :=
  if n.isValidChar then Char.ofNat n else Char.ofNat 0xFFFD

/-- What an escape puts into the string, and the text after it. -/
def unescape (esc : Char) (cs : List Char) : List Char × List Char :=
  match esc, cs with
  | 'n', _ => (['\n'], cs)
  | 't', _ => (['\t'], cs)
  | 'r', _ => (['\r'], cs)
  | '0', _ => ([Char.ofNat 0], cs)
  | 'a', _ => ([Char.ofNat 7], cs)
  | 'b', _ => ([Char.ofNat 8], cs)
  | 'f', _ => ([Char.ofNat 12], cs)
  | 'v', _ => ([Char.ofNat 11], cs)
  | '\\', _ => (['\\'], cs)
  | '\'', _ => (['\''], cs)
  | '"', _ => (['"'], cs)
  | 'x', a :: b :: rest =>
    if [a, b].all isHexDigit then ([charOf (hexValue [a, b])], rest) else (['\\', 'x'], cs)
  | 'u', a :: b :: c :: d :: rest =>
    if [a, b, c, d].all isHexDigit then ([charOf (hexValue [a, b, c, d])], rest) else (['\\', 'u'], cs)
  | esc, _ => (['\\', esc], cs)

/-- The string up to the quote, and the text after it; the fuel is the length of the text. -/
def quoted (quote : Char) : ℕ → List Char → Option (List Char × List Char)
  | fuel + 1, c :: cs =>
    if c = quote then
      some ([], cs)
    else
      match c, cs with
      | '\\', esc :: rest =>
        let (out, rest) := unescape esc rest
        (quoted quote fuel rest).map fun (s, rest) => (out ++ s, rest)
      | c, cs => (quoted quote fuel cs).map fun (s, rest) => (c :: s, rest)
  | _, _ => none

/-- A raw string, in which nothing is escaped. -/
def rawString (quote : Char) (cs : List Char) : Option (List Char × List Char) :=
  match cs.dropWhile (· ≠ quote) with
  | [] => none
  | _ :: rest => some (cs.takeWhile (· ≠ quote), rest)

def isNameStart (c : Char) : Bool :=
  c.isAlpha || c = '_'

def isNameChar (c : Char) : Bool :=
  c.isAlphanum || c = '_'

def scale (radix : ℕ) : PyFloat → PyFloat
  | .finite x => .ofRat (x.val * radix)
  | x => x

/-- `val * radix + digit` for each digit, in `f64`. -/
def radixValue (radix : ℕ) (body : List Char) : PyFloat :=
  body.foldl (fun x c => (scale radix x).add (.ofRat (toDigit c))) (.ofRat 0)

/-- The digits of a radix, with underscores among them. -/
def radixDigit : Char → Option (ℕ × (Char → Bool))
  | 'x' | 'X' => some (16, fun c => isHexDigit c || c = '_')
  | 'o' | 'O' => some (8, fun c => ('0' ≤ c && c ≤ '7') || c = '_')
  | 'b' | 'B' => some (2, fun c => c = '0' || c = '1' || c = '_')
  | _ => none

def isDigitOrUnderscore (c : Char) : Bool :=
  c.isDigit || c = '_'

/-- The sign, the digits and the rest of an exponent, where one follows. -/
def exponentOf (cs : List Char) : Option (Bool × List Char × List Char) :=
  match cs with
  | e :: cs =>
    if e = 'e' ∨ e = 'E' then
      let (neg, cs) :=
        match cs with
        | '+' :: cs => (false, cs)
        | '-' :: cs => (true, cs)
        | cs => (false, cs)
      match cs with
      | c :: _ => if c.isDigit then some (neg, cs.takeWhile isDigitOrUnderscore, cs.dropWhile isDigitOrUnderscore) else none
      | [] => none
    else
      none
  | [] => none

def digitsValue (cs : List Char) : ℕ :=
  Nat.ofDigitChars 10 (cs.filter (· ≠ '_')) 0

/-- `text.parse::<f64>()` -/
def decimalValue (whole fraction : List Char) (exponent : Bool × List Char) : PyFloat :=
  let places := (fraction.filter (· ≠ '_')).length
  let e : ℤ := if exponent.1 then -digitsValue exponent.2 else digitsValue exponent.2
  .ofRat (digitsValue (whole ++ fraction) * (10 : ℚ) ^ (e - places))

/-- A number that starts with a digit, or with a point and a digit. -/
def number (cs : List Char) : Except PredicateError (Tok × List Char) :=
  match cs with
  | '0' :: x :: rest =>
    match radixDigit x with
    | some (radix, digitOk) =>
      let body := (rest.takeWhile digitOk).filter (· ≠ '_')
      if body = [] then
        .error .malformedNumber
      else
        .ok (.num (radixValue radix body) false, rest.dropWhile digitOk)
    | none => decimal cs
  | cs => decimal cs
where
  decimal (cs : List Char) : Except PredicateError (Tok × List Char) :=
    let whole := cs.takeWhile isDigitOrUnderscore
    let (fraction, hasPoint, cs) :=
      match cs.dropWhile isDigitOrUnderscore with
      | '.' :: cs => (cs.takeWhile isDigitOrUnderscore, true, cs.dropWhile isDigitOrUnderscore)
      | cs => ([], false, cs)
    let (exponent, hasExponent, cs) :=
      match exponentOf cs with
      | some (neg, digits, cs) => ((neg, digits), true, cs)
      | none => ((false, []), false, cs)
    match cs with
    | 'j' :: _ => .error .complexLiteral
    | 'J' :: _ => .error .complexLiteral
    | cs => .ok (.num (decimalValue whole fraction exponent) (hasPoint || hasExponent), cs)

/-- The operators of two characters come before those of one. -/
def operator (cs : List Char) : Option (Op × List Char) :=
  match cs with
  | '=' :: '=' :: cs => some (.eq, cs)
  | '!' :: '=' :: cs => some (.ne, cs)
  | '<' :: '=' :: cs => some (.le, cs)
  | '>' :: '=' :: cs => some (.ge, cs)
  | '<' :: cs => some (.lt, cs)
  | '>' :: cs => some (.gt, cs)
  | '[' :: cs => some (.openBracket, cs)
  | ']' :: cs => some (.closeBracket, cs)
  | '(' :: cs => some (.openParen, cs)
  | ')' :: cs => some (.closeParen, cs)
  | ',' :: cs => some (.comma, cs)
  | '-' :: cs => some (.minus, cs)
  | '+' :: cs => some (.plus, cs)
  | _ => none

def isQuote (c : Char) : Bool :=
  c = '\'' || c = '"'

/-- The first token of a text that starts with no space, and the text after it. -/
def token (c : Char) (cs : List Char) : Except PredicateError (Tok × List Char) :=
  let unterminated (s : Option (List Char × List Char)) : Except PredicateError (Tok × List Char) :=
    match s with
    | some (s, rest) => .ok (.str (.ofList s), rest)
    | none => .error .unterminatedString
  let quoteNext := (cs.head?.map isQuote).getD false
  if isNameStart c then
    if (c = 'r' ∨ c = 'R') ∧ quoteNext then
      unterminated (rawString (cs.headD c) cs.tail)
    else if (c = 'b' ∨ c = 'B') ∧ quoteNext then
      .error .bytesLiteral
    else
      .ok (.name (.ofList (c :: cs.takeWhile isNameChar)), cs.dropWhile isNameChar)
  else if c.isDigit || (c = '.' && (cs.head?.map Char.isDigit).getD false) then
    number (c :: cs)
  else if isQuote c then
    unterminated (quoted c (cs.length + 1) cs)
  else if ['.', '.', '.'].isPrefixOf (c :: cs) then
    .ok (.ellipsis, cs.drop 2)
  else
    match operator (c :: cs) with
    | some (op, cs) => .ok (.op op, cs)
    | none => .error (.disallowedNear ((c :: cs).take 8))

/-- Every pass over the text takes a character at least; the fuel is its length. -/
def tokens : ℕ → List Char → Except PredicateError (List Tok)
  | fuel + 1, c :: cs =>
    if c = ' ' ∨ c = '\t' ∨ c = '\n' ∨ c = '\r' then
      tokens fuel cs
    else do
      let (tok, cs) ← token c cs
      let toks ← tokens fuel cs
      return tok :: toks
  | _, _ => .ok []

def tokenize (src : String) : Except PredicateError (List Tok) :=
  tokens src.toList.length src.toList

/- Expressions. -/

inductive CmpOp where
  | eq
  | ne
  | lt
  | le
  | gt
  | ge
  | isIn
  | notIn
  deriving DecidableEq

/-- The operators of `cmp` are paired with the operand each of them is followed by. -/
inductive Ast where
  | const (v : Value) (isFloat : Bool)
  | name (name : String)
  | and (vals : List Ast)
  | or (vals : List Ast)
  | not (val : Ast)
  | list (elts : List Ast)
  | cmp (left : Ast) (rest : List (CmpOp × Ast))

def maxDepth : ℕ :=
  50

/-- A part of the parser: what it reads at the start of the tokens, and the tokens after it. -/
abbrev Parse (α : Type) : Type :=
  List Tok → Except PredicateError (α × List Tok)

def expect (op : Op) : Parse Unit
  | .op op' :: toks => if op' = op then .ok ((), toks) else .error (.expected op)
  | _ => .error (.expected op)

/-- The further operands after a keyword; the fuel is the number of tokens. -/
def moreOperands (keyword : String) (operand : Parse Ast) : ℕ → Parse (List Ast)
  | fuel + 1, .name name :: toks =>
    if name = keyword then do
      let (val, toks) ← operand toks
      let (vals, toks) ← moreOperands keyword operand fuel toks
      return (val :: vals, toks)
    else
      .ok ([], .name name :: toks)
  | _, toks => .ok ([], toks)

/-- `or_expr` and `and_expr`: one operand stands for itself. -/
def joined (keyword : String) (join : List Ast → Ast) (first more : Parse Ast) : Parse Ast := fun toks => do
  let (val, toks) ← first toks
  let (vals, toks) ← moreOperands keyword more toks.length toks
  return (if vals.isEmpty then val else join (val :: vals), toks)

def notExpr (cmp more : Parse Ast) : Parse Ast
  | .name "not" :: toks => do
    let (val, toks) ← more toks
    return (.not val, toks)
  | toks => cmp toks

/-- `cmp_op` -/
def cmpOp : Parse (Option CmpOp)
  | .op .eq :: toks => .ok (some .eq, toks)
  | .op .ne :: toks => .ok (some .ne, toks)
  | .op .lt :: toks => .ok (some .lt, toks)
  | .op .le :: toks => .ok (some .le, toks)
  | .op .gt :: toks => .ok (some .gt, toks)
  | .op .ge :: toks => .ok (some .ge, toks)
  | .name "in" :: toks => .ok (some .isIn, toks)
  | .name "not" :: .name "in" :: toks => .ok (some .notIn, toks)
  | .name "not" :: _ => .error .expectedIn
  | toks => .ok (none, toks)

/-- The comparisons after the first operand; the fuel is the number of tokens. -/
def comparisons (operand : Parse Ast) : ℕ → Parse (List (CmpOp × Ast))
  | 0, toks => .ok ([], toks)
  | fuel + 1, toks => do
    match ← cmpOp toks with
    | (none, toks) => return ([], toks)
    | (some op, toks) =>
      let (right, toks) ← operand toks
      let (rest, toks) ← comparisons operand fuel toks
      return ((op, right) :: rest, toks)

def cmpExpr (operand more : Parse Ast) : Parse Ast := fun toks => do
  let (left, toks) ← operand toks
  let (rest, toks) ← comparisons more toks.length toks
  return (if rest.isEmpty then left else .cmp left rest, toks)

/-- The elements after each comma; a comma may also stand before the closing token. -/
def elements (close : Op) (item : Parse Ast) : ℕ → Parse (List Ast)
  | fuel + 1, .op .comma :: toks =>
    if expect close toks matches .ok _ then
      .ok ([], toks)
    else do
      let (elt, toks) ← item toks
      let (elts, toks) ← elements close item fuel toks
      return (elt :: elts, toks)
  | _, toks => .ok ([], toks)

def negate : PyFloat → PyFloat
  | .nan => .nan
  | .posInf => .negInf
  | .negInf => .posInf
  | .finite x => .ofRat (-x.val)

/-- `operand`, with `or_expr` one level below it. -/
def operandExpr (item : Parse Ast) : Parse Ast
  | [] => .error .unexpectedEnd
  | .op .minus :: .num x false :: toks => .ok (.const (.num (negate x)) false, toks)
  | .op .minus :: _ => .error (.disallowedUnary .minus)
  | .op .plus :: .num x false :: toks => .ok (.const (.num x) false, toks)
  | .op .plus :: _ => .error (.disallowedUnary .plus)
  | .num x isFloat :: toks => .ok (.const (.num x) isFloat, toks)
  | .str s :: toks => .ok (.const (.str s) false, toks)
  | .ellipsis :: toks => .ok (.const .ellipsis false, toks)
  | .name name :: toks =>
    if name = "True" then .ok (.const (.bool true) false, toks)
    else if name = "False" then .ok (.const (.bool false) false, toks)
    else if name = "None" then .ok (.const .null false, toks)
    else if name ∈ ["and", "or", "not", "in"] then .error (.unexpectedKeyword name)
    else if name ∈ pyKeywords then .error (.keywordAsName name)
    else .ok (.name name, toks)
  | .op .openBracket :: .op .closeBracket :: toks => .ok (.list [], toks)
  | .op .openBracket :: [] => .error (.expected .closeBracket)
  | .op .openBracket :: toks => do
    let (first, toks) ← item toks
    let (rest, toks) ← elements .closeBracket item toks.length toks
    let (_, toks) ← expect .closeBracket toks
    return (.list (first :: rest), toks)
  | .op .openParen :: .op .closeParen :: toks => .ok (.list [], toks)
  | .op .openParen :: toks => do
    let (first, toks) ← item toks
    let isTuple := expect .comma toks matches .ok _
    let (rest, toks) ← elements .closeParen item toks.length toks
    let (_, toks) ← expect .closeParen toks
    return (if isTuple then .list (first :: rest) else first, toks)
  | .op op :: _ => .error (.disallowed op)

/-- The parser at one depth. -/
structure Level where
  orExpr : Parse Ast
  andExpr : Parse Ast
  notExpr : Parse Ast
  operand : Parse Ast

/-- The parser with `n` levels left, the last of them at `MAX_DEPTH`. -/
def level : ℕ → Level
  | 0 =>
    let tooDeep : Parse Ast := fun _ => .error .tooDeep
    ⟨tooDeep, tooDeep, tooDeep, tooDeep⟩
  | n + 1 =>
    let below := level n
    let operand := operandExpr below.orExpr
    let notExpr := Kernel.notExpr (cmpExpr operand below.operand) below.notExpr
    let andExpr := joined "and" .and notExpr below.notExpr
    let orExpr := joined "or" .or andExpr below.andExpr
    ⟨orExpr, andExpr, notExpr, operand⟩

/-- The elements of a tuple without parentheses. -/
def bareElements (item : Parse Ast) : ℕ → Parse (List Ast)
  | _ + 1, [.op .comma] => .ok ([], [])
  | fuel + 1, .op .comma :: toks => do
    let (elt, toks) ← item toks
    let (elts, toks) ← bareElements item fuel toks
    return (elt :: elts, toks)
  | _, toks => .ok ([], toks)

def parseExpr (src : String) : Except PredicateError Ast := do
  let toks ← tokenize src
  let (tree, toks) ← (level (maxDepth + 1)).orExpr toks
  let isTuple := expect .comma toks matches .ok _
  let (rest, toks) ← bareElements (level maxDepth).orExpr toks.length toks
  if toks.isEmpty then
    return if isTuple then .list (tree :: rest) else tree
  else
    .error .trailingTokens

/- Evaluation. -/

namespace Value

/-- `obj_get` -/
def objGet (kvs : List (String × Value)) (key : String) : Option Value :=
  kvs.lookup key

/-- `py_truthy` -/
def pyTruthy : Value → Bool
  | null => false
  | bool b => b
  | num x => x.num ≠ .finite 0
  | str s => s ≠ ""
  | list vs => !vs.isEmpty
  | obj kvs => !kvs.isEmpty
  | ellipsis => true

def asNum : Value → Option Python.Number
  | num x => some x.num
  | bool b => some (.finite (if b then 1 else 0))
  | _ => none

def cmpDepth : ℕ :=
  200

mutual
/-- `py_eq`; `none` is a value nested too deeply. -/
def pyEq (left right : Value) (depth : ℕ) : Option Bool :=
  if cmpDepth < depth then
    none
  else
    match left.asNum, right.asNum with
    | some x, some y => some (x.eq y)
    | _, _ =>
      match left, right with
      | .str s, .str t => some (s = t)
      | .null, .null => some true
      | .list vs, .list ws => if vs.length ≠ ws.length then some false else pyEqItems vs ws (depth + 1)
      | .obj kvs, .obj kws => if kvs.length ≠ kws.length then some false else pyEqMembers kvs kws (depth + 1)
      | _, _ => some false

def pyEqItems : (left right : List Value) → (depth : ℕ) → Option Bool
  | v :: vs, w :: ws, depth => do
    if ← pyEq v w depth then pyEqItems vs ws depth else return false
  | _, _, _ => some true

def pyEqMembers : (left right : List (String × Value)) → (depth : ℕ) → Option Bool
  | (k, v) :: kvs, kws, depth =>
    match objGet kws k with
    | some w => do
      if ← pyEq v w depth then pyEqMembers kvs kws depth else return false
    | none => some false
  | [], _, _ => some true
end

/-- By the characters, or by the lengths where one is the start of the other. -/
def charOrder : List Char → List Char → Ordering
  | c :: cs, d :: ds => if c = d then charOrder cs ds else if c.toNat < d.toNat then .lt else .gt
  | [], _ :: _ => .lt
  | _ :: _, [] => .gt
  | [], [] => .eq

def numOrder (x y : Python.Number) : Option Ordering :=
  if x = .nan ∨ y = .nan then none
  else if x.lt y then some .lt
  else if y.lt x then some .gt
  else some .eq

mutual
/-- `py_order`; `none` also for two values without an order. -/
def pyOrder (left right : Value) (depth : ℕ) : Option Ordering :=
  if cmpDepth < depth then
    none
  else
    match left.asNum, right.asNum with
    | some x, some y => numOrder x y
    | _, _ =>
      match left, right with
      | .str s, .str t => some (charOrder s.toList t.toList)
      | .list vs, .list ws => pyOrderItems vs ws (depth + 1)
      | _, _ => none

def pyOrderItems : (left right : List Value) → (depth : ℕ) → Option Ordering
  | v :: vs, w :: ws, depth => do
    if ← pyEq v w depth then pyOrderItems vs ws depth else pyOrder v w depth
  | [], _ :: _, _ => some .lt
  | _ :: _, [], _ => some .gt
  | [], [], _ => some .eq
end

/-- The first element equal to the value decides, and one nested too deeply before it. -/
def pyInItems (left : Value) : List Value → Option Bool
  | [] => some false
  | item :: items => do
    if ← pyEq left item 1 then return true else pyInItems left items

/-- `py_in` -/
def pyIn (left right : Value) : Option Bool :=
  match right, left with
  | .str haystack, .str needle => some (Python.Value.isInfix needle.toList haystack.toList)
  | .list items, left => pyInItems left items
  | .obj kvs, .str key => some (objGet kvs key).isSome
  | _, _ => none

end Value

def compareOp (op : CmpOp) (left right : Value) : Bool :=
  match op with
  | .eq => (left.pyEq right 0).getD false
  | .ne => ((left.pyEq right 0).map not).getD false
  | .lt => ((left.pyOrder right 0).map (· == .lt)).getD false
  | .le => ((left.pyOrder right 0).map (· != .gt)).getD false
  | .gt => ((left.pyOrder right 0).map (· == .gt)).getD false
  | .ge => ((left.pyOrder right 0).map (· != .lt)).getD false
  | .isIn => (left.pyIn right).getD false
  | .notIn => ((left.pyIn right).map not).getD true

/-- A `HashMap` of the fields. -/
abbrev Ctx : Type :=
  String → Option Value

mutual
/-- `ev_node` -/
def evNode (ctx : Ctx) (node : Ast) (depth : ℕ) : Except PredicateError Value :=
  if maxDepth < depth then
    .error .tooDeep
  else
    match node with
    | .const v _ => .ok v
    | .name name => .ok ((ctx name).getD .null)
    | .and vals => do
      let vals ← evNodes ctx vals (depth + 1)
      return .bool (vals.all Value.pyTruthy)
    | .or vals => do
      let vals ← evNodes ctx vals (depth + 1)
      return .bool (vals.any Value.pyTruthy)
    | .not val => do
      let val ← evNode ctx val (depth + 1)
      return .bool (!val.pyTruthy)
    | .list elts => do
      return .list (← evNodes ctx elts (depth + 1))
    | .cmp left rest => do
      let left ← evNode ctx left (depth + 1)
      return .bool (← evComparisons ctx left rest (depth + 1))

def evNodes (ctx : Ctx) (nodes : List Ast) (depth : ℕ) : Except PredicateError (List Value) :=
  match nodes with
  | [] => .ok []
  | node :: nodes => do
    let val ← evNode ctx node depth
    let vals ← evNodes ctx nodes depth
    return val :: vals

def evComparisons (ctx : Ctx) (left : Value) (rest : List (CmpOp × Ast)) (depth : ℕ) : Except PredicateError Bool :=
  match rest with
  | [] => .ok true
  | (op, node) :: rest => do
    let right ← evNode ctx node depth
    if compareOp op left right then
      evComparisons ctx right rest depth
    else
      return false
end

/-- `eval_condition` -/
def evalCondition (condition : String) (ctx : Ctx) : Except PredicateError Bool :=
  let expr := exprOf condition
  if toLowercase expr ∈ always then
    .ok true
  else if toLowercase expr ∈ never then
    .ok false
  else do
    return (← evNode ctx (← parseExpr expr) 0).pyTruthy

end Kernel

end Rust
