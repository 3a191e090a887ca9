import Mathlib.Data.List.TakeWhile

/-!
This module contains JSON texts: the tree a text spells, how a tree is written in ASCII, and the scanner that
reads a text back. A string is a list of code points, surrogates included.
-/

namespace Json

abbrev CodePoint : Type := Fin 0x110000

abbrev Str : Type := List CodePoint

-- the zero is named: which one is found for it depends on what is imported
instance neZero_codePoints : @NeZero ℕ Zero.ofOfNat0 0x110000 :=
  ⟨by decide⟩

instance lawfulBEq_str : LawfulBEq Str :=
  inferInstance

inductive Word where
  | null
  | true
  | false
  | nan
  | infinity
  | negInfinity
  deriving DecidableEq

namespace Word

def text : Word → List Char
  | null => ['n', 'u', 'l', 'l']
  | true => ['t', 'r', 'u', 'e']
  | false => ['f', 'a', 'l', 's', 'e']
  | nan => ['N', 'a', 'N']
  | infinity => ['I', 'n', 'f', 'i', 'n', 'i', 't', 'y']
  | negInfinity => ['-', 'I', 'n', 'f', 'i', 'n', 'i', 't', 'y']

def all : List Word :=
  [null, true, false, nan, infinity, negInfinity]

end Word

/-- Decimal digits, as a text has them. -/
abbrev Digits : Type := { cs : List Char // ∀ c ∈ cs, c.isDigit = true }

structure Exponent where
  /-- The sign, when the text has one; `true` is the minus. -/
  sign : Option Bool
  digits : Digits
  nonempty : digits.val ≠ []

/-- A number as it is written: without digits after the point it has no point. -/
structure Number where
  neg : Bool
  whole : ℕ
  fraction : Digits
  exponent : Option Exponent

inductive Tree where
  | word (w : Word)
  | number (n : Number)
  | string (s : Str)
  | array (ts : List Tree)
  | object (ms : List (Str × Tree))

/- Writing. -/

/-- Whether a space follows the comma and the colon. -/
inductive Style where
  | spaced
  | compact

def Style.gap : Style → List Char
  | .spaced => [' ']
  | .compact => []

def hexDigits (n : ℕ) : List Char :=
  [Nat.digitChar (n / 4096 % 16), Nat.digitChar (n / 256 % 16), Nat.digitChar (n / 16 % 16), Nat.digitChar (n % 16)]

def unicodeEscape (n : ℕ) : List Char :=
  '\\' :: 'u' :: hexDigits n

def escape (c : CodePoint) : List Char :=
  if c = 34 then ['\\', '"']
  else if c = 92 then ['\\', '\\']
  else if c = 10 then ['\\', 'n']
  else if c = 13 then ['\\', 'r']
  else if c = 9 then ['\\', 't']
  else if c = 12 then ['\\', 'f']
  else if c = 8 then ['\\', 'b']
  else if 32 ≤ c.val ∧ c.val ≤ 126 then [Char.ofNat c.val]
  else if c.val < 0x10000 then unicodeEscape c.val
  else
    unicodeEscape (0xD800 + (c.val - 0x10000) / 1024) ++ unicodeEscape (0xDC00 + (c.val - 0x10000) % 1024)

def writeString (s : Str) : List Char :=
  '"' :: s.flatMap escape ++ ['"']

def Exponent.write (e : Exponent) : List Char :=
  (match e.sign with
    | none => []
    | some false => ['+']
    | some true => ['-']) ++ e.digits.val

def writeFraction (ds : Digits) : List Char :=
  if ds.val = [] then [] else '.' :: ds.val

def writeExponent : Option Exponent → List Char
  | none => []
  | some e => 'e' :: e.write

def Number.write (n : Number) : List Char :=
  (if n.neg then ['-'] else []) ++ (Nat.toDigits 10 n.whole ++ (writeFraction n.fraction ++ writeExponent n.exponent))

mutual
def write (style : Style) : Tree → List Char
  | .word w => w.text
  | .number n => n.write
  | .string s => writeString s
  | .array [] => ['[', ']']
  | .array (t :: ts) => '[' :: write style t ++ writeItems style ts
  | .object [] => ['{', '}']
  | .object ((k, t) :: ms) => '{' :: writeString k ++ ':' :: style.gap ++ write style t ++ writeMembers style ms

/-- The items after the first, and the closing bracket. -/
def writeItems (style : Style) : List Tree → List Char
  | [] => [']']
  | t :: ts => ',' :: style.gap ++ write style t ++ writeItems style ts

def writeMembers (style : Style) : List (Str × Tree) → List Char
  | [] => ['}']
  | (k, t) :: ms =>
    ',' :: style.gap ++ writeString k ++ ':' :: style.gap ++ write style t ++ writeMembers style ms
end

/- Reading. -/

def isSpace (c : Char) : Bool :=
  c = ' ' || c = '\t' || c = '\n' || c = '\r'

def skipSpace (cs : List Char) : List Char :=
  cs.dropWhile isSpace

def hexValue (c : Char) : Option ℕ :=
  if c.isDigit then some (c.toNat - 48)
  else if 'a' ≤ c ∧ c ≤ 'f' then some (c.toNat - 87)
  else if 'A' ≤ c ∧ c ≤ 'F' then some (c.toNat - 55)
  else none

/-- The four hexadecimal digits of a unicode escape. -/
def scanHex : List Char → Option (ℕ × List Char)
  | a :: b :: c :: d :: cs => do
    let a ← hexValue a
    let b ← hexValue b
    let c ← hexValue c
    let d ← hexValue d
    some (4096 * a + 256 * b + 16 * c + d, cs)
  | _ => none

def simpleEscape : Char → Option CodePoint
  | '"' => some 34
  | '\\' => some 92
  | '/' => some 47
  | 'b' => some 8
  | 'f' => some 12
  | 'n' => some 10
  | 'r' => some 13
  | 't' => some 9
  | _ => none

def isHigh (n : ℕ) : Bool :=
  0xD800 ≤ n && n ≤ 0xDBFF

def isLow (n : ℕ) : Bool :=
  0xDC00 ≤ n && n ≤ 0xDFFF

def joinSurrogates (high low : ℕ) : ℕ :=
  0x10000 + 1024 * (high - 0xD800) + (low - 0xDC00)

/-- A low surrogate's escape, where one stands next. -/
def scanLow : List Char → Option (ℕ × List Char)
  | '\\' :: 'u' :: cs => (scanHex cs).filter fun found => isLow found.1
  | _ => none

/-- What follows the backslash of an escape: a high surrogate takes the low one after it along. -/
def scanEscape : List Char → Option (CodePoint × List Char)
  | 'u' :: cs => do
    let (n, cs) ← scanHex cs
    match if isHigh n then scanLow cs else none with
    | some (low, cs) => some (Fin.ofNat _ (joinSurrogates n low), cs)
    | none => some (Fin.ofNat _ n, cs)
  | c :: cs => (simpleEscape c).map fun c => (c, cs)
  | [] => none

/-- The string up to its closing quote. -/
def scanString : ℕ → List Char → Option (Str × List Char)
  | 0, _ => none
  | fuel + 1, cs =>
    match cs with
    | [] => none
    | '"' :: cs => some ([], cs)
    | '\\' :: cs => do
      let (c, cs) ← scanEscape cs
      let (s, cs) ← scanString fuel cs
      some (c :: s, cs)
    | c :: cs =>
      if c.toNat < 32 then
        none
      else do
        let (s, cs) ← scanString fuel cs
        some (Fin.ofNat _ c.toNat :: s, cs)

def scanDigits (cs : List Char) : Digits × List Char :=
  (⟨cs.takeWhile Char.isDigit, fun _ h => List.mem_takeWhile_imp h⟩, cs.dropWhile Char.isDigit)

def scanWhole : List Char → Option (ℕ × List Char)
  | '0' :: cs => some (0, cs)
  | cs =>
    let (ds, rest) := scanDigits cs
    if ds.val = [] then none else some (Nat.ofDigitChars 10 ds.val 0, rest)

def noDigits : Digits :=
  ⟨[], fun _ h => by cases h⟩

/-- The digits after a point; without any the number ends before the point. -/
def scanFraction (cs : List Char) : Digits × List Char :=
  match cs with
  | '.' :: rest =>
    let (ds, rest) := scanDigits rest
    if ds.val = [] then (noDigits, cs) else (ds, rest)
  | _ => (noDigits, cs)

def scanSign : List Char → Option Bool × List Char
  | '+' :: cs => (some false, cs)
  | '-' :: cs => (some true, cs)
  | cs => (none, cs)

def scanExponent (cs : List Char) : Option Exponent × List Char :=
  match cs with
  | c :: rest =>
    if c = 'e' ∨ c = 'E' then
      let (sign, rest) := scanSign rest
      let (ds, rest) := scanDigits rest
      if h : ds.val = [] then (none, cs) else (some ⟨sign, ds, h⟩, rest)
    else
      (none, cs)
  | [] => (none, cs)

def scanMinus : List Char → Bool × List Char
  | '-' :: cs => (true, cs)
  | cs => (false, cs)

def scanNumber (cs : List Char) : Option (Number × List Char) := do
  let (neg, rest) := scanMinus cs
  let (whole, rest) ← scanWhole rest
  let (fraction, rest) := scanFraction rest
  let (exponent, rest) := scanExponent rest
  some (⟨neg, whole, fraction, exponent⟩, rest)

def stripText (text cs : List Char) : Option (List Char) :=
  if text <+: cs then some (cs.drop text.length) else none

def scanWord (cs : List Char) : Option (Word × List Char) :=
  Word.all.findSome? fun w => (stripText w.text cs).map fun rest => (w, rest)

section Sequence

variable {α : Type} (close : Char) (item : List Char → Option (α × List Char))

/-- What follows an item: the closing bracket, or a comma and further items. -/
def scanItems : ℕ → List Char → Option (List α × List Char)
  | 0, _ => none
  | fuel + 1, cs =>
    match skipSpace cs with
    | [] => none
    | c :: rest =>
      if c = close then
        some ([], rest)
      else if c = ',' then do
        let (x, rest) ← item (skipSpace rest)
        let (xs, rest) ← scanItems fuel rest
        some (x :: xs, rest)
      else
        none

/-- What follows the opening bracket. -/
def scanSequence (fuel : ℕ) (cs : List Char) : Option (List α × List Char) :=
  match skipSpace cs with
  | [] => none
  | c :: rest =>
    if c = close then
      some ([], rest)
    else do
      let (x, rest) ← item (c :: rest)
      let (xs, rest) ← scanItems close item fuel rest
      some (x :: xs, rest)

end Sequence

def scanMember (value : List Char → Option (Tree × List Char)) (cs : List Char)
    : Option ((Str × Tree) × List Char) :=
  match cs with
  | '"' :: cs => do
    let (k, cs) ← scanString cs.length.succ cs
    match skipSpace cs with
    | ':' :: cs => do
      let (t, cs) ← value (skipSpace cs)
      some ((k, t), cs)
    | _ => none
  | _ => none

def scanOnce : ℕ → List Char → Option (Tree × List Char)
  | 0, _ => none
  | fuel + 1, cs =>
    match cs with
    | '"' :: cs => (scanString cs.length.succ cs).map fun (s, rest) => (.string s, rest)
    | '[' :: cs => (scanSequence ']' (scanOnce fuel) fuel cs).map fun (ts, rest) => (.array ts, rest)
    | '{' :: cs => (scanSequence '}' (scanMember (scanOnce fuel)) fuel cs).map fun (ms, rest) => (.object ms, rest)
    | cs =>
      match scanWord cs with
      | some (w, rest) => some (.word w, rest)
      | none => (scanNumber cs).map fun (n, rest) => (.number n, rest)

/- What reading back a written tree gives: each surrogate pair of a string as the one code point it encodes. -/

def join : Str → Str
  | high :: low :: s =>
    if isHigh high && isLow low then
      Fin.ofNat _ (joinSurrogates high low) :: join s
    else
      high :: join (low :: s)
  | s => s

mutual
def Tree.join : Tree → Tree
  | .string s => .string (Json.join s)
  | .array ts => .array (joinItems ts)
  | .object ms => .object (joinMembers ms)
  | t => t

def joinItems : List Tree → List Tree
  | [] => []
  | t :: ts => t.join :: joinItems ts

def joinMembers : List (Str × Tree) → List (Str × Tree)
  | [] => []
  | (k, t) :: ms => (Json.join k, t.join) :: joinMembers ms
end

/-- The tree of a whole text; `none` is the `ValueError` of a text that is not JSON. -/
def parse (cs : List Char) : Option Tree :=
  match scanOnce cs.length.succ (skipSpace cs) with
  | some (t, rest) => if skipSpace rest = [] then some t else none
  | none => none

end Json
