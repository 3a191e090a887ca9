import PrismPath.Lib.FloatGrammar
import PrismPath.Python.Lines
import PrismPath.Python.Number
import PrismPath.Python.Object
import PrismPath.Rust.Host

/-!
This module contains the join policies of a fan-out, as the Python harness and the Rust driver decide them: which event a
policy delivers, and how many finished children it waits for.
-/

open Python

inductive JoinEvent where
  | allDone
  | any
  | quorum
  deriving DecidableEq

/-- What `float(text)` makes of what the text spells, in either runtime. -/
def FloatGrammar.Spelled.value : Spelled → PyFloat
  | .nan => .nan
  | .inf neg => if neg then .negInf else .posInf
  | .finite q => .ofRat q

/-- A float without its fraction. -/
def truncated (x : Double) : ℤ :=
  if 0 ≤ x.val then ⌊x.val⌋ else ⌈x.val⌉

namespace Composer

/-- `predicates.spawn_join_event`; no letter outside ASCII lowers to one of these words. -/
def spawnJoinEvent (join : List Char) : JoinEvent :=
  let policy := (stripChars (if join = [] then "all_done".toList else join)).map Char.toLower
  if "quorum".toList.isPrefixOf policy then .quorum
  else if policy = "any".toList then .any
  else .allDone

section Threshold

-- The digit a character outside ASCII stands for, where it is a decimal digit of Unicode.
variable (decimalDigit : Char → Option (Fin 10))

/-- Digits and spaces outside ASCII as ASCII has them; any other character becomes one that no number has. -/
def asciiDigits (text : List Char) : List Char :=
  text.map fun c =>
    if c.toNat < 128 then c
    else if isSpace c then ' '
    else
      match decimalDigit c with
      | some d => Nat.digitChar d
      | none => '?'

/-- The text without its underscores, each of which stands between two digits; `prev` is the character before it. -/
def ungroup (prev : Char) : List Char → Option (List Char)
  | [] => if prev = '_' then none else some []
  | c :: cs =>
    if c = '_' then
      if prev.isDigit then ungroup c cs else none
    else if prev = '_' ∧ c.isDigit = false then
      none
    else
      (ungroup c cs).map fun cs => c :: cs

/-- The number `float(text)` rounds; `none` is the `ValueError`. -/
def spelled (text : List Char) : Option FloatGrammar.Spelled :=
  (ungroup '\x00' (stripChars (asciiDigits decimalDigit text))).bind FloatGrammar.read

/-- `join.partition(":")[2]` -/
def afterColon (join : List Char) : List Char :=
  (join.dropWhile fun c => c ≠ ':').tail

/-- `math.ceil(x * n)` -/
def ceilShare (x : Double) (n : ℕ) : Except Error ℤ :=
  match Double.round n with
  | none => .error .overflowError
  | some y =>
    match Double.round (x.val * y.val) with
    | none => .error .overflowError
    | some z => .ok ⌈z.val⌉

/-- `int(x)` -/
def toInt : PyFloat → Except Error ℤ
  | .nan => .error .valueError
  | .posInf | .negInf => .error .overflowError
  | .finite x => .ok (truncated x)

/-- The number of children a quorum names, before it is clamped. -/
def threshold (quorumValue : PyFloat) (childCount : ℕ) : Except Error ℤ :=
  match quorumValue with
  | .finite x => if 0 < x.val ∧ x.val < 1 then ceilShare x childCount else toInt quorumValue
  | _ => toInt quorumValue

/-- `_quorum_threshold` -/
def quorumThreshold (join : List Char) (childCount : ℕ) : Except Error ℤ :=
  match spelled decimalDigit (stripChars (afterColon join)) with
  | none => .ok childCount
  | some number => do
    let threshold ← threshold number.value childCount
    return max 1 (min (childCount : ℤ) threshold)

/-- The policy as `_join_event` reads it. -/
def policyText (join : List Char) : List Char :=
  stripChars (if join = [] then "all_done".toList else join)

/-- `_join_event` -/
def joinEvent (join : List Char) (doneFlags : List Bool) : Except Error (Option JoinEvent) :=
  if doneFlags = [] then
    .ok none
  else
    let join := policyText join
    let nDone := doneFlags.count true
    match spawnJoinEvent join with
    | .any => .ok (if 1 ≤ nDone then some .any else none)
    | .quorum => do
      let threshold ← quorumThreshold decimalDigit join doneFlags.length
      return if threshold ≤ nDone then some .quorum else none
    | .allDone => .ok (if doneFlags.all id then some .allDone else none)

end Threshold

end Composer

namespace Rust

namespace Compose

/-- `spawn_join_event` -/
def spawnJoinEvent (join : List Char) : JoinEvent :=
  let policy := (Host.trim join).map Char.toLower
  if "quorum".toList.isPrefixOf policy then .quorum
  else if policy = "any".toList then .any
  else .allDone

/-- `n as usize` of a float that is whole, which saturates. -/
def saturate (n : ℤ) : ℕ :=
  min (2 ^ 64 - 1) n.toNat

/-- `x as usize` -/
def asUsize : PyFloat → ℕ
  | .nan | .negInf => 0
  | .posInf => 2 ^ 64 - 1
  | .finite x => saturate (truncated x)

/-- `(x * n as f64).ceil() as usize` -/
def ceilShare (x : Double) (n : ℕ) : ℕ :=
  match Double.round n with
  | none => 2 ^ 64 - 1
  | some y =>
    match Double.round (x.val * y.val) with
    | none => 2 ^ 64 - 1
    | some z => saturate ⌈z.val⌉

def threshold (parsedVal : PyFloat) (totalCount : ℕ) : ℕ :=
  match parsedVal with
  | .finite x => if 0 < x.val ∧ x.val < 1 then ceilShare x totalCount else asUsize parsedVal
  | _ => asUsize parsedVal

/-- The text a quorum's number is parsed from. -/
def quorumText (join : List Char) : List Char :=
  ((Fields.splitOnce ':' join).map fun split => Host.trim split.2).getD []

/-- `quorum_threshold` -/
def quorumThreshold (join : List Char) (totalCount : ℕ) : ℕ :=
  match FloatGrammar.read (quorumText join) with
  | none => totalCount
  | some number => max 1 (min (max totalCount 1) (threshold number.value totalCount))

/-- `join_event` -/
def joinEvent (join : List Char) (doneFlags : List Bool) : Option JoinEvent :=
  if doneFlags = [] then
    none
  else
    let countDone := doneFlags.count true
    match spawnJoinEvent join with
    | .any => if 1 ≤ countDone then some .any else none
    | .quorum => if quorumThreshold join doneFlags.length ≤ countDone then some .quorum else none
    | .allDone => if doneFlags.all id then some .allDone else none

end Compose

end Rust
