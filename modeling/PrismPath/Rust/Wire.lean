import Mathlib.Data.List.Sort
import PrismPath.Kernel.FieldDefinitions
import PrismPath.Kernel.Parser
import PrismPath.Lib.Dict
import PrismPath.Rust.Condition
import PrismPath.Rust.FibonacciCode

/-!
This module contains the Rust side of the quantizer, the cell a value is in and the representative of a cell, and the
Rust wire of a reading: for which bits its decoder neither panics nor gives another reading than a decoder of unbounded
integers.
-/

namespace Rust

namespace Quantizer

open FieldDefinitions (FieldDefinition Reason)

inductive FieldKind where
  | numeric
  | boolean
  | categorical
  deriving DecidableEq

inductive InputRefusal where
  | missing
  | wrongType
  | unparseableString
  | fractional
  | outOfRange
  deriving DecidableEq

/-- A reason that has no refusal of its own reads as a wrong type. -/
def InputRefusal.fromReason : Reason → InputRefusal
  | .missing => .missing
  | .fractional => .fractional
  | .outOfRange => .outOfRange
  | .unparseableString => .unparseableString
  | _ => .wrongType

structure AcceptanceError where
  field : String
  refusal : InputRefusal
  deriving DecidableEq

/- Acceptance. -/

def safeIntegerLimit : ℚ :=
  9007199254740992

/-- `accept_canonical` -/
def acceptCanonical (definition : FieldDefinition) (value : Kernel.Value) : Except Reason Kernel.Value :=
  match definition.kind, value with
  | _, .null => if definition.absentAllowed then .ok .null else .error .missing
  | .bool, .bool b => .ok (.bool b)
  | .category, .str text => .ok (.str text)
  | .int, .num x | .fixed, .num x =>
    match x.num with
    | .finite q =>
      if q.den ≠ 1 then
        .error .fractional
      else if q.num < definition.minimum ∨ definition.maximum < q.num then
        .error .outOfRange
      else
        .ok (.num x)
    | _ => .error .outOfRange
  | _, _ => .error .wrongType

def acceptNumber (x : Python.PyFloat) : Except InputRefusal Kernel.Value :=
  match x.num with
  | .finite q =>
    if q.den ≠ 1 then .error .fractional else if safeIntegerLimit ≤ |q| then .error .outOfRange else .ok (.num x)
  | _ => .error .outOfRange

/-- The converted value, or why it is refused for a field of the kind. -/
def acceptValue (kind : FieldKind) (value : Kernel.Value) : Except InputRefusal Kernel.Value :=
  match kind, value with
  | _, .null => .error .missing
  | .numeric, .bool flag => .ok (.num (.ofRat (if flag then 1 else 0)))
  | .numeric, .num x => acceptNumber x
  | .boolean, .bool flag => .ok (.bool flag)
  | .boolean, .num x =>
    if x.num = .finite 0 ∨ x.num = .finite 1 then .ok (.bool (x.num = .finite 1)) else .error .wrongType
  | .categorical, .str text => .ok (.str text)
  | _, _ => .error .wrongType

/-- The nearest number of 64 bits. -/
def asI64 (n : ℤ) : ℤ :=
  max (-2 ^ 63) (min n (2 ^ 63 - 1))

/-- The integer an accepted value compares as. -/
def toI64 : Kernel.Value → Option ℤ
  | .num x =>
    match x.num with
    | .finite q => if q.den = 1 then some (asI64 q.num) else none
    | _ => none
  | .bool flag => some (if flag then 1 else 0)
  | _ => none

/- The cells of one field. -/

structure Cell where
  lo : Option ℤ
  hi : Option ℤ
  constVal : Option String
  rep : Kernel.Value

def Cell.holds (number : ℤ) (cell : Cell) : Bool :=
  cell.lo.all (· ≤ number) && cell.hi.all (number ≤ ·)

structure FieldPartition where
  field : String
  kind : FieldKind
  cells : List Cell
  n : ℕ
  definition : Option FieldDefinition
  absentSymbol : Option ℕ

namespace FieldPartition

def new (field : String) (kind : FieldKind) (cells : List Cell) : FieldPartition :=
  ⟨field, kind, cells, cells.length, none, none⟩

/-- The cells of a defined field, with one for its absence where the definition allows that. -/
def defined (built : FieldPartition) (definition : FieldDefinition) : FieldPartition :=
  let cells := if definition.absentAllowed then built.cells ++ [⟨none, none, none, .null⟩] else built.cells
  {
    field := built.field
    kind := built.kind
    cells := cells
    n := cells.length
    definition := some definition
    absentSymbol := if definition.absentAllowed then some (cells.length - 1) else none
  }

def presentCells (p : FieldPartition) : ℕ :=
  p.n - if p.absentSymbol.isSome then 1 else 0

def presentSymbol (p : FieldPartition) (value : Kernel.Value) : Option ℕ :=
  match p.kind with
  | .numeric => do
    let number ← toI64 value
    (p.cells.take p.presentCells).findIdx? (Cell.holds number)
  | .boolean => some (if value.pyTruthy then 1 else 0)
  | .categorical =>
    match value with
    | .str text =>
      -- the last of the present cells is that of every other string
      some (((p.cells.take p.presentCells).findIdx? fun cell => cell.constVal = some text).getD (p.presentCells - 1))
    | _ => none

def definedSymbol (p : FieldPartition) (definition : FieldDefinition) (value : Kernel.Value) : Except Reason ℕ :=
  match acceptCanonical definition value with
  | .error reason => .error reason
  | .ok .null => p.absentSymbol.elim (.error .missing) .ok
  | .ok canonical => (p.presentSymbol canonical).elim (.error .outOfRange) .ok

def checkedSymbol (p : FieldPartition) (value : Kernel.Value) : Except AcceptanceError ℕ :=
  match p.definition with
  | some definition => (p.definedSymbol definition value).mapError fun reason => ⟨p.field, .fromReason reason⟩
  | none =>
    match acceptValue p.kind value with
    | .error refusal => .error ⟨p.field, refusal⟩
    | .ok converted => (p.presentSymbol converted).elim (.error ⟨p.field, .outOfRange⟩) .ok

/-- The error carries the value that was refused. -/
def symbol (p : FieldPartition) (value : Kernel.Value) : Except (AcceptanceError × Kernel.Value) ℕ :=
  (p.checkedSymbol value).mapError fun error => (error, value)

/-- `none` is a panic. -/
def representative (p : FieldPartition) (symbol : ℕ) : Option Kernel.Value :=
  p.cells[symbol]?.map Cell.rep

end FieldPartition

/- The cells of all fields. -/

/-- A map; its order is not looked at. -/
abbrev Partitions : Type :=
  List (String × FieldPartition)

abbrev Reading : Type :=
  List (String × Kernel.Value)

/-- The representatives of symbols; a field without a partition is left out, and `none` is a panic. -/
def reconstruct (parts : Partitions) : List (String × ℕ) → Option Reading
  | [] => some []
  | (field, symbol) :: symbols =>
    match parts.lookup field with
    | some part => do
      let value ← part.representative symbol
      return (field, value) :: (← reconstruct parts symbols)
    | none => reconstruct parts symbols

end Quantizer

end Rust

namespace Rust

namespace Wire

open Parser (Graph)
open Rust.Quantizer

inductive DecodeError where
  | symbolCount (found expected : ℕ)
  | symbolZero (field : String)
  deriving DecidableEq

/-- The names of the fields in their order on the wire. -/
def order (parts : Partitions) : List String :=
  (parts.map Prod.fst).insertionSort fun a b => ¬b < a

def checkedField (parts : Partitions) (reading : Reading) (field : String) : Option (Except AcceptanceError (String × ℕ)) := do
  let part ← parts.lookup field
  match reading.lookup field, part.definition with
  | some value, _ => return (part.checkedSymbol value).map fun symbol => (field, symbol)
  -- a defined field that is missing is the absent value
  | none, some _ => return (part.checkedSymbol .null).map fun symbol => (field, symbol)
  | none, none => return .error ⟨field, .missing⟩

/-- The symbols of the fields, or the first refusal; `none` is a panic. -/
def checkedQuantize (parts : Partitions) (reading : Reading) : List String → Option (Except AcceptanceError (List (String × ℕ)))
  | [] => some (.ok [])
  | field :: fields => do
    match ← checkedField parts reading field with
    | .error error => return .error error
    | .ok symbol => return (← checkedQuantize parts reading fields).map (symbol :: ·)

inductive EncodeError where
  | refused (error : AcceptanceError)
  | notPositive (value : UInt64)

def encodeReading (parts : Partitions) (reading : Reading) : Option (Except EncodeError (List Bool)) := do
  match ← checkedQuantize parts reading (order parts) with
  | .error error => return .error (.refused error)
  | .ok syms =>
    let wireVals := syms.map fun p => UInt64.ofNat p.2 + 1
    return (← FibonacciCode.encodeStream wireVals).mapError .notPositive

/-- The symbols of the fields from position `i` on; `none` is a panic. -/
def symbols (wire : List UInt64) : (i : ℕ) → List String → Option (Except DecodeError (List (String × ℕ)))
  | _, [] => some (.ok [])
  | i, field :: ord => do
    let value ← wire[i]?
    if value = 0 then
      return .error (.symbolZero field)
    else
      return (← symbols wire (i + 1) ord).map fun syms => (field, (value - 1).toNat) :: syms

/-- The reading or the error; `none` is a panic. -/
def decodeReading (parts : Partitions) (bits : List Bool) : Option (Except DecodeError Reading) := do
  let ord := order parts
  let wire ← FibonacciCode.decodeStream bits
  if wire.length ≠ ord.length then
    return .error (.symbolCount wire.length ord.length)
  else
    match ← symbols wire 0 ord with
    | .error error => return .error error
    | .ok syms => return .ok (← reconstruct parts syms)

/-- The reading that a decoder of unbounded integers gives, if it gives one. -/
def referenceReading (parts : Partitions) (bits : List Bool) : Option Reading :=
  match Zeckendorf.decodeStream bits with
  | .error _ => none
  | .ok wire =>
    if wire.length = (order parts).length then
      reconstruct parts ((order parts).zip (wire.map fun value => value - 1))
    else
      none

/-- The decoders do not panic, and a reading is the reference's. -/
structure Safe (parts : Partitions) (bits : List Bool) : Prop where
  stream : (FibonacciCode.decodeStream bits).isSome = true
  reading : ∃ outcome, decodeReading parts bits = some outcome ∧
    ∀ reading, outcome = .ok reading → referenceReading parts bits = some reading

/- Routing. -/

open Kernel (isDeterministic evalCondition)

/-- The first deterministic edge whose condition holds. -/
def routeNode (graph : Graph) (node : String) (reading : Reading) : Option String := do
  let source ← graph.get? node
  let edge ← source.edges.find? fun edge =>
    isDeterministic edge.condition && (evalCondition edge.condition fun field => reading.lookup field).toOption.getD false
  return edge.target

/- Reconstructing. -/

theorem length_order (parts : Partitions)
    : (order parts).length = parts.length := by
  rw [order, List.length_insertionSort, List.length_map]

theorem isSome_reconstruct {parts : Partitions} {syms : List (String × ℕ)}
    : (reconstruct parts syms).isSome = true
        ↔
      ∀ p ∈ syms, ∀ part, parts.lookup p.1 = some part → p.2 < part.cells.length := by
  induction syms with
  | nil => simp [reconstruct]
  | cons p syms ih =>
    rcases p with ⟨field, symbol⟩
    rw [List.forall_mem_cons, ← ih, reconstruct]
    cases hpart : parts.lookup field with
    | none => simp
    | some part =>
      simp only [Option.some.injEq, forall_eq', FieldPartition.representative]
      by_cases hsymbol : symbol < part.cells.length
      . rw [List.getElem?_eq_getElem hsymbol]
        cases reconstruct parts syms <;> simp [hsymbol]
      . rw [List.getElem?_eq_none (by omega)]
        simp [hsymbol]

/- Accepted readings. -/

theorem checkedField_of_quantize {parts : Partitions} {reading : Reading} {fields : List String}
    {syms : List (String × ℕ)} (h : checkedQuantize parts reading fields = some (.ok syms)) {field : String}
    (hfield : field ∈ fields)
    : ∃ symbol, checkedField parts reading field = some (.ok symbol) := by
  induction fields generalizing syms with
  | nil => cases hfield
  | cons first fields ih =>
    rcases Option.bind_eq_some_iff.mp h with ⟨symbol, hsymbol, hrest⟩
    cases symbol with
    | error error => cases hrest
    | ok symbol =>
      rcases Option.bind_eq_some_iff.mp hrest with ⟨rest, hrest, hsyms⟩
      rcases List.mem_cons.mp hfield with rfl | hfield
      . exact ⟨symbol, hsymbol⟩
      . cases rest with
        | error error => cases hsyms
        | ok rest => exact ih hrest hfield

/-- In a reading that is encoded, each value that a field has is taken by its partition. -/
theorem symbol_of_encoded {parts : Partitions} {reading : Reading} {bits : List Bool}
    (h : encodeReading parts reading = some (.ok bits)) {field : String} {part : FieldPartition}
    (hpart : parts.lookup field = some part) {value : Kernel.Value} (hvalue : reading.lookup field = some value)
    : ∃ symbol, part.checkedSymbol value = .ok symbol := by
  rcases Option.bind_eq_some_iff.mp h with ⟨syms, hsyms, hrest⟩
  cases syms with
  | error error => cases hrest
  | ok syms =>
    have hfield : field ∈ order parts := by
      rw [order, List.mem_insertionSort]
      exact List.mem_map.mpr ⟨(field, part), Dict.mem_of_lookup hpart, rfl⟩
    rcases checkedField_of_quantize hsyms hfield with ⟨symbol, hsymbol⟩
    rw [checkedField, hpart, hvalue] at hsymbol
    simp only [Option.bind_eq_bind, Option.bind_some] at hsymbol
    cases hchecked : part.checkedSymbol value with
    | error error =>
      rw [hchecked] at hsymbol
      cases hsymbol
    | ok symbol => exact ⟨symbol, rfl⟩

/- The symbols on the wire. -/

theorem symbols_eq {values : List ℕ} {i : ℕ} {ord : List String} (h : values.length = i + ord.length)
    (hpos : ∀ value ∈ values.drop i, value % 2 ^ 64 ≠ 0)
    : symbols (values.map UInt64.ofNat) i ord
        =
      some (.ok (ord.zip ((values.drop i).map fun value => value % 2 ^ 64 - 1))) := by
  induction ord generalizing i with
  | nil => rfl
  | cons field ord ih =>
    rw [List.length_cons] at h
    have hi : i < values.length := by omega
    rw [List.drop_eq_getElem_cons hi, List.forall_mem_cons] at hpos
    have hne : UInt64.ofNat values[i] ≠ 0 := by
      intro heq
      apply hpos.1
      rw [← UInt64.toNat_ofNat', heq]
      rfl
    have hone : 1 ≤ UInt64.ofNat values[i] := by
      rw [UInt64.le_iff_toNat_le, UInt64.toNat_ofNat']
      have hnot := hpos.1
      show 1 ≤ values[i] % 2 ^ 64
      omega
    have hsub : (UInt64.ofNat values[i] - 1).toNat = values[i] % 2 ^ 64 - 1 := by
      rw [UInt64.toNat_sub_of_le _ _ hone, UInt64.toNat_ofNat']
      rfl
    rw [symbols, List.getElem?_map, List.getElem?_eq_getElem hi, ih (by omega) hpos.2, List.drop_eq_getElem_cons hi]
    simp only [Option.map_some, Option.bind_eq_bind, Option.bind_some, if_neg hne, hsub]
    rfl

theorem symbols_zero {values : List ℕ} {i : ℕ} {ord : List String} (h : values.length = i + ord.length)
    (hzero : ∃ value ∈ values.drop i, value % 2 ^ 64 = 0)
    : ∃ error, symbols (values.map UInt64.ofNat) i ord = some (.error error) := by
  induction ord generalizing i with
  | nil =>
    rcases hzero with ⟨value, hvalue, _⟩
    rw [List.drop_eq_nil_of_le (by simpa using h.le)] at hvalue
    cases hvalue
  | cons field ord ih =>
    rw [List.length_cons] at h
    have hi : i < values.length := by omega
    rw [List.drop_eq_getElem_cons hi] at hzero
    rcases hzero with ⟨value, hvalue, hzero⟩
    rw [symbols, List.getElem?_map, List.getElem?_eq_getElem hi]
    simp only [Option.map_some, Option.bind_eq_bind, Option.bind_some]
    split
    . exact ⟨_, rfl⟩
    . next hne =>
      rcases List.mem_cons.mp hvalue with rfl | hvalue
      . have heq : UInt64.ofNat values[i] = 0 := by
          rw [← UInt64.toNat_inj, UInt64.toNat_ofNat', hzero]
          rfl
        exact absurd heq hne
      . rcases ih (by omega) ⟨value, hvalue, hzero⟩ with ⟨error, herror⟩
        rw [herror]
        exact ⟨error, rfl⟩

/- Readings. -/

theorem exists_part {parts : Partitions} {field : String} (h : field ∈ order parts)
    : ∃ part, parts.lookup field = some part := by
  rw [order, List.mem_insertionSort, List.mem_map] at h
  rcases h with ⟨p, hp, rfl⟩
  rw [← Option.isSome_iff_exists, List.lookup_isSome_iff]
  exact ⟨p, hp, by simp⟩

open Zeckendorf (codes)

theorem one_le_of_mem_codes {bits : List Bool} {value : ℕ} (h : value ∈ codes [] bits)
    : 1 ≤ value := by
  rw [Zeckendorf.codes_eq_map (Zeckendorf.between_nil bits)] at h
  rcases List.mem_map.mp h with ⟨ds, hds, rfl⟩
  rcases Zeckendorf.of_mem_digits Fibonacci.sparse_nil hds with ⟨rest, rfl, _⟩
  exact Zeckendorf.one_le_weight rest

theorem referenceReading_eq (parts : Partitions) (bits : List Bool)
    : referenceReading parts bits
        =
      if (codes [] bits).length = parts.length then
        reconstruct parts ((order parts).zip ((codes [] bits).map fun value => value - 1))
      else
        none := by
  rw [referenceReading, Zeckendorf.decodeStream, Zeckendorf.decodeStreamFrom_eq (Zeckendorf.between_nil bits), length_order]

theorem decodeReading_of_count {parts : Partitions} {bits : List Bool} (h : (codes [] bits).length ≠ parts.length)
    : ∃ error, decodeReading parts bits = some (.error error) := by
  rw [decodeReading, FibonacciCode.decodeStream_eq]
  simp only [Option.bind_eq_bind, Option.bind_some, List.length_map, length_order, if_pos h]
  exact ⟨_, rfl⟩

theorem decodeReading_of_zero {parts : Partitions} {bits : List Bool} (hcount : (codes [] bits).length = parts.length)
    (hzero : ∃ value ∈ codes [] bits, value % 2 ^ 64 = 0)
    : ∃ error, decodeReading parts bits = some (.error error) := by
  rcases @symbols_zero (codes [] bits) 0 (order parts) (by rw [hcount, length_order, Nat.zero_add])
    (by simpa using hzero) with ⟨error, herror⟩
  rw [decodeReading, FibonacciCode.decodeStream_eq]
  simp only [Option.bind_eq_bind, Option.bind_some, List.length_map, length_order, hcount, ne_eq, not_true_eq_false,
    if_false, herror]
  exact ⟨error, rfl⟩

theorem decodeReading_of_symbols {parts : Partitions} {bits : List Bool} (hcount : (codes [] bits).length = parts.length)
    (hpos : ∀ value ∈ codes [] bits, value % 2 ^ 64 ≠ 0)
    : decodeReading parts bits
        =
      (reconstruct parts ((order parts).zip ((codes [] bits).map fun value => value % 2 ^ 64 - 1))).map .ok := by
  have hsymbols := @symbols_eq (codes [] bits) 0 (order parts) (by rw [hcount, length_order, Nat.zero_add])
    (by simpa using hpos)
  rw [List.drop_zero] at hsymbols
  rw [decodeReading, FibonacciCode.decodeStream_eq]
  simp only [Option.bind_eq_bind, Option.bind_some, List.length_map, length_order, hcount, ne_eq, not_true_eq_false,
    if_false, hsymbols]
  cases reconstruct parts ((order parts).zip ((codes [] bits).map fun value => value % 2 ^ 64 - 1)) <;> rfl

/-- No value is beyond the cells of its field. -/
def InCells (parts : Partitions) (values : List ℕ) : Prop :=
  ∀ p ∈ (order parts).zip values, ∀ part, parts.lookup p.1 = some part → p.2 ≤ part.cells.length

theorem inCells_iff {parts : Partitions} {values : List ℕ} (hpos : ∀ value ∈ values, 1 ≤ value)
    : (reconstruct parts ((order parts).zip (values.map fun value => value - 1))).isSome = true
        ↔
      InCells parts values := by
  rw [isSome_reconstruct, InCells, List.zip_map_right]
  simp only [List.forall_mem_map, Prod.map_fst, Prod.map_snd, id]
  constructor
  . intro h p hp part hpart
    have hlt := h p hp part hpart
    omega
  . intro h p hp part hpart
    have hle := h p hp part hpart
    have hone := hpos p.2 (List.of_mem_zip hp).2
    omega

/--
The decoder is safe on bits where their codes are not as many as the fields, or one of them has a value that wraps to
zero, or each has a value within the cells of its field.
-/
theorem decodeReading_safe_iff (parts : Partitions) (bits : List Bool)
    (hcells : ∀ field part, parts.lookup field = some part → part.cells.length < 2 ^ 64)
    : Safe parts bits
        ↔
      (codes [] bits).length ≠ parts.length ∨ (∃ value ∈ codes [] bits, value % 2 ^ 64 = 0) ∨
        InCells parts (codes [] bits) := by
  have hstream : (FibonacciCode.decodeStream bits).isSome = true := by
    rw [FibonacciCode.decodeStream_eq]
    rfl
  have hrefused : (∃ error, decodeReading parts bits = some (.error error)) → Safe parts bits := by
    rintro ⟨error, herror⟩
    refine ⟨hstream, _, herror, fun reading h => ?_⟩
    cases h
  have hone : ∀ value ∈ codes [] bits, 1 ≤ value := fun _ hvalue => one_le_of_mem_codes hvalue
  by_cases hcount : (codes [] bits).length = parts.length
  . by_cases hzero : ∃ value ∈ codes [] bits, value % 2 ^ 64 = 0
    . exact ⟨fun _ => .inr (.inl hzero), fun _ => hrefused (decodeReading_of_zero hcount hzero)⟩
    . have hpos : ∀ value ∈ codes [] bits, value % 2 ^ 64 ≠ 0 := fun value hvalue heq => hzero ⟨value, hvalue, heq⟩
      have hdecode := decodeReading_of_symbols hcount hpos
      have hreference := referenceReading_eq parts bits
      rw [if_pos hcount] at hreference
      constructor
      . rintro ⟨_, outcome, houtcome, hsame⟩
        right
        right
        rw [hdecode, Option.map_eq_some_iff] at houtcome
        rcases houtcome with ⟨reading, _, rfl⟩
        rw [← inCells_iff hone, ← hreference, hsame reading rfl]
        rfl
      . rintro (hcount' | hzero' | hin)
        . exact absurd hcount hcount'
        . exact absurd hzero' hzero
        . -- such values are below the wrap
          have hsame : (order parts).zip ((codes [] bits).map fun value => value % 2 ^ 64 - 1)
              = (order parts).zip ((codes [] bits).map fun value => value - 1) := by
            rw [List.zip_map_right, List.zip_map_right]
            apply List.map_congr_left
            intro p hp
            rcases exists_part (List.of_mem_zip hp).1 with ⟨part, hpart⟩
            have hle := hin p hp part hpart
            have hlt := hcells p.1 part hpart
            simp only [Prod.map, id, Nat.mod_eq_of_lt (show p.2 < 2 ^ 64 by omega)]
          have hsome := (inCells_iff hone).mpr hin
          rcases Option.isSome_iff_exists.mp hsome with ⟨reading, hreading⟩
          refine ⟨hstream, .ok reading, ?_, ?_⟩
          . rw [hdecode, hsame, hreading]
            rfl
          . intro reading' heq
            cases heq
            rw [hreference, hreading]
  . exact ⟨fun _ => .inl hcount, fun _ => hrefused (decodeReading_of_count hcount)⟩

/-- A flag, which has two cells. -/
def flagPartition : FieldPartition :=
  .new "x" .boolean [⟨none, none, none, .bool false⟩, ⟨none, none, none, .bool true⟩]

theorem decodeReading_safe_flag
    : Safe [("x", flagPartition)] [false, true, true] := by
  apply (decodeReading_safe_iff _ _ _).mpr
  . exact .inr (.inr ((inCells_iff (by decide)).mp (by decide)))
  . intro field part hpart
    rw [List.lookup_cons] at hpart
    split at hpart
    . cases hpart
      decide
    . cases hpart

/-- Three is beyond the two cells of a flag. -/
theorem decodeReading_panics
    : ¬∀ (parts : Partitions) (bits : List Bool), (decodeReading parts bits).isSome = true := by
  intro h
  have hsome := h [("x", flagPartition)] [false, false, true, true]
  revert hsome
  decide

end Wire

end Rust
