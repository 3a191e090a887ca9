import PrismPath.Kernel.FieldPolicy
import PrismPath.Lib.Intervals
import PrismPath.Python.Number
import PrismPath.Telemetry.Concentrator

/-!
This module contains the quantizer: the cells that the constants of a flow cut each field into, the cell a value is in,
the representative of a cell, and the wire that carries one cell for each field.
-/

open Python

namespace Quantizer

open Predicates LevelM Parser FieldDefinitions

inductive Kind where
  | numeric
  | boolean
  | categorical
  deriving DecidableEq

inductive Failure where
  | floatConstant (value : Value)
  | absentConstant
  | mixedConstants
  | outsideLevelM (listed : List (String × String × Option LevelM.Reason))
  | refused (field : String) (reason : FieldDefinitions.Reason) (value : Value)
  | notNumeric (field : String) (value : Value)
  | outsidePartition (field : String) (value : Value)
  | noOtherCell
  | symbolCount (found expected : ℕ)
  | predicate (error : PredicateError)
  | nothingToPack (node : String)
  | raised (error : Error)

def raising {α : Type} : Except Error α → Except Failure α
  | .ok a => .ok a
  | .error e => .error (.raised e)

/- Acceptance. -/

def safeIntegerLimit : ℤ :=
  2 ^ 53

/-- `isinstance(value, (int, float)) and value in (0, 1)` -/
def zeroOrOne : Value → Bool
  | .int n => n = 0 ∨ n = 1
  | .float x => x.num = .finite 0 ∨ x.num = .finite 1
  | _ => false

def acceptInteger (n : ℤ) : Except FieldDefinitions.Reason Value :=
  if -safeIntegerLimit < n ∧ n < safeIntegerLimit then .ok (.int n) else .error .outOfRange

/-- The converted value, or the reason it is refused for a field of the kind. -/
def acceptValue : Kind → Value → Except FieldDefinitions.Reason Value
  | _, .none => .error .missing
  | .numeric, .bool b => .ok (.int (if b then 1 else 0))
  | .numeric, .int n => acceptInteger n
  | .numeric, .float x =>
    match x.num with
    | .finite q => if q.den = 1 then acceptInteger q.num else .error .fractional
    | _ => .error .outOfRange
  | .numeric, _ => .error .wrongType
  | .boolean, .bool b => .ok (.bool b)
  | .boolean, value => if zeroOrOne value then .ok (.bool value.truthy) else .error .wrongType
  | .categorical, .str s => .ok (.str s)
  | .categorical, _ => .error .wrongType

/-- The integer a numeric field compares on. -/
def numericView : Value → Option ℤ
  | .bool b => some (if b then 1 else 0)
  | .int n => some n
  | .float x =>
    match x.num with
    | .finite q => if q.den = 1 then some q.num else none
    | _ => none
  | _ => none

/- The cells of one field. -/

/-- The cell of every string the flow never names. -/
def otherCell : String :=
  "\x00__other__"

inductive Cell where
  | numeric (cell : IntSpan.Cell)
  | boolean (rep : Bool)
  | categorical (const : String)
  | absent

namespace Cell

def rep : Cell → Value
  | numeric cell => .int cell.rep
  | boolean rep => .bool rep
  | categorical const => .str const
  | absent => .none

def const? : Cell → Option String
  | categorical const => some const
  | _ => none

/-- Only numeric cells have ends to compare with. -/
def holds (n : ℤ) : Cell → Bool
  | numeric cell => cell.contains n
  | _ => false

end Cell

structure FieldPartition where
  field : String
  kind : Kind
  cells : List Cell
  definition : Option FieldDefinition

namespace FieldPartition

def absentSymbol (p : FieldPartition) : Option ℕ :=
  match p.cells.getLast? with
  | some .absent => some (p.cells.length - 1)
  | _ => none

/-- The categorical cell for every string the flow does not name. -/
def otherSymbol (p : FieldPartition) : Except Failure ℕ :=
  match p.cells.findIdx? fun cell => cell.const? = some otherCell with
  | some symbol => .ok symbol
  | none => .error .noOtherCell

def namedSymbol (p : FieldPartition) (matches' : Cell → Bool) : Except Failure ℕ :=
  match p.cells.findIdx? matches' with
  | some symbol => .ok symbol
  | none => p.otherSymbol

def inferredSymbol (p : FieldPartition) (value : Value) : Except Failure ℕ :=
  match p.kind with
  | .numeric =>
    match numericView value with
    | none => .error (.notNumeric p.field value)
    | some n =>
      match p.cells.findIdx? (Cell.holds n) with
      | some symbol => .ok symbol
      | none => .error (.outsidePartition p.field value)
  | .boolean => .ok (if value.truthy then 1 else 0)
  | .categorical => p.namedSymbol fun cell => Value.eq (.str (cell.const?.getD otherCell)) value

/-- The symbol of a canonical value on a defined field. -/
def definedSymbol (p : FieldPartition) (d : FieldDefinition) (value : Value) : Except Failure ℕ :=
  match acceptCanonical d value with
  | .error reason => .error (.refused p.field reason value)
  | .ok .none =>
    match p.absentSymbol with
    | some symbol => .ok symbol
    | none => .error (.raised .typeError)
  | .ok canonical =>
    if p.kind = .categorical then
      p.namedSymbol fun cell => cell.const?.any fun const => Value.eq (.str const) canonical
    else
      p.inferredSymbol canonical

def symbol (p : FieldPartition) (value : Value) : Except Failure ℕ :=
  match p.definition with
  | some d => p.definedSymbol d value
  | none =>
    match acceptValue p.kind value with
    | .error reason => .error (.refused p.field reason value)
    | .ok converted => p.inferredSymbol converted

def representative (p : FieldPartition) (symbol : ℕ) : Except Failure Value :=
  match p.cells[symbol]? with
  | some cell => .ok cell.rep
  | none => .error (.raised .indexError)

end FieldPartition

/- Building the partitions. -/

/-- Every field's atoms across the conditions a value decides. -/
def flowAtoms (py : Runtime) (graph : Graph) : List (String × List Atom) :=
  Dict.group ((valueConditions graph).flatMap fun at' => conditionAtoms py at'.2)

/-- `int(const)`, of the constants of the fragment. -/
def intOf (py : Runtime) : Value → Except Error ℤ
  | .bool b => .ok (if b then 1 else 0)
  | .int n => .ok n
  | .str s =>
    match py.int s with
    | some n => .ok n
    | none => .error .valueError
  | _ => .error .typeError

/-- A float threshold is the author's to round. -/
def refuseFloat (value : Value) : Except Failure Unit :=
  if value.isFloat then .error (.floatConstant value) else .ok ()

/-- The points at which one atom can change. -/
def cutsOf (py : Runtime) : Atom → Except Failure (List ℤ)
  | .truthy => .ok [0]
  | .compare _ const => do
    refuseFloat const
    return [← raising (intOf py const)]
  | .member _ consts => do
    consts.forM refuseFloat
    (consts.filter Value.isInt).mapM fun const => raising (intOf py const)

def atomTrue (value : Value) : Atom → Except Failure Bool
  | .truthy => .ok value.truthy
  | .compare op const =>
    let ordered (op : Value.OrderOp) : Except Failure Bool :=
      match value.order op const with
      | some b => .ok b
      | none => .error (.raised .typeError)
    match op with
    | .lt => ordered .lt
    | .ltE => ordered .le
    | .gt => ordered .gt
    | .gtE => ordered .ge
    | .eq => .ok (value.eq const)
    | .notEq => .ok (!value.eq const)
    | _ => .error (.raised .valueError)
  | .member negated consts => .ok ((consts.any fun const => value.eq const) != negated)

/-- The points of all atoms, each once and in order. -/
def cutPoints (cuts : List ℤ) : List ℤ :=
  match cuts.dedup.insertionSort (· ≤ ·) with
  | [] => [0]
  | consts => consts

def numericPartition (py : Runtime) (field : String) (atoms : List Atom) : Except Failure FieldPartition := do
  let cuts ← atoms.mapM (cutsOf py)
  let fine ← (IntSpan.cutAt (cutPoints cuts.flatten)).mapM fun i => do
    return (i, ← atoms.mapM (atomTrue (.int i.rep)))
  return ⟨field, .numeric, (IntSpan.join fine).map .numeric, none⟩

def booleanPartition (field : String) : FieldPartition :=
  ⟨field, .boolean, [.boolean false, .boolean true], none⟩

/-- The strings one atom names. A string is true unless it is empty. -/
def namesOf : Atom → List String
  | .truthy => [""]
  | .compare _ (.str s) => [s]
  | .compare _ _ => []
  | .member _ consts => consts.filterMap fun
    | .str s => some s
    | _ => none

def categoricalPartition (field : String) (atoms : List Atom) : FieldPartition :=
  let consts := dedupBy (fun s t : String => s == t) (atoms.flatMap namesOf)
  ⟨field, .categorical, consts.map .categorical ++ [.categorical otherCell], none⟩

/-- The constants of an atom, without those of a truthiness test. -/
def constantsIn : Atom → List Value
  | .truthy => []
  | .compare _ const => [const]
  | .member _ consts => consts

def checkConstant : Value → Except Failure Unit
  | .float x => .error (.floatConstant (.float x))
  | .none => .error .absentConstant
  | _ => .ok ()

def isPlainInt (value : Value) : Bool :=
  value.isInt && !value.isBool

def classifyKind (atoms : List Atom) : Except Failure Kind := do
  let flat := atoms.flatMap constantsIn
  flat.forM checkConstant
  if flat.any Value.isStr && flat.any Value.isInt then
    .error .mixedConstants
  else if flat.any Value.isStr then
    return .categorical
  else if flat.any isPlainInt then
    return .numeric
  else
    return .boolean

def conditionsOutsideLevelM (py : Runtime) (graph : Graph) : List (String × String × Option LevelM.Reason) :=
  ((valueConditions graph).filter fun at' => !isLevelM py at'.2).map fun at' => (at'.1, at'.2, reasonOf py at'.2)

def partitionOf (py : Runtime) (field : String) (atoms : List Atom) : Kind → Except Failure FieldPartition
  | .numeric => numericPartition py field atoms
  | .categorical => .ok (categoricalPartition field atoms)
  | .boolean => .ok (booleanPartition field)

def kindOfDefinition : FieldDefinitions.Kind → Kind
  | .int => .numeric
  | .fixed => .numeric
  | .bool => .boolean
  | .category => .categorical

/-- An atom that is no test for absence. -/
def present : Atom → Bool
  | .compare _ const => !isNone const
  | _ => true

def definedPartition (py : Runtime) (field : String) (atoms : List Atom)
    : Option FieldDefinition → Except Failure FieldPartition
  | none => do partitionOf py field atoms (← classifyKind atoms)
  | some d => do
    let kind := kindOfDefinition d.kind
    let built ← partitionOf py field (atoms.filter present) kind
    return ⟨field, kind, built.cells ++ (if d.absentAllowed then [.absent] else []), some d⟩

abbrev Partitions : Type :=
  List (String × FieldPartition)

def buildPartitions {py : Runtime} (flow : Flow py) : Except Failure Partitions := do
  let atomsByField := flowAtoms py flow.graph
  if flow.fields.isEmpty then
    let kinds ← atomsByField.mapM fun p => do return (p, ← classifyKind p.2)
    match conditionsOutsideLevelM py flow.graph with
    | [] => kinds.mapM fun p => do return (p.1.1, ← partitionOf py p.1.1 p.1.2 p.2)
    | listed => .error (.outsideLevelM listed)
  else
    atomsByField.mapM fun p => do return (p.1, ← definedPartition py p.1 p.2 (flow.fields.lookup p.1))

/- The wire. -/

/-- A reading gives values to some of the fields. -/
abbrev Reading : Type :=
  List (String × Value)

/-- The fields in their canonical order, with their partitions. -/
def order (parts : Partitions) : Partitions :=
  parts.insertionSort fun p q => ¬ q.1 < p.1

def checkedSymbol (p : FieldPartition) (value : Option Value) : Except Failure ℕ :=
  if value.isNone && p.definition.isNone then
    .error (.refused p.field .missing .none)
  else
    p.symbol (value.getD .none)

/-- The symbols, in the canonical order. -/
def checkedQuantize (parts : Partitions) (reading : Reading) : Except Failure (List ℕ) :=
  (order parts).mapM fun p => checkedSymbol p.2 (reading.lookup p.1)

def encodeReading (parts : Partitions) (reading : Reading) : Except Failure (List Bool) := do
  let syms ← checkedQuantize parts reading
  raising (Zeckendorf.encodeStream (syms.map fun symbol : ℕ => (symbol : ℤ) + 1))

/-- A code stands for at least one, so no symbol is negative. -/
def reconstruct (parts : Partitions) (wire : List ℕ) : Except Failure Reading :=
  (parts.zip wire).mapM fun p => do return (p.1.1, ← p.1.2.representative (p.2 - 1))

def decodeReading (parts : Partitions) (bits : List Bool) : Except Failure Reading := do
  let wire ← raising (Zeckendorf.decodeStream bits)
  if wire.length = parts.length then
    reconstruct (order parts) wire
  else
    .error (.symbolCount wire.length parts.length)

/- The routes. -/

/-- `reading.get` -/
def Reading.ctx (reading : Reading) : Ctx :=
  fun field => (reading.lookup field).getD .none

/-- The first deterministic edge whose condition holds. -/
def firstEdge (py : Runtime) (reading : Reading) : List Edge → Except Failure (Option String)
  | [] => .ok none
  | edge :: edges =>
    if isDeterministic edge.condition then
      match evalCondition py edge.condition reading.ctx with
      | .error e => .error (.predicate e)
      | .ok true => .ok (some edge.target)
      | .ok false => firstEdge py reading edges
    else
      firstEdge py reading edges

def routeNode (py : Runtime) (graph : Graph) (node : String) (reading : Reading) : Except Failure (Option String) :=
  match graph.get? node with
  | some node => firstEdge py reading node.edges
  | none => .error (.raised .keyError)

end Quantizer
