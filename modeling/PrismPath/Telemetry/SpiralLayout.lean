import PrismPath.Telemetry.GrayWalk
import PrismPath.Telemetry.Quantizer

/-!
This module contains the spiral layout of a node: its joint cells in bands, one band for each route, and the two part
code of a cell, the band first and the place in the band second.
-/

open Python

namespace Spiral

open Predicates LevelM Parser Quantizer
open FieldDefinitions (Flow)

/-- The fields a node routes on, in their canonical order. -/
def nodeFields (py : Runtime) (parts : Partitions) (node : Node) : List String :=
  let asked := (node.edges.filter fun edge => isDeterministic edge.condition && !isSemantic edge.condition).flatMap
    fun edge => (conditionAtoms py edge.condition).map Prod.fst
  ((asked.filter fun field => (parts.lookup field).isSome).dedup).insertionSort fun a b => ¬ b < a

/-- The targets of the deterministic edges, each at its first edge, in reverse. -/
def routeOrder (node : Node) : List String :=
  (dedupBy (fun s t : String => s == t)
    ((node.edges.filter fun edge => isDeterministic edge.condition).map Edge.target)).reverse

/-- `order.get(route, len(order))` -/
def routeRank (order : List String) : Option String → ℕ
  | some target => order.idxOf target
  | none => order.length

def partition (parts : Partitions) (field : String) : Except Failure FieldPartition :=
  match parts.lookup field with
  | some p => .ok p
  | none => .error (.raised .keyError)

def cellReading (parts : Partitions) (fields : List String) (cell : List ℤ) : Except Failure Reading :=
  (fields.zip cell).mapM fun p => do
    let part ← partition parts p.1
    return (p.1, ← part.representative p.2.toNat)

def routeOfCell (py : Runtime) (graph : Graph) (node : String) (parts : Partitions) (fields : List String)
    (cell : List ℤ) : Except Failure (Option String) := do
  routeNode py graph node (← cellReading parts fields cell)

/-- Where each band begins, the first at `base`. -/
def bandBases : ℕ → List ℕ → List ℕ
  | _, [] => []
  | base, width :: widths => base :: bandBases (base + width) widths

structure SpiralLayout where
  node : String
  parts : Partitions
  fields : List String
  radices : List ℤ
  routes : List (Option String)
  bandBase : List ℕ
  bandWidth : List ℕ
  cellOf : List (List ℤ)
  size : ℕ

def build {py : Runtime} (flow : Flow py) (node : String) : Except Failure SpiralLayout := do
  let parts ← buildPartitions flow
  match flow.graph.get? node with
  | none => .error (.raised .keyError)
  | some source =>
    let fields := nodeFields py parts source
    if fields.isEmpty then
      .error (.nothingToPack node)
    else
      let radices ← fields.mapM fun field => do return ((← partition parts field).cells.length : ℤ)
      let routed ← (mixedRadixGray radices).mapM fun cell => do
        return (← routeOfCell py flow.graph node parts fields cell, cell)
      let order := routeOrder source
      let buckets := (Dict.group routed).insertionSort fun a b => routeRank order a.1 ≤ routeRank order b.1
      let widths := buckets.map fun bucket => bucket.2.length
      return {
        node := node
        parts := parts
        fields := fields
        radices := radices
        routes := buckets.map Prod.fst
        bandBase := bandBases 0 widths
        bandWidth := widths
        cellOf := (buckets.map Prod.snd).flatten
        size := widths.sum
      }

namespace SpiralLayout

/-- `xs[i]` -/
def at' {α : Type} (xs : List α) (i : ℕ) : Except Failure α :=
  match xs[i]? with
  | some x => .ok x
  | none => .error (.raised .indexError)

/-- The position of a key, as in a dict of positions. -/
def positionOf {α : Type} [DecidableEq α] (xs : List α) (x : α) : Except Failure ℕ :=
  match xs.findIdx? (· = x) with
  | some i => .ok i
  | none => .error (.raised .keyError)

/- Packing. -/

def cell (layout : SpiralLayout) (reading : Reading) : Except Failure (List ℤ) :=
  layout.fields.mapM fun field => do
    let part ← partition layout.parts field
    match reading.lookup field with
    | some value => return ((← part.symbol value) : ℕ)
    | none => .error (.raised .keyError)

/-- No cell is at two indices. -/
def index (layout : SpiralLayout) (reading : Reading) : Except Failure ℕ := do
  positionOf layout.cellOf (← layout.cell reading)

/-- The first band whose end the index is below; an index is never negative here. -/
def routeOf (layout : SpiralLayout) (spiralIndex : ℕ) : Except Failure (Option String) :=
  match ((layout.bandBase.zip layout.bandWidth).zip layout.routes).find? fun band => spiralIndex < band.1.1 + band.1.2 with
  | some band => .ok band.2
  | none => .error (.raised .valueError)

def bandId (py : Runtime) (graph : Graph) (layout : SpiralLayout) (reading : Reading) : Except Failure ℕ := do
  positionOf layout.routes (← routeOfCell py graph layout.node layout.parts layout.fields (← layout.cell reading))

/- Reconstructing. -/

def reconstruct (layout : SpiralLayout) (spiralIndex : ℕ) : Except Failure Reading := do
  cellReading layout.parts layout.fields (← at' layout.cellOf spiralIndex)

/- The codes. A code stands for at least one, so no number less one is negative. -/

def encodeDecision (py : Runtime) (graph : Graph) (layout : SpiralLayout) (reading : Reading)
    : Except Failure (List Bool) := do
  raising (Zeckendorf.encode ((← bandId py graph layout reading) + 1))

def decodeDecision (layout : SpiralLayout) (bits : List Bool) : Except Failure (Option String) := do
  at' layout.routes ((← raising (Zeckendorf.decode bits)) - 1)

def encodeProgressive (layout : SpiralLayout) (reading : Reading) : Except Failure (List Bool × List Bool) := do
  let spiralIndex ← layout.index reading
  let band ← positionOf layout.routes (← layout.routeOf spiralIndex)
  let base ← at' layout.bandBase band
  let decision ← raising (Zeckendorf.encode (band + 1))
  return (decision, ← raising (Zeckendorf.encode ((spiralIndex : ℤ) - base + 1)))

def decodeProgressive (layout : SpiralLayout) (decisionBits refineBits : List Bool) : Except Failure Reading := do
  let band := (← raising (Zeckendorf.decode decisionBits)) - 1
  let local' := (← raising (Zeckendorf.decode refineBits)) - 1
  layout.reconstruct ((← at' layout.bandBase band) + local')

end SpiralLayout

end Spiral
