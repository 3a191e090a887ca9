import PrismPath.Lib.Dict
import PrismPath.Rust.Wire
import PrismPath.Telemetry.GrayWalk
import PrismPath.Telemetry.SpiralLayout

/-!
This module contains the Rust spiral layout of a node, its two part code, and the decoders of that code.
-/

namespace Rust

namespace SpiralPacking

open Parser (Edge Graph Node)
open Kernel (isDeterministic isSemantic)
open Rust.Quantizer Wire

/- The layout of a node. -/

/-- The fields a node routes on, where `atomFields` gives those of the atoms of a condition. -/
def nodeFields (atomFields : String → List String) (graph : Graph) (node : String) (parts : Partitions) : List String :=
  let edges := ((graph.get? node).map Node.edges).getD []
  let asked := (edges.filter fun edge => isDeterministic edge.condition && !isSemantic edge.condition).flatMap
    fun edge => atomFields edge.condition
  ((asked.filter fun field => (parts.lookup field).isSome).dedup).insertionSort fun a b => ¬b < a

/-- The targets of the deterministic edges, each at its first edge, in reverse. -/
def routeOrder (graph : Graph) (node : String) : List String :=
  let edges := ((graph.get? node).map Node.edges).getD []
  ((edges.filter fun edge => isDeterministic edge.condition).map Edge.target).reverse.dedup

def routeRank (order : List String) : Option String → ℕ
  | some target => order.idxOf target
  | none => order.length

/-- The reading of a cell; `none` is a panic. -/
def cellReading (parts : Partitions) : List String → List ℕ → Option Reading
  | field :: fields, symbol :: cell => do
    let part ← parts.lookup field
    let value ← part.representative symbol
    return (field, value) :: (← cellReading parts fields cell)
  | _, _ => some []

def routeOfCell (graph : Graph) (node : String) (parts : Partitions) (fields : List String) (cell : List ℕ)
    : Option (Option String) := do
  return routeNode graph node (← cellReading parts fields cell)

/-- The size of a cell's vector; a vector takes no more than `isize::MAX` bytes. -/
def cellBytes : ℕ :=
  24

/-- The total wraps, and the walk has its first cell whatever the total; `none` is a capacity overflow. -/
def mixedRadixGray (radices : List ℕ) : Option (List (List ℕ)) :=
  if radices = [] then
    some []
  else
    let total := radices.prod % 2 ^ 64
    if total * cellBytes < 2 ^ 63 then
      some ((Spiral.walk (total - 1) (Spiral.startWheels (radices.map Int.ofNat))).map (·.map Int.toNat))
    else
      none

/-- Where each value was last inserted. -/
def positions {α : Type} (xs : List α) : List (α × ℕ) :=
  xs.zipIdx.reverse

structure SpiralLayout where
  graph : Graph
  node : String
  parts : Partitions
  fields : List String
  radices : List ℕ
  routes : List (Option String)
  bandIndex : List (Option String × ℕ)
  bandBase : List ℕ
  bandWidth : List ℕ
  cellOf : List (List ℕ)
  nOf : List (List ℕ × ℕ)
  size : ℕ

inductive SpiralError where
  | nothingToPack (node : String)
  | missingField (field : String)
  | refused (error : AcceptanceError)
  | cellOutside (cell : List ℕ)
  | indexOutside (spiralIndex size : ℕ)
  | routeOutside (route : Option String)
  | notACode (code : List Bool)
  | notPositive (value : UInt64)
  | bandZero
  | bandOutside (band bands : ℕ)

local instance lawfulBEq_route : LawfulBEq (Option String) :=
  inferInstance

/-- The layout over the partitions of the graph, or the error; `none` is a panic. -/
def new (atomFields : String → List String) (parts : Partitions) (graph : Graph) (node : String)
    : Option (Except SpiralError SpiralLayout) := do
  let fields := nodeFields atomFields graph node parts
  if fields.isEmpty then
    return .error (.nothingToPack node)
  else
    let radices ← fields.mapM fun field => (parts.lookup field).map FieldPartition.n
    let cells ← mixedRadixGray radices
    let routed ← cells.mapM fun cell => do return (← routeOfCell graph node parts fields cell, cell)
    let order := routeOrder graph node
    let buckets := (Dict.group routed).insertionSort fun a b => routeRank order a.1 ≤ routeRank order b.1
    let routes := buckets.map Prod.fst
    let widths := buckets.map fun bucket => bucket.2.length
    let cellOf := (buckets.map Prod.snd).flatten
    return .ok {
      graph := graph
      node := node
      parts := parts
      fields := fields
      radices := radices
      routes := routes
      bandIndex := positions routes
      bandBase := Spiral.bandBases 0 widths
      bandWidth := widths
      cellOf := cellOf
      nOf := positions cellOf
      size := widths.sum
    }

namespace SpiralLayout

/- Packing. -/

/-- The symbols of the fields; the first one missing or refused is an error. -/
def tryCell (layout : SpiralLayout) (reading : Reading) : List String → Option (Except SpiralError (List ℕ))
  | [] => some (.ok [])
  | field :: fields =>
    match reading.lookup field with
    | none => some (.error (.missingField field))
    | some value => do
      let part ← layout.parts.lookup field
      match part.symbol value with
      | .error error => return .error (.refused error.1)
      | .ok symbol => return (← layout.tryCell reading fields).map (symbol :: ·)

def tryIndex (layout : SpiralLayout) (reading : Reading) : Option (Except SpiralError ℕ) := do
  match ← layout.tryCell reading layout.fields with
  | .error error => return .error error
  | .ok cell =>
    match layout.nOf.lookup cell with
    | some spiralIndex => return .ok spiralIndex
    | none => return .error (.cellOutside cell)

/-- The first band whose end the index is below. -/
def tryRouteOf (layout : SpiralLayout) (spiralIndex : ℕ) : Except SpiralError (Option String) :=
  match ((layout.bandBase.zip layout.bandWidth).zip layout.routes).find? fun band => spiralIndex < band.1.1 + band.1.2 with
  | some band => .ok band.2
  | none => .error (.indexOutside spiralIndex layout.size)

/-- A code of one part, with the error of the encoder. -/
def encodePart (value : UInt64) : Option (Except SpiralError (List Bool)) :=
  (FibonacciCode.encode value).map fun code => code.mapError .notPositive

def tryEncodeProgressive (layout : SpiralLayout) (reading : Reading)
    : Option (Except SpiralError (List Bool × List Bool)) := do
  match ← layout.tryIndex reading with
  | .error error => return .error error
  | .ok spiralIndex =>
    match layout.tryRouteOf spiralIndex with
    | .error error => return .error error
    | .ok route =>
      match layout.bandIndex.lookup route with
      | none => return .error (.routeOutside route)
      | some band =>
        let local' ← FibonacciCode.checkedSub spiralIndex (← layout.bandBase[band]?)
        match ← encodePart (UInt64.ofNat band + 1) with
        | .error error => return .error error
        | .ok decision => return (← encodePart (UInt64.ofNat local' + 1)).map fun refine => (decision, refine)

/- Unpacking. -/

def decodePart (bits : List Bool) : Option (Except SpiralError UInt64) :=
  (FibonacciCode.decode bits).map fun value => value.mapError .notACode

def decodeDecision (layout : SpiralLayout) (bits : List Bool) : Option (Except SpiralError (Option String)) := do
  match ← decodePart bits with
  | .error error => return .error error
  | .ok value =>
    if value = 0 then
      return .error .bandZero
    else
      match layout.routes[(value - 1).toNat]? with
      | some route => return .ok route
      | none => return .error (.bandOutside (value - 1).toNat layout.routes.length)

/-- An index outside the spiral is a panic. -/
def reconstruct (layout : SpiralLayout) (spiralIndex : ℕ) : Option Reading := do
  cellReading layout.parts layout.fields (← layout.cellOf[spiralIndex]?)

/-- The differences and the sum wrap. -/
def decodeProgressive (layout : SpiralLayout) (decisionBits refineBits : List Bool)
    : Option (Except SpiralError Reading) := do
  match ← decodePart decisionBits with
  | .error error => return .error error
  | .ok decision =>
    match ← decodePart refineBits with
    | .error error => return .error error
    | .ok refine =>
      let base ← layout.bandBase[(decision - 1).toNat]?
      return .ok (← layout.reconstruct (UInt64.ofNat base + (refine - 1)).toNat)

end SpiralLayout

end SpiralPacking

end Rust
