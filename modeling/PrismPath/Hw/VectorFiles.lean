import PrismPath.Hw.CompiledTruth
import PrismPath.Hw.LoadSerialized
import PrismPath.Kernel.Engine

/-!
This module contains the files that the command line of the reference interpreter reads beside an image, as the compiler
writes them, and the two modes that read them.
-/

open Python Bytes TableFormat

namespace PptCompile

/- Writing. -/

inductive VectorError where
  | subset (error : SubsetError)
  | scriptRaises
  | scriptSuspends
  /-- A number that does not fit its place. -/
  | packing

/-- The strings of a file extend a copy of those of the image. -/
abbrev Encoder : Type → Type :=
  StateT TableImage (Except VectorError)

def liftScalar {α : Type} (build : Build α) : Encoder α := fun img =>
  match build img with
  | .ok result => .ok result
  | .error error => .error (.subset error)

def packing (bytes : Option (List UInt8)) : Encoder (List UInt8) := fun img =>
  match bytes with
  | some bytes => .ok (bytes, img)
  | none => .error .packing

def pack32 (n : Nat) : Option (List UInt8) :=
  if n < 2 ^ 32 then some ((List.range 4).map fun i => UInt8.ofNat (n / 2 ^ (8 * i) % 2 ^ 8)) else none

def packReg (reg : Nat × ℤ) : Option (List UInt8) := do
  return (← packI32 reg.1) ++ (← packI32 reg.2)

/-- The fields the image reads, in the order of their registers. -/
def encodeRow (ctx : Predicates.Ctx) : List String → Encoder (List UInt8)
  | [] => return []
  | name :: names => do
    let reg ← liftScalar (encodeScalar (ctx name))
    let bytes ← packing (packReg reg)
    return bytes ++ (← encodeRow ctx names)

def regsFile (img : TableImage) (ctx : Predicates.Ctx) (node : Nat) : Encoder (List UInt8) := do
  let head ← packing (pack32 node)
  return head ++ (← encodeRow ctx img.fields)

def encodeRegs (img : TableImage) (ctx : Predicates.Ctx) (node : Nat) : Except VectorError (List UInt8) := do
  let (bytes, _) ← regsFile img ctx node img
  return bytes

def outcomeFields (py : Predicates.Runtime) : Value → Encoder (List (String × Value))
  | .dict fields => if (fields.lookup "__raise__").isSome then throw .scriptRaises else return fields
  | value => return [("text", .str (py.str value))]

def encodeOutcome (py : Predicates.Runtime) (names : List String) (value : Value) : Encoder (List UInt8) := do
  let fields ← outcomeFields py value
  if (Engine.field fields "needs_human").truthy || Engine.waits fields then
    throw .scriptSuspends
  else
    encodeRow (Engine.field fields) names

def encodeOutcomes (py : Predicates.Runtime) (names : List String) : List Value → Encoder (List UInt8)
  | [] => return []
  | value :: values => do
    let row ← encodeOutcome py names value
    return row ++ (← encodeOutcomes py names values)

/-- The outcomes of a node, in the order of its visits. -/
abbrev Script : Type :=
  List (String × List Value)

/-- A node that the script leaves out answers with its name. -/
def Script.outcomes (script : Script) (node : String) : List Value :=
  (script.lookup node).getD [.dict [("text", .str node)]]

def encodeNodes (py : Predicates.Runtime) (names : List String) (script : Script) : List String → Encoder (List UInt8)
  | [] => return []
  | node :: nodes => do
    let count ← packing (pack32 (script.outcomes node).length)
    let rows ← encodeOutcomes py names (script.outcomes node)
    return count ++ (rows ++ (← encodeNodes py names script nodes))

def scriptFile (py : Predicates.Runtime) (img : FlowImage) (script : Script) : Encoder (List UInt8) := do
  let head ← packing (pack32 img.nodes.length)
  return head ++ (← encodeNodes py img.table.fields script img.names)

def encodeScript (py : Predicates.Runtime) (img : FlowImage) (script : Script) : Except VectorError (List UInt8) := do
  let (bytes, _) ← scriptFile py img script img.table
  return bytes

end PptCompile

namespace Interp

open Evaluator

/- Reading. -/

/-- Where the interpreter exits. -/
inductive ModeError where
  | badRegs
  | badNode
  | badScript
  | truncatedScript
  | noOutcome (node : Nat)
  | evaluator (fault : Evaluator.Fault)

def registers (bytes : List UInt8) (off : Nat) (i : Nat) : Reg :=
  ⟨(i32? bytes (off + 8 * i)).getD 0, (i32? bytes (off + 8 * i + 4)).getD 0⟩

/-- The matching edge and its target. -/
def matched (image : Image) (node : Nat) (regs : Nat → Reg) : Except Evaluator.Fault (Option (Nat × Nat)) :=
  match evaluate image node regs with
  | .error fault => .error fault
  | .ok index =>
    if index < 0 then
      .ok none
    else
      match image.nodes[node]?.bind fun record => image.edges[record.edgeOff + index.toNat]? with
      | none => .error .edgeRead
      | some edge => .ok (some (index.toNat, edge.target))

def modeEval (image : Image) (bytes : List UInt8) : Except ModeError (Option (Nat × Nat)) :=
  if bytes.length ≠ 4 + 8 * image.fields then
    .error .badRegs
  else
    -- `(uint16_t)rd32(bytes)`
    let node := ((u32? bytes 0).getD 0) % 2 ^ 16
    if image.nodes.length ≤ node then
      .error .badNode
    else
      (matched image node (registers bytes 4)).mapError .evaluator

/-- The number of outcomes of each node, and where they start. -/
def scriptRows (bytes : List UInt8) (fields : Nat) : (nodes cursor : Nat) → Except ModeError (List (Nat × Nat))
  | 0, _ => .ok []
  | nodes + 1, cursor =>
    match u32? bytes cursor with
    | none => .error .truncatedScript
    | some count =>
      let next := cursor + 4 + 8 * fields * count
      if bytes.length < next then
        .error .truncatedScript
      else
        (scriptRows bytes fields nodes next).map ((count, cursor + 4) :: ·)

inductive RunStop where
  | terminal
  | stuck
  | maxSteps
  deriving DecidableEq

/-- `VISITS_NONE` -/
def visitsNone : Nat := 0xFFFF

/-- The counter of the node stands in for whatever the outcome says of it. -/
def withVisits (image : Image) (visits : Nat) (regs : Nat → Reg) : Nat → Reg :=
  if image.visitsIdx = visitsNone then regs else Function.update regs image.visitsIdx ⟨Evaluator.tyInt, visits⟩

/-- The nodes that are printed, and how the run ends. -/
def runLoop (image : Image) (bytes : List UInt8) (rows : List (Nat × Nat))
    : (fuel : Nat) → (visits : Nat → Nat) → (node : Nat) → Except ModeError (List Nat × RunStop)
  | 0, _, node => .ok ([node], .maxSteps)
  | fuel + 1, visits, node =>
    match image.nodes[node]? with
    | none => .error (.evaluator .nodeRead)
    | some record =>
      if record.edgeCnt = 0 then
        .ok ([node], .terminal)
      else
        match rows[node]? with
        | none => .error .truncatedScript
        | some (count, off) =>
          let visits := Function.update visits node (visits node + 1)
          if count = 0 then
            .error (.noOutcome node)
          else
            -- the last outcome repeats
            let outcome := min (visits node - 1) (count - 1)
            let regs := withVisits image (visits node) (registers bytes (off + 8 * image.fields * outcome))
            match matched image node regs with
            | .error fault => .error (.evaluator fault)
            | .ok none => .ok ([node], .stuck)
            | .ok (some (_, target)) => (runLoop image bytes rows fuel visits target).map fun r => (node :: r.1, r.2)

def modeRun (image : Image) (bytes : List UInt8) : Except ModeError (List Nat × RunStop) :=
  match u32? bytes 0 with
  | none => .error .badScript
  | some nodes =>
    if nodes ≠ image.nodes.length then
      .error .badScript
    else
      match scriptRows bytes image.fields image.nodes.length 4 with
      | .error error => .error error
      | .ok rows => runLoop image bytes rows image.maxSteps (fun _ => 0) image.start

end Interp

namespace PptCompile

open Evaluator (Reg)
open Interp (registers scriptRows)

/- A row. -/

theorem reads_pack32 {n : Nat} {bytes : List UInt8} (h : pack32 n = some bytes)
    : bytes.length = 4 ∧ Reads u32? n bytes := by
  unfold pack32 at h
  split at h
  next hlt =>
    cases h
    have hbyte (i : Nat) : (UInt8.ofNat (n / 2 ^ (8 * i) % 2 ^ 8)).toNat = n / 2 ^ (8 * i) % 2 ^ 8 := by
      rw [UInt8.toNat_ofNat', Nat.mod_mod]
    have hread (i : Nat) := reads_u8 (UInt8.ofNat (n / 2 ^ (8 * i) % 2 ^ 8))
    simp only [hbyte] at hread
    have hfour := ((hread 0).u16 (hread 1) rfl).u32 ((hread 2).u16 (hread 3) rfl) rfl
    have hsum : n / 2 ^ (8 * 0) % 2 ^ 8 + 2 ^ 8 * (n / 2 ^ (8 * 1) % 2 ^ 8)
        + 2 ^ 16 * (n / 2 ^ (8 * 2) % 2 ^ 8 + 2 ^ 8 * (n / 2 ^ (8 * 3) % 2 ^ 8)) = n := by
      omega
    rw [hsum] at hfour
    exact ⟨rfl, hfour⟩
  next => cases h

theorem packing_ok {bytes? : Option (List UInt8)} {bytes : List UInt8} {img img' : TableImage}
    (h : packing bytes? img = .ok (bytes, img'))
    : bytes? = some bytes ∧ img' = img := by
  cases bytes? with
  | none => cases h
  | some bytes =>
    cases h
    exact ⟨rfl, rfl⟩

theorem liftScalar_ok {α : Type} {build : Build α} {img : TableImage} {r : α × TableImage}
    (h : liftScalar build img = .ok r)
    : build img = .ok r := by
  unfold liftScalar at h
  split at h
  next hbuild =>
    cases h
    exact hbuild
  next => cases h

/-- A register is read where it was packed. -/
theorem registers_packReg {reg : Nat × ℤ} {bytes : List UInt8} (h : packReg reg = some bytes)
    : bytes.length = 8 ∧ ∀ pre post, registers (pre ++ (bytes ++ post)) pre.length 0 = ⟨reg.1, reg.2⟩ := by
  unfold packReg at h
  rcases Option.bind_eq_some_iff.mp h with ⟨ty, hty, h⟩
  rcases Option.bind_eq_some_iff.mp h with ⟨val, hval, h⟩
  cases h
  rcases reads_packI32 hty with ⟨htyLength, htyReads⟩
  rcases reads_packI32 hval with ⟨hvalLength, hvalReads⟩
  refine ⟨by rw [List.length_append, htyLength, hvalLength], fun pre post => ?_⟩
  have htyAt := htyReads pre (val ++ post)
  have hvalAt := hvalReads.after pre ty post
  rw [htyLength] at hvalAt
  rw [registers, Nat.mul_zero, Nat.add_zero, List.append_assoc, htyAt, hvalAt]
  rfl

theorem registers_succ (bytes : List UInt8) (off i : Nat)
    : registers bytes off (i + 1) = registers bytes (off + 8) i := by
  have hoff : off + 8 * (i + 1) = off + 8 + 8 * i := by omega
  rw [registers, registers, hoff]

/-- The registers hold the fields, under a pool of strings. -/
def Shows (pool : List String) (ctx : Predicates.Ctx) (names : List String) (regs : Nat → Reg) : Prop :=
  ∀ i name, names[i]? = some name → ∃ r, encodeIn pool (ctx name) = some r ∧ regs i = ⟨r.1, r.2⟩

theorem Shows.mono {pool pool' : List String} {ctx : Predicates.Ctx} {names : List String} {regs : Nat → Reg}
    (h : Shows pool ctx names regs) (hpool : pool <+: pool')
    : Shows pool' ctx names regs := by
  intro i name hname
  rcases h i name hname with ⟨r, hr, hreg⟩
  exact ⟨r, encodeIn_mono hpool hr, hreg⟩

theorem encodeRow_spec {ctx : Predicates.Ctx} {names : List String} {img img' : TableImage} {bytes : List UInt8}
    (h : encodeRow ctx names img = .ok (bytes, img'))
    : img.intern <+: img'.intern ∧ bytes.length = 8 * names.length
        ∧ ∀ pre post, Shows img'.intern ctx names (registers (pre ++ (bytes ++ post)) pre.length) := by
  induction names generalizing img bytes with
  | nil =>
    cases h
    refine ⟨List.prefix_rfl, rfl, fun pre post i name hname => ?_⟩
    cases hname
  | cons name names ih =>
    rw [encodeRow] at h
    rcases StateT.bind_eq_ok.mp h with ⟨reg, img₁, hreg, h⟩
    rcases StateT.bind_eq_ok.mp h with ⟨first, img₂, hfirst, h⟩
    rcases StateT.bind_eq_ok.mp h with ⟨rest, img₃, hrest, h⟩
    cases h
    rcases packing_ok hfirst with ⟨hpack, rfl⟩
    rcases encodeScalar_spec (liftScalar_ok hreg) with ⟨hgrows, _, hencode⟩
    rcases registers_packReg hpack with ⟨hlength, hshows⟩
    rcases ih hrest with ⟨hintern, hrestLength, hrestShows⟩
    refine ⟨hgrows.intern.trans hintern, ?_, fun pre post i other hother => ?_⟩
    . rw [List.length_append, hlength, hrestLength, List.length_cons]
      omega
    . cases i with
      | zero =>
        cases hother
        refine ⟨reg, encodeIn_mono hintern hencode, ?_⟩
        rw [List.append_assoc]
        exact hshows pre (rest ++ post)
      | succ i =>
        rcases hrestShows (pre ++ first) post i other hother with ⟨r, hr, hreg⟩
        refine ⟨r, hr, ?_⟩
        rw [List.length_append, hlength, List.append_assoc] at hreg
        rw [registers_succ, List.append_assoc]
        exact hreg

/- A script. -/

/-- The outcome neither raises nor suspends a run. -/
structure Plain (py : Predicates.Runtime) (value : Value) : Prop where
  returns : ∀ fields, value = .dict fields → (fields.lookup "__raise__").isSome = false
  routes : (Engine.field (Engine.normalize py value).2 "needs_human").truthy = false
  goesOn : Engine.waits (Engine.normalize py value).2 = false

theorem encodeOutcome_spec {py : Predicates.Runtime} {names : List String} {value : Value} {img img' : TableImage}
    {bytes : List UInt8} (h : encodeOutcome py names value img = .ok (bytes, img'))
    : Plain py value ∧ encodeRow (Engine.field (Engine.normalize py value).2) names img = .ok (bytes, img') := by
  rw [encodeOutcome] at h
  rcases StateT.bind_eq_ok.mp h with ⟨fields, img₁, hfields, hrow⟩
  have hnormal : fields = (Engine.normalize py value).2 ∧ img₁ = img
      ∧ ∀ fields, value = .dict fields → (fields.lookup "__raise__").isSome = false := by
    unfold outcomeFields at hfields
    split at hfields
    next entries =>
      split at hfields
      next => cases hfields
      next hraise =>
        cases hfields
        refine ⟨rfl, rfl, fun fields hvalue => ?_⟩
        cases hvalue
        exact Bool.not_eq_true _ ▸ hraise
    next hdict =>
      cases hfields
      refine ⟨?_, rfl, fun fields hvalue => absurd hvalue (hdict fields)⟩
      cases value <;> first | rfl | exact absurd rfl (hdict _)
  rcases hnormal with ⟨rfl, rfl, hreturns⟩
  split at hrow
  next => cases hrow
  next hplain =>
    rw [Bool.or_eq_true, not_or, Bool.not_eq_true, Bool.not_eq_true] at hplain
    exact ⟨⟨hreturns, hplain.1, hplain.2⟩, hrow⟩

theorem encodeOutcomes_spec {py : Predicates.Runtime} {names : List String} {values : List Value}
    {img img' : TableImage} {bytes : List UInt8} (h : encodeOutcomes py names values img = .ok (bytes, img'))
    : img.intern <+: img'.intern ∧ bytes.length = 8 * names.length * values.length
        ∧ ∀ pre post k value, values[k]? = some value →
          Plain py value ∧ Shows img'.intern (Engine.field (Engine.normalize py value).2) names
            (registers (pre ++ (bytes ++ post)) (pre.length + 8 * names.length * k)) := by
  induction values generalizing img bytes with
  | nil =>
    cases h
    refine ⟨List.prefix_rfl, rfl, fun pre post k value hvalue => ?_⟩
    cases hvalue
  | cons value values ih =>
    rw [encodeOutcomes] at h
    rcases StateT.bind_eq_ok.mp h with ⟨row, img₁, hrow, h⟩
    rcases StateT.bind_eq_ok.mp h with ⟨rows, img₂, hrows, h⟩
    cases h
    rcases encodeOutcome_spec hrow with ⟨hplain, hrow⟩
    rcases encodeRow_spec hrow with ⟨hintern, hlength, hshows⟩
    rcases ih hrows with ⟨hintern', hlength', hshows'⟩
    refine ⟨hintern.trans hintern', ?_, fun pre post k other hother => ?_⟩
    . rw [List.length_append, hlength, hlength', List.length_cons, Nat.mul_succ, Nat.add_comm]
    . cases k with
      | zero =>
        cases hother
        rw [Nat.mul_zero, Nat.add_zero, List.append_assoc]
        exact ⟨hplain, (hshows pre (rows ++ post)).mono hintern'⟩
      | succ k =>
        rcases hshows' (pre ++ row) post k other hother with ⟨hplain', hother'⟩
        refine ⟨hplain', ?_⟩
        have hoff : (pre ++ row).length + 8 * names.length * k = pre.length + 8 * names.length * (k + 1) := by
          rw [List.length_append, hlength, Nat.mul_succ]
          omega
        rw [hoff, List.append_assoc] at hother'
        rw [List.append_assoc]
        exact hother'

/-- The rows hold the outcomes of the nodes in order. -/
def Holds (py : Predicates.Runtime) (pool names : List String) (script : Script) (bytes : List UInt8)
    (nodes : List String) (rows : List (Nat × Nat)) : Prop :=
  ∀ (i : Nat) (node : String), nodes[i]? = some node → ∃ off, rows[i]? = some ((script.outcomes node).length, off)
    ∧ ∀ (k : Nat) (value : Value), (script.outcomes node)[k]? = some value →
      Plain py value ∧ Shows pool (Engine.field (Engine.normalize py value).2) names
        (registers bytes (off + 8 * names.length * k))

theorem encodeNodes_spec {py : Predicates.Runtime} {names : List String} {script : Script} {nodes : List String}
    {img img' : TableImage} {bytes : List UInt8} (h : encodeNodes py names script nodes img = .ok (bytes, img'))
    : img.intern <+: img'.intern
        ∧ ∀ pre post, ∃ rows,
          scriptRows (pre ++ (bytes ++ post)) names.length nodes.length pre.length = .ok rows
            ∧ Holds py img'.intern names script (pre ++ (bytes ++ post)) nodes rows := by
  induction nodes generalizing img bytes with
  | nil =>
    cases h
    refine ⟨List.prefix_rfl, fun pre post => ⟨[], rfl, fun i node hnode => ?_⟩⟩
    cases hnode
  | cons node nodes ih =>
    rw [encodeNodes] at h
    rcases StateT.bind_eq_ok.mp h with ⟨count, img₁, hcount, h⟩
    rcases StateT.bind_eq_ok.mp h with ⟨rows, img₂, hrows, h⟩
    rcases StateT.bind_eq_ok.mp h with ⟨others, img₃, hothers, h⟩
    cases h
    rcases packing_ok hcount with ⟨hpack, rfl⟩
    rcases reads_pack32 hpack with ⟨hcountLength, hcountReads⟩
    rcases encodeOutcomes_spec hrows with ⟨hintern, hlength, hshows⟩
    rcases ih hothers with ⟨hintern', hnodes⟩
    refine ⟨hintern.trans hintern', fun pre post => ?_⟩
    rcases hnodes (pre ++ count ++ rows) post with ⟨rest, hrest, hholds⟩
    generalize hdata : pre ++ (count ++ (rows ++ others) ++ post) = data
    have hcountAt : u32? data pre.length = some (script.outcomes node).length := by
      rw [← hdata, List.append_assoc]
      exact hcountReads pre _
    have hsame : pre ++ count ++ rows ++ (others ++ post) = data := by
      rw [← hdata]
      simp only [List.append_assoc]
    have hnext : (pre ++ count ++ rows).length
        = pre.length + 4 + 8 * names.length * (script.outcomes node).length := by
      rw [List.length_append, List.length_append, hcountLength, hlength]
    rw [hsame] at hrest hholds
    rw [hnext] at hrest
    have hroom : ¬ data.length < pre.length + 4 + 8 * names.length * (script.outcomes node).length := by
      rw [← hsame, List.length_append, hnext]
      omega
    refine ⟨((script.outcomes node).length, pre.length + 4) :: rest, ?_, fun i other hother => ?_⟩
    . rw [List.length_cons, scriptRows, hcountAt]
      dsimp only
      rw [if_neg hroom, hrest]
      rfl
    . cases i with
      | zero =>
        cases hother
        refine ⟨pre.length + 4, rfl, fun k value hvalue => ?_⟩
        rcases hshows (pre ++ count) (others ++ post) k value hvalue with ⟨hplain, hrow⟩
        have hsame' : pre ++ count ++ (rows ++ (others ++ post)) = data := by
          rw [← hdata]
          simp only [List.append_assoc]
        rw [hsame', List.length_append, hcountLength] at hrow
        exact ⟨hplain, hrow.mono hintern'⟩
      | succ i => exact hholds i other hother

/-- What the interpreter makes of the script it is given. -/
theorem encodeScript_spec {py : Predicates.Runtime} {img : FlowImage} {script : Script} {bytes : List UInt8}
    (h : encodeScript py img script = .ok bytes)
    : ∃ pool rows, img.table.intern <+: pool ∧ u32? bytes 0 = some img.nodes.length
        ∧ scriptRows bytes img.table.fields.length img.nodes.length 4 = .ok rows
        ∧ Holds py pool img.table.fields script bytes img.names rows := by
  unfold encodeScript at h
  rcases Except.bind_eq_ok.mp h with ⟨⟨file, img'⟩, hfile, h⟩
  cases h
  rcases StateT.bind_eq_ok.mp hfile with ⟨head, img₁, hhead, h⟩
  rcases StateT.bind_eq_ok.mp h with ⟨nodes, img₂, hnodes, h⟩
  cases h
  rcases packing_ok hhead with ⟨hpack, rfl⟩
  rcases reads_pack32 hpack with ⟨hlength, hreads⟩
  rcases encodeNodes_spec hnodes with ⟨hintern, hrows⟩
  rcases hrows head [] with ⟨rows, hrows, hholds⟩
  have hcount : img.names.length = img.nodes.length := List.length_map _
  rw [List.append_nil, hlength, hcount] at hrows
  rw [List.append_nil] at hholds
  refine ⟨_, rows, hintern, ?_, hrows, hholds⟩
  exact hreads [] nodes

/-- What the interpreter makes of the registers it is given. -/
theorem encodeRegs_spec {img : TableImage} {ctx : Predicates.Ctx} {node : Nat} {bytes : List UInt8}
    (h : encodeRegs img ctx node = .ok bytes)
    : bytes.length = 4 + 8 * img.fields.length ∧ u32? bytes 0 = some node
        ∧ ∃ pool, img.intern <+: pool ∧ Shows pool ctx img.fields (registers bytes 4) := by
  unfold encodeRegs at h
  rcases Except.bind_eq_ok.mp h with ⟨⟨file, img'⟩, hfile, h⟩
  cases h
  rcases StateT.bind_eq_ok.mp hfile with ⟨head, img₁, hhead, h⟩
  rcases StateT.bind_eq_ok.mp h with ⟨row, img₂, hrow, h⟩
  cases h
  rcases packing_ok hhead with ⟨hpack, rfl⟩
  rcases reads_pack32 hpack with ⟨hlength, hreads⟩
  rcases encodeRow_spec hrow with ⟨hintern, hrowLength, hshows⟩
  refine ⟨by rw [List.length_append, hlength, hrowLength], hreads [] row, _, hintern, ?_⟩
  have hrow := hshows head []
  rw [List.append_nil, hlength] at hrow
  exact hrow

end PptCompile
