import PrismPath.Hw.PptInterpRun
import PrismPath.Hw.PptPynq
import PrismPath.Hw.TargetAgreement

/-!
This module contains the agreement of the interpreter circuit with the reference interpreter, on an image the driver has
loaded whose programs leave one result on the stack, and the bound on the clocks of an evaluation that validation gives
with an image: it counts the edges in the table, and validation does not check that the edges a node names are there.
-/

open Bytes TableFormat Evaluator PptPynq Clocked

namespace PptInterp

/-- The register file as the reference interpreter is given it. -/
def regs (p : Params) (core : Core) (useVisits : Bool) (node : BitVec 16) (field : Nat) : Reg :=
  let (ty, val) := register p core useVisits node (BitVec.ofNat 16 field)
  ⟨ty.toNat, val.toInt⟩

/- The comparator. -/

theorem isNum_eq
    : ∀ ty : BitVec 2, isNum ty = isNumeric (ty.toNat : ℤ) := by
  decide

theorem eq_tyStr
    : ∀ ty : BitVec 2, decide (ty = tyStr) = decide ((ty.toNat : ℤ) = Evaluator.tyStr) := by
  decide

theorem eq_tyNone
    : ∀ ty : BitVec 2, decide (ty = tyNone) = decide ((ty.toNat : ℤ) = Evaluator.tyNone) := by
  decide

theorem decide_eq_toInt (v w : BitVec 32)
    : decide (v = w) = decide (v.toInt = w.toInt) := by
  rw [decide_eq_decide]
  exact BitVec.toInt_inj.symm

theorem atomTrue_eq {p : Params} {core : Core} {i : Nat} {atom : Atom} (hi : port p.maxAtoms (BitVec.ofNat 16 i) = i)
    (hfield : core.atomField i = BitVec.ofNat 16 atom.field) (hop : core.atomOp i = BitVec.ofNat 8 atom.op)
    (hty : core.atomTy i = BitVec.ofNat 2 atom.ty) (hval : core.atomVal i = BitVec.ofInt 32 atom.val)
    (hopLt : atom.op < 2 ^ 8) (htyLt : atom.ty < 4) (hvalGe : -2 ^ 31 ≤ atom.val) (hvalLt : atom.val < 2 ^ 31)
    (useVisits : Bool) (node : BitVec 16)
    : atomTrue p core useVisits node (BitVec.ofNat 16 i) = compare atom (regs p core useVisits node atom.field) := by
  have hopNat : (BitVec.ofNat 8 atom.op).toNat = atom.op := by
    rw [BitVec.toNat_ofNat, Nat.mod_eq_of_lt hopLt]
  have htyNat : (BitVec.ofNat 2 atom.ty).toNat = atom.ty := by
    rw [BitVec.toNat_ofNat, Nat.mod_eq_of_lt htyLt]
  have hvalInt : (BitVec.ofInt 32 atom.val).toInt = atom.val :=
    BitVec.toInt_ofInt_eq_self (by decide) (by omega) (by omega)
  unfold atomTrue regs Evaluator.compare same
  simp only [hi, hfield, hop, hty, hval, hopNat]
  generalize register p core useVisits node (BitVec.ofNat 16 atom.field) = reg
  rcases reg with ⟨rty, rv⟩
  have hnone : decide (rty ≠ tyNone) = decide ((rty.toNat : ℤ) ≠ Evaluator.tyNone) := by
    rw [decide_not, decide_not, eq_tyNone]
  have hzero : decide (rv ≠ 0) = decide (rv.toInt ≠ 0) := by
    rw [decide_not, decide_not, decide_eq_toInt]
    rfl
  simp only [isNum_eq, htyNat, eq_tyStr, eq_tyNone, decide_eq_toInt, hvalInt, hnone, hzero, BitVec.slt, BitVec.sle]
  all_goals rfl

/- The stack: the host's is the top of the circuit's shift register. -/

section

variable {p : Params} {core : Core} {useVisits : Bool} {node : BitVec 16} {t : Tables} {limit : Nat}
variable {stack stack' stk : List Bool}

/-- The comparator agrees on every atom of the tables. -/
def AtomsAgree (p : Params) (core : Core) (useVisits : Bool) (node : BitVec 16) (t : Tables) : Prop :=
  ∀ i < 2 ^ 15, ∀ atom, t.atom i = some atom →
    atomTrue p core useVisits node (BitVec.ofNat 16 i) = compare atom (regs p core useVisits node atom.field)

theorem prefix_push (b : Bool) (hstack : stack <+: stk) (hlen : stk.length = p.stackD)
    (hroom : stack.length < p.stackD)
    : b :: stack <+: pushBit p b stk ∧ (pushBit p b stk).length = p.stackD := by
  constructor
  . refine List.prefix_take_iff.mpr ⟨(List.prefix_cons_inj b).mpr hstack, ?_⟩
    rw [List.length_cons]
    omega
  . rw [pushBit, List.length_take, List.length_cons]
    omega

theorem prefix_foldTop (f : Bool → Bool → Bool) {a b : Bool} (hstack : b :: a :: stack <+: stk)
    : f a b :: stack <+: foldTop f stk ∧ (foldTop f stk).length = stk.length := by
  rcases hstack with ⟨rest, rfl⟩
  refine ⟨⟨rest ++ [false], ?_⟩, ?_⟩
  . simp only [foldTop, List.cons_append, List.append_assoc]
  . simp only [foldTop, List.cons_append, List.length_cons, List.length_append, List.length_nil]

theorem execWord_atom {word : Nat} (hlow : word < 0x8000) (stk : List Bool)
    : execWord p core useVisits node (BitVec.ofNat 16 word) stk =
        pushBit p (atomTrue p core useVisits node (BitVec.ofNat 16 word)) stk := by
  refine if_pos ?_
  rw [BitVec.lt_def, BitVec.toNat_ofNat, Nat.mod_eq_of_lt (by omega)]
  exact hlow

theorem evalAtom_agree (hatoms : AtomsAgree p core useVisits node t) {word : Nat} (hlow : word < 0x8000) {b : Bool}
    (heval : evalAtom t (regs p core useVisits node) word = .ok b)
    : atomTrue p core useVisits node (BitVec.ofNat 16 word) = b := by
  unfold evalAtom at heval
  cases hatom : t.atom word with
  | none =>
    rw [hatom] at heval
    cases heval
  | some atom =>
    rw [hatom] at heval
    dsimp only at heval
    split at heval
    . cases heval
      exact hatoms word hlow atom hatom
    . cases heval

/-- A push that does not overflow the host's stack. -/
theorem prefix_pushed {b : Bool} (hlimit : limit ≤ p.stackD) (heval : push limit b stack = .ok stack')
    (hstack : stack <+: stk) (hlen : stk.length = p.stackD)
    : stack' <+: pushBit p b stk ∧ (pushBit p b stk).length = p.stackD := by
  rcases push_cases limit b stack with ⟨hroom, hok⟩ | ⟨_, herror⟩
  . rw [hok] at heval
    cases heval
    exact prefix_push b hstack hlen (by omega)
  . rw [herror] at heval
    cases heval

theorem prefix_folded (f : Bool → Bool → Bool)
    (heval : (match stack with
      | b :: a :: stack => .ok (f a b :: stack)
      | _ => .error .underflow : Except Evaluator.Fault (List Bool)) = .ok stack')
    (hstack : stack <+: stk) (hlen : stk.length = p.stackD)
    : stack' <+: foldTop f stk ∧ (foldTop f stk).length = p.stackD := by
  split at heval
  . cases heval
    rw [← hlen]
    exact prefix_foldTop f hstack
  . cases heval

theorem prefix_execWord (hatoms : AtomsAgree p core useVisits node t) {word : Nat} (hlimit : limit ≤ p.stackD)
    (heval : evalWord t (regs p core useVisits node) limit stack word = .ok stack') (hstack : stack <+: stk)
    (hlen : stk.length = p.stackD)
    : stack' <+: execWord p core useVisits node (BitVec.ofNat 16 word) stk
        ∧ (execWord p core useVisits node (BitVec.ofNat 16 word) stk).length = p.stackD := by
  unfold evalWord at heval
  split at heval
  . next hlow =>
    split at heval
    . cases heval
    . next hroom =>
      rw [execWord_atom hlow]
      cases hatom : evalAtom t (regs p core useVisits node) word with
      | error fault =>
        rw [hatom] at heval
        cases heval
      | ok b =>
        rw [hatom] at heval
        cases heval
        rw [evalAtom_agree hatoms hlow hatom]
        exact prefix_push b hstack hlen (by omega)
  . split at heval
    . next hop =>
      rw [hop]
      split at heval
      . next b rest =>
        cases heval
        rcases hstack with ⟨lost, rfl⟩
        exact ⟨⟨lost, rfl⟩, hlen⟩
      . cases heval
    . split at heval
      . next hop =>
        rw [hop]
        exact prefix_folded and heval hstack hlen
      . split at heval
        . next hop =>
          rw [hop]
          exact prefix_folded or heval hstack hlen
        . split at heval
          . next hop =>
            rw [hop]
            exact prefix_pushed hlimit heval hstack hlen
          . split at heval
            . next hop =>
              rw [hop]
              exact prefix_pushed hlimit heval hstack hlen
            . cases heval

/-- The words of a program are where the circuit fetches them. -/
def WordsAt (p : Params) (core : Core) (node : BitVec 16) (i k off cnt : Nat) (t : Tables) : Prop :=
  ∀ j < cnt, ∀ word, t.word (off + j) = some word → wordAt p core node i (k + j) = BitVec.ofNat 16 word

/-- A program on both machines, from a stack of the host on. -/
theorem prefix_stackAfter (hatoms : AtomsAgree p core useVisits node t) (hlimit : limit ≤ p.stackD) {i off k cnt : Nat}
    {b : Bool} (hwords : WordsAt p core node i k off cnt t)
    (heval : evalProg t (regs p core useVisits node) limit off cnt stack = .ok b) (hstack : stack <+: stk)
    (hlen : stk.length = p.stackD)
    : ∃ stack', stack' <+: stackAfter p core useVisits node i cnt k stk ∧ b = stack'.getLast?.getD false
        ∧ finalDepth limit stack.length ((List.range' off cnt).filterMap t.word) = some stack'.length := by
  induction cnt generalizing off k stack stk with
  | zero =>
    cases heval
    exact ⟨stack, hstack, rfl, rfl⟩
  | succ cnt ih =>
    rw [evalProg] at heval
    rw [List.range'_succ, List.filterMap_cons]
    cases hword : t.word off with
    | none =>
      rw [hword] at heval
      cases heval
    | some word =>
      rw [hword] at heval
      dsimp only at heval ⊢
      cases hstep : evalWord t (regs p core useVisits node) limit stack word with
      | error fault =>
        rw [hstep] at heval
        cases heval
      | ok stack₁ =>
        rw [hstep] at heval
        have hfetch := hwords 0 (by omega) word hword
        rcases prefix_execWord hatoms hlimit hstep hstack hlen with ⟨hstack₁, hlen₁⟩
        rw [← hfetch, Nat.add_zero] at hstack₁ hlen₁
        have hdepth : depthAfter limit stack.length word = some stack₁.length := by
          rcases evalWord_depth (known_of_evalWord hstep) (regs p core useVisits node) limit stack
            with ⟨stack₂, hok, hdepth⟩ | ⟨fault, herror, _⟩
          . rw [hstep] at hok
            cases hok
            exact hdepth
          . rw [hstep] at herror
            cases herror
        have hrest : WordsAt p core node i (k + 1) (off + 1) cnt t := by
          intro j hj word' hword'
          have hshift := hwords (j + 1) (by omega) word' (by rw [← hword']; congr 1; omega)
          rw [← hshift]
          congr 1
          omega
        rw [finalDepth, hdepth]
        exact ih hrest heval hstack₁ hlen₁

end

/- The tables of a loaded image. -/

/-- The memories hold an image that fits them, each of its atoms of one of the four types. -/
structure Loaded (p : Params) (core : Core) (image : Interp.Image) : Prop where
  encoded : Encoded image
  fits : Fits p image
  holds : Holds core image
  atomTy : ∀ (i : Nat) (atom : Atom), image.atoms[i]? = some atom → atom.ty < 4

section

variable {p : Params} {core : Core} {useVisits : Bool} {node : BitVec 16} {image : Interp.Image}

theorem lt_of_getElem? {α : Type} {records : List α} {i : Nat} {record : α} (h : records[i]? = some record)
    : i < records.length :=
  (List.getElem?_eq_some_iff.mp h).1

theorem Loaded.atomsAgree (h : Loaded p core image) (useVisits : Bool) (node : BitVec 16)
    : AtomsAgree p core useVisits node image.tables := by
  intro i _ atom hatom
  have hlt := lt_of_getElem? hatom
  have hport := port_of_lt (hlt.trans_le h.fits.atoms) (hlt.trans h.encoded.atoms)
  rcases h.holds.atom i atom hatom with ⟨hfield, hop, hty, hval⟩
  rcases h.encoded.atom i atom hatom with ⟨_, hopLt, hvalGe, hvalLt⟩
  exact atomTrue_eq hport hfield hop hty hval hopLt (h.atomTy i atom hatom) hvalGe hvalLt useVisits node

theorem Loaded.nodeRecord {n : Node} (h : Loaded p core image) (hnode : image.nodes[node.toNat]? = some n)
    : edgeCount p core node = n.edgeCnt
        ∧ core.nodeEoff (port p.maxNodes node) = BitVec.ofNat 16 n.edgeOff := by
  have hlt := lt_of_getElem? hnode
  have hport : port p.maxNodes node = node.toNat := by
    have hself := port_of_lt (hlt.trans_le h.fits.nodes) node.isLt
    rwa [BitVec.ofNat_toNat, BitVec.setWidth_eq] at hself
  rcases h.holds.node _ n hnode with ⟨hoff, hcnt⟩
  rw [edgeCount, hport, hoff, hcnt, BitVec.toNat_ofNat]
  exact ⟨Nat.mod_eq_of_lt (h.encoded.node _ n hnode).2, rfl⟩

theorem Loaded.edgeAddr {n : Node} {edge : Edge} {i : Nat} (h : Loaded p core image)
    (hnode : image.nodes[node.toNat]? = some n) (hedge : image.edges[n.edgeOff + i]? = some edge)
    : PptInterp.edgeAddr p core node i = n.edgeOff + i := by
  have hlt := lt_of_getElem? hedge
  rw [PptInterp.edgeAddr, (h.nodeRecord hnode).2, ← BitVec.ofNat_add]
  exact port_of_lt (hlt.trans_le h.fits.edges) (hlt.trans h.encoded.edges)

theorem Loaded.wordsAt {n : Node} {edge : Edge} {i : Nat} (h : Loaded p core image)
    (hnode : image.nodes[node.toNat]? = some n) (hedge : image.edges[n.edgeOff + i]? = some edge)
    : WordsAt p core node i 0 edge.progOff edge.progCnt image.tables := by
  intro j _ word hword
  have hlt := lt_of_getElem? hword
  rw [wordAt, h.edgeAddr hnode hedge, (h.holds.edge _ edge hedge).2.1, ← BitVec.ofNat_add, Nat.zero_add,
    port_of_lt (hlt.trans_le h.fits.prog) (hlt.trans h.encoded.prog)]
  exact h.holds.word _ word hword

theorem Loaded.runLength {n : Node} {edge : Edge} {i : Nat} (h : Loaded p core image)
    (hnode : image.nodes[node.toNat]? = some n) (hedge : image.edges[n.edgeOff + i]? = some edge)
    : PptInterp.runLength p core node i = max edge.progCnt 1 := by
  rw [PptInterp.runLength, h.edgeAddr hnode hedge, (h.holds.edge _ edge hedge).2.2, BitVec.toNat_ofNat,
    Nat.mod_eq_of_lt (h.encoded.edge _ edge hedge).2.2]

/-- The operand stack of the circuit and the interpreter's. -/
def stackLimit (p : Params) : Nat :=
  min p.stackD Interp.stackMax

/-- The program of the edge keeps both stacks between empty and full, and leaves one result. -/
def LeavesOne (p : Params) (t : Tables) (edge : Edge) : Prop :=
  finalDepth (stackLimit p) 0 (program t edge) = some 1

theorem evalProg_at_limit {t : Tables} {regs : Nat → Reg} {edge : Edge} {b : Bool} (hone : LeavesOne p t edge)
    (heval : evalProg t regs Interp.stackMax edge.progOff edge.progCnt [] = .ok b)
    : evalProg t regs (stackLimit p) edge.progOff edge.progCnt [] = .ok b := by
  have hknown := ((evalProg_isOk_iff ..).mp ⟨b, heval⟩).1
  have hsafe : stackSafe (stackLimit p) 0 (program t edge) = true := (stackSafe_iff ..).mpr ⟨1, hone⟩
  rcases (evalProg_isOk_iff t regs (stackLimit p) edge.progOff edge.progCnt []).mpr ⟨hknown, hsafe⟩ with ⟨b', hb'⟩
  have hmono := evalProg_mono (Nat.min_le_right ..) hb'
  rw [heval] at hmono
  cases hmono
  exact hb'

theorem Loaded.edgeResult {n : Node} {edge : Edge} {i : Nat} {b : Bool} (h : Loaded p core image)
    (hnode : image.nodes[node.toNat]? = some n) (hedge : image.edges[n.edgeOff + i]? = some edge)
    (hone : LeavesOne p image.tables edge)
    (heval : evalProg image.tables (regs p core useVisits node) Interp.stackMax edge.progOff edge.progCnt [] = .ok b)
    : edgeResult p core useVisits node i = b := by
  have hlength : PptInterp.runLength p core node i = edge.progCnt := by
    rw [h.runLength hnode hedge]
    refine Nat.max_eq_left (Nat.one_le_iff_ne_zero.mpr fun hzero => ?_)
    -- a program without words leaves nothing
    rw [LeavesOne, program, hzero] at hone
    cases hone
  rcases prefix_stackAfter (h.atomsAgree useVisits node) (Nat.min_le_left ..) (h.wordsAt hnode hedge)
    (evalProg_at_limit hone heval) (List.nil_prefix) (List.length_replicate) with ⟨stack, ⟨lost, hstack⟩, hb, hdepth⟩
  rw [LeavesOne, stackLimit, program] at hone
  rw [List.length_nil, hone, Option.some.injEq] at hdepth
  rcases List.length_eq_one_iff.mp hdepth.symm with ⟨top, rfl⟩
  rw [PptInterp.edgeResult, hlength, ← hstack, hb]
  rfl

/-- The first true edge is the edge the interpreter finds. -/
theorem Loaded.firstTrue {n : Node} (h : Loaded p core image) (hnode : image.nodes[node.toNat]? = some n)
    (hone : ∀ edge ∈ image.edges, LeavesOne p image.tables edge) {cnt index : Nat} {found : Option Nat}
    (hfirst : firstMatch image.tables (regs p core useVisits node) Interp.stackMax n.edgeOff cnt index = .ok found)
    : PptInterp.firstTrue p core useVisits node cnt index = found
        ∧ ∀ i, found = some i → ∃ edge, image.edges[n.edgeOff + i]? = some edge := by
  induction cnt generalizing index with
  | zero =>
    cases hfirst
    exact ⟨rfl, fun i hi => by cases hi⟩
  | succ cnt ih =>
    rw [firstMatch] at hfirst
    rw [PptInterp.firstTrue]
    cases hedge : image.tables.edge (n.edgeOff + index) with
    | none =>
      rw [hedge] at hfirst
      cases hfirst
    | some edge =>
      simp only [hedge] at hfirst
      cases heval : evalProg image.tables (regs p core useVisits node) Interp.stackMax edge.progOff edge.progCnt [] with
      | error fault =>
        rw [heval] at hfirst
        cases hfirst
      | ok b =>
        rw [heval] at hfirst
        rw [h.edgeResult hnode hedge (hone edge (List.mem_of_getElem? hedge)) heval]
        cases b with
        | true =>
          cases hfirst
          refine ⟨rfl, fun i hi => ?_⟩
          cases hi
          exact ⟨edge, hedge⟩
        | false => exact ih hfirst

end

theorem loaded_of_validateImage {p : Params} {data : List UInt8} {caps : Python.Value} {image : Interp.Image}
    (hvalid : PolicyPack.validateImage data caps = .ok []) (himage : Interp.loadImage data = some image)
    (hfits : Fits p image) (core : Core)
    : Loaded p ((loadImage image).foldl (loadWord p) core) image where
  encoded := encoded_of_loadImage himage
  fits := hfits
  holds := holds_loadImage (encoded_of_loadImage himage) hfits core
  atomTy i atom hatom := by
    rcases ImageSafety.atomTy_of_validateImage hvalid with ⟨header, hvalidated, hty⟩
    rcases ImageSafety.described_of_validated hvalidated with ⟨words, hwords⟩
    rcases TargetAgreement.tables_of_loadImage himage with ⟨words', hread, htables⟩
    rw [hwords.read] at hread
    cases hread
    have hatom' : image.tables.atom i = some atom := hatom
    simp only [htables, ImageSafety.imageTables] at hatom'
    split at hatom'
    . next hi => exact hty i (hwords.atoms ▸ hi) atom hatom'
    . cases hatom'

/-- What the interpreter's result is on the outputs of the circuit. -/
structure Shows (image : Interp.Image) (node : Nat) (result : ℤ) (s : Fsm) : Prop where
  done : s.done = true
  miss : result = -1 → s.matched = false
  hit : ∀ i : Nat, result = i → s.matched = true ∧ s.matchEdge.toNat = i ∧ ∃ n edge,
    image.nodes[node]? = some n ∧ image.edges[n.edgeOff + i]? = some edge ∧ s.target.toNat = edge.target

theorem Loaded.shows {p : Params} {core : Core} {image : Interp.Image} {node : BitVec 16} {n : Node}
    {found : Option Nat} {s : Fsm} (h : Loaded p core image) (hnode : image.nodes[node.toNat]? = some n)
    (hsome : ∀ i, found = some i → i < n.edgeCnt ∧ ∃ edge, image.edges[n.edgeOff + i]? = some edge)
    (hfinished : Finished p core node found s)
    : Shows image node.toNat (found.elim (-1) fun index => (index : ℤ)) s where
  done := hfinished.done
  miss hmiss := by
    rw [hfinished.matched]
    cases found with
    | none => rfl
    | some index => simp at hmiss
  hit i hi := by
    cases found with
    | none => simp at hi
    | some index =>
      have hindex : index = i := by simpa using hi
      rw [hindex] at hfinished hsome
      rcases hsome i rfl with ⟨hlt, edge, hedge⟩
      rcases hfinished.edge i rfl with ⟨hmatch, htarget⟩
      have hcnt := (h.encoded.node _ n hnode).2
      refine ⟨hfinished.matched, ?_, n, edge, hnode, hedge, ?_⟩
      . rw [hmatch, BitVec.toNat_ofNat, Nat.mod_eq_of_lt (by omega)]
      . rw [htarget, h.edgeAddr hnode hedge, (h.holds.edge _ edge hedge).1, BitVec.toNat_ofNat,
          Nat.mod_eq_of_lt (h.encoded.edge _ edge hedge).1]

/--
The circuit ends every evaluation the interpreter ends, with its result: on a validated image that fits the core,
whose programs each leave one result on the stack.
-/
theorem evaluation_agrees (p : Params) (data : List UInt8) (caps : Python.Value) (image : Interp.Image) (core : Core)
    (useVisits : Bool) (node : BitVec 16) (result : ℤ) (s : Fsm)
    (hvalid : PolicyPack.validateImage data caps = .ok []) (himage : Interp.loadImage data = some image)
    (hfits : Fits p image) (hone : ∀ edge ∈ image.edges, LeavesOne p image.tables edge)
    (hresult :
      let core := (loadImage image).foldl (loadWord p) core
      Interp.evaluate image node.toNat (regs p core useVisits node) = .ok result)
    (hidle : s.st = .idle)
    : let core := (loadImage image).foldl (loadWord p) core
      ∃ k t, Arrives (tick p core useVisits) quiet k (started p core useVisits node s) t
        ∧ Shows image node.toNat result t := by
  intro core'
  have hloaded : Loaded p core' image := loaded_of_validateImage hvalid himage hfits core
  rcases evaluation p core' useVisits node s hidle with ⟨t, harrives, hfinished⟩
  refine ⟨_, t, harrives, ?_⟩
  dsimp only at hresult
  unfold Interp.evaluate Evaluator.evaluate at hresult
  cases hnode : image.tables.node node.toNat with
  | none =>
    rw [hnode] at hresult
    cases hresult
  | some n =>
    rw [hnode] at hresult
    dsimp only at hresult
    cases hfirst : firstMatch image.tables (regs p core' useVisits node) Interp.stackMax n.edgeOff n.edgeCnt 0 with
    | error fault =>
      rw [hfirst] at hresult
      cases hresult
    | ok found =>
      rw [hfirst] at hresult
      cases hresult
      rcases hloaded.firstTrue hnode hone hfirst with ⟨htrue, hedges⟩
      rw [(hloaded.nodeRecord hnode).1, htrue] at hfinished
      have hlt : ∀ i, found = some i → i < n.edgeCnt := by
        intro i hi
        rcases firstMatch_cases hfirst with ⟨hnone, _⟩ | ⟨j, hj, hsome, _⟩
        . rw [hnone] at hi
          cases hi
        . rw [hsome] at hi
          cases hi
          omega
      have hshows := hloaded.shows hnode (fun i hi => ⟨hlt i hi, hedges i hi⟩) hfinished
      cases found with
      | none => exact hshows
      | some index => exact hshows

/- One edge, and its program: one result, no word, two results. -/

def oneEdgeImage (progCnt : Nat) (prog : List Nat) : Interp.Image :=
  ⟨0, 0, 65535, 25, 1, [], [⟨0, 1⟩], [⟨0, 0, progCnt⟩], prog⟩

def blank : Core :=
  ⟨0, fun _ => 0, fun _ => 0, fun _ => 0, fun _ => 0, fun _ => 0, fun _ => 0, fun _ => 0, fun _ => 0, fun _ => 0,
    fun _ => 0, fun _ => 0, fun _ => 0, fun _ => 0⟩

def idle : Fsm :=
  ⟨.idle, 0, 0, 0, [], false, false, false, false, 0, 0⟩

def oneEdgeCore (progCnt : Nat) (prog : List Nat) : Core :=
  (loadImage (oneEdgeImage progCnt prog)).foldl (loadWord {}) blank

theorem fits_oneEdgeImage (progCnt : Nat) {prog : List Nat} (hprog : prog.length ≤ 256)
    : Fits {} (oneEdgeImage progCnt prog) :=
  ⟨Nat.zero_le _, Nat.zero_le _, (by decide : 1 ≤ 16), (by decide : 1 ≤ 48), hprog⟩

theorem evaluation_agrees_oneEdge
    : ∃ k t, Arrives (tick {} (oneEdgeCore 1 [0x8003]) false) quiet k (started {} (oneEdgeCore 1 [0x8003]) false 0 idle) t
        ∧ Shows (oneEdgeImage 1 [0x8003]) 0 0 t :=
  evaluation_agrees {} ImageSafety.oneEdge (.dict PolicyPack.defaultCaps) (oneEdgeImage 1 [0x8003]) blank false 0 0 idle
    (by with_unfolding_all decide) rfl (fits_oneEdgeImage 1 (by decide)) (by unfold LeavesOne; with_unfolding_all decide) rfl rfl

def emptyProgram : List UInt8 :=
  [80, 80, 84, 77, 1, 0, 0, 0, 1, 0, 0, 0, 1, 0, 1, 0, 1, 0, 0, 0, 255, 255, 25, 0, 1, 0, 0, 0, 0, 0, 1, 0,
    0, 0, 0, 0, 0, 0, 3, 128]

def twoResults : List UInt8 :=
  [80, 80, 84, 77, 1, 0, 0, 0, 1, 0, 0, 0, 1, 0, 1, 0, 2, 0, 0, 0, 255, 255, 25, 0, 1, 0, 0, 0, 0, 0, 1, 0,
    0, 0, 0, 0, 2, 0, 3, 128, 4, 128]

/-- On one edge the circuit hits exactly when its program leaves true on top. -/
theorem shows_oneEdge {data : List UInt8} {progCnt : Nat} {prog : List Nat} {result : ℤ} {k : Nat} {t : Fsm}
    (hvalid : PolicyPack.validateImage data .none = .ok [])
    (himage : Interp.loadImage data = some (oneEdgeImage progCnt prog)) (hprog : prog.length ≤ 256)
    (harrives : Arrives (tick {} (oneEdgeCore progCnt prog) false) quiet k
      (started {} (oneEdgeCore progCnt prog) false 0 idle) t)
    (hshows : Shows (oneEdgeImage progCnt prog) 0 result t)
    : t.matched = edgeResult {} (oneEdgeCore progCnt prog) false 0 0 := by
  have hloaded := loaded_of_validateImage hvalid himage (fits_oneEdgeImage progCnt hprog) blank
  rcases evaluation {} (oneEdgeCore progCnt prog) false 0 idle rfl with ⟨t', harrives', hfinished⟩
  have hcount : edgeCount {} (oneEdgeCore progCnt prog) 0 = 1 := (hloaded.nodeRecord (n := ⟨0, 1⟩) rfl).1
  have hsame : t = t' := by
    refine (harrives.unique harrives' (fun h => ?_) fun h => ?_).2
    . rw [quiet, hshows.done] at h
      cases h
    . rw [quiet, hfinished.done] at h
      cases h
  rw [hcount, ← hsame] at hfinished
  rw [hfinished.matched, firstTrue]
  cases edgeResult {} (oneEdgeCore progCnt prog) false 0 0 <;> rfl

/-- The agreement, asked of every validated image that fits and whose programs are stack-safe and as `more` says. -/
def StackSafeAgrees (more : Edge → Prop) : Prop :=
  ∀ (p : Params) (data : List UInt8) (caps : Python.Value) (image : Interp.Image) (core : Core) (useVisits : Bool)
    (node : BitVec 16) (result : ℤ) (s : Fsm),
    PolicyPack.validateImage data caps = .ok [] → Interp.loadImage data = some image → Fits p image →
    (∀ edge ∈ image.edges, stackSafe (stackLimit p) 0 (program image.tables edge) = true ∧ more edge) →
    let core := (loadImage image).foldl (loadWord p) core
    Interp.evaluate image node.toNat (regs p core useVisits node) = .ok result → s.st = .idle →
      ∃ k t, Arrives (tick p core useVisits) quiet k (started p core useVisits node s) t
        ∧ Shows image node.toNat result t

/--
A program without words is false to the interpreter, and the word at its offset to the circuit; of two results, the
interpreter reads the first that was pushed and the circuit the last.
-/
theorem stackSafe_disagrees
    : ¬ StackSafeAgrees (fun _ => True) ∧ ¬ StackSafeAgrees fun edge => 0 < edge.progCnt := by
  constructor
  . intro hclaim
    have hvalid : PolicyPack.validateImage emptyProgram .none = .ok [] := by with_unfolding_all decide
    have himage : Interp.loadImage emptyProgram = some (oneEdgeImage 0 [0x8003]) := rfl
    rcases hclaim {} emptyProgram .none (oneEdgeImage 0 [0x8003]) blank false 0 (-1) idle hvalid himage
      (fits_oneEdgeImage 0 (by decide)) (by with_unfolding_all decide) rfl rfl with ⟨k, t, harrives, hshows⟩
    have hmatched := shows_oneEdge hvalid himage (by decide) harrives hshows
    have htrue : edgeResult {} (oneEdgeCore 0 [0x8003]) false 0 0 = true := by
      with_unfolding_all decide
    rw [hshows.miss rfl, htrue] at hmatched
    cases hmatched
  . intro hclaim
    have hvalid : PolicyPack.validateImage twoResults .none = .ok [] := by with_unfolding_all decide
    have himage : Interp.loadImage twoResults = some (oneEdgeImage 2 [0x8003, 0x8004]) := rfl
    rcases hclaim {} twoResults .none (oneEdgeImage 2 [0x8003, 0x8004]) blank false 0 0 idle hvalid himage
      (fits_oneEdgeImage 2 (by decide)) (by with_unfolding_all decide) rfl rfl with ⟨k, t, harrives, hshows⟩
    have hmatched := shows_oneEdge hvalid himage (by decide) harrives hshows
    have hfalse : edgeResult {} (oneEdgeCore 2 [0x8003, 0x8004]) false 0 0 = false := by
      with_unfolding_all decide
    rw [(hshows.hit 0 rfl).1, hfalse] at hmatched
    cases hmatched

end PptInterp

open Bytes TableFormat Evaluator PptPynq Clocked PolicyPack

namespace PptInterp

section

variable {p : Params} {core : Core} {useVisits : Bool} {node : BitVec 16} {image : Interp.Image} {data : List UInt8}

/-- The bound, from the records of the image. -/
def imageCycles (image : Interp.Image) : Nat :=
  (image.nodes.map fun node =>
    edgeCycles (((image.edges.map Edge.progCnt).drop node.edgeOff).take node.edgeCnt)).foldl max 0

theorem wcetCycles_eq {header : Header} (hvalid : ImageSafety.Validated data header)
    (himage : Interp.loadImage data = some image)
    : wcetCycles data = .ok (imageCycles image) := by
  rcases ImageSafety.described_of_validated hvalid with ⟨words, hwords⟩
  rcases ImageSafety.offsets_of_described hwords with hoffsets
  unfold Interp.loadImage at himage
  rcases Option.bind_eq_some_iff.mp himage with ⟨words', hread, h⟩
  rw [hwords.read] at hread
  cases hread
  dsimp only at h
  split at h
  . cases h
  . rcases Option.bind_eq_some_iff.mp h with ⟨atoms, hatoms, h⟩
    rcases Option.bind_eq_some_iff.mp h with ⟨nodes, hnodes, h⟩
    rcases Option.bind_eq_some_iff.mp h with ⟨edges, hedges, h⟩
    rcases Option.bind_eq_some_iff.mp h with ⟨prog, hprog, h⟩
    cases h
    have hnodes' : (List.range header.nodes).mapM (fun i => nodeAt? data (header.nodesOff + nodeSize * i)) = some nodes := by
      rw [← hnodes, Interp.readRecords, hwords.nodes, Header.nodesOff, hwords.atoms]
    have hedges' : (List.range header.edges).mapM (fun i => edgeAt? data (header.edgesOff + edgeSize * i)) = some edges := by
      rw [← hedges, Interp.readRecords, hwords.edges, Header.edgesOff, Header.nodesOff, hwords.atoms, hwords.nodes]
    unfold wcetCycles
    simp only [hvalid.parsed, hnodes', hedges', imageCycles]

theorem le_foldl_max (l : List Nat) (m : Nat)
    : m ≤ l.foldl max m ∧ ∀ x ∈ l, x ≤ l.foldl max m := by
  induction l generalizing m with
  | nil => exact ⟨Nat.le_refl m, fun x hx => by cases hx⟩
  | cons y l ih =>
    rcases ih (max m y) with ⟨hle, hall⟩
    refine ⟨(Nat.le_max_left m y).trans hle, fun x hx => ?_⟩
    rcases List.mem_cons.mp hx with rfl | hmem
    . exact (Nat.le_max_right m x).trans hle
    . exact hall x hmem

theorem edgeCycles_le_imageCycles {n : Node} {i : Nat} (hnode : image.nodes[i]? = some n)
    : edgeCycles (((image.edges.map Edge.progCnt).drop n.edgeOff).take n.edgeCnt) ≤ imageCycles image :=
  (le_foldl_max _ 0).2 _ (List.mem_map.mpr ⟨n, List.mem_of_getElem? hnode, rfl⟩)

/- The edges that are tried. -/

theorem tried_le (p : Params) (core : Core) (useVisits : Bool) (node : BitVec 16) (n i : Nat)
    : tried p core useVisits node n i ≤ n := by
  induction n generalizing i with
  | zero => exact Nat.le_refl 0
  | succ n ih =>
    rw [tried]
    split
    . omega
    . exact Nat.add_le_add_right (ih (i + 1)) 1

/-- Every edge that is tried comes after false ones only. -/
theorem false_before_tried (p : Params) (core : Core) (useVisits : Bool) (node : BitVec 16) (n i : Nat) {j : Nat}
    (hj : j < tried p core useVisits node n i)
    : ∀ k < j, edgeResult p core useVisits node (i + k) = false := by
  induction n generalizing i j with
  | zero => cases hj
  | succ n ih =>
    rw [tried] at hj
    intro k hk
    split at hj
    . omega
    . next hfalse =>
      cases k with
      | zero => exact Bool.eq_false_of_not_eq_true hfalse
      | succ k =>
        have hnext := ih (i + 1) (j := j - 1) (by omega) k (by omega)
        rwa [Nat.add_assoc, Nat.add_comm 1 k] at hnext

/-- The clocks of edges that lie in the table are part of the sum the bound is made of. -/
theorem Loaded.edgesCycles_le {n : Node} (h : Loaded p core image) (hnode : image.nodes[node.toNat]? = some n)
    {m : Nat} (hm : m ≤ n.edgeCnt) (hedges : ∀ i < m, n.edgeOff + i < image.edges.length)
    : edgesCycles p core node m 0 + 2
        ≤ edgeCycles (((image.edges.map Edge.progCnt).drop n.edgeOff).take n.edgeCnt) := by
  have hlist : (List.range' 0 m).map (fun j => 2 + PptInterp.runLength p core node j) =
      ((((image.edges.map Edge.progCnt).drop n.edgeOff).take n.edgeCnt).map fun progCnt => 2 + max progCnt 1).take m := by
    refine List.ext_getElem? fun i => ?_
    by_cases hi : i < m
    . rcases List.getElem?_eq_some_iff.mpr ⟨hedges i hi, rfl⟩ with hedge
      have hcnt : i < n.edgeCnt := by omega
      rw [List.getElem?_take_of_lt hi, List.getElem?_map, List.getElem?_map, List.getElem?_take_of_lt hcnt,
        List.getElem?_drop, List.getElem?_map, hedge, List.getElem?_range' hi, Option.map_some, Option.map_some,
        Option.map_some, Nat.zero_add, Nat.one_mul, h.runLength hnode hedge]
    . rw [List.getElem?_eq_none, List.getElem?_eq_none]
      . exact (List.length_take_le ..).trans (Nat.le_of_not_lt hi)
      . rw [List.length_map, List.length_range']
        exact Nat.le_of_not_lt hi
  rw [edgesCycles, edgeCycles, hlist]
  exact Nat.add_le_add_right ((List.take_sublist ..).sum_le_sum fun _ _ => Nat.zero_le _) 2

/-- The edges of the node, up to the first that is true, are in the edge table. -/
def EdgesInTable (p : Params) (core : Core) (useVisits : Bool) (node : BitVec 16) (image : Interp.Image) (n : Node)
    : Prop :=
  ∀ i < n.edgeCnt, (∀ j < i, edgeResult p core useVisits node j = false) → n.edgeOff + i < image.edges.length

theorem Loaded.cycles_le {n : Node} (h : Loaded p core image) (hnode : image.nodes[node.toNat]? = some n)
    (hedges : EdgesInTable p core useVisits node image n)
    : cycles p core useVisits node ≤ imageCycles image := by
  refine Nat.le_trans ?_ (edgeCycles_le_imageCycles hnode)
  have hcount := (h.nodeRecord hnode).1
  unfold cycles
  split
  . exact Nat.le_add_left ..
  . rw [hcount]
    have hm := tried_le p core useVisits node n.edgeCnt 0
    have hinTable : ∀ i < tried p core useVisits node n.edgeCnt 0, n.edgeOff + i < image.edges.length := by
      intro i hi
      refine hedges i (by omega) fun j hj => ?_
      have hfalse := false_before_tried p core useVisits node n.edgeCnt 0 hi j hj
      rwa [Nat.zero_add] at hfalse
    have hle := h.edgesCycles_le hnode hm hinTable
    omega

end

/--
The bound holds on a validated image that fits the core, at a node whose edges lie in the table as far as they are
tried.
-/
theorem cycles_le_wcetCycles (p : Params) (data : List UInt8) (caps : Python.Value) (image : Interp.Image) (core : Core)
    (useVisits : Bool) (node : BitVec 16) (n : Node) (s : Fsm) (hvalid : validateImage data caps = .ok [])
    (himage : Interp.loadImage data = some image) (hfits : Fits p image) (hnode : image.nodes[node.toNat]? = some n)
    (hedges : EdgesInTable p ((loadImage image).foldl (loadWord p) core) useVisits node image n) (hidle : s.st = .idle)
    : let core := (loadImage image).foldl (loadWord p) core
      ∃ wcet, wcetCycles data = .ok wcet ∧ ∃ k ≤ wcet, ∃ t,
        Arrives (tick p core useVisits) quiet k (started p core useVisits node s) t ∧ t.done = true := by
  intro core'
  rcases ImageSafety.validated_of_validateImage hvalid with ⟨header, hvalidated⟩
  have hloaded : Loaded p core' image := loaded_of_validateImage hvalid himage hfits core
  rcases evaluation p core' useVisits node s hidle with ⟨t, harrives, hfinished⟩
  exact ⟨_, wcetCycles_eq hvalidated himage, _, hloaded.cycles_le hnode hedges, t, harrives, hfinished.done⟩

theorem cycles_le_wcetCycles_oneEdge
    : ∃ wcet, wcetCycles ImageSafety.oneEdge = .ok wcet ∧ ∃ k ≤ wcet, ∃ t,
        Arrives (tick {} (oneEdgeCore 1 [0x8003]) false) quiet k (started {} (oneEdgeCore 1 [0x8003]) false 0 idle) t
          ∧ t.done = true :=
  cycles_le_wcetCycles {} ImageSafety.oneEdge (.dict defaultCaps) (oneEdgeImage 1 [0x8003]) blank false 0 ⟨0, 1⟩ idle
    (by with_unfolding_all decide) rfl (fits_oneEdgeImage 1 (by decide)) rfl
    (fun i hi _ => by simpa [oneEdgeImage] using hi) rfl

/-- One node, and a false edge in the table; the node names two. -/
def edgeBeyond : List UInt8 :=
  [80, 80, 84, 77, 1, 0, 0, 0, 1, 0, 0, 0, 1, 0, 1, 0, 1, 0, 0, 0, 255, 255, 25, 0, 1, 0, 0, 0, 0, 0, 2, 0,
    0, 0, 0, 0, 1, 0, 4, 128]

def edgeBeyondImage : Interp.Image :=
  ⟨0, 0, 65535, 25, 1, [], [⟨0, 2⟩], [⟨0, 0, 1⟩], [0x8004]⟩

theorem edge_beyond_exceeds
    : ¬ ∀ (p : Params) (data : List UInt8) (caps : Python.Value) (image : Interp.Image) (core : Core) (useVisits : Bool)
        (node : BitVec 16) (s : Fsm), validateImage data caps = .ok [] → Interp.loadImage data = some image →
        Fits p image → node.toNat < image.nodes.length → s.st = .idle →
        let core := (loadImage image).foldl (loadWord p) core
        ∃ wcet, wcetCycles data = .ok wcet ∧ ∃ k ≤ wcet, ∃ t,
          Arrives (tick p core useVisits) quiet k (started p core useVisits node s) t ∧ t.done = true := by
  intro hclaim
  have hfits : Fits {} edgeBeyondImage := ⟨by decide, by decide, by decide, by decide, by decide⟩
  rcases hclaim {} edgeBeyond .none edgeBeyondImage blank false 0 idle (by with_unfolding_all decide) rfl hfits (by decide) rfl
    with ⟨wcet, hwcet, k, hk, t, harrives, hdone⟩
  have hbound : wcetCycles edgeBeyond = .ok 5 := by with_unfolding_all decide
  rw [hbound] at hwcet
  cases hwcet
  rcases evaluation {} ((loadImage edgeBeyondImage).foldl (loadWord {}) blank) false 0 idle rfl
    with ⟨t', harrives', hfinished⟩
  have hcycles : cycles {} ((loadImage edgeBeyondImage).foldl (loadWord {}) blank) false 0 = 6 := by
    with_unfolding_all decide
  have hsame := (harrives.unique harrives' (fun h => ?_) fun h => ?_).1
  . omega
  . rw [quiet, hdone] at h
    cases h
  . rw [quiet, hfinished.done] at h
    cases h

end PptInterp
