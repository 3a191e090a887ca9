import PrismPath.Ebpf.KernelEvalLemmas

/-!
This module contains when the kernel and the host take the same edge. Both run a program the same way, and the checks on
an image keep every program within the bounds; what differs is how many fields of a packet they believe. An evaluation
looks up the entries of its image and no others.
-/

open TableFormat Evaluator PptImage

namespace PptKernel

/-- The kernel's matched edge and target, over maps a loader packed the image into. -/
def kernelAnswer (hash : List UInt8 → Nat) (im : Image) (m : Maps) (regs : Nat → Reg) (fields index : Nat)
    : Option (Nat × Nat) :=
  Reading.run ((populateMaps hash im m).lookup 1) (evaluate regs fields 0 index)

/-- The register file as the host is given it: a register for each field of the image. -/
def hostRegs (im : Image) (regs : Nat → Reg) (fields : Nat) : List Reg :=
  (List.range im.fields).map (kernelView regs fields)

/-- An answer that no bound on a loop, no mask of an index and no end of the stack had a part in. -/
def Unclamped (im : Image) (regs : Nat → Reg) (fields index : Nat) (answer : Option (Nat × Nat)) : Prop :=
  ∃ node result, im.nodes[index]? = some node
    ∧ Evaluator.evaluate im.tables (kernelView regs fields) stackMax index = .ok result
    ∧ answer = withTarget im node.edgeOff result

def Agrees (hash : List UInt8 → Nat) (im : Image) (m : Maps) (regs : Nat → Reg) (fields index : Nat) : Prop :=
  Unclamped im regs fields index (kernelAnswer hash im m regs fields index)
    ∧ evaluateHost im index (hostRegs im regs fields) = .ok (kernelAnswer hash im m regs fields index)

/-- The fields of an image, and nothing past them. -/
def ownView (im : Image) (view : Nat → Reg) (field : Nat) : Reg :=
  if field < im.fields then view field else absent

/-- No edge of the node, up to the first that the image's own fields make true, is decided otherwise by a field past them. -/
def DecidedByOwnFields (im : Image) (view : Nat → Reg) (node : Node) : Prop :=
  ∀ i < node.edgeCnt, (∀ j < i, ¬ EdgeTrue im.tables (ownView im view) stackMax (node.edgeOff + j)) →
    (EdgeTrue im.tables (ownView im view) stackMax (node.edgeOff + i)
      ↔ EdgeTrue im.tables view stackMax (node.edgeOff + i))

theorem hostView_hostRegs (im : Image) (regs : Nat → Reg) (fields : Nat)
    : hostView im (hostRegs im regs fields) = ownView im (kernelView regs fields) := by
  funext field
  unfold hostView ownView hostRegs
  split
  . next hfield => simp [hfield]
  . rfl

/-- An image gives a packet one answer. -/
theorem unclamped_unique {im : Image} {regs : Nat → Reg} {fields index : Nat} {a b : Option (Nat × Nat)}
    (ha : Unclamped im regs fields index a) (hb : Unclamped im regs fields index b)
    : a = b := by
  rcases ha with ⟨node, result, hnode, hresult, rfl⟩
  rcases hb with ⟨node', result', hnode', hresult', rfl⟩
  rw [hnode] at hnode'
  rw [hresult] at hresult'
  cases hnode'
  cases hresult'
  rfl

/-- Two register files take the same edge exactly when they agree on each edge up to the first that is true. -/
theorem firstMatch_eq_iff {t : Tables} {regs regs' : Nat → Reg} {stackMax edgeOff cnt : Nat} {result result' : Option Nat}
    (h : firstMatch t regs stackMax edgeOff cnt 0 = .ok result)
    (h' : firstMatch t regs' stackMax edgeOff cnt 0 = .ok result')
    : result = result' ↔
        ∀ i < cnt, (∀ j < i, ¬ EdgeTrue t regs stackMax (edgeOff + j)) →
          (EdgeTrue t regs stackMax (edgeOff + i) ↔ EdgeTrue t regs' stackMax (edgeOff + i)) := by
  have hcases := firstMatch_cases h
  have hcases' := firstMatch_cases h'
  simp only [Nat.zero_add] at hcases hcases'
  rcases hcases with ⟨rfl, hall⟩ | ⟨k, hk, rfl, htrue, hall⟩
  . rcases hcases' with ⟨rfl, hall'⟩ | ⟨k', hk', rfl, htrue', _⟩
    . exact iff_of_true rfl fun i hi _ => iff_of_false (hall i hi) (hall' i hi)
    . refine iff_of_false (by simp) fun heq => ?_
      exact hall k' hk' ((heq k' hk' fun j hj => hall j (by omega)).mpr htrue')
  . rcases hcases' with ⟨rfl, hall'⟩ | ⟨k', hk', rfl, htrue', hall'⟩
    . refine iff_of_false (by simp) fun heq => ?_
      exact hall' k hk ((heq k hk hall).mp htrue)
    . rw [Option.some.injEq]
      constructor
      . rintro rfl i _ hbefore
        rcases Nat.lt_trichotomy i k with hlt | rfl | hgt
        . exact iff_of_false (hall i hlt) (hall' i hlt)
        . exact iff_of_true htrue htrue'
        . exact absurd htrue (hbefore k hgt)
      . intro heq
        rcases Nat.lt_trichotomy k k' with hlt | heq' | hgt
        . exact absurd ((heq k hk hall).mp htrue) (hall' k hlt)
        . exact heq'
        . have hsame := heq k' hk' fun j hj => hall j (by omega)
          exact absurd (hsame.mpr htrue') (hall k' hgt)

/-- An edge that was found is in the table, so it and its target are told apart from any other. -/
theorem withTarget_inj {im : Image} {edgeOff cnt : Nat} (hcnt : edgeOff + cnt ≤ im.edges.length) {r r' : Option Nat}
    (hr : ∀ i, r = some i → i < cnt) (hr' : ∀ i, r' = some i → i < cnt)
    : withTarget im edgeOff r = withTarget im edgeOff r' ↔ r = r' := by
  refine ⟨fun h => ?_, congrArg _⟩
  have hfound {s : Option Nat} (hs : ∀ i, s = some i → i < cnt)
      : (withTarget im edgeOff s).map Prod.fst = s := by
    cases s with
    | none => rfl
    | some i =>
      have := hs i rfl
      simp only [withTarget, Option.bind_some]
      rw [List.getElem?_eq_getElem (by omega)]
      rfl
  rw [← hfound hr, h, hfound hr']

theorem lt_of_firstMatch {t : Tables} {regs : Nat → Reg} {stackMax edgeOff cnt : Nat} {result : Option Nat}
    (h : firstMatch t regs stackMax edgeOff cnt 0 = .ok result)
    : ∀ i, result = some i → i < cnt := by
  rcases firstMatch_cases h with ⟨rfl, _⟩ | ⟨k, hk, rfl, _⟩
  . simp
  . intro i hi
    cases hi
    omega

section

variable {im : Image} (him : Accepted im) {index : Nat} {node : Node} (hnode : im.nodes[index]? = some node)
  (regs : Nat → Reg) (fields : Nat)
include him hnode

/-- Over a bank that holds the image, the kernel answers without reaching a clamp. -/
theorem unclamped_run {m : Maps} {banks bank : Nat} (hholds : Holds m bank im) (hbank : bank < banks) (htwo : banks ≤ 2)
    : Unclamped im regs fields index (Reading.run (m.lookup banks) (evaluate regs fields bank index)) := by
  rcases him.firstMatch_isOk (List.mem_of_getElem? hnode) (kernelView regs fields) with ⟨result, hmatch⟩
  have htable : im.tables.node index = some node := hnode
  refine ⟨node, result, hnode, ?_, run_evaluate hholds him hbank htwo regs fields hnode hmatch⟩
  rw [Evaluator.evaluate, htable]
  exact hmatch

theorem unclamped_kernelAnswer (hash : List UInt8 → Nat) (m : Maps)
    : Unclamped im regs fields index (kernelAnswer hash im m regs fields index) :=
  unclamped_run him hnode regs fields (holds_of_populateMaps hash im m) Nat.zero_lt_one one_le_two

theorem evaluateHost_eq
    : ∃ result, firstMatch im.tables (ownView im (kernelView regs fields)) stackMax node.edgeOff node.edgeCnt 0
          = .ok result
        ∧ evaluateHost im index (hostRegs im regs fields) = .ok (withTarget im node.edgeOff result) := by
  rcases him.firstMatch_isOk (List.mem_of_getElem? hnode) (ownView im (kernelView regs fields)) with ⟨result, hresult⟩
  have hlength : im.fields ≤ (hostRegs im regs fields).length := by simp [hostRegs]
  refine ⟨result, hresult, ?_⟩
  rw [← hostView_hostRegs] at hresult
  simp only [evaluateHost, hnode]
  exact firstMatchHost_of_firstMatch hlength hresult

end

/--
Over every accepted image and register file, the kernel answers as the host does exactly where the fields past the
image's own decide nothing.
-/
theorem agrees_iff_decidedByOwnFields (hash : List UInt8 → Nat) (m : Maps) (data : List UInt8) (im : Image)
    (hparse : parseImageBuf data = some im) (index : Nat) (node : Node) (hnode : im.nodes[index]? = some node)
    (regs : Nat → Reg) (fields : Nat)
    : Agrees hash im m regs fields index ↔ DecidedByOwnFields im (kernelView regs fields) node := by
  have him := accepted_of_parse hparse
  have hunclamped := unclamped_kernelAnswer him hnode regs fields hash m
  rcases hunclamped with ⟨node', kernel, hnode', hkernel, hanswer⟩
  rw [hnode] at hnode'
  cases hnode'
  have htable : im.tables.node index = some node := hnode
  rw [Evaluator.evaluate, htable] at hkernel
  rcases evaluateHost_eq him hnode regs fields with ⟨host, hhost, heval⟩
  have hedges := (him.node (List.mem_of_getElem? hnode)).2
  have hinj := withTarget_inj hedges (lt_of_firstMatch hhost) (lt_of_firstMatch hkernel)
  unfold Agrees DecidedByOwnFields
  rw [and_iff_right (unclamped_kernelAnswer him hnode regs fields hash m), heval, hanswer, Except.ok.injEq, hinj]
  exact firstMatch_eq_iff hhost hkernel

/-- One field, and a node whose only edge asks whether field 1 is truthy. -/
def foreignField : List UInt8 :=
  [0x50, 0x50, 0x54, 0x4D, 1, 0, 1, 0, 0, 0, 1, 0, 1, 0, 1, 0, 1, 0, 0, 0, 0xFF, 0xFF, 4, 0, 1, 0, 0, 0]
    ++ [1, 0, 6, 0, 0, 0, 0, 0] ++ [0, 0, 1, 0] ++ [0, 0, 0, 0, 1, 0] ++ [0, 0]

def foreignImage : Image :=
  (parseImageBuf foreignField).get (by with_unfolding_all decide)

theorem parse_foreignField
    : parseImageBuf foreignField = some foreignImage :=
  (Option.some_get _).symm

def noMaps : Maps
  | .atom _ => (⟨0, 0, 0, 0⟩ : Atom)
  | .node _ => (⟨0, 0⟩ : Node)
  | .edge _ => (⟨0, 0, 0⟩ : Edge)
  | .word _ => (0 : Nat)
  | .config _ => (⟨0, 0, 0, 0, 0, 0, 0, 0, 0, 0, 0, 0, 0⟩ : Config)

/-- A packet of two fields takes an edge in the kernel that the host does not take. -/
theorem kernel_takes_foreign_field
    : ¬ ∀ (hash : List UInt8 → Nat) (m : Maps) (data : List UInt8) (im : Image), parseImageBuf data = some im →
        ∀ index < im.nodes.length, ∀ (regs : Nat → Reg) (fields : Nat), Agrees hash im m regs fields index := by
  intro hclaim
  have hagree := hclaim (fun _ => 0) noMaps foreignField foreignImage parse_foreignField 0 (by with_unfolding_all decide)
    (fun _ => ⟨tyInt, 1⟩) 2
  have hkernel : kernelAnswer (fun _ => 0) foreignImage noMaps (fun _ => ⟨tyInt, 1⟩) 2 0 = some (0, 0) := by
    with_unfolding_all decide
  have hhost : evaluateHost foreignImage 0 (hostRegs foreignImage (fun _ => ⟨tyInt, 1⟩) 2) = .ok none := by
    rfl
  rw [Agrees, hkernel, hhost] at hagree
  cases hagree.2

theorem foreignField_agrees_iff
    : Agrees (fun _ => 0) foreignImage noMaps (fun _ => ⟨tyInt, 1⟩) 2 0
        ↔ DecidedByOwnFields foreignImage (kernelView (fun _ => ⟨tyInt, 1⟩) 2) ⟨0, 1⟩ :=
  agrees_iff_decidedByOwnFields (fun _ => 0) noMaps foreignField foreignImage parse_foreignField 0 ⟨0, 1⟩
    (by with_unfolding_all decide) (fun _ => ⟨tyInt, 1⟩) 2

end PptKernel

open TableFormat Evaluator PptImage

namespace PptKernel

/-- The entry is one of the image's, and the maps hold what the image has there. -/
def Wrote (hash : List UInt8 → Nat) (im : Image) (m : Maps) (k : Key) : Prop :=
  ⟨k, m k⟩ ∈ populateWrites hash im

section

variable (hash : List UInt8 → Nat) {m : Maps} {im : Image} (hholds : Holds m 0 im)
include hholds

theorem wrote_atom {i : Nat} {atom : Atom} (h : im.atoms[i]? = some atom)
    : Wrote hash im m (.atom (0 * maxAtoms + i)) := by
  unfold Wrote
  rw [hholds.atom i atom h]
  exact List.mem_cons_of_mem _ (mem_tableWrites.mpr (.inl ⟨i, atom, h, rfl⟩))

theorem wrote_node {i : Nat} {node : Node} (h : im.nodes[i]? = some node)
    : Wrote hash im m (.node (0 * maxNodes + i)) := by
  unfold Wrote
  rw [hholds.node i node h]
  exact List.mem_cons_of_mem _ (mem_tableWrites.mpr (.inr (.inl ⟨i, node, h, rfl⟩)))

theorem wrote_edge {i : Nat} {edge : Edge} (h : im.edges[i]? = some edge)
    : Wrote hash im m (.edge (0 * maxEdges + i)) := by
  unfold Wrote
  rw [hholds.edge i edge h]
  exact List.mem_cons_of_mem _ (mem_tableWrites.mpr (.inr (.inr (.inl ⟨i, edge, h, rfl⟩))))

theorem wrote_word {i : Nat} {word : Nat} (h : im.prog[i]? = some word)
    : Wrote hash im m (.word (0 * maxProgWords + i)) := by
  unfold Wrote
  rw [hholds.word i word h]
  exact List.mem_cons_of_mem _ (mem_tableWrites.mpr (.inr (.inr (.inr ⟨i, word, h, rfl⟩))))

end

/-- A loop looks up only what its callback does in the states it passes through. -/
theorem readsOnly_bpfLoop {σ : Type} {store : (k : Key) → Row k} {P : Key → Prop} {callback : Nat → σ → Kernel (Bool × σ)}
    {I : σ → Prop}
    (h : ∀ index state, I state →
      Reading.ReadsOnly store P (callback index state) ∧ I (Reading.run store (callback index state)).2)
    (count index : Nat) {state : σ} (hstate : I state)
    : Reading.ReadsOnly store P (bpfLoop callback count index state) := by
  induction count generalizing index state with
  | zero => exact Reading.readsOnly_pure state
  | succ count ih =>
    rcases h index state hstate with ⟨hreads, hafter⟩
    rw [bpfLoop]
    refine hreads.bind ?_
    dsimp only
    split
    . exact Reading.readsOnly_pure _
    . exact ih (index + 1) hafter

/-- The words of the program are the image's, and so are the atoms they name. -/
structure InProgram (im : Image) (state : ProgCtx) : Prop where
  bank : state.bank = 0
  word : ∀ i < state.progCnt, ∃ word, im.prog[state.progOff + i]? = some word ∧
    (word < 0x8000 → ∃ atom, im.atoms[word]? = some atom)

theorem InProgram.same {im : Image} {state state' : ProgCtx} (h : InProgram im state) (hsame : SameProgram state state')
    : InProgram im state' := by
  refine ⟨hsame.bank.trans h.bank, fun i hi => ?_⟩
  rw [hsame.progCnt] at hi
  rw [hsame.progOff]
  exact h.word i hi

theorem inProgram_of_mem {im : Image} (him : Accepted im) {edge : Edge} (hedge : edge ∈ im.edges) (fields : Nat) (st : Nat → Bool) (sp : Nat)
    : InProgram im { progOff := edge.progOff, progCnt := edge.progCnt, fields, bank := 0, st, sp } := by
  refine ⟨rfl, fun i hi => ?_⟩
  rcases him.programKnown hedge i hi with ⟨word, hword, hknown⟩
  refine ⟨word, hword, fun hlt => ?_⟩
  rcases hknown with hop | ⟨_, atom, hatom, _⟩
  . simp only [progOpcodes, List.mem_cons, List.not_mem_nil, or_false] at hop
    rcases hop with rfl | rfl | rfl | rfl | rfl <;> exact absurd hlt (by decide)
  . exact ⟨atom, hatom⟩

/-- The edges that are still to be read are the image's. -/
structure InEdges (im : Image) (state : EvalLoopCtx) : Prop where
  bank : state.bank = 0
  edges : state.edgeOff + state.edgeCnt ≤ im.edges.length

section

variable (hash : List UInt8 → Nat) {m : Maps} {im : Image} (hholds : Holds m 0 im) (him : Accepted im)
  (regs : Nat → Reg)
include hholds him

theorem readsOnly_progWordCb (index : Nat) {state : ProgCtx} (hstate : InProgram im state)
    : Reading.ReadsOnly (m.lookup 1) (Wrote hash im m) (progWordCb regs index state)
        ∧ InProgram im (Reading.run (m.lookup 1) (progWordCb regs index state)).2 := by
  unfold progWordCb
  split
  . exact ⟨Reading.readsOnly_pure _, hstate⟩
  . next hindex =>
    rcases hstate.word index (by omega) with ⟨word, hword, hatom⟩
    rcases List.getElem?_eq_some_iff.mp hword with ⟨hoff, _⟩
    have hcap := Nat.lt_of_lt_of_le hoff him.prog
    have hlookup : Reading.ReadsOnly (m.lookup 1) (Wrote hash im m) (lookupWord 0 (state.progOff + index)) := by
      rw [lookupWord, bankBase_add Nat.zero_lt_one one_le_two hcap]
      exact Reading.readsOnly_get (wrote_word hash hholds hword)
    rw [hstate.bank, Reading.run_bind, run_lookupWord hholds him Nat.zero_lt_one one_le_two hword]
    dsimp only
    split
    . next hlt =>
      rcases hatom hlt with ⟨atom, hatom⟩
      rcases List.getElem?_eq_some_iff.mp hatom with ⟨hidx, _⟩
      have hcap' := Nat.lt_of_lt_of_le hidx him.atoms
      have hrun := run_lookupAtom hholds him Nat.zero_lt_one one_le_two hatom
      refine ⟨hlookup.bind ?_, ?_⟩
      . rw [run_lookupWord hholds him Nat.zero_lt_one one_le_two hword]
        dsimp only
        rw [if_pos hlt]
        refine Reading.ReadsOnly.bind ?_ ?_
        . rw [lookupAtom, bankBase_add Nat.zero_lt_one one_le_two hcap']
          exact Reading.readsOnly_get (wrote_atom hash hholds hatom)
        . rw [hrun]
          exact Reading.readsOnly_pure _
      . rw [Reading.run_bind, hrun]
        exact hstate.same (sameProgram_push state _)
    . next hop =>
      refine ⟨hlookup.bind ?_, hstate.same (sameProgram_operate state word)⟩
      rw [run_lookupWord hholds him Nat.zero_lt_one one_le_two hword]
      dsimp only
      rw [if_neg hop]
      exact Reading.readsOnly_pure _

theorem readsOnly_evalProg {edge : Edge} (hedge : edge ∈ im.edges) (fields : Nat)
    : Reading.ReadsOnly (m.lookup 1) (Wrote hash im m) (evalProg regs fields 0 edge) := by
  have hcnt := (him.edge hedge).1
  unfold evalProg
  rw [Nat.min_eq_left hcnt]
  refine Reading.ReadsOnly.bind ?_ (Reading.readsOnly_pure _)
  exact readsOnly_bpfLoop (fun index _ hstate => readsOnly_progWordCb hash hholds him regs index hstate) _ _
    (inProgram_of_mem him hedge ..)

theorem readsOnly_edgeLoopCb (index : Nat) {state : EvalLoopCtx} (hstate : InEdges im state)
    : Reading.ReadsOnly (m.lookup 1) (Wrote hash im m) (edgeLoopCb regs index state)
        ∧ InEdges im (Reading.run (m.lookup 1) (edgeLoopCb regs index state)).2 := by
  unfold edgeLoopCb
  split
  . exact ⟨Reading.readsOnly_pure _, hstate⟩
  . next hindex =>
    have hoff : state.edgeOff + index < im.edges.length := by
      have := hstate.edges
      omega
    have hcap := Nat.lt_of_lt_of_le hoff him.edges
    have hedge := List.getElem?_eq_getElem hoff
    have hrun := run_lookupEdge hholds him Nat.zero_lt_one one_le_two hedge
    rw [hstate.bank]
    refine ⟨Reading.ReadsOnly.bind ?_ ?_, ?_⟩
    . rw [lookupEdge, bankBase_add Nat.zero_lt_one one_le_two hcap]
      exact Reading.readsOnly_get (wrote_edge hash hholds hedge)
    . rw [hrun]
      refine (readsOnly_evalProg hash hholds him regs (List.getElem_mem hoff) _).bind ?_
      split <;> exact Reading.readsOnly_pure _
    . rw [Reading.run_bind, hrun]
      dsimp only
      rw [Reading.run_bind]
      split
      . exact ⟨rfl, hstate.edges⟩
      . exact hstate

/-- An evaluation that starts at a node of the image looks up nothing but what the image wrote. -/
theorem readsOnly_evaluate (fields : Nat) {index : Nat} (hindex : index < im.nodes.length)
    : Reading.ReadsOnly (m.lookup 1) (Wrote hash im m) (evaluate regs fields 0 index) := by
  have hcap := Nat.lt_of_lt_of_le hindex him.nodes
  have hnode := List.getElem?_eq_getElem hindex
  rcases him.node (List.getElem_mem hindex) with ⟨hcnt, hoff⟩
  unfold evaluate
  refine Reading.ReadsOnly.bind ?_ ?_
  . rw [lookupNode, bankBase_add Nat.zero_lt_one one_le_two hcap]
    exact Reading.readsOnly_get (wrote_node hash hholds hnode)
  . rw [run_lookupNode hholds him Nat.zero_lt_one one_le_two hnode]
    dsimp only
    rw [Nat.min_eq_left hcnt]
    refine Reading.ReadsOnly.bind ?_ (Reading.readsOnly_pure _)
    exact readsOnly_bpfLoop (fun index _ hstate => readsOnly_edgeLoopCb hash hholds him regs index hstate) _ _
      ⟨rfl, hoff⟩

end

end PptKernel
