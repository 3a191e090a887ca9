import PrismPath.Hw.VectorFiles
import PrismPath.Kernel.EdgeFindings

/-!
This module contains that a serialized flow routes like the engine: under the registers of an outcome the interpreter
takes, at every node, the edge that the engine's deterministic tier takes on that outcome.
-/

open Python Bytes TableFormat

namespace Evaluator

/-- A program that stands in the table is run word by word. -/
theorem evalProg_eq {t : Tables} {regs : Nat → Reg} {stackMax : Nat} {words : List Nat} {off : Nat}
    (hwords : ∀ k, k < words.length → t.word (off + k) = words[k]?) (stack : List Bool)
    : evalProg t regs stackMax off words.length stack
        = (PptCompile.runWords t regs stackMax stack words).map fun stack => stack.getLast?.getD false := by
  induction words generalizing off stack with
  | nil => rfl
  | cons word words ih =>
    have hfirst := hwords 0 (Nat.zero_lt_succ _)
    have hrest : ∀ k, k < words.length → t.word (off + 1 + k) = words[k]? := by
      intro k hk
      have hnext := hwords (k + 1) (Nat.succ_lt_succ hk)
      rw [Nat.add_assoc, Nat.add_comm 1 k]
      exact hnext
    rw [Nat.add_zero] at hfirst
    rw [List.length_cons, evalProg, PptCompile.runWords, hfirst]
    dsimp only [List.getElem?_cons_zero]
    cases evalWord t regs stackMax stack word with
    | error fault => rfl
    | ok stack' => exact ih hrest stack'

/-- The first edge whose program is true, when none before it ends in a fault. -/
theorem firstMatch_eq {t : Tables} {regs : Nat → Reg} {stackMax edgeOff : Nat} (truths : List Bool) (index : Nat)
    (h : ∀ j b, truths[j]? = some b → ∃ edge, t.edge (edgeOff + (index + j)) = some edge
      ∧ evalProg t regs stackMax edge.progOff edge.progCnt [] = .ok b)
    : firstMatch t regs stackMax edgeOff truths.length index = .ok ((truths.findIdx? id).map (index + ·)) := by
  induction truths generalizing index with
  | nil => rfl
  | cons b truths ih =>
    rcases h 0 b rfl with ⟨edge, hedge, hprog⟩
    have hrest := ih (index + 1) fun j b hb => by
      have hnext := h (j + 1) b hb
      rw [Nat.add_assoc, Nat.add_comm 1 j]
      exact hnext
    rw [Nat.add_zero] at hedge
    rw [List.length_cons, firstMatch, hedge]
    dsimp only
    rw [hprog, List.findIdx?_cons]
    cases b with
    | true => rfl
    | false =>
      dsimp only [id]
      rw [hrest, if_neg Bool.false_ne_true, Option.map_map]
      congr 2
      funext k
      exact (Nat.add_right_comm index 1 k).trans (Nat.add_assoc index k 1)

end Evaluator

namespace PptCompile

open Evaluator (Reg)

/- The tables that are loaded. -/

/-- The edges of a node stand one after the other in the edge table. -/
theorem getElem?_nodeRecords (pre : List (Nat × List Nat)) {nodes : List (String × List (Nat × List Nat))} {i : Nat}
    {node : String × List (Nat × List Nat)} (h : nodes[i]? = some node)
    : ∃ off, (nodeRecords pre.length nodes)[i]? = some ⟨off, node.2.length⟩
        ∧ ∀ j, j < node.2.length → (pre ++ nodes.flatMap Prod.snd)[off + j]? = node.2[j]? := by
  induction nodes generalizing pre i with
  | nil => cases h
  | cons head nodes ih =>
    rcases head with ⟨name, edges⟩
    cases i with
    | zero =>
      cases h
      refine ⟨pre.length, rfl, fun j hj => ?_⟩
      rw [List.getElem?_append_right (Nat.le_add_right _ _), Nat.add_sub_cancel_left, List.flatMap_cons,
        List.getElem?_append_left hj]
    | succ i =>
      rcases ih (pre ++ edges) h with ⟨off, hrecord, hedges⟩
      rw [List.length_append] at hrecord
      rw [List.append_assoc] at hedges
      exact ⟨off, hrecord, hedges⟩

/-- The words of an edge stand one after the other in the program table. -/
theorem getElem?_edgeRecords (pre : List Nat) {edges : List (Nat × List Nat)} {i : Nat} {edge : Nat × List Nat}
    (h : edges[i]? = some edge)
    : ∃ off, (edgeRecords pre.length edges)[i]? = some ⟨edge.1, off, edge.2.length⟩
        ∧ ∀ k, k < edge.2.length → (pre ++ edges.flatMap Prod.snd)[off + k]? = edge.2[k]? := by
  induction edges generalizing pre i with
  | nil => cases h
  | cons head edges ih =>
    rcases head with ⟨target, prog⟩
    cases i with
    | zero =>
      cases h
      refine ⟨pre.length, rfl, fun k hk => ?_⟩
      rw [List.getElem?_append_right (Nat.le_add_right _ _), Nat.add_sub_cancel_left, List.flatMap_cons,
        List.getElem?_append_left hk]
    | succ i =>
      rcases ih (pre ++ prog) h with ⟨off, hrecord, hwords⟩
      rw [List.length_append] at hrecord
      rw [List.append_assoc] at hwords
      exact ⟨off, hrecord, hwords⟩

/-- The tables of a serialized image. -/
def FlowImage.loaded (img : FlowImage) (maxStack : Nat) : Interp.Image where
  fields := img.table.fields.length
  start := img.start
  visitsIdx := (img.table.fields.idxOf? "visits").getD visitsNone
  maxSteps := img.maxSteps
  maxStack := maxStack
  atoms := img.table.atoms
  nodes := nodeRecords 0 img.nodes
  edges := edgeRecords 0 img.edges
  prog := img.edges.flatMap Prod.snd

/-- A program of the image tells a truth of every context. -/
def Tells (img : FlowImage) (prog : List Nat) (b : Predicates.Ctx → Bool) : Prop :=
  Pushes img.table prog Interp.stackMax b

section Matched

variable {img : FlowImage} {maxStack : Nat} {regs : Nat → Reg} {ctx : Predicates.Ctx}

/-- The program of an edge, as the interpreter finds it. -/
theorem evalProg_loaded (hready : Ready img.table (img.loaded maxStack).tables regs ctx) {i : Nat} {target : Nat}
    {prog : List Nat} (hedge : img.edges[i]? = some (target, prog)) {b : Predicates.Ctx → Bool} (htells : Tells img prog b)
    : ∃ edge, (img.loaded maxStack).edges[i]? = some edge ∧ edge.target = target
        ∧ Evaluator.evalProg (img.loaded maxStack).tables regs Interp.stackMax edge.progOff edge.progCnt []
          = .ok (b ctx) := by
  rcases getElem?_edgeRecords [] hedge with ⟨off, hrecord, hwords⟩
  refine ⟨_, hrecord, rfl, ?_⟩
  have hrun := htells img.table _ regs ctx (Grows.refl _) hready Interp.stackMax [] (Nat.le_of_eq (Nat.zero_add _))
  dsimp only
  rw [Evaluator.evalProg_eq hwords, hrun]
  rfl

/-- The interpreter takes the first edge of a node whose truth holds. -/
theorem matched_loaded (hready : Ready img.table (img.loaded maxStack).tables regs ctx) {i : Nat} {name : String}
    {edges : List (Nat × List Nat)} (hnode : img.nodes[i]? = some (name, edges))
    {truths : List (Predicates.Ctx → Bool)} (htells : List.Forall₂ (fun edge b => Tells img edge.2 b) edges truths)
    : Interp.matched (img.loaded maxStack) i regs
        = .ok ((truths.findIdx? fun b => b ctx).bind fun j => edges[j]?.map fun edge => (j, edge.1)) := by
  rcases getElem?_nodeRecords [] hnode with ⟨off, hrecord, hedges⟩
  have hlength := htells.length_eq
  have hrecord' : (img.loaded maxStack).nodes[i]? = some ⟨off, edges.length⟩ := hrecord
  -- every edge of the node, with the truth its program tells
  have hedge : ∀ j b, (truths.map fun b => b ctx)[j]? = some b → ∃ edge, (img.loaded maxStack).edges[off + j]? = some edge
      ∧ (∃ prog, edges[j]? = some (edge.target, prog))
      ∧ Evaluator.evalProg (img.loaded maxStack).tables regs Interp.stackMax edge.progOff edge.progCnt [] = .ok b := by
    intro j b hb
    rw [List.getElem?_map] at hb
    rcases Option.map_eq_some_iff.mp hb with ⟨truth, htruth, rfl⟩
    have hj : j < edges.length := by
      rw [hlength]
      exact (List.getElem?_eq_some_iff.mp htruth).1
    have hflat : img.edges[off + j]? = some edges[j] := (hedges j hj).trans (List.getElem?_eq_getElem hj)
    have htell : Tells img edges[j].2 truth := by
      rcases List.getElem?_eq_some_iff.mp htruth with ⟨hj', rfl⟩
      exact List.Forall₂.get htells hj hj'
    rcases evalProg_loaded hready hflat htell with ⟨edge, hread, htarget, heval⟩
    refine ⟨edge, hread, ⟨edges[j].2, ?_⟩, heval⟩
    rw [List.getElem?_eq_getElem hj]
    exact congrArg some (Prod.ext htarget.symm rfl)
  have hfirst : Evaluator.firstMatch (img.loaded maxStack).tables regs Interp.stackMax off edges.length 0
      = .ok (((truths.map fun b => b ctx).findIdx? id).map (0 + ·)) := by
    rw [hlength, ← List.length_map fun b : Predicates.Ctx → Bool => b ctx]
    refine Evaluator.firstMatch_eq _ 0 fun j b hb => ?_
    rcases hedge j b hb with ⟨edge, hread, _, heval⟩
    rw [Nat.zero_add]
    exact ⟨edge, hread, heval⟩
  have heval : Evaluator.evaluate (img.loaded maxStack).tables regs Interp.stackMax i
      = .ok (truths.findIdx? fun b => b ctx) := by
    have hnode' : (img.loaded maxStack).tables.node i = some ⟨off, edges.length⟩ := hrecord'
    rw [Evaluator.evaluate, hnode']
    dsimp only
    rw [hfirst, List.findIdx?_map, Function.id_comp]
    simp only [Nat.zero_add, Option.map_id']
  rw [Interp.matched, Interp.evaluate, heval]
  cases hfind : truths.findIdx? fun b => b ctx with
  | none => rfl
  | some j =>
    have htruth : (truths.map fun b => b ctx)[j]? = some true := by
      rw [List.findIdx?_eq_some_iff_getElem] at hfind
      rcases hfind with ⟨hj, htrue, _⟩
      rw [List.getElem?_map, List.getElem?_eq_getElem hj, Option.map_some, htrue]
    rcases hedge j true htruth with ⟨edge, hread, ⟨prog, hedge⟩, _⟩
    have hnonneg : ¬ (j : ℤ) < 0 := by omega
    simp only [Except.map, hnonneg, if_false, hrecord', Option.bind_some, Int.toNat_natCast, hread, hedge, Option.map_some]

end Matched

/- The edges of a flow. -/

/-- An edge of the table goes where the flow's edge goes, and its program tells what the condition evaluates to. -/
structure Follows (py : Predicates.Runtime) (names : List String) (img : TableImage) (edge : Parser.Edge)
    (compiled : Nat × List Nat) : Prop where
  deterministic : Predicates.isDeterministic edge.condition = true
  target : names.idxOf? edge.target = some compiled.1
  tells : ∃ b : Predicates.Ctx → Bool, Pushes img compiled.2 Interp.stackMax b
    ∧ ∀ ctx, Predicates.evalCondition py edge.condition ctx = .ok (b ctx)

theorem Follows.grow {py : Predicates.Runtime} {names : List String} {img img' : TableImage} {edge : Parser.Edge}
    {compiled : Nat × List Nat} (h : Follows py names img edge compiled) (hgrows : Grows img img')
    : Follows py names img' edge compiled := by
  rcases h.tells with ⟨b, hpushes, heval⟩
  exact ⟨h.deterministic, h.target, b, hpushes.grow hgrows, heval⟩

def deterministicEdges (node : Parser.Node) : List Parser.Edge :=
  node.edges.filter fun edge => Predicates.isDeterministic edge.condition

theorem isDeterministic_of_compileCondition {py : Predicates.Runtime} {cond : String} {img : TableImage}
    {r : List Nat × TableImage} (h : compileCondition py cond img = .ok r)
    : Predicates.isDeterministic cond = true := by
  cases hdet : Predicates.isDeterministic cond with
  | true => rfl
  | false =>
    rw [compileCondition, hdet] at h
    cases h

theorem follows_compileEdges {py : Predicates.Runtime} (hpy : ParsesOperands py) {names : List String}
    {edges : List Parser.Edge} {img img' : TableImage} {compiled : List (Nat × List Nat)}
    (h : compileEdges py names edges img = .ok (compiled, img'))
    : Grows img img' ∧ (∀ edge ∈ edges, Predicates.isSemantic edge.condition = false)
        ∧ List.Forall₂ (Follows py names img') (edges.filter fun edge => Predicates.isDeterministic edge.condition)
          compiled := by
  induction edges generalizing img compiled with
  | nil =>
    cases h
    exact ⟨Grows.refl _, by simp, .nil⟩
  | cons edge edges ih =>
    rw [List.forall_mem_cons, List.filter_cons]
    rw [compileEdges] at h
    split at h
    next hhost =>
      have hdet : Predicates.isDeterministic edge.condition = false := by
        by_contra hdet
        rw [Bool.not_eq_false] at hdet
        rw [Predicates.isError_eq_false hdet, Analysis.isEvent_eq_false_of_isDeterministic hdet] at hhost
        cases hhost
      have hsem : Predicates.isSemantic edge.condition = false := by
        rw [Predicates.isSemantic, hdet]
        cases herror : Predicates.isError edge.condition <;> cases hevent : Predicates.isEvent edge.condition
          <;> simp_all
      rcases ih h with ⟨hgrows, hsems, hfollows⟩
      rw [if_neg (by rw [hdet]; exact Bool.false_ne_true)]
      exact ⟨hgrows, ⟨hsem, hsems⟩, hfollows⟩
    next =>
      split at h
      next => cases h
      next hsem =>
        cases htarget : names.idxOf? edge.target with
        | none =>
          rw [htarget] at h
          cases h
        | some target =>
          rw [htarget] at h
          rcases StateT.bind_eq_ok.mp h with ⟨prog, img₁, hprog, h⟩
          rcases StateT.bind_eq_ok.mp h with ⟨rest, img₂, hrest, h⟩
          cases h
          have hcond := liftCondition_ok hprog
          have hdet := isDeterministic_of_compileCondition hcond
          rcases pushes_compileCondition hpy hcond with ⟨hgrows, htells⟩
          rcases ih hrest with ⟨hgrows', hsems, hfollows⟩
          rw [if_pos hdet]
          have hfirst : Follows py names img₁ edge (target, prog) := ⟨hdet, htarget, htells⟩
          exact ⟨hgrows.trans hgrows', ⟨Bool.not_eq_true _ ▸ hsem, hsems⟩, .cons (hfirst.grow hgrows') hfollows⟩

/-- A node of the image has the edges of the flow's node that are deterministic, and the flow's node no semantic one. -/
structure NodeFollows (py : Predicates.Runtime) (names : List String) (img : TableImage) (node : Parser.Node)
    (compiled : String × List (Nat × List Nat)) : Prop where
  name : compiled.1 = node.name
  semantic : ∀ edge ∈ node.edges, Predicates.isSemantic edge.condition = false
  edges : List.Forall₂ (Follows py names img) (deterministicEdges node) compiled.2

theorem follows_compileNodes {py : Predicates.Runtime} (hpy : ParsesOperands py) {names : List String}
    {nodes : List Parser.Node} {img img' : TableImage} {compiled : List (String × List (Nat × List Nat))}
    (h : compileNodes py names nodes img = .ok (compiled, img'))
    : Grows img img' ∧ List.Forall₂ (NodeFollows py names img') nodes compiled := by
  induction nodes generalizing img compiled with
  | nil =>
    cases h
    exact ⟨Grows.refl _, .nil⟩
  | cons node nodes ih =>
    rw [compileNodes] at h
    rcases StateT.bind_eq_ok.mp h with ⟨edges, img₁, hedges, h⟩
    rcases StateT.bind_eq_ok.mp h with ⟨rest, img₂, hrest, h⟩
    cases h
    rcases follows_compileEdges hpy hedges with ⟨hgrows, hsem, hfollows⟩
    rcases ih hrest with ⟨hgrows', hnodes⟩
    exact ⟨hgrows.trans hgrows', .cons ⟨rfl, hsem, hfollows.imp fun _ _ h => h.grow hgrows'⟩ hnodes⟩

/-- What a compiled flow keeps of the flow. -/
structure FlowFollows (py : Predicates.Runtime) (maxSteps : Nat) (flow : Flow) (img : FlowImage) : Prop where
  grows : Grows .empty img.table
  names : img.names = flow.reachableNodes.map Parser.Node.name
  start : img.names.idxOf? flow.graph.start = some img.start
  maxSteps : img.maxSteps = maxSteps
  nodes : List.Forall₂ (NodeFollows py img.names img.table) flow.reachableNodes img.nodes

theorem follows_compileFlow {py : Predicates.Runtime} (hpy : ParsesOperands py) {isWord : Char → Bool} {maxSteps : Nat}
    {flow : Flow} {img : FlowImage} (h : compileFlow py isWord maxSteps flow = .ok img)
    : FlowFollows py maxSteps flow img := by
  have hnames := (compileFlow_cases h).1
  unfold compileFlow at h
  dsimp only at h
  split at h
  next => cases h
  next start hstart =>
    rcases Except.bind_eq_ok.mp h with ⟨⟨compiled, table⟩, hcompiled, h⟩
    rcases Except.bind_eq_ok.mp h with ⟨_, _, h⟩
    cases h
    rcases follows_compileNodes hpy hcompiled with ⟨hgrows, hnodes⟩
    refine ⟨hgrows, hnames, ?_, rfl, ?_⟩
    . rw [hnames]
      exact hstart
    . rw [hnames]
      exact hnodes

/-- Registers that show a context make the loaded image ready for it. -/
theorem ready_loaded {py : Predicates.Runtime} {isWord : Char → Bool} {maxSteps : Nat} {flow : Flow} {img : FlowImage}
    {data : List UInt8} (hpy : ParsesOperands py) (hcompile : compileFlow py isWord maxSteps flow = .ok img)
    (hserialize : serialize img = some data) (maxStack : Nat) {pool : List String} {ctx : Predicates.Ctx}
    {regs : Nat → Reg} (hpool : img.table.intern <+: pool) (hshows : Shows pool ctx img.table.fields regs)
    : Ready img.table (img.loaded maxStack).tables regs ctx where
  atom := fun _ => rfl
  fields := rfl
  words := atoms_le_opNot hcompile hserialize
  empty := by
    rcases (follows_compileFlow hpy hcompile).grows.intern with ⟨rest, hrest⟩
    rw [← hrest]
    rfl
  shows := by
    refine ⟨pool, hpool, fun i name hname => ?_⟩
    rcases hshows i name hname with ⟨r, hr, hreg⟩
    exact ⟨r, encoded_of_encodeIn hr, hreg⟩

/- The deterministic tier. -/

theorem firstDeterministic_eq (py : Predicates.Runtime) (node : Parser.Node) (ctx : Predicates.Ctx)
    : Engine.firstDeterministic py node.edges ctx
        = (deterministicEdges node).find? fun edge => Predicates.hit py edge.condition ctx := by
  rw [Engine.firstDeterministic, deterministicEdges, List.find?_filter]
  congr 1
  funext edge
  cases Predicates.isDeterministic edge.condition <;> cases Predicates.hit py edge.condition ctx <;> rfl

/-- The match of the interpreter against the edge of the engine, when it is the same. -/
inductive SameEdge (names : List String) (node : Parser.Node) : Option (Nat × Nat) → Option Parser.Edge → Prop
  | none : SameEdge names node none none
  | some {index target : Nat} {edge : Parser.Edge} (hindex : (deterministicEdges node)[index]? = some edge)
      (htarget : names[target]? = some edge.target) : SameEdge names node (some (index, target)) (some edge)

theorem getElem?_of_idxOf? {names : List String} {name : String} {i : Nat} (h : names.idxOf? name = some i)
    : names[i]? = some name := by
  rw [List.idxOf?, List.findIdx?_eq_some_iff_getElem] at h
  rcases h with ⟨hi, heq, _⟩
  rw [List.getElem?_eq_getElem hi, beq_iff_eq.mp heq]

/-- The truths of the edges pick the edge of the deterministic tier. -/
theorem sameEdge_of_follows {py : Predicates.Runtime} {names : List String} {img : TableImage} {node : Parser.Node}
    {compiled : List (Nat × List Nat)} (h : List.Forall₂ (Follows py names img) (deterministicEdges node) compiled)
    : ∃ truths : List (Predicates.Ctx → Bool),
        List.Forall₂ (fun edge b => Pushes img edge.2 Interp.stackMax b) compiled truths
          ∧ ∀ ctx, SameEdge names node
            ((truths.findIdx? fun b => b ctx).bind fun j => compiled[j]?.map fun edge => (j, edge.1))
            (Engine.firstDeterministic py node.edges ctx) := by
  have hall : ∃ truths : List (Predicates.Ctx → Bool),
      List.Forall₂ (fun edge b => Pushes img edge.2 Interp.stackMax b) compiled truths
        ∧ List.Forall₂ (fun (edge : Parser.Edge) b => ∀ ctx, Predicates.hit py edge.condition ctx = b ctx)
          (deterministicEdges node) truths := by
    generalize deterministicEdges node = edges at h
    induction h with
    | nil => exact ⟨[], .nil, .nil⟩
    | cons hfirst _ ih =>
      rcases hfirst.tells with ⟨b, hpushes, heval⟩
      rcases ih with ⟨truths, htells, hhits⟩
      refine ⟨b :: truths, .cons hpushes htells, .cons (fun ctx => ?_) hhits⟩
      rw [Predicates.hit, heval]
  rcases hall with ⟨truths, htells, hhits⟩
  refine ⟨truths, htells, fun ctx => ?_⟩
  have hlength := hhits.length_eq
  have hlength' := h.length_eq
  have hhit : ∀ j (hj : j < truths.length) (hj' : j < (deterministicEdges node).length),
      Predicates.hit py (deterministicEdges node)[j].condition ctx = truths[j] ctx := fun j hj hj' =>
    List.Forall₂.get hhits hj' hj ctx
  rw [firstDeterministic_eq]
  cases hfind : truths.findIdx? fun b => b ctx with
  | none =>
    rw [List.findIdx?_eq_none_iff] at hfind
    have hnone : ((deterministicEdges node).find? fun edge => Predicates.hit py edge.condition ctx) = none := by
      rw [List.find?_eq_none]
      intro edge hedge
      rcases List.getElem_of_mem hedge with ⟨j, hj, rfl⟩
      rw [hhit j (hlength ▸ hj) hj, hfind _ (List.getElem_mem _)]
      exact Bool.false_ne_true
    rw [hnone]
    exact .none
  | some j =>
    rw [List.findIdx?_eq_some_iff_getElem] at hfind
    rcases hfind with ⟨hj, htrue, hbefore⟩
    have hj' : j < (deterministicEdges node).length := hlength ▸ hj
    have hj'' : j < compiled.length := hlength' ▸ hj'
    have hsome : ((deterministicEdges node).find? fun edge => Predicates.hit py edge.condition ctx)
        = some (deterministicEdges node)[j] := by
      rw [List.find?_eq_some_iff_getElem]
      refine ⟨(hhit j hj hj').trans htrue, j, hj', rfl, fun k hk => ?_⟩
      have hk' : k < truths.length := Nat.lt_trans hk hj
      rw [hhit k hk' (Nat.lt_trans hk hj')]
      simpa using hbefore k hk
    have hfollows : Follows py names img (deterministicEdges node)[j] compiled[j] := List.Forall₂.get h hj' hj''
    rw [hsome, Option.bind_some, List.getElem?_eq_getElem hj'', Option.map_some]
    exact .some (List.getElem?_eq_getElem hj') (getElem?_of_idxOf? hfollows.target)

/-- At every node, and under every outcome its registers show, the match is the edge of the deterministic tier. -/
theorem matched_sameEdge {py : Predicates.Runtime} {isWord : Char → Bool} {maxSteps : Nat} {flow : Flow}
    {img : FlowImage} {data : List UInt8} (hpy : ParsesOperands py)
    (hcompile : compileFlow py isWord maxSteps flow = .ok img) (hserialize : serialize img = some data) (maxStack : Nat)
    {i : Nat} {node : Parser.Node} (hnode : flow.reachableNodes[i]? = some node) {pool : List String}
    {ctx : Predicates.Ctx} {regs : Nat → Reg} (hpool : img.table.intern <+: pool)
    (hshows : Shows pool ctx img.table.fields regs)
    : ∃ taken, Interp.matched (img.loaded maxStack) i regs = .ok taken
        ∧ SameEdge img.names node taken (Engine.firstDeterministic py node.edges ctx) := by
  have hfollows := (follows_compileFlow hpy hcompile).nodes
  rcases List.getElem?_eq_some_iff.mp hnode with ⟨hi, rfl⟩
  have hi' : i < img.nodes.length := hfollows.length_eq ▸ hi
  have hcompiled : NodeFollows py img.names img.table flow.reachableNodes[i] img.nodes[i] :=
    List.Forall₂.get hfollows hi hi'
  rcases sameEdge_of_follows hcompiled.edges with ⟨truths, htells, hsame⟩
  have hready := ready_loaded hpy hcompile hserialize maxStack hpool hshows
  have hget : img.nodes[i]? = some (img.nodes[i].1, img.nodes[i].2) := List.getElem?_eq_getElem hi'
  exact ⟨_, matched_loaded hready hget htells, hsame ctx⟩

/--
The image of a flow, at any node and under the registers of any context that is encoded, prints the edge that the engine's
deterministic tier takes there: `none` where it takes none, and otherwise the edge's place among the deterministic ones
and the index of its target.
-/
theorem mode_eval_first_deterministic {py : Predicates.Runtime} {isWord : Char → Bool} {maxSteps : Nat} {flow : Flow}
    {img : FlowImage} {data : List UInt8} (hpy : ParsesOperands py)
    (hcompile : compileFlow py isWord maxSteps flow = .ok img) (hserialize : serialize img = some data) {i : Nat}
    {node : Parser.Node} (hnode : flow.reachableNodes[i]? = some node) {ctx : Predicates.Ctx} {bytes : List UInt8}
    (hregs : encodeRegs img.table ctx i = .ok bytes)
    : ∃ image printed, Interp.loadImage data = some image ∧ Interp.modeEval image bytes = .ok printed
        ∧ SameEdge img.names node printed (Engine.firstDeterministic py node.edges ctx) := by
  rcases loadImage_of_serialize hserialize with ⟨maxStack, hload⟩
  rcases encodeRegs_spec hregs with ⟨hlength, hhead, pool, hpool, hshows⟩
  rcases matched_sameEdge hpy hcompile hserialize maxStack hnode hpool hshows with ⟨taken, hmatched, hsame⟩
  refine ⟨img.loaded maxStack, taken, hload, ?_, hsame⟩
  have hi : i < img.nodes.length := by
    rw [← (follows_compileFlow hpy hcompile).nodes.length_eq]
    exact (List.getElem?_eq_some_iff.mp hnode).1
  have hsmall : i % 2 ^ 16 = i := Nat.mod_eq_of_lt (hi.trans (u16?_lt (header_of_serialize hserialize).1))
  have hinside : ¬ (img.loaded maxStack).nodes.length ≤ i := by
    have hnodes : (img.loaded maxStack).nodes.length = img.nodes.length := length_nodeRecords 0 img.nodes
    omega
  have hsize : ¬ bytes.length ≠ 4 + 8 * (img.loaded maxStack).fields := not_not.mpr hlength
  rw [Interp.modeEval, if_neg hsize, hhead]
  simp only [Option.getD_some, hsmall, if_neg hinside, hmatched]
  rfl

theorem readyPy_parsesOperands
    : ParsesOperands readyPy := by
  intro text tree h
  rw [readyPy] at h
  dsimp only at h
  split at h
  next =>
    cases h
    rfl
  next => cases h

def readyNode : Parser.Node where
  name := "run"
  edges := [⟨"halt", "when ready"⟩]

def readyContext : Predicates.Ctx := fun name => if name = "ready" then .bool true else .none

theorem mode_eval_first_deterministic_ready
    : ∃ data bytes image printed, serialize readyImage = some data ∧ encodeRegs readyImage.table readyContext 0 = .ok bytes
        ∧ Interp.loadImage data = some image ∧ Interp.modeEval image bytes = .ok printed
        ∧ SameEdge readyImage.names readyNode printed
          (Engine.firstDeterministic readyPy readyNode.edges readyContext) := by
  have hcompile : compileFlow readyPy Char.isAlphanum 25 readyFlow = .ok readyImage := by
    with_unfolding_all rfl
  have hdata : ∃ data, serialize readyImage = some data := by
    exact ⟨_, rfl⟩
  have hbytes : ∃ bytes, encodeRegs readyImage.table readyContext 0 = .ok bytes := by
    exact ⟨_, by with_unfolding_all rfl⟩
  have hnode : readyFlow.reachableNodes[0]? = some readyNode := by
    with_unfolding_all rfl
  rcases hdata with ⟨data, hdata⟩
  rcases hbytes with ⟨bytes, hbytes⟩
  rcases mode_eval_first_deterministic readyPy_parsesOperands hcompile hdata hnode hbytes
    with ⟨image, printed, hload, hmode, hsame⟩
  exact ⟨data, bytes, image, printed, hdata, hbytes, hload, hmode, hsame⟩

end PptCompile
