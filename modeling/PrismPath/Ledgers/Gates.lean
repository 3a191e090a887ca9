import PrismPath.Kernel.EngineLemmas
import PrismPath.Ledgers.CheckpointLemmas

/-!
This module contains the gates of a suspended run: which calls a resume accepts, and which of them respect
the reason the run stopped for.
-/

open Python

namespace Checkpoint

open Predicates Parser Engine

/-! ## What a document is pending on -/

/-- The pending decision belongs to the reason a run stopped for, and lists the edges of its node. -/
inductive Consistent (graph : Graph) : Option Stopped → Option Pending → Prop
  | free {stopped : Option Stopped} : stopped ≠ some .needsHuman → stopped ≠ some .waiting →
      Consistent graph stopped none
  | violation {name : String} {violations : List Contract.Violation} :
      Consistent graph (some .contractViolation) (some (.violation name violations))
  | human {node : Node} {reason : Value} : graph.get? node.name = some node →
      Consistent graph (some .needsHuman) (some (.human node.name reason node.edges))
  | belowFloor {node : Node} {score floor : PyFloat} {wouldPick : String}
      {candidates : List (Edge × Option PyFloat)} : graph.get? node.name = some node →
      candidates.map Prod.fst = semanticEdges node →
      Consistent graph (some .needsHuman) (some (.belowFloor node.name score floor wouldPick candidates))
  | waiting {node : Node} {timeoutS spawn : Value} : graph.get? node.name = some node →
      Consistent graph (some .waiting) (some (.wait node.name
        ((eventEdges node).map fun edge => eventName edge.condition) timeoutS (eventEdges node) spawn))

theorem consistent_of_halts {py : Runtime} {opts : Options} {graph : Graph} {node : Node}
    {r r' : RunResult} {value : Value} (hnode : graph.get? node.name = some node) (hpending : r.pending = none)
    (h : Halts py opts node r value r')
    : Consistent graph r'.stopped r'.pending := by
  cases h with
  | violation => exact .violation
  | human => exact .human hnode
  | waiting => exact .waiting hnode
  | stuck =>
    dsimp only
    rw [hpending]
    exact .free (by simp) (by simp)
  | belowFloor =>
    refine .belowFloor hnode ?_
    rw [List.map_map]
    exact List.map_id _

theorem consistent_loop {py : Runtime} {opts : Options} {keep : Option ℤ} {graph : Graph} {σ : Type}
    {parties : Parties σ} {fuel : Nat} {s : σ} {name : String} {r : RunResult} (hstopped : r.stopped = none)
    (hpending : r.pending = none) {snapshot : Snapshot}
    (h : snapshot ∈ (loop py opts keep graph parties fuel s name r).snapshots)
    : Consistent graph snapshot.result.stopped snapshot.result.pending := by
  have hfree : Consistent graph r.stopped r.pending := by
    rw [hstopped, hpending]
    exact .free (by simp) (by simp)
  induction fuel generalizing s name r with
  | zero => simp [loop] at h
  | succ fuel ih =>
    unfold loop at h
    split at h
    . simp at h
    . next node hnode =>
      split at h
      . rw [List.mem_singleton] at h
        subst h
        dsimp only
        rw [hpending]
        exact .free (by simp) (by simp)
      . dsimp only [Trace.cons] at h
        rcases List.mem_cons.mp h with rfl | h
        . exact hfree
        . split at h
          . next name' r' hstep =>
            rcases step_goto_frame hstep with ⟨hstopped', hpending', -⟩
            have hstopped'' := hstopped'.trans hstopped
            have hpending'' := hpending'.trans hpending
            refine ih hstopped'' hpending'' h ?_
            rw [hstopped'', hpending'']
            exact .free (by simp) (by simp)
          . next name' r' hstep =>
            rw [List.mem_singleton] at h
            subst h
            rcases step_stop hstep with ⟨-, value, -, hhalts⟩
            have hname := Graph.name_of_get? hnode
            refine consistent_of_halts (hname ▸ hnode) ?_ hhalts
            exact hpending
          . simp at h

theorem consistent_run {py : Runtime} {opts : Options} {graph : Graph} {σ : Type} {parties : Parties σ} {s : σ}
    {maxSteps : Nat} {start : String} {state : State} {seed : Seed} {snapshot : Snapshot}
    (h : snapshot ∈ (run py opts graph parties s maxSteps start state seed).snapshots)
    : Consistent graph snapshot.result.stopped snapshot.result.pending := by
  unfold run at h
  split at h
  . simp at h
  . exact consistent_loop rfl rfl h

/-! ## Stored documents -/

/--
The documents that can be stored after any calls: runs, resumes with any arguments and any worker, and
decisions recorded from the queue. A process may be killed after any of its writes.
-/
inductive Stored (files : Files) (py : Runtime) : Doc → Prop
  | run {σ : Type} {parties : Parties σ} {s : σ} {opts : Options} {flowPath : String} {maxSteps : Nat}
      {state : State} {durable : Durable} {doc : Doc} :
      runDurable files py opts flowPath parties s maxSteps state = .ok durable → doc ∈ durable.written →
      Stored files py doc
  | resume {σ : Type} {parties : Parties σ} {s : σ} {call : Call} {durable : Durable} {doc doc' : Doc} :
      Stored files py doc → resume files py parties s doc call = .ok durable → doc' ∈ durable.written →
      Stored files py doc'
  | decide {choose decidedBy : String} {doc doc' : Doc} : Stored files py doc →
      recordDecision doc choose decidedBy = .ok doc' → Stored files py doc'

/-- The document is pending on what its flow says. -/
structure Faithful (files : Files) (doc : Doc) (graph : Graph) : Prop where
  parsed : files.parse doc.flowPath = some graph
  consistent : Consistent graph doc.stopped doc.pendingDecision

theorem faithful_of_stored {files : Files} {py : Runtime} {doc : Doc} (h : Stored files py doc)
    : ∃ graph, Faithful files doc graph := by
  induction h with
  | run hrun hmem =>
    unfold runDurable at hrun
    split at hrun
    . cases hrun
    . split at hrun
      . cases hrun
      . next graph hparse =>
        cases hrun
        rcases mem_writes hmem with ⟨snapshot, hsnapshot, rfl⟩
        exact ⟨graph, hparse, consistent_run hsnapshot⟩
  | resume _ hresume hmem ih =>
    rcases resume_ok hresume with ⟨graph, entry, hparse, -, rfl⟩
    dsimp only [resumed] at hmem
    split at hmem
    . rcases mem_writeBacks hmem with ⟨snapshot, hsnapshot, rfl⟩
      exact ⟨graph, hparse, consistent_run hsnapshot⟩
    . simp at hmem
  | decide _ hdecide ih =>
    rcases ih with ⟨graph, hparse, hconsistent⟩
    unfold recordDecision at hdecide
    split at hdecide
    . cases hdecide
    . split at hdecide
      . cases hdecide
        exact ⟨graph, hparse, hconsistent⟩
      . cases hdecide

/-! ## Calls -/

/-- How a call may take a run further, by the reason the run stopped for. -/
inductive Respects (graph : Graph) (doc : Doc) (call : Call) (entry : Entry) : Prop
  | human {choose : String} : doc.stopped = some .needsHuman → chosen doc call.choose = some choose →
      choose ∈ candidates doc → entry.start = choose → Respects graph doc call entry
  | event {event : String} {node : Node} {edge : Edge} : doc.stopped = some .waiting →
      chosen doc call.choose = none → call.event = some event → event ∈ awaiting doc →
      (decisionNode doc).bind graph.get? = some node → edge ∈ eventEdges node →
      eventName edge.condition = event → entry.start = edge.target → Respects graph doc call entry
  | crash {name : String} : doc.stopped = none ∨ doc.stopped = some .contractViolation →
      chosen doc call.choose = none → call.event = none → doc.pendingNode = some name →
      entry.start = name → Respects graph doc call entry

def isBelowFloor : Option Pending → Bool
  | some (.belowFloor _ _ _ _ _) => true
  | _ => false

/--
The call gives no choice for an edge of a node that waits for none, and none of a person's choices below the
floor but those of the semantic tier; and it gives no event for an edge of a node that waits for none.
-/
structure Unbypassed (graph : Graph) (doc : Doc) (call : Call) : Prop where
  choice : ∀ choose node, chosen doc call.choose = some choose →
    (decisionNode doc).bind graph.get? = some node → choose ∈ node.edges.map Edge.target →
    doc.stopped = some .needsHuman
      ∧ (isBelowFloor doc.pendingDecision = true → choose ∈ (semanticEdges node).map Edge.target)
  event : chosen doc call.choose = none → ∀ event node, call.event = some event →
    (decisionNode doc).bind graph.get? = some node →
    event ∈ (eventEdges node).map (fun edge => eventName edge.condition) →
    doc.stopped = some .waiting

section

variable {graph : Graph} {doc : Doc} {call : Call} {entry : Entry}

/-- The candidates of a node waiting for a person. -/
theorem mem_candidates_iff (hconsistent : Consistent graph doc.stopped doc.pendingDecision)
    (hstopped : doc.stopped = some .needsHuman) {node : Node}
    (hnode : (decisionNode doc).bind graph.get? = some node) (choose : String)
    : choose ∈ candidates doc
        ↔
      choose ∈ (if isBelowFloor doc.pendingDecision then semanticEdges node else node.edges).map Edge.target := by
  unfold candidates decisionNode at *
  generalize doc.pendingDecision = pending at *
  rw [hstopped] at hconsistent
  cases hconsistent with
  | free hne _ => exact absurd rfl hne
  | human hget =>
    simp only [Pending.node, Option.bind_some, hget, Option.some.injEq] at hnode
    subst hnode
    rfl
  | belowFloor hget hsemantic =>
    simp only [Pending.node, Option.bind_some, hget, Option.some.injEq] at hnode
    subst hnode
    simp only [Pending.candidateTargets, isBelowFloor, if_true, ← hsemantic, List.map_map]
    rfl

/-- What a waiting run awaits are the events of its node. -/
theorem awaiting_eq (hconsistent : Consistent graph doc.stopped doc.pendingDecision)
    (hstopped : doc.stopped = some .waiting) {node : Node}
    (hnode : (decisionNode doc).bind graph.get? = some node)
    : awaiting doc = (eventEdges node).map fun edge => eventName edge.condition := by
  unfold awaiting decisionNode at *
  generalize doc.pendingDecision = pending at *
  rw [hstopped] at hconsistent
  cases hconsistent with
  | free _ hne => exact absurd rfl hne
  | waiting hget =>
    simp only [Pending.node, Option.bind_some, hget, Option.some.injEq] at hnode
    subst hnode
    rfl

/-- A call that walks around no gate is let through as the run's stop reason asks. -/
theorem respects_of_unbypassed (hconsistent : Consistent graph doc.stopped doc.pendingDecision)
    (hcall : Unbypassed graph doc call) (h : reenter graph doc call.choose call.event = .ok entry)
    : Respects graph doc call entry := by
  unfold reenter at h
  split at h
  . next choose hchosen =>
    rcases enterChosen_ok h with ⟨node, hnode, hmem, hstart, -, -⟩
    rcases hcall.choice choose node hchosen hnode hmem with ⟨hstopped, hfloor⟩
    refine .human hstopped hchosen ?_ hstart
    rw [mem_candidates_iff hconsistent hstopped hnode]
    split
    . next hbelow => exact hfloor hbelow
    . exact hmem
  . next hchosen =>
    split at h
    . next event hevent =>
      rcases enterEvent_ok h with ⟨node, edge, hnode, hedge, hname, hstart, -, -⟩
      have hmem : event ∈ (eventEdges node).map fun edge => eventName edge.condition :=
        List.mem_map.mpr ⟨edge, hedge, hname⟩
      have hstopped := hcall.event hchosen event node hevent hnode hmem
      refine .event hstopped hchosen hevent ?_ hnode hedge hname hstart
      rw [awaiting_eq hconsistent hstopped hnode]
      exact hmem
    . next hevent =>
      rcases enterPending_ok h with ⟨hstopped, name, hpending, -, rfl⟩
      exact .crash hstopped hchosen hevent hpending rfl

theorem enterChosen_of_mem {node : Node} {choose : String} (hnode : (decisionNode doc).bind graph.get? = some node)
    (hmem : choose ∈ node.edges.map Edge.target)
    : ∃ entry, enterChosen graph doc choose = .ok entry := by
  unfold enterChosen
  rw [hnode]
  dsimp only
  rw [if_pos hmem]
  exact ⟨_, rfl⟩

theorem enterEvent_of_mem {node : Node} {event : String} (hnode : (decisionNode doc).bind graph.get? = some node)
    (hmem : event ∈ (eventEdges node).map fun edge => eventName edge.condition)
    : ∃ entry, enterEvent graph doc event = .ok entry := by
  unfold enterEvent
  rw [hnode]
  dsimp only
  rw [List.mem_map] at hmem
  rcases hmem with ⟨edge, hedge, hname⟩
  cases hfind : (eventEdges node).find? fun edge => eventName edge.condition = event with
  | none => simpa [hname] using List.find?_eq_none.mp hfind edge hedge
  | some edge' => exact ⟨_, rfl⟩

/-- Every call that walks around a gate is let through, against the run's stop reason. -/
theorem unbypassed_of_respects (hconsistent : Consistent graph doc.stopped doc.pendingDecision)
    (h : ∀ entry, reenter graph doc call.choose call.event = .ok entry →
      ∃ entry', Respects graph doc call entry')
    : Unbypassed graph doc call where
  choice := by
    intro choose node hchosen hnode hmem
    rcases enterChosen_of_mem hnode hmem with ⟨entry, hentry⟩
    have hreenter : reenter graph doc call.choose call.event = .ok entry := by
      unfold reenter
      rw [hchosen]
      exact hentry
    rcases h entry hreenter with ⟨entry', hrespects⟩
    cases hrespects with
    | human hstopped hchosen' hcandidate _ =>
      rw [hchosen] at hchosen'
      cases hchosen'
      refine ⟨hstopped, ?_⟩
      intro hbelow
      rw [mem_candidates_iff hconsistent hstopped hnode, if_pos hbelow] at hcandidate
      exact hcandidate
    | event _ hnone =>
      rw [hchosen] at hnone
      cases hnone
    | crash _ hnone =>
      rw [hchosen] at hnone
      cases hnone
  event := by
    intro hchosen event node hevent hnode hmem
    rcases enterEvent_of_mem hnode hmem with ⟨entry, hentry⟩
    have hreenter : reenter graph doc call.choose call.event = .ok entry := by
      unfold reenter
      rw [hchosen, hevent]
      exact hentry
    rcases h entry hreenter with ⟨entry', hrespects⟩
    cases hrespects with
    | human _ hsome =>
      rw [hchosen] at hsome
      cases hsome
    | event hstopped => exact hstopped
    | crash _ _ hnone =>
      rw [hevent] at hnone
      cases hnone

end

/-- The document stored after a call: one that is refused writes nothing. -/
def afterCall (doc : Doc) : Except CheckpointError Durable → Doc
  | .ok durable => stored doc durable.written
  | .error _ => doc

/--
Whatever calls came before, a call is let through only as the run's stop reason asks if and only if it walks
around none of the gates that are not checked; a call that is refused leaves the stored document as it is.
-/
theorem gate_iff_unbypassed {files : Files} {py : Runtime} {σ : Type} {parties : Parties σ} {s : σ} {doc : Doc}
    {call : Call} {graph : Graph} (hstored : Stored files py doc)
    (hflow : checkFlowUnchanged files doc = .ok ()) (hauth : files.authorized doc.flowPath = true)
    (hparse : files.parse doc.flowPath = some graph)
    : ((∀ durable, resume files py parties s doc call = .ok durable →
          ∃ entry, durable = resumed files py parties s doc call graph entry ∧ Respects graph doc call entry)
        ↔ Unbypassed graph doc call)
        ∧ ∀ err, resume files py parties s doc call = .error err →
            afterCall doc (resume files py parties s doc call) = doc := by
  rcases faithful_of_stored hstored with ⟨graph', hparse', hconsistent⟩
  rw [hparse] at hparse'
  cases hparse'
  refine ⟨⟨?_, ?_⟩, ?_⟩
  . intro h
    apply unbypassed_of_respects hconsistent
    intro entry hentry
    have hresume : resume files py parties s doc call
        = .ok (resumed files py parties s doc call graph entry) := by
      rw [resume_eq hflow hauth hparse, hentry]
      rfl
    rcases h _ hresume with ⟨entry', -, hrespects⟩
    exact ⟨entry', hrespects⟩
  . intro hcall durable hresume
    rcases resume_ok hresume with ⟨graph', entry, hparse', hentry, rfl⟩
    rw [hparse] at hparse'
    cases hparse'
    exact ⟨entry, rfl, respects_of_unbypassed hconsistent hcall hentry⟩
  . intro err herr
    rw [herr]
    rfl

/-! ## An event walks around an approval -/

def approvalPy : Runtime where
  parse
    | "approved" => some (.name "approved")
    | _ => none
  str
    | .str s => s
    | _ => ""
  int := fun _ => none

/-- A node that asks for a person, and could be resumed by an event. -/
def approvalGraph : Graph where
  name := "approval"
  start := "a"
  nodes := [
    { name := "a", edges := [⟨"b", "when approved"⟩, ⟨"c", "on event ready"⟩] },
    { name := "b", edges := [] },
    { name := "c", edges := [] }
  ]
  nodup := by decide

def approvalFiles : Files where
  hash := fun _ => "sha256:00"
  parse := fun _ => some approvalGraph
  authorized := fun _ => true
  onChange := .refuse

/-- Its worker needs a person at the first node. -/
def approvalParties : Parties Unit where
  worker := fun _ _ _ _ => (.returned (.dict [("needs_human", .bool true)]), ())
  router := fun _ => firstRouter

def approvalRun : Except CheckpointError Durable :=
  runDurable approvalFiles approvalPy {} "approval.md" approvalParties () 25 {}

/-- A person's choice takes the run along the edge chosen. -/
theorem approval_respected
    : ∃ doc, doc.stopped = some .needsHuman
        ∧ ∀ durable,
            resume approvalFiles approvalPy approvalParties () doc { choose := some "b" } = .ok durable →
            ∃ entry,
              durable = resumed approvalFiles approvalPy approvalParties () doc { choose := some "b" }
                  approvalGraph entry
                ∧ Respects approvalGraph doc { choose := some "b" } entry := by
  have hrun : (approvalRun.toOption.bind fun durable => durable.written.getLast?.map fun doc =>
      (doc.flowPath, doc.flowHash, doc.stopped, isBelowFloor doc.pendingDecision))
        = some ("approval.md", "sha256:00", some .needsHuman, false) := by
    with_unfolding_all decide
  cases hdurable : approvalRun with
  | error err =>
    rw [hdurable] at hrun
    cases hrun
  | ok durable =>
    simp only [hdurable, Except.toOption, Option.bind_some, Option.map_eq_some_iff, Prod.mk.injEq] at hrun
    rcases hrun with ⟨doc, hdoc, hpath, hhash, hstopped, hfloor⟩
    have hstored : Stored approvalFiles approvalPy doc := .run hdurable (List.mem_of_getLast? hdoc)
    have hflow : checkFlowUnchanged approvalFiles doc = .ok () := by
      unfold checkFlowUnchanged
      rw [hhash]
      rfl
    refine ⟨doc, hstopped, (gate_iff_unbypassed hstored hflow rfl rfl).1.mpr ⟨?_, ?_⟩⟩
    . intro choose node _ _ _
      refine ⟨hstopped, ?_⟩
      rw [hfloor]
      intro hfalse
      cases hfalse
    . intro hnone
      cases hnone

/-- The run waits for a person, and an event takes it on. -/
theorem approval_walked_around
    : (approvalRun.toOption.bind fun durable => durable.written.getLast?.map fun doc =>
          (doc.stopped, candidates doc, awaiting doc)) = some (some .needsHuman, ["b", "c"], [])
        ∧ (approvalRun.toOption.bind fun durable => durable.written.getLast?.bind fun doc =>
            (resume approvalFiles approvalPy approvalParties () doc { event := some "ready" }).toOption.bind
              fun resumed => resumed.ending.result?.map RunResult.path) = some ["a", "c"] := by
  with_unfolding_all decide

end Checkpoint
