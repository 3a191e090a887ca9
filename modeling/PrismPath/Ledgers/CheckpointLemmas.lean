import PrismPath.Ledgers.Checkpoint

/-!
This module contains what saving a checkpoint keeps, and where each kind of resume re-enters the engine.
-/

open Python

namespace Checkpoint

open Predicates Parser Engine

/-- The document of a snapshot: the steps shrink to summaries, the rest is kept. -/
def docOf (stamp : Stamp) (snapshot : Snapshot) : Doc where
  flowPath := stamp.flowPath
  flowHash := stamp.flowHash
  pendingNode := snapshot.pendingNode
  stopped := snapshot.result.stopped
  typeGate := stamp.typeGate
  path := snapshot.result.path
  state := snapshot.result.state
  pendingDecision := snapshot.result.pending
  steps := snapshot.result.steps.map fun step => ⟨step.node, step.target, step.info.used⟩

theorem eq_docOf_of_saveCheckpoint {stamp : Stamp} {snapshot : Snapshot} {doc : Doc}
    (h : saveCheckpoint stamp snapshot = .ok doc)
    : doc = docOf stamp snapshot := by
  unfold saveCheckpoint at h
  dsimp only at h
  split at h
  . cases h
    rfl
  . cases h

theorem mem_writes {stamp : Stamp} {snapshots : List Snapshot} {doc : Doc} (h : doc ∈ writes stamp snapshots)
    : ∃ snapshot ∈ snapshots, doc = docOf stamp snapshot := by
  induction snapshots with
  | nil => simp [writes] at h
  | cons snapshot snapshots ih =>
    unfold writes at h
    split at h
    . next saved hsave =>
      rcases List.mem_cons.mp h with rfl | h
      . exact ⟨snapshot, List.mem_cons_self, eq_docOf_of_saveCheckpoint hsave⟩
      . rcases ih h with ⟨snapshot', hmem, hdoc⟩
        exact ⟨snapshot', List.mem_cons_of_mem _ hmem, hdoc⟩
    . simp at h

theorem mem_writeBacks {stamp : Stamp} {snapshots : List Snapshot} {doc : Doc}
    (h : doc ∈ writeBacks stamp snapshots)
    : ∃ snapshot ∈ snapshots, doc = docOf stamp snapshot := by
  rw [writeBacks, List.mem_filterMap] at h
  rcases h with ⟨snapshot, hmem, hsave⟩
  refine ⟨snapshot, hmem, ?_⟩
  cases hsaved : saveCheckpoint stamp snapshot with
  | error err =>
    rw [hsaved] at hsave
    cases hsave
  | ok saved =>
    rw [hsaved] at hsave
    cases hsave
    exact eq_docOf_of_saveCheckpoint hsaved

theorem enterEvent_ok {graph : Graph} {doc : Doc} {event : String} {entry : Entry}
    (h : enterEvent graph doc event = .ok entry)
    : ∃ node edge,
        (decisionNode doc).bind graph.get? = some node
          ∧ edge ∈ eventEdges node
          ∧ eventName edge.condition = event
          ∧ entry.start = edge.target
          ∧ entry.state.visits = doc.state.visits
          ∧ entry.seed.path = doc.path := by
  unfold enterEvent at h
  split at h
  . cases h
  . next node hnode =>
    split at h
    . cases h
    . next edge hfind =>
      cases h
      refine ⟨node, edge, hnode, List.mem_of_find?_eq_some hfind, ?_, rfl, rfl, rfl⟩
      simpa using List.find?_some hfind

theorem enterChosen_ok {graph : Graph} {doc : Doc} {choose : String} {entry : Entry}
    (h : enterChosen graph doc choose = .ok entry)
    : ∃ node,
        (decisionNode doc).bind graph.get? = some node
          ∧ choose ∈ node.edges.map Edge.target
          ∧ entry.start = choose
          ∧ entry.state.visits = doc.state.visits
          ∧ entry.seed.path = doc.path := by
  unfold enterChosen at h
  split at h
  . cases h
  . next node hnode =>
    dsimp only at h
    split at h
    . next hmem =>
      cases h
      exact ⟨node, hnode, hmem, rfl, rfl, rfl⟩
    . cases h

theorem enterPending_ok {graph : Graph} {doc : Doc} {entry : Entry} (h : enterPending graph doc = .ok entry)
    : (doc.stopped = none ∨ doc.stopped = some .contractViolation)
        ∧ ∃ pending,
            doc.pendingNode = some pending
              ∧ graph.contains pending = true
              ∧ entry = ⟨pending, doc.state, ⟨doc.path.dropLast, priorSteps doc⟩⟩ := by
  unfold enterPending at h
  split at h
  all_goals try cases h
  all_goals
    next hstopped =>
    split at h
    . cases h
    . next pending hpending =>
      split at h
      . next hcontains =>
        cases h
        exact ⟨by simp [hstopped], pending, hpending, hcontains, rfl⟩
      . cases h

theorem reenter_event {graph : Graph} {doc : Doc} {event : String} (h : doc.decision = none)
    : reenter graph doc none (some event) = enterEvent graph doc event := by
  simp [reenter, chosen, h]

/-- The run a resume makes once it is let through. -/
def resumed {σ : Type} (files : Files) (py : Runtime) (parties : Parties σ) (s : σ) (doc : Doc) (call : Call)
    (graph : Graph) (entry : Entry) : Durable :=
  let gate := call.typeGate.getD doc.typeGate
  let trace := run py { humanFloor := call.humanFloor, typeGate := gate } graph parties s call.maxSteps
    entry.start entry.state entry.seed
  {
    written := if call.writeBack then
        writeBacks ⟨doc.flowPath, files.hash doc.flowPath, gate⟩ trace.snapshots
      else []
    ending := trace.ending
  }

/-- A resume of an unchanged and authorized flow re-enters it, or refuses as `reenter` does. -/
theorem resume_eq {σ : Type} {files : Files} {py : Runtime} {parties : Parties σ} {s : σ} {doc : Doc}
    {call : Call} {graph : Graph} (hflow : checkFlowUnchanged files doc = .ok ())
    (hauth : files.authorized doc.flowPath = true) (hparse : files.parse doc.flowPath = some graph)
    : resume files py parties s doc call
        = (reenter graph doc call.choose call.event).map (resumed files py parties s doc call graph) := by
  unfold resume
  simp only [hflow, hauth, hparse, bind, Except.bind, Bool.not_true, Bool.false_eq_true, if_false,
    Option.elim_some, pure, Except.pure]
  cases reenter graph doc call.choose call.event <;> rfl

/-- A resume that runs at all has been let through. -/
theorem resume_ok {σ : Type} {files : Files} {py : Runtime} {parties : Parties σ} {s : σ} {doc : Doc}
    {call : Call} {durable : Durable} (h : resume files py parties s doc call = .ok durable)
    : ∃ graph entry,
        files.parse doc.flowPath = some graph
          ∧ reenter graph doc call.choose call.event = .ok entry
          ∧ durable = resumed files py parties s doc call graph entry := by
  cases hflow : checkFlowUnchanged files doc with
  | error err =>
    unfold resume at h
    rw [hflow] at h
    cases h
  | ok =>
    cases hauth : files.authorized doc.flowPath with
    | false =>
      unfold resume at h
      simp only [hflow, hauth, bind, Except.bind, Bool.not_false, if_true] at h
      cases h
    | true =>
      cases hparse : files.parse doc.flowPath with
      | none =>
        unfold resume at h
        simp only [hflow, hauth, hparse, bind, Except.bind, Bool.not_true, Bool.false_eq_true, if_false,
          Option.elim_none] at h
        cases h
      | some graph =>
        rw [resume_eq hflow hauth hparse] at h
        cases hentry : reenter graph doc call.choose call.event with
        | error err =>
          rw [hentry] at h
          cases h
        | ok entry =>
          rw [hentry] at h
          cases h
          exact ⟨graph, entry, rfl, hentry, rfl⟩

end Checkpoint
