import PrismPath.Ledgers.CrashResume
import PrismPath.Ledgers.Gates

/-!
This module contains what a finished run leaves behind: which of its checkpoints refuse every resume, and how
often the worker is called over a run and the resumes after it.
-/

open Python

namespace Checkpoint

open Predicates Parser Engine

/-! ## Worker calls -/

def runDurableCalls {σ : Type} (files : Files) (py : Runtime) (opts : Options) (flowPath : String)
    (parties : Parties σ) (s : σ) (maxSteps : Nat) (state : State) : List String :=
  if !files.authorized flowPath then
    []
  else
    match files.parse flowPath with
    | none => []
    | some graph => runCalls py opts graph parties s maxSteps graph.start state {}

/-- A resume that is refused calls no worker. -/
def resumeCalls {σ : Type} (files : Files) (py : Runtime) (parties : Parties σ) (s : σ) (doc : Doc)
    (call : Call) : List String :=
  match resume files py parties s doc call, files.parse doc.flowPath with
  | .ok _, some graph =>
    match reenter graph doc call.choose call.event with
    | .ok entry =>
      runCalls py { humanFloor := call.humanFloor, typeGate := call.typeGate.getD doc.typeGate } graph parties s
        call.maxSteps entry.start entry.state entry.seed
    | .error _ => []
  | _, _ => []

theorem length_runDurableCalls_le {σ : Type} {py : Runtime} {opts : Options} {parties : Parties σ}
    (files : Files) (flowPath : String) (s : σ) (maxSteps : Nat) (state : State)
    : (runDurableCalls files py opts flowPath parties s maxSteps state).length ≤ maxSteps := by
  unfold runDurableCalls runCalls
  split
  . apply Nat.zero_le
  . split
    . apply Nat.zero_le
    . split
      . apply Nat.zero_le
      . apply length_workerCalls_le

/-! ## What a run leaves behind -/

/-- The snapshots of a run, and what its result says once it has ended. -/
inductive Left (graph : Graph) (ending : Ending) : Snapshot → Prop
  | running {name : String} {r : RunResult} : graph.contains name = true → r.stopped = none →
      Left graph ending ⟨r, some name⟩
  | terminal {r : RunResult} : ending = .returned r → r.stopped = some .terminal → r.pending = none →
      Left graph ending ⟨r, none⟩
  | stuck {node : Node} {r : RunResult} : graph.get? node.name = some node → node.edges ≠ [] →
      r.stopped = some .stuck → r.pending = none → Left graph ending ⟨r, some node.name⟩
  | suspended {r : RunResult} {pendingNode : Option String} : ending = .returned r →
      r.stopped = some .needsHuman ∨ r.stopped = some .waiting ∨ r.stopped = some .contractViolation →
      Left graph ending ⟨r, pendingNode⟩

section

variable {σ : Type} {py : Runtime} {opts : Options} {keep : Option ℤ} {graph : Graph} {parties : Parties σ}

theorem left_of_halts {node : Node} {r r' : RunResult} {value : Value}
    (hnode : graph.get? node.name = some node) (hterminal : ¬node.terminal = true) (hpending : r.pending = none)
    (h : Halts py opts node r value r')
    : Left graph (.returned r') ⟨r', some node.name⟩ := by
  cases h with
  | violation => exact .suspended rfl (.inr (.inr rfl))
  | human => exact .suspended rfl (.inl rfl)
  | waiting => exact .suspended rfl (.inr (.inl rfl))
  | stuck =>
    refine .stuck hnode ?_ rfl hpending
    intro hedges
    apply hterminal
    rw [Node.terminal, hedges]
    rfl
  | belowFloor => exact .suspended rfl (.inl rfl)

theorem left_loop {fuel : Nat} {s : σ} {name : String} {r : RunResult} (hstopped : r.stopped = none)
    (hpending : r.pending = none) {snapshot : Snapshot}
    (h : snapshot ∈ (loop py opts keep graph parties fuel s name r).snapshots)
    : Left graph (loop py opts keep graph parties fuel s name r).ending snapshot := by
  induction fuel generalizing s name r with
  | zero => simp [loop] at h
  | succ fuel ih =>
    unfold loop at h ⊢
    cases hnode : graph.get? name with
    | none => simp [hnode] at h
    | some node =>
      rw [hnode] at h
      dsimp only at h ⊢
      split at h
      . next hterminal =>
        rw [if_pos hterminal]
        rw [List.mem_singleton] at h
        subst h
        exact .terminal rfl rfl hpending
      . next hterminal =>
        rw [if_neg hterminal]
        dsimp only [Trace.cons] at h ⊢
        rcases List.mem_cons.mp h with rfl | h
        . refine .running ?_ hstopped
          rw [Graph.contains, hnode]
          rfl
        . split at h
          . next name' r' hstep =>
            rcases step_goto_frame hstep with ⟨hstopped', hpending', -⟩
            exact ih (hstopped'.trans hstopped) (hpending'.trans hpending) h
          . next name' r' hstep =>
            rw [List.mem_singleton] at h
            subst h
            rcases step_stop hstep with ⟨rfl, value, -, hhalts⟩
            have hname := Graph.name_of_get? hnode
            refine left_of_halts (hname ▸ hnode) hterminal ?_ hhalts
            exact hpending
          . simp at h

/-- A durable run stamps its flow on all it writes. -/
theorem left_of_runDurable {files : Files} {flowPath : String} {s : σ} {maxSteps : Nat} {state : State}
    {durable : Durable} {doc : Doc} (h : runDurable files py opts flowPath parties s maxSteps state = .ok durable)
    (hdoc : doc ∈ durable.written)
    : ∃ graph snapshot,
        files.authorized flowPath = true
          ∧ files.parse flowPath = some graph
          ∧ doc = docOf ⟨flowPath, files.hash flowPath, opts.typeGate⟩ snapshot
          ∧ Left graph durable.ending snapshot := by
  unfold runDurable at h
  split at h
  . cases h
  . next hauth =>
    split at h
    . cases h
    . next graph hparse =>
      cases h
      rcases mem_writes hdoc with ⟨snapshot, hsnapshot, hdoc⟩
      refine ⟨graph, snapshot, by simpa using hauth, hparse, hdoc, ?_⟩
      dsimp only
      unfold run at hsnapshot ⊢
      split at hsnapshot
      . simp at hsnapshot
      . exact left_loop rfl rfl hsnapshot

end

/-! ## Resumes of what is left -/

/-- A resume made some time after the run: its own files, its own worker and its own arguments. -/
structure Later where
  σ : Type
  files : Files
  parties : Parties σ
  s : σ
  call : Call

def Later.resume (py : Runtime) (later : Later) (doc : Doc) : Except CheckpointError Durable :=
  Checkpoint.resume later.files py later.parties later.s doc later.call

/-- The document that is stored after a sequence of resumes, and the worker calls they made. -/
def resumes (py : Runtime) : Doc → List Later → Doc × List String
  | doc, [] => (doc, [])
  | doc, later :: laters =>
    let calls := resumeCalls later.files py later.parties later.s doc later.call
    let (left, callsAfter) := resumes py (afterCall doc (later.resume py doc)) laters
    (left, calls ++ callsAfter)

section

variable {py : Runtime} {graph : Graph} {doc : Doc}

/-- A document with no node to go on from is refused, whatever the flow and the arguments. -/
theorem reenter_terminal (hstopped : doc.stopped = some .terminal) (hnode : decisionNode doc = none)
    (choose event : Option String)
    : ∃ err, reenter graph doc choose event = .error err := by
  unfold reenter
  split
  . next choose _ =>
    refine ⟨.unknownNode none, ?_⟩
    simp [enterChosen, hnode]
  . split
    . next event =>
      refine ⟨.unknownNode none, ?_⟩
      simp [enterEvent, hnode]
    . refine ⟨.finished .terminal, ?_⟩
      simp [enterPending, hstopped]

theorem refused_terminal (hstopped : doc.stopped = some .terminal) (hnode : decisionNode doc = none)
    (later : Later)
    : ∃ err, later.resume py doc = .error err := by
  cases hresume : later.resume py doc with
  | error err => exact ⟨err, rfl⟩
  | ok durable =>
    rcases resume_ok hresume with ⟨graph, entry, -, hentry, -⟩
    have hrefused : ∃ err, reenter graph doc later.call.choose later.call.event = .error err :=
      reenter_terminal hstopped hnode _ _
    rcases hrefused with ⟨err, herr⟩
    rw [herr] at hentry
    cases hentry

/-- A document that refuses every resume is there after any of them, and no worker has been called. -/
theorem resumes_refused (h : ∀ later : Later, ∃ err, later.resume py doc = .error err) (laters : List Later)
    : resumes py doc laters = (doc, []) := by
  induction laters with
  | nil => rfl
  | cons later laters ih =>
    rcases h later with ⟨err, herr⟩
    have hcalls : resumeCalls later.files py later.parties later.s doc later.call = [] := by
      unfold Later.resume at herr
      unfold resumeCalls
      rw [herr]
    unfold resumes
    rw [hcalls, herr]
    simp only [afterCall, ih, List.append_nil]

/-- What is not terminal is let through again: where the run was, or along an edge of the node it is stuck at. -/
theorem reenter_of_left {ending : Ending} {stamp : Stamp} {snapshot : Snapshot} (h : Left graph ending snapshot)
    (hterminal : snapshot.result.stopped ≠ some .terminal)
    (hfinished : ∀ r, ending = .returned r → r.stopped ≠ some .needsHuman ∧ r.stopped ≠ some .waiting
      ∧ r.stopped ≠ some .contractViolation)
    : ∃ choose entry, reenter graph (docOf stamp snapshot) choose none = .ok entry := by
  cases h with
  | @running name r hcontains hstopped =>
    refine ⟨none, ⟨name, r.state, ⟨r.path.dropLast, priorSteps (docOf stamp ⟨r, some name⟩)⟩⟩, ?_⟩
    unfold reenter enterPending
    dsimp only [chosen, docOf]
    rw [hstopped]
    simp only [Option.map_none, Option.orElse_none]
    rw [if_pos hcontains]
  | terminal _ hstopped => exact absurd hstopped hterminal
  | @stuck node r hnode hedges _ hpending =>
    rcases List.exists_mem_of_ne_nil node.edges hedges with ⟨edge, hedge⟩
    have hdecision : (decisionNode (docOf stamp ⟨r, some node.name⟩)).bind graph.get? = some node := by
      unfold decisionNode
      dsimp only [docOf]
      rw [hpending]
      exact hnode
    rcases enterChosen_of_mem hdecision (List.mem_map_of_mem hedge) with ⟨entry, hentry⟩
    exact ⟨some edge.target, entry, hentry⟩
  | suspended hending hstopped =>
    rcases hfinished _ hending with ⟨hhuman, hwaiting, hviolation⟩
    rcases hstopped with hstopped | hstopped | hstopped
    . exact absurd hstopped hhuman
    . exact absurd hstopped hwaiting
    . exact absurd hstopped hviolation

end

/-- The reasons a run is over for. -/
def Finished (r : RunResult) : Prop :=
  r.stopped = some .terminal ∨ r.stopped = some .stuck ∨ r.stopped = some .maxSteps

/--
A run that is over refuses every later resume, calls no worker again and keeps its document and its budget if
and only if it ended at a terminal node and could write that down, or has written nothing at all. It is let
through again where it ran out of its budget or is stuck.
-/
theorem finished_stays_iff {σ : Type} {files : Files} {py : Runtime} {opts : Options} {flowPath : String}
    {parties : Parties σ} {s : σ} {maxSteps : Nat} {state : State} {durable : Durable} {r : RunResult}
    (hrun : runDurable files py opts flowPath parties s maxSteps state = .ok durable)
    (hend : durable.ending = .returned r) (hfinished : Finished r)
    : (∀ doc, durable.written.getLast? = some doc → ∀ laters : List Later,
          (∀ later : Later, ∃ err, later.resume py (resumes py doc laters).1 = .error err)
            ∧ (resumes py doc laters).1 = doc
            ∧ (resumes py doc laters).2 = []
            ∧ (runDurableCalls files py opts flowPath parties s maxSteps state ++ (resumes py doc laters).2).length
                ≤ maxSteps)
        ↔
      ∀ doc, durable.written.getLast? = some doc → doc.stopped = some .terminal ∧ r.stopped = some .terminal := by
  constructor
  . intro h doc hdoc
    rcases left_of_runDurable hrun (List.mem_of_getLast? hdoc) with ⟨graph, snapshot, hauth, hparse, rfl, hleft⟩
    by_cases hterminal : snapshot.result.stopped = some .terminal
    . refine ⟨hterminal, ?_⟩
      cases hleft with
      | terminal hending =>
        rw [hend] at hending
        cases hending
        exact hterminal
      | _ => simp_all
    . exfalso
      have hover : ∀ r', durable.ending = .returned r' → r'.stopped ≠ some .needsHuman
          ∧ r'.stopped ≠ some .waiting ∧ r'.stopped ≠ some .contractViolation := by
        intro r' hr'
        rw [hend] at hr'
        cases hr'
        rcases hfinished with hstopped | hstopped | hstopped <;> simp [hstopped]
      have hreenter : ∃ choose entry,
          reenter graph (docOf ⟨flowPath, files.hash flowPath, opts.typeGate⟩ snapshot) choose none = .ok entry :=
        reenter_of_left hleft hterminal hover
      rcases hreenter with ⟨choose, entry, hentry⟩
      rcases (h _ hdoc []).1 ⟨σ, files, parties, s, { choose := choose }⟩ with ⟨err, herr⟩
      have hflow : checkFlowUnchanged files (docOf ⟨flowPath, files.hash flowPath, opts.typeGate⟩ snapshot)
          = .ok () := by
        unfold checkFlowUnchanged
        dsimp only [docOf]
        by_cases hempty : files.hash flowPath = "" <;> simp [hempty]
      unfold Later.resume at herr
      dsimp only [resumes] at herr
      rw [resume_eq hflow hauth hparse, hentry] at herr
      cases herr
  . intro h doc hdoc laters
    rcases left_of_runDurable hrun (List.mem_of_getLast? hdoc) with ⟨graph, snapshot, -, -, rfl, hleft⟩
    rcases h _ hdoc with ⟨hterminal, -⟩
    have hnode : decisionNode (docOf ⟨flowPath, files.hash flowPath, opts.typeGate⟩ snapshot) = none := by
      dsimp only [docOf] at hterminal
      cases hleft with
      | terminal _ _ hpending =>
        unfold decisionNode
        dsimp only [docOf]
        rw [hpending]
      | _ => simp_all
    have hrefused (later : Later)
        : ∃ err, later.resume py (docOf ⟨flowPath, files.hash flowPath, opts.typeGate⟩ snapshot) = .error err :=
      refused_terminal hterminal hnode later
    rw [resumes_refused hrefused]
    refine ⟨hrefused, rfl, rfl, ?_⟩
    rw [List.append_nil]
    apply length_runDurableCalls_le

/-- A worker that always returns the same outcome. -/
def gatedParties : Parties Unit :=
  pureParties (fun _ _ _ => .returned (.dict [("n", .int 5)])) firstRouter

/-- The run of the gated flow, given a budget. -/
def budgetRun (maxSteps : Nat) : Except CheckpointError Durable :=
  runDurable gatedFiles gatedPy {} "gated.md" gatedParties () maxSteps {}

/-- The run that reaches the end of its flow stays finished. -/
theorem budgetRun_stays_finished
    : ∃ durable r doc,
        budgetRun 25 = .ok durable
          ∧ durable.ending = .returned r
          ∧ durable.written.getLast? = some doc
          ∧ ∀ later : Later, ∃ err, later.resume gatedPy doc = .error err := by
  have hrun : ((budgetRun 25).toOption.map fun durable =>
      (durable.ending.result?.map RunResult.stopped, durable.written.getLast?.map Doc.stopped))
        = some (some (some .terminal), some (some .terminal)) := by
    with_unfolding_all decide
  cases hdurable : budgetRun 25 with
  | error err =>
    rw [hdurable] at hrun
    cases hrun
  | ok durable =>
    simp only [hdurable, Except.toOption, Option.map_some, Option.some.injEq, Prod.mk.injEq,
      Option.map_eq_some_iff] at hrun
    rcases hrun with ⟨⟨r, hr, hterminal⟩, doc, hdoc, hstopped⟩
    have hend : durable.ending = .returned r := by
      cases hending : durable.ending with
      | returned r' =>
        rw [hending] at hr
        cases hr
        rfl
      | raised errorType message =>
        rw [hending] at hr
        cases hr
    have hleft : ∀ doc', durable.written.getLast? = some doc' →
        doc'.stopped = some .terminal ∧ r.stopped = some .terminal := by
      intro doc' hdoc'
      rw [hdoc] at hdoc'
      cases hdoc'
      exact ⟨hstopped, hterminal⟩
    exact ⟨durable, r, doc, rfl, hend, hdoc,
      ((finished_stays_iff hdurable hend (.inl hterminal)).mpr hleft doc hdoc []).1⟩

/--
A run that is over at its budget of one is let through again: its document is that of a run under way, and the
worker is called for a second time.
-/
theorem budgetRun_resumed
    : ((budgetRun 1).toOption.bind fun durable => durable.written.getLast?.map fun doc =>
          (durable.ending.result?.bind RunResult.stopped, doc.stopped)) = some (some .maxSteps, none)
        ∧ runDurableCalls gatedFiles gatedPy {} "gated.md" gatedParties () 1 {} = ["a"]
        ∧ ((budgetRun 1).toOption.bind fun durable => durable.written.getLast?.bind fun doc =>
            (resume gatedFiles gatedPy gatedParties () doc {}).toOption.map fun resumed =>
              (resumed.ending.result?.bind RunResult.stopped,
                resumeCalls gatedFiles gatedPy gatedParties () doc {}))
          = some (some .terminal, ["a"]) := by
  with_unfolding_all decide

end Checkpoint
