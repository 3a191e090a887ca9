import Mathlib.Data.String.Basic
import PrismPath.Lib.Process
import PrismPath.Workers.Scheduler

/-!
This module contains which queues have every due timeout fire: those where a scan gets to every run that is to be resumed,
and where the resume admits it.
-/

open Python

namespace Scheduler

open Predicates Parser

variable {w : World} {now : PyFloat}

/- What is asked of a scan. -/

/-- The entries of a directory; no two of them share a name. -/
structure Queue where
  files : List File
  nodup : (files.map File.name).Nodup

/-- The edge that a waiting run takes when its timer is due, if the run has one. -/
def wanted (w : World) (now : PyFloat) (file : File) : Option Entry :=
  if file.isFile then
    match loadCheckpoint file with
    | none => none
    | some cp =>
      match isDue w now cp, flowGraph w cp with
      | .ok true, .ok graph =>
        match waitingNode graph cp with
        | .ok node => (timeoutTarget node).map fun target => ⟨.timeout, target⟩
        | .error _ => none
      | _, _ => none
  else
    none

/-- A scan resumes each waiting run that is due and has an on-timeout edge exactly once, by that edge, and no other run. -/
def EveryTimeoutFires (w : World) (now : PyFloat) (queue : Queue) : Prop :=
  (fireDueTimeouts w now queue.files).entered.Perm
    (queue.files.filterMap fun file => (wanted w now file).map fun entry => (file.name, entry))

/- What it takes. -/

/-- The resume lets the timeout through. -/
structure Admitted (w : World) (cp : Raw) : Prop where
  unchanged : checkFlowUnchanged w cp = .ok ()
  authorized : w.authorize ((List.lookup "flow_path" cp).getD (.str "")) = .ok ()
  undecided : recordedChoice cp = .ok .none
  transcript : checkTranscript cp = .ok ()
  steps : checkSteps cp = .ok ()

/--
The scan raises at the file: its timer is malformed, or it is due and the resume refuses it for another reason than its
authorization, or its run raises.
-/
inductive Stops (w : World) (now : PyFloat) (file : File) : Prop where
  | timer {cp : Raw} {raised : Raised} (hfile : file.isFile = true) (hload : loadCheckpoint file = some cp)
    (hdue : isDue w now cp = .error raised)
  | refused {cp : Raw} {errorType : String} (hfile : file.isFile = true) (hload : loadCheckpoint file = some cp)
    (hdue : isDue w now cp = .ok true) (henter : enter w cp = .error (.other errorType))
  | run {cp : Raw} {graph : Graph} {entry : Entry} {errorType : String} (hfile : file.isFile = true)
    (hload : loadCheckpoint file = some cp) (hdue : isDue w now cp = .ok true)
    (henter : enter w cp = .ok (graph, entry)) (hrun : w.run graph entry cp = .error (.other errorType))

/-- The file is due, and a decision that is recorded in it takes the place of the timeout. -/
structure Diverted (w : World) (now : PyFloat) (file : File) : Prop where
  isFile : file.isFile = true
  taken : ∃ cp graph start, loadCheckpoint file = some cp ∧ isDue w now cp = .ok true ∧
    enter w cp = .ok (graph, ⟨.human, start⟩)

/-- No file that the scan raises at is visible and comes before this one. -/
def Reached (w : World) (now : PyFloat) (queue : Queue) (file : File) : Prop :=
  visible file = true ∧ ∀ other ∈ queue.files, visible other = true → other.name < file.name → ¬ Stops w now other

structure Clear (w : World) (now : PyFloat) (queue : Queue) : Prop where
  reached : ∀ file ∈ queue.files, (wanted w now file).isSome = true → Reached w now queue file
  admitted : ∀ file ∈ queue.files, (wanted w now file).isSome = true → ∀ cp, loadCheckpoint file = some cp → Admitted w cp
  undiverted : ∀ file ∈ queue.files, Reached w now queue file → ¬ Diverted w now file

/- One file. -/

/-- Where the scan enters the run of a file, if it gets to the file. -/
def entryOf (w : World) (now : PyFloat) (file : File) : Option Entry :=
  match step w now file with
  | .resume entry _ => some entry
  | _ => none

theorem step_eq {file : File} {cp : Raw} (hfile : file.isFile = true) (hload : loadCheckpoint file = some cp)
    : step w now file = match isDue w now cp with
      | .error raised => .raise raised
      | .ok false => .skip
      | .ok true =>
        match enter w cp with
        | .error (.notAuthorized causes message) => .refuse causes message
        | .error raised => .raise raised
        | .ok (graph, entry) => .resume entry (w.run graph entry cp) := by
  unfold step
  rw [hfile, hload]
  rfl

/-- The scan ends at the file. -/
def Step.stops : Step → Bool
  | .raise _ => true
  | .resume _ (.error (.other _)) => true
  | _ => false

theorem stops_iff (file : File)
    : (step w now file).stops = true ↔ Stops w now file := by
  constructor
  . intro h
    cases hfile : file.isFile with
    | false =>
      unfold step at h
      rw [hfile] at h
      cases h
    | true =>
      cases hload : loadCheckpoint file with
      | none =>
        unfold step at h
        rw [hfile, hload] at h
        cases h
      | some cp =>
        rw [step_eq hfile hload] at h
        split at h
        . next raised hdue => exact .timer hfile hload hdue
        . cases h
        . next hdue =>
          split at h
          . cases h
          . next raised hother henter =>
            cases raised with
            | notAuthorized causes message => exact absurd rfl (hother causes message)
            | other errorType => exact .refused hfile hload hdue henter
          . next graph entry henter =>
            cases hrun : w.run graph entry cp with
            | ok _ =>
              rw [hrun] at h
              cases h
            | error raised =>
              rw [hrun] at h
              cases raised with
              | notAuthorized causes message => cases h
              | other errorType => exact .run hfile hload hdue henter hrun
  . intro h
    cases h with
    | timer hfile hload hdue =>
      rw [step_eq hfile hload, hdue]
      rfl
    | refused hfile hload hdue henter =>
      rw [step_eq hfile hload, hdue, henter]
      rfl
    | run hfile hload hdue henter hrun =>
      rw [step_eq hfile hload, hdue, henter]
      dsimp only
      rw [hrun]
      rfl

theorem entryOf_eq_some {file : File} {entry : Entry} (h : entryOf w now file = some entry)
    : file.isFile = true ∧ ∃ cp graph, loadCheckpoint file = some cp ∧ isDue w now cp = .ok true ∧
        enter w cp = .ok (graph, entry) := by
  unfold entryOf at h
  cases hfile : file.isFile with
  | false =>
    unfold step at h
    rw [hfile] at h
    cases h
  | true =>
    cases hload : loadCheckpoint file with
    | none =>
      unfold step at h
      rw [hfile, hload] at h
      cases h
    | some cp =>
      rw [step_eq hfile hload] at h
      split at h
      . next hstep =>
        cases h
        split at hstep
        . cases hstep
        . cases hstep
        . next hdue =>
          split at hstep
          . cases hstep
          . cases hstep
          . next graph entry' henter =>
            cases hstep
            exact ⟨rfl, cp, graph, rfl, hdue, henter⟩
      . cases h

theorem entryOf_of_enter {file : File} {cp : Raw} {graph : Graph} {entry : Entry} (hfile : file.isFile = true)
    (hload : loadCheckpoint file = some cp) (hdue : isDue w now cp = .ok true) (henter : enter w cp = .ok (graph, entry))
    : entryOf w now file = some entry := by
  unfold entryOf
  rw [step_eq hfile hload, hdue, henter]

/-- A resume goes by the timeout edge if and only if it is admitted and the run has the edge. -/
theorem enter_timeout_iff {cp : Raw} {graph : Graph} {target : String}
    : enter w cp = .ok (graph, ⟨.timeout, target⟩) ↔
        Admitted w cp ∧ flowGraph w cp = .ok graph ∧
          ∃ node, waitingNode graph cp = .ok node ∧ timeoutTarget node = some target := by
  constructor
  . intro h
    unfold enter at h
    rcases Except.bind_eq_ok.mp h with ⟨_, hunchanged, h⟩
    rcases Except.bind_eq_ok.mp h with ⟨_, hauthorized, h⟩
    rcases Except.bind_eq_ok.mp h with ⟨graph', hgraph, h⟩
    rcases Except.bind_eq_ok.mp h with ⟨choose, hchoose, h⟩
    rcases Except.bind_eq_ok.mp h with ⟨entry, hentry, h⟩
    cases h
    unfold enterBy at hentry
    split at hentry
    . unfold enterTimeout at hentry
      rcases Except.bind_eq_ok.mp hentry with ⟨node, hnode, hentry⟩
      split at hentry
      . cases hentry
      . next found hfound =>
        rcases Except.bind_eq_ok.mp hentry with ⟨_, htranscript, hentry⟩
        rcases Except.bind_eq_ok.mp hentry with ⟨_, hsteps, hentry⟩
        cases hentry
        exact ⟨⟨hunchanged, hauthorized, hchoose, htranscript, hsteps⟩, hgraph, node, hnode, hfound⟩
    . -- a recorded decision enters by the human's edge
      unfold enterChosen at hentry
      rcases Except.bind_eq_ok.mp hentry with ⟨decision, _, hentry⟩
      rcases Except.bind_eq_ok.mp hentry with ⟨node, _, hentry⟩
      split at hentry
      . split at hentry
        . rcases Except.bind_eq_ok.mp hentry with ⟨_, _, hentry⟩
          rcases Except.bind_eq_ok.mp hentry with ⟨_, _, hentry⟩
          cases hentry
        . cases hentry
      . cases hentry
  . rintro ⟨hadmitted, hgraph, node, hnode, htarget⟩
    have hentry : enterTimeout graph cp = .ok ⟨.timeout, target⟩ := by
      unfold enterTimeout
      rw [hnode]
      simp only [bind, Except.bind, htarget, hadmitted.transcript, hadmitted.steps]
      rfl
    unfold enter
    rw [hadmitted.unchanged, hadmitted.authorized, hgraph, hadmitted.undecided]
    simp only [bind, Except.bind, enterBy, hentry]
    rfl

theorem wanted_eq_some {file : File} {entry : Entry}
    : wanted w now file = some entry ↔
        file.isFile = true ∧ ∃ cp graph node target, loadCheckpoint file = some cp ∧ isDue w now cp = .ok true ∧
          flowGraph w cp = .ok graph ∧ waitingNode graph cp = .ok node ∧ timeoutTarget node = some target ∧
            entry = ⟨.timeout, target⟩ := by
  constructor
  . intro h
    unfold wanted at h
    split at h
    . next hfile =>
      split at h
      . cases h
      . next cp hload =>
        split at h
        . next graph hdue hgraph =>
          split at h
          . next node hnode =>
            rcases Option.map_eq_some_iff.mp h with ⟨target, htarget, rfl⟩
            exact ⟨hfile, cp, graph, node, target, hload, hdue, hgraph, hnode, htarget, rfl⟩
          . cases h
        . cases h
    . cases h
  . rintro ⟨hfile, cp, graph, node, target, hload, hdue, hgraph, hnode, htarget, rfl⟩
    unfold wanted
    rw [if_pos hfile, hload]
    simp only [hdue, hgraph, hnode, htarget, Option.map_some]

theorem entryOf_of_wanted {file : File} {entry : Entry} (hwanted : wanted w now file = some entry)
    (hadmitted : ∀ cp, loadCheckpoint file = some cp → Admitted w cp)
    : entryOf w now file = some entry := by
  rcases wanted_eq_some.mp hwanted with ⟨hfile, cp, graph, node, target, hload, hdue, hgraph, hnode, htarget, rfl⟩
  apply entryOf_of_enter hfile hload hdue
  exact enter_timeout_iff.mpr ⟨hadmitted cp hload, hgraph, node, hnode, htarget⟩

/-- A run that is entered by its timeout edge is one that was to be, and it was admitted. -/
theorem wanted_of_entryOf {file : File} {target : String} (h : entryOf w now file = some ⟨.timeout, target⟩)
    : wanted w now file = some ⟨.timeout, target⟩ ∧ ∀ cp, loadCheckpoint file = some cp → Admitted w cp := by
  rcases entryOf_eq_some h with ⟨hfile, cp, graph, hload, hdue, henter⟩
  rcases enter_timeout_iff.mp henter with ⟨hadmitted, hgraph, node, hnode, htarget⟩
  refine ⟨wanted_eq_some.mpr ⟨hfile, cp, graph, node, target, hload, hdue, hgraph, hnode, htarget, rfl⟩, ?_⟩
  intro cp' hload'
  rw [hload] at hload'
  cases hload'
  exact hadmitted

theorem diverted_iff {file : File}
    : Diverted w now file ↔ ∃ start, entryOf w now file = some ⟨.human, start⟩ := by
  constructor
  . rintro ⟨hfile, cp, graph, start, hload, hdue, henter⟩
    exact ⟨start, entryOf_of_enter hfile hload hdue henter⟩
  . rintro ⟨start, h⟩
    rcases entryOf_eq_some h with ⟨hfile, cp, graph, hload, hdue, henter⟩
    exact ⟨hfile, cp, graph, start, hload, hdue, henter⟩

/- The scan. -/

theorem scan_cons (file : File) (files : List File)
    : (scan w now (file :: files)).entered =
        (entryOf w now file).toList.map (fun entry => (file.name, entry)) ++
          if (step w now file).stops then [] else (scan w now files).entered := by
  rw [scan]
  unfold entryOf
  cases step w now file with
  | skip => rfl
  | refuse causes message => rfl
  | raise raised => rfl
  | resume entry ending =>
    cases ending with
    | ok _ => rfl
    | error raised =>
      cases raised with
      | notAuthorized causes message => rfl
      | other errorType => rfl

/-- Of files in the order of their names, the scan enters each up to the first that it raises at. -/
theorem mem_entered {files : List File} (hsorted : files.Pairwise fun f g => f.name < g.name) (x : String × Entry)
    : x ∈ (scan w now files).entered ↔
        ∃ file ∈ files, (∀ other ∈ files, other.name < file.name → ¬ Stops w now other) ∧
          ∃ entry, entryOf w now file = some entry ∧ x = (file.name, entry) := by
  induction files with
  | nil => simp [scan]
  | cons file files ih =>
    rw [List.pairwise_cons] at hsorted
    rw [scan_cons, List.mem_append]
    constructor
    . rintro (h | h)
      . rcases List.mem_map.mp h with ⟨entry, hentry, rfl⟩
        refine ⟨file, List.mem_cons_self, ?_, entry, by simpa using hentry, rfl⟩
        intro other hother hlt
        rcases List.mem_cons.mp hother with rfl | hother
        . exact absurd hlt (lt_irrefl _)
        . exact absurd hlt (lt_asymm (hsorted.1 other hother))
      . split at h
        . cases h
        . next hstops =>
          rcases (ih hsorted.2).mp h with ⟨later, hlater, hclear, entry, hentry, rfl⟩
          refine ⟨later, List.mem_cons_of_mem _ hlater, ?_, entry, hentry, rfl⟩
          intro other hother hlt
          rcases List.mem_cons.mp hother with rfl | hother
          . rwa [stops_iff] at hstops
          . exact hclear other hother hlt
    . rintro ⟨found, hfound, hclear, entry, hentry, rfl⟩
      rcases List.mem_cons.mp hfound with rfl | hfound
      . left
        simp [hentry]
      . right
        have hstops := hclear file List.mem_cons_self (hsorted.1 found hfound)
        rw [← stops_iff] at hstops
        rw [if_neg hstops]
        refine (ih hsorted.2).mpr ⟨found, hfound, ?_, entry, hentry, rfl⟩
        intro other hother hlt
        exact hclear other (List.mem_cons_of_mem _ hother) hlt

theorem entered_sublist (files : List File)
    : ((scan w now files).entered.map Prod.fst).Sublist (files.map File.name) := by
  induction files with
  | nil => simp [scan]
  | cons file files ih =>
    have hrest : ((if (step w now file).stops then [] else (scan w now files).entered).map Prod.fst).Sublist
        (files.map File.name) := by
      split
      . simp
      . exact ih
    rw [scan_cons, List.map_append, List.map_cons]
    cases entryOf w now file with
    | none => exact hrest.cons _
    | some entry => exact hrest.cons_cons _

/- Queues. -/

def listing (queue : Queue) : List File :=
  (queue.files.filter visible).mergeSort fun f g => decide (f.name ≤ g.name)

theorem mem_listing {queue : Queue} {file : File}
    : file ∈ listing queue ↔ file ∈ queue.files ∧ visible file = true := by
  rw [listing, (List.mergeSort_perm _ _).mem_iff, List.mem_filter]

theorem nodup_listing (queue : Queue)
    : ((listing queue).map File.name).Nodup := by
  have hperm := (List.mergeSort_perm (queue.files.filter visible) fun f g => decide (f.name ≤ g.name)).map File.name
  rw [listing, hperm.nodup_iff]
  exact queue.nodup.sublist (List.filter_sublist.map _)

theorem sorted_listing (queue : Queue)
    : (listing queue).Pairwise fun f g => f.name < g.name := by
  have hle : (listing queue).Pairwise fun f g => decide (f.name ≤ g.name) = true := by
    apply List.pairwise_mergeSort
    . intro a b c hab hbc
      simp only [decide_eq_true_eq] at hab hbc ⊢
      exact hab.trans hbc
    . intro a b
      simpa using le_total a.name b.name
  have hne : (listing queue).Pairwise fun f g => f.name ≠ g.name :=
    List.pairwise_map.mp (nodup_listing queue)
  refine (hle.and hne).imp ?_
  rintro f g ⟨hle, hne⟩
  exact lt_of_le_of_ne (by simpa using hle) hne

theorem mem_fired {queue : Queue} {x : String × Entry}
    : x ∈ (fireDueTimeouts w now queue.files).entered ↔
        ∃ file ∈ queue.files, Reached w now queue file ∧ ∃ entry, entryOf w now file = some entry ∧ x = (file.name, entry) := by
  have h := @mem_entered w now (listing queue) (sorted_listing queue) x
  unfold fireDueTimeouts
  rw [← listing, h]
  constructor
  . rintro ⟨file, hfile, hclear, hentry⟩
    rw [mem_listing] at hfile
    refine ⟨file, hfile.1, ⟨hfile.2, ?_⟩, hentry⟩
    intro other hother hvisible hlt
    exact hclear other (mem_listing.mpr ⟨hother, hvisible⟩) hlt
  . rintro ⟨file, hfile, ⟨hvisible, hclear⟩, hentry⟩
    refine ⟨file, mem_listing.mpr ⟨hfile, hvisible⟩, ?_, hentry⟩
    intro other hother hlt
    rw [mem_listing] at hother
    exact hclear other hother.1 hother.2 hlt

theorem nodup_wanted (queue : Queue)
    : (queue.files.filterMap fun file => (wanted w now file).map fun entry => (file.name, entry)).Nodup := by
  have hsub (files : List File)
      : ((files.filterMap fun file => (wanted w now file).map fun entry => (file.name, entry)).map Prod.fst).Sublist
          (files.map File.name) := by
    induction files with
    | nil => simp
    | cons file files ih =>
      rw [List.filterMap_cons, List.map_cons]
      cases wanted w now file with
      | none => exact ih.cons _
      | some entry => exact ih.cons_cons _
  exact (queue.nodup.sublist (hsub queue.files)).of_map

theorem nodup_entered (queue : Queue)
    : (fireDueTimeouts w now queue.files).entered.Nodup :=
  ((nodup_listing queue).sublist (entered_sublist (listing queue))).of_map

theorem file_eq_of_name {queue : Queue} {file other : File} (hfile : file ∈ queue.files) (hother : other ∈ queue.files)
    (h : file.name = other.name)
    : file = other :=
  List.inj_on_of_nodup_map queue.nodup hfile hother h

/-- Every due timeout fires, each once and nothing else, if and only if the queue is clear. -/
theorem everyTimeoutFires_iff (w : World) (now : PyFloat) (queue : Queue)
    : EveryTimeoutFires w now queue ↔ Clear w now queue := by
  unfold EveryTimeoutFires
  rw [List.perm_ext_iff_of_nodup (nodup_entered queue) (nodup_wanted queue)]
  constructor
  . intro h
    have hwanted {file : File} {entry : Entry} (hfile : file ∈ queue.files) (hentry : wanted w now file = some entry)
        : Reached w now queue file ∧ entryOf w now file = some entry := by
      have hmem := (h (file.name, entry)).mpr (List.mem_filterMap.mpr ⟨file, hfile, by rw [hentry]; rfl⟩)
      rcases mem_fired.mp hmem with ⟨other, hother, hreached, entry', hentry', heq⟩
      rw [Prod.mk.injEq] at heq
      rw [file_eq_of_name hfile hother heq.1, heq.2]
      exact ⟨hreached, hentry'⟩
    refine ⟨?_, ?_, ?_⟩
    . intro file hfile hsome
      rcases Option.isSome_iff_exists.mp hsome with ⟨entry, hentry⟩
      exact (hwanted hfile hentry).1
    . intro file hfile hsome
      rcases Option.isSome_iff_exists.mp hsome with ⟨entry, hentry⟩
      rcases wanted_eq_some.mp hentry with ⟨_, _, _, _, target, _, _, _, _, _, rfl⟩
      exact (wanted_of_entryOf (hwanted hfile hentry).2).2
    . intro file hfile hreached hdiverted
      rcases diverted_iff.mp hdiverted with ⟨start, hentry⟩
      have hmem := (h (file.name, ⟨.human, start⟩)).mp (mem_fired.mpr ⟨file, hfile, hreached, _, hentry, rfl⟩)
      rcases List.mem_filterMap.mp hmem with ⟨other, _, hother⟩
      rcases Option.map_eq_some_iff.mp hother with ⟨entry, hwantedOther, heq⟩
      rcases wanted_eq_some.mp hwantedOther with ⟨_, _, _, _, target, _, _, _, _, _, rfl⟩
      simp at heq
  . rintro ⟨hreached, hadmitted, hundiverted⟩ x
    rw [mem_fired, List.mem_filterMap]
    constructor
    . rintro ⟨file, hfile, hfileReached, ⟨via, target⟩, hentry, rfl⟩
      cases via with
      | timeout => exact ⟨file, hfile, by rw [(wanted_of_entryOf hentry).1]; rfl⟩
      | human => exact absurd (diverted_iff.mpr ⟨target, hentry⟩) (hundiverted file hfile hfileReached)
    . rintro ⟨file, hfile, hx⟩
      rcases Option.map_eq_some_iff.mp hx with ⟨entry, hentry, rfl⟩
      have hsome : (wanted w now file).isSome = true := by
        rw [hentry]
        rfl
      exact ⟨file, hfile, hreached file hfile hsome, entry, entryOf_of_wanted hentry (hadmitted file hfile hsome), rfl⟩

/- A malformed timer in front of a due run. -/

def approvalGraph : Graph where
  name := "approval"
  start := "wait"
  nodes := [{ name := "wait", edges := [⟨"cancelled", "on timeout"⟩] }, { name := "cancelled", edges := [] }]
  nodup := show ["wait", "cancelled"].Nodup by decide

/-- One flow, authorized and unchanged, whose runs all return. -/
def approvalWorld : World where
  flowHash _ := .ok ""
  onChange := .refuse
  authorize _ := .ok ()
  parseFile _ := .ok approvalGraph
  float _ := none
  run _ _ _ := .ok ()

def waitingRun (timeoutS : Value) : Value :=
  .dict [("version", .int 1), ("flow_path", .str "approval.md"), ("stopped", .str "waiting"), ("saved_at", .int 0),
    ("pending_decision", .dict [("node", .str "wait"), ("timeout_s", timeoutS)])]

def twoRuns : Queue where
  files := [⟨"a.json", true, some (waitingRun (.str "soon"))⟩, ⟨"b.json", true, some (waitingRun (.int 1))⟩]
  nodup := show ["a.json", "b.json"].Nodup by decide

theorem malformedTimer_stops_scan
    : ¬ ∀ (w : World) (now : PyFloat) (queue : Queue), EveryTimeoutFires w now queue := by
  intro h
  have hclear := (everyTimeoutFires_iff approvalWorld (.ofRat 10) twoRuns).mp (h _ _ _)
  have hwanted : (wanted approvalWorld (.ofRat 10) ⟨"b.json", true, some (waitingRun (.int 1))⟩).isSome = true := by
    decide +kernel
  have hstops : Stops approvalWorld (.ofRat 10) ⟨"a.json", true, some (waitingRun (.str "soon"))⟩ := by
    rw [← stops_iff]
    decide +kernel
  have hreached := hclear.reached _ (List.mem_cons_of_mem _ List.mem_cons_self) hwanted
  exact hreached.2 _ List.mem_cons_self (by decide +kernel) (by decide +kernel) hstops

end Scheduler
