import PrismPath.Kernel.Analyze
import PrismPath.Kernel.DeadEdges
import PrismPath.Kernel.EngineLemmas
import PrismPath.Ledgers.CheckpointLemmas

/-!
This module contains what the findings about single edges are worth: an edge that is reported dead matches nothing, an
edge that is reported shadowed is taken by no run, and the graphs for which the analysis gets as far as its findings.
-/

open Python

namespace Analysis

open Predicates Parser Engine

/- The edges a run takes, by their positions. -/

/-- The error edge that handles an exception. -/
def errorPosition (py : Runtime) (ctx : Ctx) (node : Node) : Option ℕ :=
  node.edges.findIdx? fun edge => isError edge.condition && (guardResult py ctx edge.condition matches .ok true)

/-- The first deterministic edge that matches. -/
def deterministicPosition (py : Runtime) (ctx : Ctx) (node : Node) : Option ℕ :=
  node.edges.findIdx? fun edge => isDeterministic edge.condition && hit py edge.condition ctx

/-- The first edge for an event. -/
def eventPosition (event : String) (node : Node) : Option ℕ :=
  node.edges.findIdx? fun edge => isEvent edge.condition && eventName edge.condition = event

/-- What the error tier of a pass reads. -/
def errorContextAt (node : Node) (result : RunResult) (errorType message : String) : Ctx :=
  errorContext errorType message (count (countError node result).state.errors node.name)
    (count result.state.visits node.name)

/-- What the deterministic tier of a pass reads. -/
def contextAt (py : Runtime) (node : Node) (result : RunResult) (value : Value) : Ctx :=
  context (normalize py value).2 (count result.state.visits node.name)

/-- The edges a pass over a node can go on by; the router names its edge by the target only. -/
inductive Takes (py : Runtime) (node : Node) (result : RunResult) (router : Router) : Outcome → ℕ → Prop
  | error {errorType message : String} {i : ℕ}
      : errorPosition py (errorContextAt node result errorType message) node = some i →
        Takes py node result router (.raised errorType message) i
  | deterministic {value : Value} {i : ℕ}
      : deterministicPosition py (contextAt py node result value) node = some i →
        Takes py node result router (.returned value) i
  | semantic {value : Value} {i : ℕ} {edge : Edge}
      : deterministicPosition py (contextAt py node result value) node = none →
        node.edges[i]? = some edge → isSemantic edge.condition = true →
        edge.target = (router.route (normalize py value).1 (semanticEdges node) node.instruction).target →
        Takes py node result router (.returned value) i

theorem exists_position {α : Type} {p : α → Bool} {as : List α} {a : α} (h : as.find? p = some a)
    : ∃ i, as.findIdx? p = some i ∧ as[i]? = some a := by
  rw [List.find?_eq_bind_findIdx?_getElem?] at h
  exact Option.bind_eq_some_iff.mp h

theorem exists_errorPosition {py : Runtime} {ctx : Ctx} {edges : List Edge} {target : String}
    (h : (errorTarget py ctx edges).1 = some target)
    : ∃ edge, edges.find? (fun edge => isError edge.condition && (guardResult py ctx edge.condition matches .ok true))
        = some edge ∧ edge.target = target := by
  induction edges with
  | nil => cases h
  | cons edge edges ih =>
    rw [errorTarget] at h
    rw [List.find?_cons]
    cases herror : isError edge.condition with
    | false =>
      rw [herror] at h
      simpa using ih h
    | true =>
      rw [herror] at h
      simp only [if_true] at h
      split at h
      . next hguard =>
        rw [hguard]
        exact ⟨edge, rfl, Option.some.inj h⟩
      . next hguard =>
        rw [hguard]
        simpa using ih h
      . next hguard =>
        rw [hguard]
        simpa using ih h

theorem routeSemantic_target {opts : Options} {node : Node} {result result' : RunResult} {text : String}
    {router : Router} {name : String} (h : routeSemantic opts node result text router = .goto name result')
    : semanticEdges node ≠ [] ∧ name = (router.route text (semanticEdges node) node.instruction).target := by
  unfold routeSemantic at h
  split at h
  . cases h
  . next hsem =>
    dsimp only at h
    split at h
    . cases h
    . cases h
      exact ⟨by simpa using hsem, rfl⟩

/-- A pass that goes on takes an edge. -/
theorem exists_takes {py : Runtime} {opts : Options} {keep : Option ℤ} {node : Node} {result result' : RunResult}
    {outcome : Outcome} {router : Router} {name : String}
    (h : step py opts keep node result outcome router = .goto name result')
    : ∃ i edge, Takes py node result router outcome i ∧ node.edges[i]? = some edge ∧ edge.target = name := by
  cases outcome with
  | raised errorType message =>
    simp only [step, handleError] at h
    split at h
    . cases h
    . next target errs heq =>
      cases h
      rcases exists_errorPosition (by rw [heq]) with ⟨edge, hfind, htarget⟩
      rcases exists_position hfind with ⟨i, hi, hedge⟩
      exact ⟨i, edge, .error hi, hedge, htarget⟩
  | returned value =>
    simp only [step, handleOutcome, recordOutcome_visits] at h
    split at h
    . cases h
    . split at h
      . cases h
      . split at h
        . cases h
        . split at h
          . next edge hfirst =>
            cases h
            rcases exists_position hfirst with ⟨i, hi, hedge⟩
            exact ⟨i, edge, .deterministic hi, hedge, rfl⟩
          . next hfirst =>
            rcases routeSemantic_target h with ⟨hne, hname⟩
            rcases router.listed (normalize py value).1 (semanticEdges node) node.instruction hne
              with ⟨edge, hmem, htarget⟩
            rcases List.mem_filter.mp hmem with ⟨hedges, hsemantic⟩
            rcases List.mem_iff_getElem?.mp hedges with ⟨i, hi⟩
            have hnone : deterministicPosition py (contextAt py node result value) node = none := by
              unfold deterministicPosition
              rw [List.findIdx?_eq_none_iff]
              intro edge hedge
              have := List.find?_eq_none.mp hfirst edge hedge
              simpa [contextAt] using this
            exact ⟨i, edge, .semantic hnone hi hsemantic htarget, hi, by rw [htarget, hname]⟩

/-- The edges that a loop takes from where it stands. -/
inductive Travels {σ : Type} (py : Runtime) (opts : Options) (keep : Option ℤ) (graph : Graph) (parties : Parties σ)
    : ℕ → σ → String → RunResult → Node → ℕ → Prop
  | here {fuel : ℕ} {s s' : σ} {name name' : String} {result result' : RunResult} {node : Node} {outcome : Outcome}
      {i : ℕ} {edge : Edge}
      : graph.get? name = some node → node.terminal = false →
        parties.worker s name node.instruction (visit name result).state = (outcome, s') →
        step py opts keep node (visit name result) outcome (parties.router s') = .goto name' result' →
        Takes py node (visit name result) (parties.router s') outcome i →
        node.edges[i]? = some edge → edge.target = name' →
        Travels py opts keep graph parties (fuel + 1) s name result node i
  | later {fuel : ℕ} {s s' : σ} {name name' : String} {result result' : RunResult} {node other : Node}
      {outcome : Outcome} {i : ℕ}
      : graph.get? name = some node → node.terminal = false →
        parties.worker s name node.instruction (visit name result).state = (outcome, s') →
        step py opts keep node (visit name result) outcome (parties.router s') = .goto name' result' →
        Travels py opts keep graph parties fuel s' name' result' other i →
        Travels py opts keep graph parties (fuel + 1) s name result other i

theorem step_goto_steps {py : Runtime} {opts : Options} {keep : Option ℤ} {node : Node} {result result' : RunResult}
    {outcome : Outcome} {router : Router} {name : String}
    (h : step py opts keep node result outcome router = .goto name result')
    : ∃ text info, result'.steps = result.steps ++ [⟨node.name, text, name, info⟩] := by
  cases outcome with
  | raised errorType message =>
    simp only [step, handleError] at h
    split at h
    . cases h
    . cases h
      exact ⟨_, _, rfl⟩
  | returned value =>
    simp only [step, handleOutcome, routeSemantic] at h
    repeat' split at h
    all_goals cases h
    all_goals exact ⟨_, _, rfl⟩

/-- Every step that a loop adds to its result goes along an edge it takes. -/
theorem exists_travels {σ : Type} {py : Runtime} {opts : Options} {keep : Option ℤ} {graph : Graph}
    {parties : Parties σ} {fuel : ℕ} {s : σ} {name : String} {result final : RunResult}
    (h : (loop py opts keep graph parties fuel s name result).ending = .returned final)
    : ∀ step ∈ final.steps, step ∈ result.steps ∨
        ∃ node i edge, Travels py opts keep graph parties fuel s name result node i ∧
          node.edges[i]? = some edge ∧ step.node = node.name ∧ step.target = edge.target := by
  induction fuel generalizing s name result with
  | zero =>
    cases h
    exact fun step hstep => .inl hstep
  | succ fuel ih =>
    cases hnode : graph.get? name with
    | none =>
      rw [loop_missing hnode] at h
      cases h
    | some node =>
      by_cases hterminal : node.terminal = true
      . rw [loop_terminal hnode hterminal] at h
        cases h
        exact fun step hstep => .inl hstep
      . generalize hworker : parties.worker s name node.instruction (visit name result).state = called
        rcases called with ⟨outcome, s'⟩
        rw [loop_pass hnode hterminal hworker, Trace.cons] at h
        have hgoes : node.terminal = false := by simpa using hterminal
        cases hstep : Engine.step py opts keep node (visit name result) outcome (parties.router s') with
        | goto name' result' =>
          rw [hstep] at h
          rcases exists_takes hstep with ⟨i, edge, htakes, hedge, htarget⟩
          rcases step_goto_steps hstep with ⟨text, info, hsteps⟩
          intro step hmem
          rcases ih h step hmem with hmem | ⟨other, j, edge', htravels, hrest⟩
          . rw [hsteps, List.mem_append, List.mem_singleton] at hmem
            rcases hmem with hmem | rfl
            . exact .inl hmem
            . exact .inr ⟨node, i, edge, .here hnode hgoes hworker hstep htakes hedge htarget, hedge, rfl, htarget.symm⟩
          . exact .inr ⟨other, j, edge', .later hnode hgoes hworker hstep htravels, hrest⟩
        | stop name' result' =>
          rw [hstep] at h
          cases h
          rcases step_stop hstep with ⟨_, value, _, hhalts⟩
          intro step hmem
          rw [hhalts.frame.2.1] at hmem
          exact .inl hmem
        | raise errorType message =>
          rw [hstep] at h
          cases h

/-- An event resumes a run along the first edge of the node for it. -/
theorem exists_eventPosition {graph : Graph} {doc : Checkpoint.Doc} {event : String} {entry : Checkpoint.Entry}
    (h : Checkpoint.enterEvent graph doc event = .ok entry)
    : ∃ node i edge, (Checkpoint.decisionNode doc).bind graph.get? = some node ∧ eventPosition event node = some i ∧
        node.edges[i]? = some edge ∧ edge.target = entry.start := by
  unfold Checkpoint.enterEvent at h
  split at h
  . cases h
  . next node hnode =>
    split at h
    . cases h
    . next edge hfind =>
      cases h
      unfold eventEdges at hfind
      rw [List.find?_filter] at hfind
      rcases exists_position hfind with ⟨i, hi, hedge⟩
      have hposition : eventPosition event node = some i := by
        rw [← hi]
        simp [eventPosition]
      exact ⟨node, i, edge, hnode, hposition, hedge, rfl⟩

/-- Some run takes the edge, or an event resumes a run along it. -/
inductive Crossed (py : Runtime) (graph : Graph) (node : Node) (i : ℕ) : Prop
  | pass {σ : Type} {opts : Options} {keep : Option ℤ} {parties : Parties σ} {fuel : ℕ} {s : σ} {name : String}
      {result : RunResult}
      : Travels py opts keep graph parties fuel s name result node i → Crossed py graph node i
  | event {doc : Checkpoint.Doc} {event : String} {entry : Checkpoint.Entry}
      : Checkpoint.enterEvent graph doc event = .ok entry →
        (Checkpoint.decisionNode doc).bind graph.get? = some node → eventPosition event node = some i →
        Crossed py graph node i

/- The tiers of the edges exclude one another. -/

theorem isEvent_eq_false_of_isDeterministic {condition : String} (h : isDeterministic condition = true)
    : isEvent condition = false := by
  by_contra hevent
  rw [Bool.not_eq_false] at hevent
  unfold isEvent at hevent
  dsimp only at hevent
  rw [Bool.or_eq_true] at hevent
  have hon : startsWith (lower (strip condition)) "on" = true := by
    rcases hevent with hevent | hevent
    . exact startsWith_trans hevent (startsWith_append "on" " event")
    . exact startsWith_trans hevent (startsWith_append "on" " timeout")
  rw [not_startsWith_on h] at hon
  cases hon

/-- A text that starts with two words starts with one of them inside the other. -/
theorem isPrefixOf_or_of_startsWith {s p q : String} (hp : startsWith s p = true) (hq : startsWith s q = true)
    : startsWith p q = true ∨ startsWith q p = true := by
  rw [startsWith_iff] at hp hq
  rw [startsWith_iff, startsWith_iff]
  exact (List.prefix_or_prefix_of_prefix hp hq).symm

theorem isEvent_eq_false_of_isError {condition : String} (h : isError condition = true)
    : isEvent condition = false := by
  by_contra hevent
  rw [Bool.not_eq_false] at hevent
  unfold isEvent at hevent
  dsimp only at hevent
  rw [Bool.or_eq_true] at hevent
  rcases hevent with hevent | hevent
  . rcases isPrefixOf_or_of_startsWith h hevent with hword | hword
    . exact absurd hword (by with_unfolding_all decide)
    . exact absurd hword (by with_unfolding_all decide)
  . rcases isPrefixOf_or_of_startsWith h hevent with hword | hword
    . exact absurd hword (by with_unfolding_all decide)
    . exact absurd hword (by with_unfolding_all decide)

/- What taking an edge says of it. -/

theorem position_spec {p : Edge → Bool} {node : Node} {i : ℕ} (h : node.edges.findIdx? p = some i)
    : ∃ edge, node.edges[i]? = some edge ∧ p edge = true := by
  rcases List.findIdx?_eq_some_iff_getElem.mp h with ⟨hlt, hp, _⟩
  exact ⟨node.edges[i], List.getElem?_eq_getElem hlt, hp⟩

/-- The first edge that meets a test comes no later than any that meets it. -/
theorem position_le {p : Edge → Bool} {node : Node} {i j : ℕ} (h : node.edges.findIdx? p = some i) {edge : Edge}
    (hedge : node.edges[j]? = some edge) (hp : p edge = true)
    : i ≤ j := by
  rcases List.findIdx?_eq_some_iff_getElem.mp h with ⟨_, _, hbefore⟩
  by_contra hlt
  rcases List.getElem?_eq_some_iff.mp hedge with ⟨hj, rfl⟩
  exact hbefore j (by omega) hp

/-- What an edge that can be taken is. -/
inductive Kind (py : Runtime) (node : Node) (i : ℕ) : Edge → Prop
  | error {edge : Edge} (ctx : Ctx)
      : isError edge.condition = true → errorPosition py ctx node = some i → Kind py node i edge
  | deterministic {edge : Edge} (ctx : Ctx)
      : isDeterministic edge.condition = true → deterministicPosition py ctx node = some i → Kind py node i edge
  | semantic {edge : Edge} (ctx : Ctx)
      : isSemantic edge.condition = true → deterministicPosition py ctx node = none → Kind py node i edge
  | event {edge : Edge} (name : String)
      : isEvent edge.condition = true → eventPosition name node = some i → Kind py node i edge

theorem kind_of_takes {py : Runtime} {node : Node} {result : RunResult} {router : Router} {outcome : Outcome} {i : ℕ}
    (h : Takes py node result router outcome i)
    : ∃ edge, node.edges[i]? = some edge ∧ Kind py node i edge := by
  cases h with
  | error hi =>
    rcases position_spec hi with ⟨edge, hedge, hp⟩
    rw [Bool.and_eq_true] at hp
    exact ⟨edge, hedge, .error _ hp.1 hi⟩
  | deterministic hi =>
    rcases position_spec hi with ⟨edge, hedge, hp⟩
    rw [Bool.and_eq_true] at hp
    exact ⟨edge, hedge, .deterministic _ hp.1 hi⟩
  | semantic hnone hedge hsemantic _ => exact ⟨_, hedge, .semantic _ hsemantic hnone⟩

theorem kind_of_travels {σ : Type} {py : Runtime} {opts : Options} {keep : Option ℤ} {graph : Graph}
    {parties : Parties σ} {fuel : ℕ} {s : σ} {name : String} {result : RunResult} {node : Node} {i : ℕ}
    (h : Travels py opts keep graph parties fuel s name result node i)
    : ∃ edge, node.edges[i]? = some edge ∧ Kind py node i edge := by
  induction h with
  | here _ _ _ _ htakes _ _ => exact kind_of_takes htakes
  | later _ _ _ _ _ ih => exact ih

theorem kind_of_crossed {py : Runtime} {graph : Graph} {node : Node} {i : ℕ} (h : Crossed py graph node i)
    : ∃ edge, node.edges[i]? = some edge ∧ Kind py node i edge := by
  cases h with
  | pass htravels => exact kind_of_travels htravels
  | event _ _ hi =>
    rcases position_spec hi with ⟨edge, hedge, hp⟩
    rw [Bool.and_eq_true] at hp
    exact ⟨edge, hedge, .event _ hp.1 hi⟩

/- Shadowed edges. -/

theorem isSemantic_excludes {condition : String} (h : isSemantic condition = true)
    : isDeterministic condition = false ∧ isError condition = false ∧ isEvent condition = false := by
  unfold isSemantic at h
  rw [Bool.and_eq_true, Bool.and_eq_true] at h
  simpa [and_assoc] using h

theorem mem_zipIdx_filterMap {β : Type} {f : Edge × ℕ → Option β} {node : Node} {b : β}
    (h : b ∈ node.edges.zipIdx.filterMap f)
    : ∃ edge i, node.edges[i]? = some edge ∧ f (edge, i) = some b := by
  rcases List.mem_filterMap.mp h with ⟨⟨edge, i⟩, hmem, hf⟩
  exact ⟨edge, i, List.mem_zipIdx_iff_getElem?.mp hmem, hf⟩

/-- An edge behind one that always matches is not taken, and a semantic edge beside one neither. -/
theorem not_crossed_of_shadowed {py : Runtime} {graph : Graph} {node : Node} {i : ℕ} {message : String}
    (h : (i, message) ∈ shadowed py node)
    : ¬ Crossed py graph node i := by
  intro hcrossed
  rcases kind_of_crossed hcrossed with ⟨edge, hedge, hkind⟩
  unfold shadowed at h
  cases hfirst : firstTrue py node with
  | none =>
    rw [hfirst] at h
    cases h
  | some first =>
    rw [hfirst] at h
    rcases mem_zipIdx_filterMap h with ⟨edge', j, hedge', hmessage⟩
    rcases Option.map_eq_some_iff.mp hmessage with ⟨text, hshadow, heq⟩
    cases heq
    rw [hedge] at hedge'
    cases hedge'
    unfold shadowMessage at hshadow
    rcases position_spec hfirst with ⟨catchAll, hcatchAll, halways⟩
    rw [Bool.and_eq_true] at halways
    have hmatches (ctx : Ctx)
        : (isDeterministic catchAll.condition && hit py catchAll.condition ctx) = true := by
      rw [halways.1, hit_of_isAlwaysTrue halways.2 ctx]
      rfl
    split at hshadow
    . cases hshadow
    . next hne =>
      split at hshadow
      . cases hshadow
      . next htier =>
        rw [Bool.or_eq_true, not_or] at htier
        cases hkind with
        | error ctx herror _ => exact htier.1 herror
        | event name hevent _ => exact htier.2 hevent
        | deterministic ctx hdet hi =>
          have hle := position_le hi hcatchAll (hmatches ctx)
          rw [hdet] at hshadow
          simp only [Bool.true_and, decide_eq_true_eq, Bool.not_true, Bool.false_eq_true, if_false] at hshadow
          split at hshadow
          . omega
          . cases hshadow
        | semantic ctx _ hnone =>
          have := List.findIdx?_eq_none_iff.mp hnone catchAll (List.mem_of_getElem? hcatchAll)
          rw [hmatches ctx] at this
          cases this

/-- No error edge behind a bare one is taken. -/
theorem not_crossed_of_shadowedErrors {py : Runtime} {graph : Graph} {node : Node} {i : ℕ} {shadow : Edge}
    (h : (i, shadow) ∈ shadowedErrors node)
    : ¬ Crossed py graph node i := by
  intro hcrossed
  rcases kind_of_crossed hcrossed with ⟨edge, hedge, hkind⟩
  unfold shadowedErrors at h
  cases hfirst : firstBare node with
  | none =>
    rw [hfirst] at h
    cases h
  | some first =>
    rw [hfirst] at h
    rcases mem_zipIdx_filterMap h with ⟨edge', j, hedge', hshadow⟩
    simp only at hshadow
    split at hshadow
    . next hbehind =>
      cases hshadow
      rw [hedge] at hedge'
      cases hedge'
      rw [Bool.and_eq_true, decide_eq_true_eq] at hbehind
      rcases position_spec hfirst with ⟨bare, hbare, hp⟩
      rw [Bool.and_eq_true, decide_eq_true_eq] at hp
      cases hkind with
      | error ctx _ hi =>
        have hguard : guardResult py ctx bare.condition = .ok true := by
          rw [guardResult, hp.2]
          rfl
        have hle := position_le hi hbare (by rw [hp.1, hguard]; rfl)
        omega
      | deterministic ctx hdet _ =>
        have := isError_eq_false hdet
        rw [hbehind.1] at this
        cases this
      | semantic ctx hsemantic _ =>
        have := (isSemantic_excludes hsemantic).2.1
        rw [hbehind.1] at this
        cases this
      | event name hevent _ =>
        rw [isEvent_eq_false_of_isError hbehind.1] at hevent
        cases hevent
    . cases hshadow

/-- An edge reported from some position on stands behind an edge for the same event, or its event was seen before. -/
theorem mem_shadowedEventsFrom {seen : List String} {edges : List Edge} {later i : ℕ} {shadow : Edge}
    (h : (i, shadow) ∈ shadowedEventsFrom seen later edges)
    : ∃ j, i = later + j ∧ edges[j]? = some shadow ∧ isEvent shadow.condition = true ∧
        (eventName shadow.condition ∈ seen ∨
          ∃ k earlier, k < j ∧ edges[k]? = some earlier ∧ isEvent earlier.condition = true ∧
            eventName earlier.condition = eventName shadow.condition) := by
  induction edges generalizing seen later with
  | nil => cases h
  | cons edge edges ih =>
    rw [shadowedEventsFrom] at h
    split at h
    . rcases ih h with ⟨j, rfl, hshadow, hevent, hrest⟩
      refine ⟨j + 1, by omega, hshadow, hevent, ?_⟩
      rcases hrest with hseen | ⟨k, earlier, hlt, hearlier, hrest⟩
      . exact .inl hseen
      . exact .inr ⟨k + 1, earlier, by omega, hearlier, hrest⟩
    . next hevent =>
      have hevent : isEvent edge.condition = true := by simpa using hevent
      split at h
      . next hseen =>
        rcases List.mem_cons.mp h with heq | h
        . cases heq
          exact ⟨0, rfl, rfl, hevent, .inl hseen⟩
        . rcases ih h with ⟨j, rfl, hshadow, hevent', hrest⟩
          refine ⟨j + 1, by omega, hshadow, hevent', ?_⟩
          rcases hrest with hseen' | ⟨k, earlier, hlt, hearlier, hrest⟩
          . exact .inl hseen'
          . exact .inr ⟨k + 1, earlier, by omega, hearlier, hrest⟩
      . rcases ih h with ⟨j, rfl, hshadow, hevent', hrest⟩
        refine ⟨j + 1, by omega, hshadow, hevent', ?_⟩
        rcases hrest with hseen' | ⟨k, earlier, hlt, hearlier, hrest⟩
        . rcases List.mem_cons.mp hseen' with heq | hseen'
          . exact .inr ⟨0, edge, by omega, rfl, hevent, heq.symm⟩
          . exact .inl hseen'
        . exact .inr ⟨k + 1, earlier, by omega, hearlier, hrest⟩

/-- No run is resumed along the second edge for an event. -/
theorem not_crossed_of_shadowedEvents {py : Runtime} {graph : Graph} {node : Node} {i : ℕ} {shadow : Edge}
    (h : (i, shadow) ∈ shadowedEvents node)
    : ¬ Crossed py graph node i := by
  intro hcrossed
  rcases kind_of_crossed hcrossed with ⟨edge, hedge, hkind⟩
  rcases mem_shadowedEventsFrom h with ⟨j, hj, hshadow, hevent, hseen⟩
  rw [Nat.zero_add] at hj
  subst hj
  rw [hedge] at hshadow
  cases hshadow
  rcases hseen with hseen | ⟨k, earlier, hlt, hearlier, hevent', hsame⟩
  . cases hseen
  . cases hkind with
    | error ctx herror _ =>
      rw [isEvent_eq_false_of_isError herror] at hevent
      cases hevent
    | deterministic ctx hdet _ =>
      rw [isEvent_eq_false_of_isDeterministic hdet] at hevent
      cases hevent
    | semantic ctx hsemantic _ =>
      rw [(isSemantic_excludes hsemantic).2.2] at hevent
      cases hevent
    | event name _ hi =>
      rcases position_spec hi with ⟨edge', hedge', hp⟩
      rw [hedge] at hedge'
      cases hedge'
      rw [Bool.and_eq_true, decide_eq_true_eq] at hp
      have hle := position_le hi hearlier (by rw [hevent', hsame, hp.2]; simp)
      omega

/- The findings about edges, and which edge each of them is about. -/

inductive Reports (py : Runtime) (texts : Texts) (graph : Graph) : Finding → Node → ℕ → Prop
  | dead {node : Node} {dead : List Edge} {edge : Edge} {i : ℕ}
      : node ∈ graph.nodes → deadEdges py node = .ok dead → edge ∈ dead → node.edges[i]? = some edge →
        Reports py texts graph ⟨.warning, "always-false-edge", some node.name,
          "edge -> '" ++ edge.target ++ "' has a condition that is always false (dead edge): "
            ++ texts.repr edge.condition⟩ node i
  | shadowed {node : Node} {i : ℕ} {message : String}
      : node ∈ graph.nodes → (i, message) ∈ shadowed py node →
        Reports py texts graph ⟨.warning, "shadowed-edge", some node.name, message⟩ node i
  | shadowedError {node : Node} {i : ℕ} {edge : Edge}
      : node ∈ graph.nodes → (i, edge) ∈ shadowedErrors node →
        Reports py texts graph ⟨.warning, "shadowed-error-edge", some node.name,
          "error edge -> '" ++ edge.target ++ "' is unreachable: an earlier unconditional `on error` always matches "
            ++ "first - order `on error when …` edges before the bare `on error` catch-all"⟩ node i
  | shadowedEvent {node : Node} {i : ℕ} {edge : Edge}
      : node ∈ graph.nodes → (i, edge) ∈ shadowedEvents node →
        Reports py texts graph ⟨.warning, "shadowed-event-edge", some node.name,
          "event edge -> '" ++ edge.target ++ "' is unreachable: an earlier edge on this node already awaits '"
            ++ eventName edge.condition ++ "' (first-match-wins)"⟩ node i

def edgeCodes : List String :=
  ["always-false-edge", "shadowed-edge", "shadowed-error-edge", "shadowed-event-edge"]

/-- What a list of findings says of edges is so. -/
structure Sound (py : Runtime) (texts : Texts) (graph : Graph) (findings : List Finding) : Prop where
  reports : ∀ finding ∈ findings, finding.code ∈ edgeCodes → ∃ node i, Reports py texts graph finding node i
  dead : ∀ finding ∈ findings, finding.code = "always-false-edge" → ∀ node i, Reports py texts graph finding node i →
    ∀ edge, node.edges[i]? = some edge → ∀ ctx, hit py edge.condition ctx = false
  shadowed : ∀ finding ∈ findings, finding.code ≠ "always-false-edge" →
    ∀ node i, Reports py texts graph finding node i → ¬ Crossed py graph node i

/-- Whatever is reported of an edge is so. -/
theorem sound_of_reports {py : Runtime} {texts : Texts} {graph : Graph} {findings : List Finding}
    (hcheck : ∀ node ∈ graph.nodes, ∀ edge ∈ node.edges, checkPredicate py edge.condition = [])
    (h : ∀ finding ∈ findings, finding.code ∈ edgeCodes → ∃ node i, Reports py texts graph finding node i)
    : Sound py texts graph findings := by
  refine ⟨h, ?_, ?_⟩
  . intro finding _ hcode node i hreports edge hedge ctx
    cases hreports with
    | dead hnode hdead hmem hi =>
      rw [hi] at hedge
      cases hedge
      exact (hit_of_deadEdges hdead (hcheck node hnode) hmem).2.2 ctx
    | shadowed _ _ => exact absurd hcode (by simp)
    | shadowedError _ _ => exact absurd hcode (by simp)
    | shadowedEvent _ _ => exact absurd hcode (by simp)
  . intro finding _ hcode node i hreports
    cases hreports with
    | dead _ _ _ _ => exact absurd rfl hcode
    | shadowed _ hmem => exact not_crossed_of_shadowed hmem
    | shadowedError _ hmem => exact not_crossed_of_shadowedErrors hmem
    | shadowedEvent _ hmem => exact not_crossed_of_shadowedEvents hmem

/- The codes of the other findings. -/

/-- None of the findings is about an edge. -/
def Apart (findings : List Finding) : Prop :=
  ∀ finding ∈ findings, finding.code ∉ edgeCodes

theorem Apart.nil : Apart [] :=
  fun _ h => by cases h

theorem Apart.singleton {finding : Finding} (h : finding.code ∉ edgeCodes)
    : Apart [finding] := by
  intro other hother
  rw [List.mem_singleton.mp hother]
  exact h

theorem Apart.append {fs gs : List Finding} (hf : Apart fs) (hg : Apart gs)
    : Apart (fs ++ gs) := by
  intro finding h
  rcases List.mem_append.mp h with h | h
  . exact hf finding h
  . exact hg finding h

theorem Apart.map {α : Type} {f : α → Finding} (as : List α) (h : ∀ a, (f a).code ∉ edgeCodes)
    : Apart (as.map f) := by
  intro finding hfinding
  rcases List.mem_map.mp hfinding with ⟨a, _, rfl⟩
  exact h a

theorem Apart.filterMap {α : Type} {f : α → Option Finding} (as : List α)
    (h : ∀ a finding, f a = some finding → finding.code ∉ edgeCodes)
    : Apart (as.filterMap f) := by
  intro finding hfinding
  rcases List.mem_filterMap.mp hfinding with ⟨a, _, ha⟩
  exact h a finding ha

theorem Apart.flatMap {α : Type} {f : α → List Finding} (as : List α) (h : ∀ a, Apart (f a))
    : Apart (as.flatMap f) := by
  intro finding hfinding
  rcases List.mem_flatMap.mp hfinding with ⟨a, _, ha⟩
  exact h a finding ha

theorem Apart.ite {c : Prop} [Decidable c] {fs gs : List Finding} (hf : Apart fs) (hg : Apart gs)
    : Apart (if c then fs else gs) := by
  split
  . exact hf
  . exact hg

/-- What a check makes of each of a list. -/
theorem Apart.mapM {α : Type} {f : α → Except String (List Finding)} {as : List α} {found : List (List Finding)}
    (hok : as.mapM f = .ok found) (h : ∀ a fs, f a = .ok fs → Apart fs)
    : Apart found.flatten := by
  intro finding hfinding
  rcases List.mem_flatten.mp hfinding with ⟨fs, hfs, hmem⟩
  rcases List.mem_iff_getElem?.mp hfs with ⟨i, hi⟩
  have hlength := Except.length_of_mapM hok
  have hlt : i < as.length := by
    rw [← hlength]
    exact (List.getElem?_eq_some_iff.mp hi).1
  rcases Except.getElem?_of_mapM hok (List.getElem?_eq_getElem hlt) with ⟨fs', hfs', hok'⟩
  rw [hi] at hfs'
  cases hfs'
  exact h _ _ hok' finding hmem

theorem checkStructure_apart (py : Runtime) (texts : Texts) (graph : Graph)
    : Apart (checkStructure py texts graph) := by
  unfold checkStructure
  apply Apart.append
  . exact .ite .nil (.singleton (by simp [edgeCodes]))
  . apply Apart.flatMap
    intro node
    unfold structureFindings
    apply Apart.flatMap
    intro edge
    exact .append (.ite .nil (.singleton (by simp [edgeCodes]))) (.map _ fun _ => by simp [edgeCodes])

theorem checkReachability_apart {graph : Graph} {findings : List Finding} (h : checkReachability graph = .ok findings)
    : Apart findings := by
  have hunreachable : Apart ((graph.nodes.filter fun node => node.name ∉ reachable graph).map fun node =>
      ⟨.warning, "unreachable-node", some node.name, "node is unreachable from the start node"⟩) :=
    .map _ fun _ => by simp [edgeCodes]
  unfold checkReachability at h
  split at h
  . cases h
    exact .nil
  . rcases Except.bind_eq_ok.mp h with ⟨reached, _, h⟩
    split at h
    . cases h
      exact hunreachable
    . cases h
      exact .append hunreachable (.singleton (by decide))

theorem checkStuck_apart (py : Runtime) (graph : Graph)
    : Apart (checkStuck py graph) := by
  apply Apart.flatMap
  intro node
  unfold stuckFindings
  exact .ite .nil (.ite .nil (.ite .nil (.ite .nil (.singleton (by simp [edgeCodes])))))

theorem checkProvenance_apart {py : Runtime} {texts : Texts} {order : SetOrder} {graph : Graph}
    {findings : List Finding} (h : checkProvenance py texts order graph = .ok findings)
    : Apart findings := by
  unfold checkProvenance at h
  rcases Except.bind_eq_ok.mp h with ⟨found, hfound, h⟩
  cases h
  apply Apart.mapM hfound
  intro node fs hfs
  unfold provenanceFindings at hfs
  split at hfs
  . cases hfs
    exact .nil
  . rcases Except.bind_eq_ok.mp hfs with ⟨before, _, hfs⟩
    cases hfs
    exact .map _ fun _ => by simp [edgeCodes]

theorem declaredTypeFindings_apart (py : Runtime) (texts : Texts) (node : Node)
    : Apart (declaredTypeFindings py texts node) := by
  apply Apart.filterMap
  rintro ⟨field, token⟩ finding h
  simp only [Option.bind_eq_bind, Option.bind_eq_some_iff] at h
  rcases h with ⟨_, _, _, _, _, _, _, _, h⟩
  split at h
  . cases h
  . cases h
    simp [edgeCodes]

theorem upstreamTypeFindings_apart (py : Runtime) (texts : Texts) (node : Node) (before : List Node)
    : Apart (upstreamTypeFindings py texts node before) := by
  apply Apart.filterMap
  rintro ⟨field, spec⟩ finding h
  simp only at h
  split at h
  . cases h
  . simp only [Option.bind_eq_bind, Option.bind_eq_some_iff] at h
    rcases h with ⟨_, _, _, _, h⟩
    split at h
    . cases h
    . cases h
      simp [edgeCodes]

theorem checkEmitsTypes_apart {py : Runtime} {texts : Texts} {order : SetOrder} {graph : Graph}
    {findings : List Finding} (h : checkEmitsTypes py texts order graph = .ok findings)
    : Apart findings := by
  unfold checkEmitsTypes at h
  rcases Except.bind_eq_ok.mp h with ⟨found, hfound, h⟩
  cases h
  apply Apart.mapM hfound
  intro node fs hfs
  unfold emitsTypeFindings at hfs
  rcases Except.bind_eq_ok.mp hfs with ⟨before, _, hfs⟩
  cases hfs
  exact .append (declaredTypeFindings_apart py texts node) (upstreamTypeFindings_apart py texts node before)

theorem checkFieldOnly_apart (texts : Texts) (graph : Graph)
    : Apart (checkFieldOnly texts graph) := by
  apply Apart.flatMap
  intro node
  unfold fieldOnlyFindings
  exact .ite .nil (.append (.map _ fun _ => by simp [edgeCodes]) (.ite (.singleton (by simp [edgeCodes])) .nil))

theorem checkSpawn_apart (texts : Texts) (graph : Graph)
    : Apart (checkSpawn texts graph) := by
  apply Apart.flatMap
  intro node
  unfold spawnFindings
  split
  . exact .nil
  . exact .append (.ite (.singleton (by simp [edgeCodes])) .nil) (.ite .nil (.singleton (by simp [edgeCodes])))

theorem checkSpiralProfile_apart (py : Runtime) (graph : Graph) (frontMatter : List (String × String))
    : Apart (checkSpiralProfile py graph frontMatter) := by
  unfold checkSpiralProfile
  apply Apart.ite .nil
  apply Apart.flatMap
  intro node
  unfold spiralFindings
  apply Apart.ite .nil
  refine .append ?_ (.ite (.singleton (by simp [edgeCodes])) .nil)
  split
  . exact .singleton (by simp [edgeCodes])
  . exact .ite .nil (.singleton (by simp [edgeCodes]))

theorem checkRefreshProfile_apart {py : Runtime} {texts : Texts} {frontMatter : List (String × String)}
    {findings : List Finding} (h : checkRefreshProfile py texts frontMatter = .ok findings)
    : Apart findings := by
  unfold checkRefreshProfile at h
  split at h
  . cases h
    exact .nil
  . cases h
    exact .singleton (by decide)
  . cases h
    exact .singleton (by decide)
  . unfold refreshFindings at h
    rcases Except.bind_eq_ok.mp h with ⟨kf, _, h⟩
    rcases Except.bind_eq_ok.mp h with ⟨st, _, h⟩
    split at h
    . cases h
      unfold refreshBounds
      exact .ite (.singleton (by simp [edgeCodes])) (.ite (.singleton (by simp [edgeCodes])) .nil)
    . cases h
      exact .append (.ite (.singleton (by simp [badParam, edgeCodes])) .nil)
        (.ite (.singleton (by simp [badParam, edgeCodes])) .nil)

theorem checkStatefulMigration_apart (frontMatter : List (String × String))
    : Apart (checkStatefulMigration frontMatter) := by
  unfold checkStatefulMigration
  exact .ite (.ite .nil (.singleton (by decide))) (.ite (.singleton (by decide)) .nil)

theorem checkCycles_apart {py : Runtime} {graph : Graph} {findings : List Finding}
    (h : checkCycles py graph = .ok findings)
    : Apart findings := by
  unfold checkCycles at h
  split at h
  . cases h
  . rcases Except.bind_eq_ok.mp h with ⟨found, hfound, h⟩
    cases h
    apply Apart.mapM hfound
    intro comp fs hfs
    unfold cycleFindings at hfs
    rcases Except.bind_eq_ok.mp hfs with ⟨members, _, hfs⟩
    split at hfs
    . cases hfs
      exact .nil
    . split at hfs
      . cases hfs
        exact .nil
      . cases hfs
        exact .singleton (by simp [edgeCodes])

theorem checkTerminalBody_apart (graph : Graph)
    : Apart (checkTerminalBody graph) := by
  apply Apart.flatMap
  intro node
  unfold terminalBodyFindings
  exact .ite (.singleton (by simp [edgeCodes])) .nil

/- The findings about edges come with their edges. -/

theorem reports_of_checkShadowing {py : Runtime} {texts : Texts} {graph : Graph} {finding : Finding}
    (h : finding ∈ checkShadowing py graph)
    : ∃ node i, Reports py texts graph finding node i := by
  rcases List.mem_flatMap.mp h with ⟨node, hnode, h⟩
  rcases List.mem_map.mp h with ⟨⟨i, message⟩, hmem, rfl⟩
  exact ⟨node, i, .shadowed hnode hmem⟩

theorem reports_of_checkErrorShadowing {py : Runtime} {texts : Texts} {graph : Graph} {finding : Finding}
    (h : finding ∈ checkErrorShadowing graph)
    : ∃ node i, Reports py texts graph finding node i := by
  rcases List.mem_flatMap.mp h with ⟨node, hnode, h⟩
  rcases List.mem_map.mp h with ⟨⟨i, edge⟩, hmem, rfl⟩
  exact ⟨node, i, .shadowedError hnode hmem⟩

theorem reports_of_checkEventShadowing {py : Runtime} {texts : Texts} {graph : Graph} {finding : Finding}
    (h : finding ∈ checkEventShadowing graph)
    : ∃ node i, Reports py texts graph finding node i := by
  rcases List.mem_flatMap.mp h with ⟨node, hnode, h⟩
  rcases List.mem_map.mp h with ⟨⟨i, edge⟩, hmem, rfl⟩
  exact ⟨node, i, .shadowedEvent hnode hmem⟩

theorem mem_of_deadEdges {py : Runtime} {node : Node} {dead : List Edge} (h : deadEdges py node = .ok dead)
    {edge : Edge} (hedge : edge ∈ dead)
    : edge ∈ node.edges := by
  unfold deadEdges at h
  rcases Except.bind_eq_ok.mp h with ⟨answers, _, h⟩
  cases h
  rcases List.mem_filterMap.mp hedge with ⟨⟨edge', isDead⟩, hmem, hedge⟩
  cases isDead with
  | false => cases hedge
  | true =>
    cases hedge
    exact (List.of_mem_zip hmem).1

theorem reports_of_checkDeadAndDup {py : Runtime} {texts : Texts} {graph : Graph} {findings : List Finding}
    (h : checkDeadAndDup py texts graph = .ok findings) {finding : Finding} (hfinding : finding ∈ findings)
    (hcode : finding.code ∈ edgeCodes)
    : ∃ node i, Reports py texts graph finding node i := by
  unfold checkDeadAndDup at h
  rcases Except.bind_eq_ok.mp h with ⟨found, hfound, h⟩
  cases h
  rcases List.mem_flatten.mp hfinding with ⟨fs, hfs, hmem⟩
  rcases List.mem_iff_getElem?.mp hfs with ⟨n, hn⟩
  have hlt : n < graph.nodes.length := by
    rw [← Except.length_of_mapM hfound]
    exact (List.getElem?_eq_some_iff.mp hn).1
  rcases Except.getElem?_of_mapM hfound (List.getElem?_eq_getElem hlt) with ⟨fs', hfs', hok⟩
  rw [hn] at hfs'
  cases hfs'
  have hnode : graph.nodes[n] ∈ graph.nodes := List.getElem_mem hlt
  generalize graph.nodes[n] = node at hok hnode
  unfold deadAndDupFindings at hok
  rcases Except.bind_eq_ok.mp hok with ⟨dead, hdead, hok⟩
  cases hok
  rcases List.mem_append.mp hmem with hmem | hmem
  . rcases List.mem_map.mp hmem with ⟨edge, hedge, rfl⟩
    rcases List.mem_iff_getElem?.mp (mem_of_deadEdges hdead hedge) with ⟨i, hi⟩
    exact ⟨node, i, .dead hnode hdead hedge hi⟩
  . rcases List.mem_map.mp hmem with ⟨condition, _, rfl⟩
    exact absurd hcode (by simp [edgeCodes])

/- The whole analysis. -/

/-- What the analysis returns, put together from what its checks return. -/
theorem analyze_eq_ok {py : Runtime} {texts : Texts} {order : SetOrder} {graph : Graph}
    {frontMatter : List (String × String)} {findings : List Finding}
    (h : analyze py texts order graph frontMatter = .ok findings)
    : ∃ reachability provenance emitsTypes refresh cycles deadAndDup,
        checkReachability graph = .ok reachability ∧ checkProvenance py texts order graph = .ok provenance ∧
        checkEmitsTypes py texts order graph = .ok emitsTypes ∧ checkRefreshProfile py texts frontMatter = .ok refresh ∧
        checkCycles py graph = .ok cycles ∧ checkDeadAndDup py texts graph = .ok deadAndDup ∧
        findings = sortFindings
          (gather py texts graph frontMatter reachability provenance emitsTypes refresh cycles deadAndDup) := by
  unfold analyze at h
  rcases Except.bind_eq_ok.mp h with ⟨reachability, hreachability, h⟩
  rcases Except.bind_eq_ok.mp h with ⟨provenance, hprovenance, h⟩
  rcases Except.bind_eq_ok.mp h with ⟨emitsTypes, hemits, h⟩
  rcases Except.bind_eq_ok.mp h with ⟨refresh, hrefresh, h⟩
  rcases Except.bind_eq_ok.mp h with ⟨cycles, hcycles, h⟩
  rcases Except.bind_eq_ok.mp h with ⟨deadAndDup, hdead, h⟩
  exact ⟨reachability, provenance, emitsTypes, refresh, cycles, deadAndDup, hreachability, hprovenance, hemits,
    hrefresh, hcycles, hdead, (Except.ok.inj h).symm⟩

theorem reports_of_analyze {py : Runtime} {texts : Texts} {order : SetOrder} {graph : Graph}
    {frontMatter : List (String × String)} {findings : List Finding}
    (h : analyze py texts order graph frontMatter = .ok findings) {finding : Finding} (hfinding : finding ∈ findings)
    (hcode : finding.code ∈ edgeCodes)
    : ∃ node i, Reports py texts graph finding node i := by
  rcases analyze_eq_ok h with ⟨reachability, provenance, emitsTypes, refresh, cycles, deadAndDup, hreachability,
    hprovenance, hemits, hrefresh, hcycles, hdead, heq⟩
  rw [heq, sortFindings, List.mem_insertionSort, gather] at hfinding
  simp only [List.mem_append] at hfinding
  rcases hfinding with ((((((((((((((hf | hf) | hf) | hf) | hf) | hf) | hf) | hf) | hf) | hf) | hf) | hf) | hf) | hf)
    | hf) | hf
  . exact absurd hcode (checkStructure_apart py texts graph finding hf)
  . exact absurd hcode (checkReachability_apart hreachability finding hf)
  . exact absurd hcode (checkStuck_apart py graph finding hf)
  . exact reports_of_checkShadowing hf
  . exact reports_of_checkEventShadowing hf
  . exact reports_of_checkErrorShadowing hf
  . exact absurd hcode (checkProvenance_apart hprovenance finding hf)
  . exact absurd hcode (checkEmitsTypes_apart hemits finding hf)
  . exact absurd hcode (checkFieldOnly_apart texts graph finding hf)
  . exact absurd hcode (checkSpawn_apart texts graph finding hf)
  . exact absurd hcode (checkSpiralProfile_apart py graph frontMatter finding hf)
  . exact absurd hcode (checkRefreshProfile_apart hrefresh finding hf)
  . exact absurd hcode (checkStatefulMigration_apart frontMatter finding hf)
  . exact absurd hcode (checkCycles_apart hcycles finding hf)
  . exact reports_of_checkDeadAndDup hdead hf hcode
  . exact absurd hcode (checkTerminalBody_apart graph finding hf)

theorem analyze_isOk_iff {py : Runtime} {texts : Texts} {order : SetOrder} {graph : Graph}
    {frontMatter : List (String × String)}
    : (∃ findings, analyze py texts order graph frontMatter = .ok findings)
        ↔ (∃ refresh, checkRefreshProfile py texts frontMatter = .ok refresh) ∧
          ∃ deadAndDup, checkDeadAndDup py texts graph = .ok deadAndDup := by
  constructor
  . rintro ⟨findings, h⟩
    rcases analyze_eq_ok h with ⟨_, _, _, refresh, _, deadAndDup, _, _, _, hrefresh, _, hdead, _⟩
    exact ⟨⟨refresh, hrefresh⟩, deadAndDup, hdead⟩
  . rintro ⟨⟨refresh, hrefresh⟩, deadAndDup, hdead⟩
    rcases checkReachability_isOk graph with ⟨reachability, hreachability⟩
    rcases checkProvenance_isOk py texts order graph with ⟨provenance, hprovenance⟩
    rcases checkEmitsTypes_isOk py texts order graph with ⟨emitsTypes, hemits⟩
    rcases checkCycles_isOk py graph with ⟨cycles, hcycles⟩
    refine ⟨sortFindings
      (gather py texts graph frontMatter reachability provenance emitsTypes refresh cycles deadAndDup), ?_⟩
    unfold analyze
    simp only [hreachability, hprovenance, hemits, hrefresh, hcycles, hdead, bind, Except.bind, pure, Except.pure]

/-- A graph whose conditions all pass the static check. -/
def AllChecked (py : Runtime) (graph : Graph) : Prop :=
  ∀ node ∈ graph.nodes, ∀ edge ∈ node.edges, checkPredicate py edge.condition = []

/--
The analysis of a graph whose conditions all pass the static check returns findings that are right about their edges if
and only if no condition asks for a number in a field, in a conjunct of its own, and `int` reads the refresh periods.
-/
theorem edge_findings_iff {py : Runtime} {texts : Texts} {order : SetOrder} {graph : Graph}
    {frontMatter : List (String × String)} (hcheck : AllChecked py graph)
    : (∃ findings, analyze py texts order graph frontMatter = .ok findings ∧ Sound py texts graph findings)
        ↔ (∀ node ∈ graph.nodes, ∀ edge ∈ node.edges, asksNumberIn py edge.condition = false) ∧
          ReadableRefresh py texts frontMatter := by
  rw [← checkDeadAndDup_isOk_iff texts hcheck, ← checkRefreshProfile_isOk_iff, and_comm, ← analyze_isOk_iff]
  constructor
  . rintro ⟨findings, h, _⟩
    exact ⟨findings, h⟩
  . rintro ⟨findings, h⟩
    exact ⟨findings, h, sound_of_reports hcheck fun _ hfinding hcode => reports_of_analyze h hfinding hcode⟩

/- A graph with one of each. -/

/-- Reads the conditions below. -/
def edgePy : Runtime where
  parse
    | "visits > 10 and visits < 4" => some (.boolOp .and [.compare (.name "visits") [(.gt, .constant (.int 10))],
        .compare (.name "visits") [(.lt, .constant (.int 4))]])
    | "x" => some (.name "x")
    | "5 in x" => some (.compare (.constant (.int 5)) [(.isIn, .name "x")])
    | _ => none
  str _ := ""
  int _ := none

def edgeTexts : Texts where
  problem _ := ""
  repr text := text
  lower text := text
  isDigit _ := false

def inOrder : SetOrder where
  list names := names
  perm names := List.Perm.refl names

theorem nodup_edgeNames : ["a", "b"].Nodup := by
  decide

def edgeGraph (conditions : List String) : Graph where
  name := "flow"
  start := "a"
  nodes := [{ name := "a", edges := conditions.map fun condition => ⟨"b", condition⟩ }, { name := "b", edges := [] }]
  nodup := nodup_edgeNames

/-- A dead edge before a catch-all, and a shadowed edge behind it. -/
theorem edge_findings_dead
    : ∃ findings, analyze edgePy edgeTexts inOrder (edgeGraph ["when visits > 10 and visits < 4", "else", "when x"]) []
        = .ok findings ∧
      Sound edgePy edgeTexts (edgeGraph ["when visits > 10 and visits < 4", "else", "when x"]) findings :=
  (edge_findings_iff (by unfold AllChecked; decide +kernel)).mpr ⟨by decide +kernel, fun _ _ h => (by cases h)⟩

/-- `when 5 in x` passes the static check, and the analysis raises on it. -/
theorem analyze_raises
    : ¬ ∀ (py : Runtime) (texts : Texts) (order : SetOrder) (graph : Graph) (frontMatter : List (String × String)),
        AllChecked py graph →
        ∃ findings, analyze py texts order graph frontMatter = .ok findings ∧ Sound py texts graph findings := by
  intro h
  have hcheck : AllChecked edgePy (edgeGraph ["when 5 in x"]) := by
    unfold AllChecked
    decide +kernel
  rcases h edgePy edgeTexts inOrder (edgeGraph ["when 5 in x"]) [] hcheck with ⟨findings, hok, _⟩
  have hdead := (analyze_isOk_iff.mp ⟨findings, hok⟩).2
  have hasks := (checkDeadAndDup_isOk_iff edgeTexts hcheck).mp hdead
  revert hasks
  decide +kernel

end Analysis
