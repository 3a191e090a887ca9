import PrismPath.Hotswap.CryptoAgility
import PrismPath.Kernel.Verdicts
import PrismPath.Lib.Process

/-!
This module contains what the proofs of a crypto agility flow promise about the suites its runs end at.
-/

open Python

namespace CryptoAgility

open Predicates Parser Engine ModelCheck

theorem suiteOf_eq_some_iff {node sid : String}
    : suiteOf node = some sid ↔ node = suiteNode sid := by
  unfold suiteOf suiteNode
  have hlen : suiteNodePrefix.length = suiteNodePrefix.toList.length := rfl
  constructor
  . intro h
    split at h
    . next hinitial =>
      rcases startsWith_iff.mp hinitial with ⟨rest, hrest⟩
      have hnode : node = suiteNodePrefix ++ String.ofList rest := by
        rw [← String.ofList_toList (s := node), ← hrest, String.ofList_append, String.ofList_toList]
      rw [Option.some.injEq, hnode, hlen, dropChars_append] at h
      rw [hnode, h]
    . cases h
  . rintro rfl
    rw [if_pos (startsWith_append _ _), hlen, dropChars_append]

theorem mem_suiteNodes {graph : Graph} {name sid : String}
    : (name, sid) ∈ suiteNodes graph ↔ graph.contains name = true ∧ name = suiteNode sid := by
  simp only [suiteNodes, List.mem_filterMap, Option.map_eq_some_iff, Prod.mk.injEq, suiteOf_eq_some_iff]
  constructor
  . rintro ⟨node, hnode, sid', hname, rfl, rfl⟩
    refine ⟨?_, hname⟩
    rw [Graph.contains, Graph.get?_of_mem hnode]
    rfl
  . rintro ⟨hcontains, hname⟩
    rcases Option.isSome_iff_exists.mp hcontains with ⟨node, hnode⟩
    refine ⟨node, Graph.mem_of_get? hnode, sid, ?_, Graph.name_of_get? hnode, rfl⟩
    rw [Graph.name_of_get? hnode, hname]

section

variable {py : Runtime} {graph : Graph} {assume : Option String} {reach : List (String × SuiteReach)}

theorem reachableSuites_eq_some (h : reachableSuites py graph assume = some reach)
    : ∃ caps sats, visitCaps py graph = some caps ∧ nodeSats py graph (assume.map normalizeAssume) = some sats
        ∧ reach = (suiteNodes graph).map fun p =>
            (p.2, .ofResult (resultOf (search py {} graph caps sats (assume.map normalizeAssume) reachBound) p.1)) := by
  simp only [reachableSuites, checkReach, Option.map_eq_some_iff, Option.bind_eq_some_iff] at h
  rcases h with ⟨res, ⟨caps, hcaps, sats, hsats, rfl⟩, rfl⟩
  refine ⟨caps, sats, hcaps, hsats, ?_⟩
  rw [List.map_map, ← List.map_prod_left_eq_zip, List.map_map]
  rfl

end

/- The envelope's closure. -/

/-- Where the checker's moves lead to the node at all, as many as the search's bound lead there. -/
def Near (py : Runtime) (graph : Graph) (name : String) : Prop :=
  ∀ caps sats, visitCaps py graph = some caps → nodeSats py graph none = some sats →
    ∀ n counts,
      Search.Reaches (moves py {} graph caps sats none) (graph.start, bump caps [] graph.start) n (name, counts) →
        ∃ n' ≤ reachBound, ∃ counts',
          Search.Reaches (moves py {} graph caps sats none) (graph.start, bump caps [] graph.start) n' (name, counts')

theorem approved_of_closure {py : Runtime} {graph : Graph} {envelope : Envelope} {report : ClosureReport}
    (h : proveEnvelopeClosure py graph envelope = some report) (hok : report.ok = true)
    : ∃ caps sats, visitCaps py graph = some caps ∧ nodeSats py graph none = some sats
        ∧ ∀ sid, graph.contains (suiteNode sid) = true → sid ∉ envelope.approvedSuites →
            ∀ state ∈ Search.states (search py {} graph caps sats none reachBound).table,
              state.1 ≠ suiteNode sid := by
  simp only [proveEnvelopeClosure, Option.map_eq_some_iff] at h
  rcases h with ⟨reach, hreach, rfl⟩
  rcases reachableSuites_eq_some hreach with ⟨caps, sats, hcaps, hsats, rfl⟩
  refine ⟨caps, sats, hcaps, hsats, fun sid hcontains hsid => ?_⟩
  apply (resultOf_no ?_).2
  by_contra hreachable
  simp only [List.isEmpty_iff, List.filter_eq_nil_iff, List.mem_filter, sortedItems, List.mem_insertionSort,
    List.mem_map, and_imp, forall_exists_index, decide_eq_true_eq, not_not] at hok
  exact hsid (hok _ _ (mem_suiteNodes.mpr ⟨hcontains, rfl⟩) rfl hreachable)

/--
A passed closure: no run whose outcomes are sampled stands on a suite that is not approved, if it is no longer
than the bound of the search or the suite's node is near.
-/
theorem envelope_closure_sound {py : Runtime} {opts : Options} {keep : Option ℤ} {graph : Graph}
    {envelope : Envelope} {report : ClosureReport} (h : proveEnvelopeClosure py graph envelope = some report)
    (hok : report.ok = true) {sid : String} {result : RunResult} (hcontains : graph.contains (suiteNode sid) = true)
    (hstands : Stands py opts keep graph (fun node _ value => Sampled py none node (normalize py value).2)
      (suiteNode sid) result)
    (hnear : total result.state.visits ≤ reachBound ∨ Near py graph (suiteNode sid))
    : sid ∈ envelope.approvedSuites := by
  by_contra hsid
  rcases approved_of_closure h hok with ⟨caps, sats, hcaps, hsats, hunreached⟩
  have hadmitted : Stands py opts keep graph (Admitted py none) (suiteNode sid) result :=
    hstands.mono fun _ _ _ hsampled => ⟨(assumesOutcome_none py).blind _, rfl, hsampled⟩
  have htiers : ({} : Tiers).errors = true ∧ ({} : Tiers).events = true := ⟨rfl, rfl⟩
  rcases reached_of_stands hcaps hsats (assumesOutcome_none py).isDeterministic htiers hadmitted hcontains
    with ⟨counts, hreaches, -⟩
  have hwithin : ∃ n ≤ reachBound, ∃ counts,
      Search.Reaches (moves py {} graph caps sats none) (graph.start, bump caps [] graph.start) n
        (suiteNode sid, counts) := by
    rcases hnear with hle | hnear
    . exact ⟨_, hle, counts, hreaches⟩
    . exact hnear caps sats hcaps hsats _ _ hreaches
  rcases hwithin with ⟨n, hn, counts', hreaches'⟩
  exact hunreached sid hcontains hsid _ (mem_states_of_reaches hsats hreaches' hn) rfl

/- A flow that gives up after as many tries as the bound, and one more. -/

def selectPy : Runtime where
  parse
    | "visits >= 26" => some (.compare (.name "visits") [(.gtE, .constant (.int 26))])
    | "data_class == \"cui\"" => some (.compare (.name "data_class") [(.eq, .constant (.str "cui"))])
    | "data_class == \"cui\" and data_class == \"open\"" =>
      some (.boolOp .and [.compare (.name "data_class") [(.eq, .constant (.str "cui"))],
        .compare (.name "data_class") [(.eq, .constant (.str "open"))]])
    | _ => none
  str
    | .str s => s
    | _ => ""
  int := fun _ => none

def retryGraph : Graph where
  name := "retry"
  start := "a"
  nodes := [
    { name := "a", edges := [⟨"suite-md5", "when visits >= 26"⟩, ⟨"a", "else"⟩] },
    { name := "suite-md5", edges := [] }
  ]
  nodup := by decide

/-- The search is cut off before it sees the suite, which a run of 26 steps stands on. -/
theorem retryGraph_reaches_md5
    : ((proveEnvelopeClosure selectPy retryGraph {}).map ClosureReport.ok) = some true
        ∧ (((run selectPy {} retryGraph (replay firstRouter) [] 30 "a" {} {}).ending.result?.map RunResult.path).bind
            List.getLast?) = some "suite-md5"
        ∧ "suite-md5" = suiteNode "md5" ∧ "md5" ∉ ({} : Envelope).approvedSuites := by
  decide +kernel

/- The class floors. -/

theorem strip_ne_empty {s : String} {c : Char} (hc : c ∈ s.toList) (hspace : isSpace c = false)
    : strip s ≠ "" := by
  intro hempty
  have hnil : rstripChars (lstripChars s.toList) = [] := by
    rw [strip] at hempty
    simpa using congrArg String.toList hempty
  rw [rstripChars, List.rdropWhile_eq_nil_iff] at hnil
  have hlead : lstripChars s.toList = [] := by
    cases hcs : lstripChars s.toList with
    | nil => rfl
    | cons d ds =>
      have hd := hnil d (by rw [hcs]; exact List.mem_cons_self)
      have hhead := List.dropWhile_get_zero_not isSpace s.toList (by
        rw [lstripChars] at hcs
        rw [hcs]
        simp)
      simp only [lstripChars] at hcs
      simp only [List.get_eq_getElem, hcs, List.getElem_cons_zero] at hhead
      exact absurd hd hhead
  rw [lstripChars, List.dropWhile_eq_nil_iff] at hlead
  rw [hlead c hc] at hspace
  cases hspace

theorem startsWith_classAssume (classField cls : String)
    : startsWith (lower (strip (classAssume classField cls))) "when " = true := by
  have hstart : startsWith (strip ("when " ++ (classField ++ (" == \"" ++ (cls ++ "\""))))) "when " = true := by
    apply startsWith_strip_append (by with_unfolding_all decide) (by decide)
    apply @strip_ne_empty _ '"'
    . simp
    . decide
  have hassume : classAssume classField cls = "when " ++ (classField ++ (" == \"" ++ (cls ++ "\""))) := by
    simp only [classAssume, String.append_assoc]
  have hlower : lower "when " = "when " := by with_unfolding_all decide
  have hlowered := startsWith_lower hstart
  rw [hlower] at hlowered
  rw [hassume]
  exact hlowered

theorem isDeterministic_classAssume (classField cls : String)
    : isDeterministic (classAssume classField cls) = true := by
  simp only [isDeterministic, startsWith_classAssume, Bool.true_or]

theorem normalizeAssume_classAssume (classField cls : String)
    : normalizeAssume (classAssume classField cls) = classAssume classField cls := by
  rw [normalizeAssume, if_pos (startsWith_classAssume _ _)]

/-- The assumption made of a class holds of the outcomes that carry the class. -/
def Expresses (py : Runtime) (classField cls : String) : Prop :=
  ∀ fields visits, field fields classField = .str cls →
    hit py (classAssume classField cls) (context fields visits) = true

/-- What is asked of the outcomes of a run: they carry the class, and samples stand for their fields. -/
def CarriesClass (py : Runtime) (classField cls : String) (node : Node) (value : Value) : Prop :=
  field (normalize py value).2 classField = .str cls
    ∧ Sampled py (some (classAssume classField cls)) node (normalize py value).2

theorem lookup_eq_some_of_mem {V : Type} {items : List (String × V)} {k : String} {v : V} (hmem : (k, v) ∈ items)
    (h : ∀ v', (k, v') ∈ items → v' = v)
    : items.lookup k = some v := by
  induction items with
  | nil => simp at hmem
  | cons p items ih =>
    rcases p with ⟨k', v'⟩
    rw [Dict.lookup_cons_eq]
    by_cases hk : k' = k
    . subst hk
      rw [if_pos rfl, h v' List.mem_cons_self]
    . rw [if_neg hk]
      refine ih ?_ fun v' hv' => h v' (List.mem_cons_of_mem _ hv')
      rcases List.mem_cons.mp hmem with heq | hmem
      . cases heq
        exact absurd rfl hk
      . exact hmem

/-- The suites of a flow have nodes of their own. -/
theorem lookup_suiteNodes {V : Type} {graph : Graph} (f : String → V) {sid : String}
    (hcontains : graph.contains (suiteNode sid) = true)
    : ((suiteNodes graph).map fun p => (p.2, f p.1)).lookup sid = some (f (suiteNode sid)) := by
  apply lookup_eq_some_of_mem
  . exact List.mem_map_of_mem (f := fun p : String × String => (p.2, f p.1)) (mem_suiteNodes.mpr ⟨hcontains, rfl⟩)
  . intro v hv
    rcases List.mem_map.mp hv with ⟨⟨name, sid'⟩, hmem, heq⟩
    rw [Prod.mk.injEq] at heq
    rcases heq with ⟨rfl, rfl⟩
    rw [(mem_suiteNodes.mp hmem).2]

/-- A suite with no violation is proven to be out of reach, if the flow has it. -/
theorem proven_of_forbidden {reach : List (String × SuiteReach)} {forbidden : List String}
    (h : forbiddenReachable reach forbidden = []) {sid : String} (hsid : sid ∈ forbidden) {entry : SuiteReach}
    (hentry : reach.lookup sid = some entry)
    : entry.reachable = .no ∧ entry.proven = true := by
  rw [forbiddenReachable, List.filterMap_eq_nil_iff] at h
  have hnone := h sid (by simpa [sortedIds] using hsid)
  simp only [hentry] at hnone
  split at hnone
  . cases hnone
  . next hno =>
    split at hnone
    . cases hnone
    . next hproven => exact ⟨not_not.mp hno, by simpa using hproven⟩

theorem classFailure_of_floor {py : Runtime} {graph : Graph} {envelope : Envelope} {registry : Registry}
    {report : FloorReport} (h : proveClassFloor py graph envelope registry = .ok report) (hok : report.ok = true)
    {item : String × String} (hitem : item ∈ envelope.minSuiteByClass)
    : classFailure py graph envelope.classField registry item = .ok none := by
  unfold proveClassFloor at h
  cases hmap : (sortedItems envelope.minSuiteByClass).mapM
      (classFailure py graph envelope.classField registry) with
  | error raised =>
    rw [hmap] at h
    cases h
  | ok failures =>
    rw [hmap] at h
    cases h
    rw [List.isEmpty_iff, List.filterMap_eq_nil_iff] at hok
    have hsorted : item ∈ sortedItems envelope.minSuiteByClass := by simpa [sortedItems] using hitem
    rcases List.getElem?_of_mem hsorted with ⟨i, hi⟩
    rcases Except.getElem?_of_mapM hmap hi with ⟨failure, hfailure, heq⟩
    have hnone : failure = none := hok failure (List.mem_of_getElem? hfailure)
    rw [heq, hnone]

/-- A passed class floor: the suites below it are proven out of reach, under the assumption made of the class. -/
theorem proven_of_floor {py : Runtime} {graph : Graph} {envelope : Envelope} {registry : Registry}
    {report : FloorReport} (h : proveClassFloor py graph envelope registry = .ok report) (hok : report.ok = true)
    {cls floorId : String} (hcls : (cls, floorId) ∈ envelope.minSuiteByClass)
    : ∃ below caps sats, suitesBelow registry floorId = some below ∧ visitCaps py graph = some caps
        ∧ nodeSats py graph (some (classAssume envelope.classField cls)) = some sats
        ∧ ∀ sid ∈ below, graph.contains (suiteNode sid) = true →
            let progress := search py {} graph caps sats (some (classAssume envelope.classField cls)) reachBound
            progress.exhausted = true ∧ ∀ state ∈ Search.states progress.table, state.1 ≠ suiteNode sid := by
  have hfailure := classFailure_of_floor h hok hcls
  unfold classFailure at hfailure
  dsimp only at hfailure
  cases hbelow : suitesBelow registry floorId with
  | none =>
    rw [hbelow] at hfailure
    cases hfailure
  | some below =>
    cases hreach : reachableSuites py graph (some (classAssume envelope.classField cls)) with
    | none =>
      rw [hbelow, hreach] at hfailure
      cases hfailure
    | some reach =>
      simp only [hbelow, hreach, Except.ok.injEq] at hfailure
      have hbad : forbiddenReachable reach below = [] := by
        rw [← List.isEmpty_iff]
        by_contra hne
        rw [if_neg hne] at hfailure
        cases hfailure
      rcases reachableSuites_eq_some hreach with ⟨caps, sats, hcaps, hsats, rfl⟩
      rw [Option.map_some, normalizeAssume_classAssume] at hsats hbad
      refine ⟨below, caps, sats, rfl, hcaps, hsats, fun sid hsid hcontains => ?_⟩
      have hentry := lookup_suiteNodes (fun name => SuiteReach.ofResult (resultOf (search py {} graph caps sats
        (some (classAssume envelope.classField cls)) reachBound) name)) hcontains
      rcases proven_of_forbidden hbad hsid hentry with ⟨hno, hproven⟩
      exact resultOf_proven hno hproven

/--
A passed class floor: no run whose outcomes carry the class, and are sampled, stands on a suite below the floor of
the class, if the assumption expresses the class.
-/
theorem class_floor_sound {py : Runtime} {opts : Options} {keep : Option ℤ} {graph : Graph} {envelope : Envelope}
    {registry : Registry} {report : FloorReport} (h : proveClassFloor py graph envelope registry = .ok report)
    (hok : report.ok = true) {cls floorId : String} (hcls : (cls, floorId) ∈ envelope.minSuiteByClass)
    (hexpresses : Expresses py envelope.classField cls) {sid : String} {result : RunResult}
    (hcontains : graph.contains (suiteNode sid) = true)
    (hstands : Stands py opts keep graph (fun node _ value => CarriesClass py envelope.classField cls node value)
      (suiteNode sid) result)
    : ∃ below, suitesBelow registry floorId = some below ∧ sid ∉ below := by
  rcases proven_of_floor h hok hcls with ⟨below, caps, sats, hbelow, hcaps, hsats, hproven⟩
  refine ⟨below, hbelow, fun hsid => ?_⟩
  rcases hproven sid hsid hcontains with ⟨hexhausted, hstates⟩
  have hadmitted : Stands py opts keep graph (Admitted py (some (classAssume envelope.classField cls)))
      (suiteNode sid) result := by
    apply hstands.mono
    rintro node visits value ⟨hcarries, hsampled⟩
    refine ⟨?_, hexpresses _ visits hcarries, hsampled⟩
    rintro cond hcond k k'
    cases hcond
    rw [hexpresses _ k hcarries, hexpresses _ k' hcarries]
  have hassume : ∀ cond ∈ some (classAssume envelope.classField cls), isDeterministic cond = true := by
    rintro cond hcond
    cases hcond
    exact isDeterministic_classAssume _ _
  rcases found_of_stands hcaps hsats hassume ⟨rfl, rfl⟩ hexhausted hadmitted hcontains with ⟨counts, hmem, -⟩
  exact hstates _ hmem rfl

/- A flow for one class, and a class whose name closes the quote it is put in. -/

def quotedClass : String :=
  "cui\" and data_class == \"open"

def selectNode : Node where
  name := "a"
  edges := [⟨"suite-strong", "when data_class == \"cui\""⟩, ⟨"suite-weak", "else"⟩]

def selectGraph : Graph where
  name := "select"
  start := "a"
  nodes := [selectNode, { name := "suite-strong", edges := [] }, { name := "suite-weak", edges := [] }]
  nodup := by decide

def selectRegistry : Registry where
  suites := [("strong", ⟨2⟩), ("weak", ⟨1⟩)]
  nodup := by decide

/-- No outcome satisfies the assumption made of the class, and the outcome that carries it takes the second edge. -/
theorem quotedClass_reaches_weak
    : ((proveClassFloor selectPy selectGraph { minSuiteByClass := [(quotedClass, "strong")] }
          selectRegistry).toOption.map FloorReport.ok) = some true
        ∧ ((run selectPy {} selectGraph (replay firstRouter) [.dict [("data_class", .str quotedClass)]] 25 "a" {}
            {}).ending.result?.map RunResult.path) = some ["a", "suite-weak"]
        ∧ suitesBelow selectRegistry "strong" = some ["weak"] := by
  decide +kernel

def cuiTree : Expr :=
  .compare (.name "data_class") [(.eq, .constant (.str "cui"))]

theorem parse_cui
    : exprOf (classAssume "data_class" "cui") = "data_class == \"cui\""
        ∧ lower "data_class == \"cui\"" ∉ always ∧ lower "data_class == \"cui\"" ∉ never
        ∧ selectPy.parse "data_class == \"cui\"" = some cuiTree :=
  ⟨by with_unfolding_all decide, by with_unfolding_all decide, by with_unfolding_all decide, rfl⟩

theorem expresses_cui
    : Expresses selectPy "data_class" "cui" := by
  intro fields visits hfield
  rcases parse_cui with ⟨hexpr, halways, hnever, hparse⟩
  have hcontext : context fields visits "data_class" = .str "cui" := hfield
  have heval : evalCondition selectPy (classAssume "data_class" "cui") (context fields visits) = .ok true := by
    unfold evalCondition
    simp only [hexpr, halways, hnever, if_false, hparse, cuiTree, foldUnarySigns, foldUnarySignsRest]
    simp [disallowed, disallowedLevels, disallowedLevelsRest, Expr.joinLevels, CmpOp.disallowed, ev, evChain, hcontext,
      maxDepth, Predicates.compare, Value.truthy]
    rfl
  rw [hit, heval]

theorem mem_constantsAt_cui (assume : Option String)
    : Value.str "cui" ∈ constantsAt selectPy selectNode assume := by
  rcases parse_cui with ⟨hexpr, halways, hnever, hparse⟩
  have htree : exprAst selectPy (classAssume "data_class" "cui") = some cuiTree := by
    unfold exprAst
    simp only [isDeterministic_classAssume, Bool.not_true, Bool.false_eq_true, if_false, hexpr,
      isVerdict_eq_false halways hnever, hparse, Option.map_some]
    rfl
  refine List.mem_flatMap.mpr ⟨cuiTree, List.mem_filterMap.mpr ⟨_, ?_, htree⟩, List.mem_cons_self⟩
  exact mem_conditions.mpr (.inl ⟨_, List.mem_cons_self, by with_unfolding_all decide, rfl⟩)

theorem select_sampled {assume : Option String} (hfields : fieldsAt selectPy selectNode assume = ["data_class"])
    (hconst : Value.str "cui" ∈ constantsAt selectPy selectNode assume)
    : Sampled selectPy assume selectNode [("data_class", .str "cui")] := by
  intro _ f hf
  rw [hfields, List.mem_singleton] at hf
  subst hf
  exact ⟨.str "cui", .const hconst, fun _ _ _ _ => rfl⟩

theorem select_strong (keep : Option ℤ)
    : ∃ result,
        step selectPy {} keep selectNode (visit "a" (begin none "a" {} {}))
            (.returned (.dict [("data_class", .str "cui")])) firstRouter = .goto "suite-strong" result
          ∧ result.state.visits = [("a", 1)] := by
  have hfirst : firstDeterministic selectPy selectNode.edges (context [("data_class", .str "cui")]
      (count (visit selectNode.name (begin none "a" {} {})).state.visits selectNode.name))
        = some ⟨"suite-strong", "when data_class == \"cui\""⟩ := by
    with_unfolding_all decide
  have hgate : ({} : Options).typeGate = false := rfl
  rcases step_of_firstDeterministic keep firstRouter hgate (by with_unfolding_all decide) hfirst
    with ⟨result, hstep, -, hvisits⟩
  exact ⟨result, hstep, hvisits⟩

theorem envelope_closure_sound_strong
    : ∃ result,
        Stands selectPy {} none selectGraph
            (fun node _ value => Sampled selectPy none node (Engine.normalize selectPy value).2) (suiteNode "strong")
            result
          ∧ "strong" ∈ ({ approvedSuites := ["weak", "strong"] } : Envelope).approvedSuites := by
  have hok : ((proveEnvelopeClosure selectPy selectGraph { approvedSuites := ["weak", "strong"] }).map
      ClosureReport.ok) = some true := by
    with_unfolding_all decide
  rcases Option.map_eq_some_iff.mp hok with ⟨report, hproof, hok⟩
  rcases select_strong none with ⟨result, hstep, hvisits⟩
  have hstands : Stands selectPy {} none selectGraph
      (fun node _ value => Sampled selectPy none node (Engine.normalize selectPy value).2) (suiteNode "strong")
      result := by
    refine .goto (.start []) rfl rfl ?_ hstep
    rintro value houtcome
    cases houtcome
    exact select_sampled (by with_unfolding_all decide) (mem_constantsAt_cui none)
  have hbound : total result.state.visits ≤ reachBound := by
    rw [hvisits]
    with_unfolding_all decide
  exact ⟨result, hstands, envelope_closure_sound hproof hok (by with_unfolding_all decide) hstands (.inl hbound)⟩

theorem class_floor_sound_cui
    : ∃ result,
        Stands selectPy {} none selectGraph (fun node _ value => CarriesClass selectPy "data_class" "cui" node value)
            (suiteNode "strong") result
          ∧ ∃ below, suitesBelow selectRegistry "strong" = some below ∧ "strong" ∉ below := by
  have hok : ((proveClassFloor selectPy selectGraph { minSuiteByClass := [("cui", "strong")] }
      selectRegistry).toOption.map FloorReport.ok) = some true := by
    with_unfolding_all decide
  rcases Option.map_eq_some_iff.mp hok with ⟨report, hreport, hok⟩
  have hproof : proveClassFloor selectPy selectGraph { minSuiteByClass := [("cui", "strong")] } selectRegistry
      = .ok report := by
    cases hcase : proveClassFloor selectPy selectGraph { minSuiteByClass := [("cui", "strong")] } selectRegistry with
    | error raised =>
      rw [hcase] at hreport
      cases hreport
    | ok report' =>
      rw [hcase] at hreport
      cases hreport
      rfl
  rcases select_strong none with ⟨result, hstep, -⟩
  have hstands : Stands selectPy {} none selectGraph
      (fun node _ value => CarriesClass selectPy "data_class" "cui" node value) (suiteNode "strong") result := by
    refine .goto (.start []) rfl rfl ?_ hstep
    rintro value houtcome
    cases houtcome
    exact ⟨rfl, select_sampled (by with_unfolding_all decide) (mem_constantsAt_cui _)⟩
  exact ⟨result, hstands, class_floor_sound hproof hok List.mem_cons_self expresses_cui (by with_unfolding_all decide) hstands⟩

end CryptoAgility
