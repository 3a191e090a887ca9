import PrismPath.Kernel.Predicates

/-!
This module contains the graph a workflow document parses to.
-/

namespace Parser

structure Edge where
  target : String
  condition : String
  deriving DecidableEq

structure Node where
  name : String
  instruction : String := ""
  edges : List Edge
  annotations : List (String × List (String × Option String)) := []

def Node.terminal (node : Node) : Bool :=
  node.edges.isEmpty

/-- The nodes in document order; no two of them share a name. -/
structure Graph where
  name : String
  start : String
  nodes : List Node
  nodup : (nodes.map Node.name).Nodup

namespace Graph

/-- `graph.nodes.get(name)`. -/
def get? (graph : Graph) (name : String) : Option Node :=
  graph.nodes.find? fun node => node.name = name

def contains (graph : Graph) (name : String) : Bool :=
  (graph.get? name).isSome

theorem name_of_get? {graph : Graph} {name : String} {node : Node} (h : graph.get? name = some node)
    : node.name = name := by
  simpa using List.find?_some h

theorem mem_of_get? {graph : Graph} {name : String} {node : Node} (h : graph.get? name = some node)
    : node ∈ graph.nodes :=
  List.mem_of_find?_eq_some h

theorem get?_of_mem {graph : Graph} {node : Node} (h : node ∈ graph.nodes)
    : graph.get? node.name = some node := by
  have hsome : (graph.get? node.name).isSome := by
    simp only [get?, List.find?_isSome, decide_eq_true_eq]
    exact ⟨node, h, rfl⟩
  rcases Option.isSome_iff_exists.mp hsome with ⟨other, hother⟩
  have hname := name_of_get? hother
  have := List.inj_on_of_nodup_map graph.nodup (mem_of_get? hother) h hname
  rw [hother, this]

end Graph

/- The nodes that any edges lead to. -/

/-- The names seen once the stack is empty; `none` would be a loop that is not over. -/
def reachLoop (graph : Graph) : (fuel : Nat) → (seen stack : List String) → Option (List String)
  | _, seen, [] => some seen
  | 0, _, _ :: _ => none
  | fuel + 1, seen, cur :: stack =>
    if cur ∈ seen then
      reachLoop graph fuel seen stack
    else
      match graph.get? cur with
      | none => reachLoop graph fuel seen stack
      | some node => reachLoop graph fuel (cur :: seen) ((node.edges.map Edge.target).reverse ++ stack)

/-- A start and the targets of every edge are each taken off the stack once. -/
def reachFuel (graph : Graph) : Nat :=
  1 + (graph.nodes.map fun node => node.edges.length).sum

def reachable (graph : Graph) : List String :=
  (reachLoop graph (reachFuel graph) [] [graph.start]).getD []

/-- The edges of the nodes that were not seen yet. -/
def unseenEdges (nodes : List Node) (seen : List String) : Nat :=
  (nodes.map fun node => if node.name ∈ seen then 0 else node.edges.length).sum

theorem unseenEdges_cons_le (nodes : List Node) (cur : String) (seen : List String)
    : unseenEdges nodes (cur :: seen) ≤ unseenEdges nodes seen := by
  refine List.sum_le_sum fun node _ => ?_
  by_cases hseen : node.name ∈ seen
  . rw [if_pos (List.mem_cons_of_mem _ hseen)]
    exact Nat.zero_le _
  . rw [if_neg hseen]
    split <;> omega

/-- Seeing a node uses its edges up. -/
theorem unseenEdges_cons {nodes : List Node} {node : Node} (hmem : node ∈ nodes) {seen : List String}
    (hnew : node.name ∉ seen)
    : unseenEdges nodes (node.name :: seen) + node.edges.length ≤ unseenEdges nodes seen := by
  induction nodes with
  | nil => cases hmem
  | cons head nodes ih =>
    have hhead (seen : List String)
        : unseenEdges (head :: nodes) seen =
            (if head.name ∈ seen then 0 else head.edges.length) + unseenEdges nodes seen := by
      simp [unseenEdges]
    rw [hhead, hhead]
    rcases List.mem_cons.mp hmem with rfl | hmem
    . have hrest := unseenEdges_cons_le nodes node.name seen
      rw [if_pos List.mem_cons_self, if_neg hnew]
      omega
    . have hrest := ih hmem
      by_cases hseen : head.name ∈ seen
      . rw [if_pos (List.mem_cons_of_mem _ hseen), if_pos hseen]
        omega
      . rw [if_neg hseen]
        split <;> omega

theorem reachLoop_isSome (graph : Graph) {fuel : Nat} {seen stack : List String}
    (h : stack.length + unseenEdges graph.nodes seen ≤ fuel)
    : (reachLoop graph fuel seen stack).isSome = true := by
  induction fuel generalizing seen stack with
  | zero =>
    cases stack with
    | nil => rfl
    | cons cur stack => simp at h
  | succ fuel ih =>
    cases stack with
    | nil => rfl
    | cons cur stack =>
      rw [List.length_cons] at h
      rw [reachLoop]
      split
      . exact ih (by omega)
      . next hnew =>
        cases hget : graph.get? cur with
        | none => exact ih (by omega)
        | some node =>
          have hname := Graph.name_of_get? hget
          subst hname
          have hedges := unseenEdges_cons (Graph.mem_of_get? hget) hnew
          refine ih ?_
          rw [List.length_append, List.length_reverse, List.length_map]
          omega

/-- The traversal is always over. -/
theorem reachLoop_start (graph : Graph)
    : reachLoop graph (reachFuel graph) [] [graph.start] = some (reachable graph) := by
  have hsome : (reachLoop graph (reachFuel graph) [] [graph.start]).isSome = true := by
    refine reachLoop_isSome graph ?_
    have hall : unseenEdges graph.nodes [] = (graph.nodes.map fun node => node.edges.length).sum := by
      simp [unseenEdges]
    rw [hall, reachFuel, List.length_singleton]
  rcases Option.isSome_iff_exists.mp hsome with ⟨seen, hseen⟩
  rw [reachable, hseen]
  rfl

/- What the traversal sees is closed under the edges. -/

/-- A name that is seen, or that no node has. -/
def Known (graph : Graph) (seen : List String) (name : String) : Prop :=
  name ∈ seen ∨ graph.get? name = none

/-- The targets of the nodes seen are known, or still to come. -/
def Explored (graph : Graph) (seen stack : List String) : Prop :=
  ∀ name ∈ seen, ∀ node, graph.get? name = some node → ∀ edge ∈ node.edges,
    Known graph seen edge.target ∨ edge.target ∈ stack

theorem Explored.pop {graph : Graph} {seen stack : List String} {cur : String}
    (h : Explored graph seen (cur :: stack)) (hcur : Known graph seen cur)
    : Explored graph seen stack := by
  intro name hname node hnode edge hedge
  rcases h name hname node hnode edge hedge with hknown | hmem
  . exact .inl hknown
  . rcases List.mem_cons.mp hmem with heq | hmem
    . exact .inl (heq ▸ hcur)
    . exact .inr hmem

theorem Explored.push {graph : Graph} {seen stack : List String} {cur : String} {node : Node}
    (h : Explored graph seen (cur :: stack)) (hcur : graph.get? cur = some node)
    : Explored graph (cur :: seen) ((node.edges.map Edge.target).reverse ++ stack) := by
  intro name hname other hother edge hedge
  rcases List.mem_cons.mp hname with rfl | hname
  . rw [hcur, Option.some.injEq] at hother
    subst hother
    exact .inr (List.mem_append_left _ (List.mem_reverse.mpr (List.mem_map_of_mem hedge)))
  . rcases h name hname other hother edge hedge with (hseen | hnone) | hmem
    . exact .inl (.inl (List.mem_cons_of_mem _ hseen))
    . exact .inl (.inr hnone)
    . rcases List.mem_cons.mp hmem with heq | hmem
      . exact .inl (.inl (heq ▸ List.mem_cons_self))
      . exact .inr (List.mem_append_right _ hmem)

theorem reachLoop_explored {graph : Graph} {fuel : Nat} {seen stack result : List String}
    (h : reachLoop graph fuel seen stack = some result) (hexplored : Explored graph seen stack)
    : Explored graph result [] ∧ (∀ name ∈ seen, name ∈ result) ∧ ∀ name ∈ stack, Known graph result name := by
  induction fuel generalizing seen stack with
  | zero =>
    cases stack with
    | nil =>
      cases h
      exact ⟨hexplored, fun name hname => hname, by simp⟩
    | cons cur stack => cases h
  | succ fuel ih =>
    cases stack with
    | nil =>
      cases h
      exact ⟨hexplored, fun name hname => hname, by simp⟩
    | cons cur stack =>
      rw [reachLoop] at h
      split at h
      next hseen =>
        rcases ih h (hexplored.pop (.inl hseen)) with ⟨hclosed, hmono, hstack⟩
        refine ⟨hclosed, hmono, List.forall_mem_cons.mpr ⟨.inl (hmono cur hseen), hstack⟩⟩
      next hnew =>
        cases hget : graph.get? cur with
        | none =>
          rw [hget] at h
          rcases ih h (hexplored.pop (.inr hget)) with ⟨hclosed, hmono, hstack⟩
          exact ⟨hclosed, hmono, List.forall_mem_cons.mpr ⟨.inr hget, hstack⟩⟩
        | some node =>
          rw [hget] at h
          rcases ih h (hexplored.push hget) with ⟨hclosed, hmono, hstack⟩
          refine ⟨hclosed, fun name hname => hmono name (List.mem_cons_of_mem _ hname), ?_⟩
          refine List.forall_mem_cons.mpr ⟨.inl (hmono cur List.mem_cons_self), ?_⟩
          exact fun name hname => hstack name (List.mem_append_right _ hname)

theorem reachable_start (graph : Graph)
    : Known graph (reachable graph) graph.start :=
  (reachLoop_explored (reachLoop_start graph) (by simp [Explored])).2.2 _ (by simp)

theorem reachable_target {graph : Graph} {name : String} {node : Node} (hname : name ∈ reachable graph)
    (hnode : graph.get? name = some node) {edge : Edge} (hedge : edge ∈ node.edges)
    : Known graph (reachable graph) edge.target := by
  have hexplored := (reachLoop_explored (reachLoop_start graph) (by simp [Explored])).1
  exact (hexplored name hname node hnode edge hedge).resolve_right (by simp)

end Parser
