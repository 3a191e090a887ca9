import Mathlib.Data.List.Basic
import Mathlib.Tactic

/-!
This module contains Tarjan's search for the strongly connected components of a graph, with a stack of its own in place of
recursion, and that the search is always over with neither stack nor table found wanting.
-/

namespace Tarjan

section Search

variable {α : Type} [DecidableEq α]

/-- The entries of `work` are the nodes being explored, each with the position of its next edge. -/
structure State (α : Type) where
  index : α → Option ℕ
  low : α → Option ℕ
  onstack : α → Bool
  stack : List α
  out : List (List α)
  counter : ℕ
  work : List (α × ℕ)

def start : State α :=
  ⟨fun _ => none, fun _ => none, fun _ => false, [], [], 0, []⟩

def put (table : α → Option ℕ) (node : α) (n : ℕ) : α → Option ℕ :=
  fun other => if other = node then some n else table other

def mark (flags : α → Bool) (node : α) (flag : Bool) : α → Bool :=
  fun other => if other = node then flag else flags other

def State.register (s : State α) (node : α) : State α :=
  {
    s with
    index := put s.index node s.counter
    low := put s.low node s.counter
    counter := s.counter + 1
    stack := node :: s.stack
    onstack := mark s.onstack node true
  }

variable (nodes : List α) (targets : α → List α)

/-- Follows the edges from a position on, up to the first that leads to a node not seen before; `none` is a missing key. -/
def scan (node : α) (s : State α) (pos : ℕ) : List α → Option (State α × Option (α × ℕ))
  | [] => some (s, none)
  | target :: rest =>
    if target ∉ nodes then
      scan node s (pos + 1) rest
    else
      match s.index target with
      | none => some (s, some (target, pos + 1))
      | some i =>
        if s.onstack target then
          match s.low node with
          | none => none
          | some low => scan node { s with low := put s.low node (min low i) } (pos + 1) rest
        else
          scan node s (pos + 1) rest

/-- Takes the component of a node off the stack; `none` is the end of the stack. -/
def popUntil (node : α) : List α → (α → Bool) → List α → Option (List α × (α → Bool) × List α)
  | [], _, _ => none
  | member :: stack, onstack, comp =>
    let onstack := mark onstack member false
    let comp := comp.insert member
    if member = node then some (stack, onstack, comp) else popUntil node stack onstack comp

/-- The component a node closes, where it is the first of one. -/
def close (node : α) (s : State α) : Option (State α) :=
  match s.low node, s.index node with
  | some low, some index =>
    if low = index then
      (popUntil node s.stack s.onstack []).map fun (stack, onstack, comp) =>
        { s with out := s.out ++ [comp], stack := stack, onstack := onstack }
    else
      some s
  | _, _ => none

/-- The low link of a node goes into its parent's. -/
def fold (node : α) (work : List (α × ℕ)) (s : State α) : Option (State α) :=
  match work with
  | [] => some { s with work := [] }
  | (parent, pos) :: rest =>
    match s.low parent, s.low node with
    | some lowParent, some low =>
      some { s with low := put s.low parent (min lowParent low), work := (parent, pos) :: rest }
    | _, _ => none

def step (s : State α) : Option (State α) :=
  match s.work with
  | [] => some s
  | (node, pos) :: rest =>
    let s := if pos = 0 then s.register node else s
    match scan nodes node s pos ((targets node).drop pos) with
    | none => none
    | some (s, some (target, pos)) => some { s with work := (target, 0) :: (node, pos) :: rest }
    | some (s, none) => (close node s).bind (fold node rest)

def loop : ℕ → State α → Option (State α)
  | 0, s => if s.work = [] then some s else none
  | fuel + 1, s => if s.work = [] then some s else (step nodes targets s).bind (loop fuel)

/-- Each node is taken up and given back once. -/
def explore (s : State α) (root : α) : Option (State α) :=
  if (s.index root).isSome then some s else loop nodes targets (2 * nodes.length) { s with work := [(root, 0)] }

/-- The components, in the order they are closed in. -/
def components : Option (List (List α)) :=
  (nodes.foldlM (explore nodes targets) start).map State.out

end Search

/- The search is total. -/

section Total

variable {α : Type} [DecidableEq α] {nodes : List α} {targets : α → List α}

theorem isSome_put {table : α → Option ℕ} {node other : α} {n : ℕ}
    : (put table node n other).isSome = true ↔ other = node ∨ (table other).isSome = true := by
  unfold put
  split
  . next heq => simp [heq]
  . next hne => simp [hne]

/-- The tables have the nodes of the stack and of the work below its top, and the stack has those of the work in order. -/
structure Explored (s : State α) (work : List (α × ℕ)) : Prop where
  keys : ∀ node, (s.index node).isSome = true → (s.low node).isSome = true
  seen : ∀ entry ∈ work, (s.index entry.1).isSome = true
  stacked : (work.map Prod.fst).Sublist s.stack

/-- Between two steps the top of the work is either explored or still to be registered. -/
structure Inv (nodes : List α) (s : State α) : Prop where
  mem : ∀ entry ∈ s.work, entry.1 ∈ nodes
  below : Explored s s.work.tail
  top : ∀ node pos rest, s.work = (node, pos) :: rest → pos = 0 ∨ Explored s s.work

theorem Explored.register {s : State α} {work : List (α × ℕ)} (h : Explored s work) (node : α) (pos : ℕ)
    : Explored (s.register node) ((node, pos) :: work) := by
  refine ⟨?_, ?_, ?_⟩
  . intro other hother
    apply isSome_put.mpr
    rcases isSome_put.mp hother with heq | hsome
    . exact .inl heq
    . exact .inr (h.keys other hsome)
  . intro entry hentry
    apply isSome_put.mpr
    rcases List.mem_cons.mp hentry with rfl | hentry
    . exact .inl rfl
    . exact .inr (h.seen entry hentry)
  . exact h.stacked.cons_cons node

omit [DecidableEq α] in
/-- A low link is lowered, and nothing else. -/
theorem Explored.lower {s : State α} {work : List (α × ℕ)} (h : Explored s work) {low : α → Option ℕ}
    (hlow : ∀ node, (s.low node).isSome = true → (low node).isSome = true)
    : Explored { s with low := low } work :=
  ⟨fun node hnode => hlow node (h.keys node hnode), h.seen, h.stacked⟩

theorem scan_spec {node : α} (edges : List α) {s : State α} {pos : ℕ} (hnode : (s.low node).isSome = true)
    : ∃ low child, scan nodes node s pos edges = some ({ s with low := low }, child)
        ∧ (∀ other, (s.low other).isSome = true → (low other).isSome = true)
        ∧ ∀ target pos', child = some (target, pos') → target ∈ nodes ∧ s.index target = none ∧ pos' ≠ 0 := by
  induction edges generalizing s pos with
  | nil => exact ⟨s.low, none, rfl, fun _ h => h, fun _ _ h => by cases h⟩
  | cons target rest ih =>
    unfold scan
    split
    . exact ih hnode
    . next hmem =>
      rw [not_not] at hmem
      cases hindex : s.index target with
      | none =>
        refine ⟨s.low, _, rfl, fun _ h => h, fun target' pos' h => ?_⟩
        cases h
        exact ⟨hmem, hindex, Nat.succ_ne_zero pos⟩
      | some i =>
        simp only
        split
        . rcases Option.isSome_iff_exists.mp hnode with ⟨low, hlow⟩
          rw [hlow]
          have hput : ((put s.low node (min low i)) node).isSome = true := isSome_put.mpr (.inl rfl)
          rcases @ih { s with low := put s.low node (min low i) } (pos + 1) hput with ⟨low', child, hscan, hkeys, hchild⟩
          exact ⟨low', child, hscan, fun other h => hkeys other (isSome_put.mpr (.inr h)), hchild⟩
        . exact ih hnode

/-- A node on the stack is found, and what the work has below it stays on the stack. -/
theorem popUntil_spec {node : α} {names stack : List α} (h : (node :: names).Sublist stack) (onstack : α → Bool)
    (comp : List α)
    : ∃ found, popUntil node stack onstack comp = some found ∧ names.Sublist found.1 := by
  induction stack generalizing onstack comp with
  | nil => cases h
  | cons member stack ih =>
    unfold popUntil
    split
    . next heq =>
      refine ⟨_, rfl, ?_⟩
      rw [heq] at h
      exact List.cons_sublist_cons.mp h
    . next hne =>
      have hrest : (node :: names).Sublist stack := by
        cases h with
        | cons _ h => exact h
        | cons_cons _ h => exact absurd rfl hne
      apply ih hrest

theorem close_spec {node : α} {pos : ℕ} {rest : List (α × ℕ)} {s : State α} (h : Explored s ((node, pos) :: rest))
    : ∃ s', close node s = some s' ∧ Explored s' rest ∧ s'.index = s.index ∧ s'.low = s.low ∧ s'.work = s.work := by
  have hindex := h.seen (node, pos) List.mem_cons_self
  rcases Option.isSome_iff_exists.mp hindex with ⟨index, hindex⟩
  rcases Option.isSome_iff_exists.mp (h.keys node (by rw [hindex]; rfl)) with ⟨low, hlow⟩
  have hrest : ∀ entry ∈ rest, (s.index entry.1).isSome = true :=
    fun entry hentry => h.seen entry (List.mem_cons_of_mem _ hentry)
  unfold close
  rw [hlow, hindex]
  simp only
  split
  . rcases popUntil_spec h.stacked s.onstack [] with ⟨found, hfound, hnames⟩
    rw [hfound]
    exact ⟨_, rfl, ⟨h.keys, hrest, hnames⟩, rfl, rfl, rfl⟩
  . refine ⟨s, rfl, ⟨h.keys, hrest, ?_⟩, rfl, rfl, rfl⟩
    exact (List.sublist_cons_self node _).trans h.stacked

theorem fold_spec {node : α} {rest : List (α × ℕ)} {s : State α} (h : Explored s rest)
    (hnode : (s.low node).isSome = true)
    : ∃ s', fold node rest s = some s' ∧ Explored s' rest ∧ s'.index = s.index ∧ s'.work = rest := by
  unfold fold
  cases rest with
  | nil => exact ⟨_, rfl, ⟨h.keys, h.seen, h.stacked⟩, rfl, rfl⟩
  | cons entry rest =>
    rcases entry with ⟨parent, pos⟩
    have hparent := h.keys parent (h.seen (parent, pos) List.mem_cons_self)
    rcases Option.isSome_iff_exists.mp hparent with ⟨lowParent, hlowParent⟩
    rcases Option.isSome_iff_exists.mp hnode with ⟨low, hlow⟩
    simp only [hlowParent, hlow]
    refine ⟨_, rfl, ⟨?_, h.seen, h.stacked⟩, rfl, rfl⟩
    intro other hother
    exact isSome_put.mpr (.inr (h.keys other hother))

/-- The nodes still to be taken up. -/
def untouched (nodes : List α) (s : State α) : List α :=
  nodes.filter fun node => (s.index node).isNone && decide (node ∉ s.work.map Prod.fst)

def measure (nodes : List α) (s : State α) : ℕ :=
  2 * (untouched nodes s).length + s.work.length

theorem mem_untouched {s : State α} {node : α}
    : node ∈ untouched nodes s ↔ node ∈ nodes ∧ s.index node = none ∧ node ∉ s.work.map Prod.fst := by
  simp [untouched]

/-- Fewer nodes are untouched where every untouched one was so before and one no longer is. -/
theorem length_untouched_lt {s s' : State α} (hsub : ∀ node, node ∈ untouched nodes s' → node ∈ untouched nodes s)
    {node : α} (hold : node ∈ untouched nodes s) (hnew : node ∉ untouched nodes s')
    : (untouched nodes s').length < (untouched nodes s).length := by
  have heq : untouched nodes s' = (untouched nodes s).filter fun node => decide (node ∈ untouched nodes s') := by
    unfold untouched
    rw [List.filter_filter]
    apply List.filter_congr
    intro other hother
    have hmem := hsub other
    rw [mem_untouched, mem_untouched] at hmem
    rw [Bool.eq_iff_iff]
    simp only [List.mem_filter, Bool.and_eq_true, Option.isNone_iff_eq_none, decide_eq_true_eq, hother, true_and]
    constructor
    . intro h
      exact ⟨h, (hmem ⟨hother, h.1, h.2⟩).2⟩
    . exact fun h => h.1
  rw [heq]
  apply List.length_filter_lt_length_iff_exists.mpr
  exact ⟨node, hold, by simpa using hnew⟩

theorem length_untouched_le {s s' : State α} (hsub : ∀ node, node ∈ untouched nodes s' → node ∈ untouched nodes s)
    : (untouched nodes s').length ≤ (untouched nodes s).length := by
  by_cases h : ∃ node ∈ untouched nodes s, node ∉ untouched nodes s'
  . rcases h with ⟨node, hold, hnew⟩
    exact (length_untouched_lt hsub hold hnew).le
  . have hall : ∀ node, node ∈ untouched nodes s ↔ node ∈ untouched nodes s' :=
      fun node => ⟨fun hold => by_contra fun hnew => h ⟨node, hold, hnew⟩, hsub node⟩
    have heq : untouched nodes s' = untouched nodes s := by
      unfold untouched
      apply List.filter_congr
      intro node hnode
      have hmem := hall node
      rw [mem_untouched, mem_untouched] at hmem
      rw [Bool.eq_iff_iff]
      simp only [Bool.and_eq_true, Option.isNone_iff_eq_none, decide_eq_true_eq]
      constructor
      . exact fun h => (hmem.mpr ⟨hnode, h⟩).2
      . exact fun h => (hmem.mp ⟨hnode, h⟩).2
    rw [heq]

/-- A step goes through, keeps the invariant and uses the measure up. -/
theorem step_spec {s : State α} (h : Inv nodes s) (hne : s.work ≠ [])
    : ∃ s', step nodes targets s = some s' ∧ Inv nodes s' ∧ measure nodes s' < measure nodes s := by
  rcases List.exists_cons_of_ne_nil hne with ⟨⟨node, pos⟩, rest, hwork⟩
  have hmemnode : node ∈ nodes := h.mem (node, pos) (hwork ▸ List.mem_cons_self)
  have hbelow : Explored s rest := by simpa [hwork] using h.below
  unfold step
  rw [hwork]
  simp only
  generalize hs₁ : (if pos = 0 then s.register node else s) = s₁
  have hexplored : Explored s₁ ((node, pos) :: rest) := by
    rw [← hs₁]
    split
    . exact hbelow.register node pos
    . next hpos =>
      rw [← hwork]
      exact (h.top node pos rest hwork).resolve_left hpos
  have hgrown : ∀ other, s₁.index other = none → s.index other = none := by
    intro other hother
    rw [← hs₁] at hother
    split at hother
    . simp only [State.register, put] at hother
      split at hother
      . cases hother
      . exact hother
    . exact hother
  rcases @scan_spec α _ nodes node ((targets node).drop pos) s₁ pos
    (hexplored.keys node (hexplored.seen (node, pos) List.mem_cons_self)) with ⟨low, child, hscan, hkeys, hchild⟩
  rw [hscan]
  have hlowered := hexplored.lower hkeys
  cases child with
  | some found =>
    -- Down to a new node, which is on no list yet.
    rcases found with ⟨target, pos'⟩
    rcases hchild target pos' rfl with ⟨hmem, hindex, hpos'⟩
    have hseen : ∀ entry ∈ (node, pos') :: rest, (s₁.index entry.1).isSome = true := by
      intro entry hentry
      rcases List.mem_cons.mp hentry with rfl | hentry
      . exact hexplored.seen (node, pos) List.mem_cons_self
      . exact hexplored.seen entry (List.mem_cons_of_mem _ hentry)
    have hnew : target ∉ s.work.map Prod.fst := by
      rw [hwork]
      intro hin
      rcases List.mem_map.mp hin with ⟨entry, hentry, heq⟩
      have hsome := hexplored.seen entry hentry
      rw [heq, hindex] at hsome
      cases hsome
    refine ⟨_, rfl, ⟨?_, ⟨hlowered.keys, hseen, hlowered.stacked⟩, fun _ _ _ heq => .inl ?_⟩, ?_⟩
    . intro entry hentry
      rcases List.mem_cons.mp hentry with rfl | hentry
      . exact hmem
      . rcases List.mem_cons.mp hentry with rfl | hentry
        . exact hmemnode
        . exact h.mem entry (hwork ▸ List.mem_cons_of_mem _ hentry)
    . cases heq
      rfl
    . have hlt : (untouched nodes { s₁ with low := low, work := (target, 0) :: (node, pos') :: rest }).length
          < (untouched nodes s).length := by
        refine length_untouched_lt ?_ (mem_untouched.mpr ⟨hmem, hgrown target hindex, hnew⟩) ?_
        . intro other hother
          rcases mem_untouched.mp hother with ⟨hothermem, hotherindex, hotherwork⟩
          refine mem_untouched.mpr ⟨hothermem, hgrown other hotherindex, ?_⟩
          rw [hwork]
          intro hin
          rcases List.mem_map.mp hin with ⟨entry, hentry, rfl⟩
          have hsome := hexplored.seen entry hentry
          rw [show s₁.index entry.1 = none from hotherindex] at hsome
          cases hsome
        . intro hin
          exact (mem_untouched.mp hin).2.2 (by simp)
      unfold measure
      simp only [hwork, List.length_cons]
      omega
  | none =>
    -- All edges are followed, so the node is given back.
    rcases close_spec hlowered with ⟨s₂, hclose, hexplored₂, hindex₂, hlow₂, _⟩
    have hlownode : (s₂.low node).isSome = true := by
      rw [hlow₂]
      exact hlowered.keys node (hlowered.seen (node, pos) List.mem_cons_self)
    rcases fold_spec hexplored₂ hlownode with ⟨s₃, hfold, hexplored₃, hindex₃, hwork₃⟩
    refine ⟨s₃, ?_, ⟨?_, ?_, fun _ _ _ _ => .inr ?_⟩, ?_⟩
    . simp only
      rw [hclose]
      exact hfold
    . intro entry hentry
      rw [hwork₃] at hentry
      exact h.mem entry (hwork ▸ List.mem_cons_of_mem _ hentry)
    . rw [hwork₃]
      exact ⟨hexplored₃.keys, fun entry hentry => hexplored₃.seen entry (List.mem_of_mem_tail hentry),
        ((List.tail_sublist rest).map Prod.fst).trans hexplored₃.stacked⟩
    . rw [hwork₃]
      exact hexplored₃
    . have hle : (untouched nodes s₃).length ≤ (untouched nodes s).length := by
        apply length_untouched_le
        intro other hother
        rcases mem_untouched.mp hother with ⟨hothermem, hotherindex, hotherwork⟩
        rw [hindex₃, hindex₂] at hotherindex
        have hother₁ : s₁.index other = none := hotherindex
        refine mem_untouched.mpr ⟨hothermem, hgrown other hother₁, ?_⟩
        rw [hwork]
        intro hin
        rcases List.mem_map.mp hin with ⟨entry, hentry, rfl⟩
        have hsome := hexplored.seen entry hentry
        rw [hother₁] at hsome
        cases hsome
      unfold measure
      rw [hwork₃]
      simp only [hwork, List.length_cons]
      omega

theorem loop_spec {fuel : ℕ} {s : State α} (h : Inv nodes s) (hfuel : measure nodes s ≤ fuel)
    : ∃ s', loop nodes targets fuel s = some s' ∧ Inv nodes s' ∧ s'.work = [] := by
  induction fuel generalizing s with
  | zero =>
    have hwork : s.work = [] := by
      apply List.eq_nil_of_length_eq_zero
      unfold measure at hfuel
      omega
    rw [loop, if_pos hwork]
    exact ⟨s, rfl, h, hwork⟩
  | succ fuel ih =>
    rw [loop]
    split
    . next hwork => exact ⟨s, rfl, h, hwork⟩
    . next hwork =>
      rcases @step_spec _ _ nodes targets s h hwork with ⟨s', hstep, hinv, hlt⟩
      rw [hstep]
      exact ih hinv (by omega)

theorem explore_spec {s : State α} (h : Inv nodes s) (hwork : s.work = []) {root : α} (hroot : root ∈ nodes)
    : ∃ s', explore nodes targets s root = some s' ∧ Inv nodes s' ∧ s'.work = [] := by
  unfold explore
  split
  . exact ⟨s, rfl, h, hwork⟩
  . next hindex =>
    have hnone : s.index root = none := by simpa using hindex
    apply loop_spec
    . refine ⟨?_, ?_, fun _ _ _ heq => .inl ?_⟩
      . intro entry hentry
        rw [List.mem_singleton.mp hentry]
        exact hroot
      . exact ⟨h.below.keys, (fun _ hentry => by cases hentry), List.nil_sublist _⟩
      . cases heq
        rfl
    . -- The root itself is not among the untouched.
      have hlt : (untouched nodes { s with work := [(root, 0)] }).length < nodes.length := by
        unfold untouched
        apply List.length_filter_lt_length_iff_exists.mpr
        exact ⟨root, hroot, by simp⟩
      unfold measure
      simp only [List.length_singleton]
      omega

/-- The search is over for every graph. -/
theorem exists_components (nodes : List α) (targets : α → List α)
    : ∃ found, components nodes targets = some found := by
  have hfold : ∀ roots : List α, (∀ root ∈ roots, root ∈ nodes) → ∀ s : State α, Inv nodes s → s.work = [] →
      ∃ s', roots.foldlM (explore nodes targets) s = some s' := by
    intro roots hroots
    induction roots with
    | nil => exact fun s _ _ => ⟨s, rfl⟩
    | cons root roots ih =>
      intro s h hwork
      rcases List.forall_mem_cons.mp hroots with ⟨hroot, hroots⟩
      rcases @explore_spec _ _ nodes targets s h hwork root hroot with ⟨s', hs', hinv, hwork'⟩
      rw [List.foldlM_cons, hs']
      exact ih hroots s' hinv hwork'
  have hstart : Inv nodes (start : State α) := by
    refine ⟨(fun _ hentry => by cases hentry), ⟨?_, (fun _ hentry => by cases hentry), List.nil_sublist _⟩, ?_⟩
    . intro node hnode
      cases hnode
    . intro _ _ _ heq
      cases heq
  rcases hfold nodes (fun _ h => h) start hstart rfl with ⟨s, hs⟩
  exact ⟨s.out, by rw [components, hs]; rfl⟩

end Total

end Tarjan
