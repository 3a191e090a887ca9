import Mathlib.Logic.Relation
import PrismPath.Lib.Tarjan

/-!
This module contains that the components which the search finds are the strongly connected components of the graph.
-/

namespace Tarjan

variable {α : Type} {nodes : List α} {targets : α → List α}

def Edge (nodes : List α) (targets : α → List α) (a b : α) : Prop :=
  a ∈ nodes ∧ b ∈ nodes ∧ b ∈ targets a

def Reach (nodes : List α) (targets : α → List α) : α → α → Prop :=
  Relation.ReflTransGen (Edge nodes targets)

/-- Each reaches the other. -/
def Mutual (nodes : List α) (targets : α → List α) (a b : α) : Prop :=
  Reach nodes targets a b ∧ Reach nodes targets b a

def State.number (s : State α) (node : α) : ℕ :=
  (s.index node).getD 0

def State.Done (s : State α) (node : α) : Prop :=
  ∃ comp ∈ s.out, node ∈ comp

/-- An edge that was followed led to a numbered node, and one that stays below on the stack is in the low link. -/
def Followed (s : State α) (below : List α) (low : ℕ) (target : α) : Prop :=
  (s.index target).isSome = true ∧ (target ∈ below → low ≤ s.number target)

/--
A node of the work, with the finished nodes over it on the stack: these and the node reach one another, and the low link
is the number of a node that can be reached and no more than that of any node below with an edge into it.
-/
structure Layer (nodes : List α) (targets : α → List α) (s : State α) (node : α) (pos : ℕ) (seg below : List α) (low : ℕ)
    : Prop where
  low_eq : s.low node = some low
  low_le : low ≤ s.number node
  low_reached : ∃ reached ∈ node :: below, s.number reached = low ∧ Reach nodes targets node reached
  both : ∀ u ∈ seg, Mutual nodes targets node u
  finished : ∀ u ∈ seg, ∀ v, Edge nodes targets u v → Followed s below low v
  followed : ∀ v ∈ (targets node).take pos, v ∈ nodes → Followed s below low v

/-- The stack is made of the layers of the work. -/
def Layered (nodes : List α) (targets : α → List α) (s : State α) : List (α × ℕ) → List α → Prop
  | [], stack => stack = []
  | (node, pos) :: work, stack =>
    ∃ seg below low, stack = seg ++ node :: below ∧ Layer nodes targets s node pos seg below low ∧
      (∀ parent ∈ work.head?, Edge nodes targets parent.1 node) ∧ Layered nodes targets s work below

structure Good (nodes : List α) (targets : α → List α) (s : State α) (work : List (α × ℕ)) : Prop where
  layered : Layered nodes targets s work s.stack
  sorted : s.stack.Pairwise fun a b => s.number b < s.number a
  bound : ∀ u i, s.index u = some i → i < s.counter
  seen : ∀ u, (s.index u).isSome = true ↔ u ∈ s.stack ∨ s.Done u
  flags : ∀ u, s.onstack u = true ↔ u ∈ s.stack
  mem : ∀ u ∈ s.stack, u ∈ nodes
  unfinished : ∀ u ∈ s.stack, ¬s.Done u
  closed : ∀ u v, s.Done u → Edge nodes targets u v → s.Done v
  strong : ∀ comp ∈ s.out, ∀ u ∈ comp, u ∈ nodes ∧ ∀ v, v ∈ comp ↔ Mutual nodes targets u v
  apart : s.out.Pairwise fun a b => ∀ u ∈ a, u ∉ b

/- Reaching. -/

theorem Mutual.symm {a b : α} (h : Mutual nodes targets a b)
    : Mutual nodes targets b a :=
  ⟨h.2, h.1⟩

theorem Mutual.trans {a b c : α} (h : Mutual nodes targets a b) (h' : Mutual nodes targets b c)
    : Mutual nodes targets a c :=
  ⟨h.1.trans h'.1, h'.2.trans h.2⟩

/-- What a closed set of nodes reaches stays in it. -/
theorem Reach.closed {p : α → Prop} (hclosed : ∀ a b, p a → Edge nodes targets a b → p b) {a b : α}
    (h : Reach nodes targets a b) (ha : p a)
    : p b := by
  induction h with
  | refl => exact ha
  | tail _ hedge ih => exact hclosed _ _ ih hedge

/- Layers. -/

/-- Layers depend on the numbers of their stack and the low links of their work. -/
theorem Layered.frame {s s' : State α} {work : List (α × ℕ)} {stack : List α} (h : Layered nodes targets s work stack)
    (hnumber : ∀ u ∈ stack, s'.number u = s.number u) (hlow : ∀ u ∈ stack, u ∈ work.map Prod.fst → s'.low u = s.low u)
    (hindex : ∀ u, (s.index u).isSome = true → (s'.index u).isSome = true)
    : Layered nodes targets s' work stack := by
  induction work generalizing stack with
  | nil => exact h
  | cons entry work ih =>
    rcases entry with ⟨node, pos⟩
    rcases h with ⟨seg, below, low, rfl, hlayer, hparent, hrest⟩
    have hbelow : ∀ u ∈ below, u ∈ seg ++ node :: below := by
      intro u hu
      simp [hu]
    have hnode : node ∈ seg ++ node :: below := by simp
    have hfollowed : ∀ v, Followed s below low v → Followed s' below low v := by
      intro v hv
      refine ⟨hindex v hv.1, fun hmem => ?_⟩
      rw [hnumber v (hbelow v hmem)]
      exact hv.2 hmem
    refine ⟨seg, below, low, rfl, ?_, hparent, ?_⟩
    . refine ⟨?_, ?_, ?_, hlayer.both, ?_, ?_⟩
      . rw [hlow node hnode (by simp)]
        exact hlayer.low_eq
      . rw [hnumber node hnode]
        exact hlayer.low_le
      . rcases hlayer.low_reached with ⟨reached, hmem, heq, hreach⟩
        refine ⟨reached, hmem, ?_, hreach⟩
        rw [hnumber reached (List.mem_append_right seg hmem)]
        exact heq
      . exact fun u hu v hedge => hfollowed v (hlayer.finished u hu v hedge)
      . exact fun v hv hmem => hfollowed v (hlayer.followed v hv hmem)
    . apply ih hrest
      . exact fun u hu => hnumber u (hbelow u hu)
      . exact fun u hu hwork => hlow u (hbelow u hu) (List.mem_cons_of_mem _ hwork)

/-- Each node of the stack reaches the top of the work. -/
theorem Layered.reach_top {s : State α} {node : α} {pos : ℕ} {work : List (α × ℕ)} {stack : List α}
    (h : Layered nodes targets s ((node, pos) :: work) stack) {u : α} (hu : u ∈ stack)
    : Reach nodes targets u node := by
  induction work generalizing node pos stack with
  | nil =>
    rcases h with ⟨seg, below, low, rfl, hlayer, _, hrest⟩
    rw [show below = [] from hrest] at hu
    rcases List.mem_append.mp hu with hu | hu
    . exact (hlayer.both u hu).2
    . rw [List.mem_singleton.mp hu]
      exact Relation.ReflTransGen.refl
  | cons entry work ih =>
    rcases h with ⟨seg, below, low, rfl, hlayer, hparent, hrest⟩
    rcases List.mem_append.mp hu with hu | hu
    . exact (hlayer.both u hu).2
    . rcases List.mem_cons.mp hu with rfl | hu
      . exact Relation.ReflTransGen.refl
      . exact (ih hrest hu).tail (hparent entry rfl)

/- Numbers along the stack. -/

theorem lt_of_mem_seg {s : State α} {node : α} {seg below : List α}
    (h : (seg ++ node :: below).Pairwise fun a b => s.number b < s.number a) {u : α} (hu : u ∈ seg)
    : s.number node < s.number u :=
  (List.pairwise_append.mp h).2.2 u hu node List.mem_cons_self

theorem lt_of_mem_below {s : State α} {node : α} {seg below : List α}
    (h : (seg ++ node :: below).Pairwise fun a b => s.number b < s.number a) {u : α} (hu : u ∈ below)
    : s.number u < s.number node :=
  List.rel_of_pairwise_cons (List.pairwise_append.mp h).2.1 hu

theorem Good.isSome {s : State α} {work : List (α × ℕ)} (h : Good nodes targets s work) {u : α} (hu : u ∈ s.stack)
    : (s.index u).isSome = true :=
  (h.seen u).mpr (.inl hu)

theorem Good.number_lt {s : State α} {work : List (α × ℕ)} (h : Good nodes targets s work) {u : α} (hu : u ∈ s.stack)
    : s.number u < s.counter := by
  rcases Option.isSome_iff_exists.mp (h.isSome hu) with ⟨i, hi⟩
  have hlt := h.bound u i hi
  rw [State.number, hi]
  exact hlt

/-- What is read of a state is not its work. -/
theorem Good.setWork {s : State α} {work : List (α × ℕ)} (h : Good nodes targets s work) (work' : List (α × ℕ))
    : Good nodes targets { s with work := work' } work where
  layered := h.layered.frame (fun _ _ => rfl) (fun _ _ _ => rfl) fun _ hsome => hsome
  sorted := h.sorted
  bound := h.bound
  seen := h.seen
  flags := h.flags
  mem := h.mem
  unfinished := h.unfinished
  closed := h.closed
  strong := h.strong
  apart := h.apart

/-- Edges followed further, all of them to numbered nodes that the low link covers. -/
theorem Layered.advance {s : State α} {node : α} {pos pos' low : ℕ} {work : List (α × ℕ)} {stack : List α}
    (h : Layered nodes targets s ((node, pos) :: work) stack) (hlow : s.low node = some low)
    (hnew : ∀ v ∈ (targets node).take pos', v ∈ nodes →
      v ∈ (targets node).take pos ∨ ((s.index v).isSome = true ∧ (v ∈ stack → low ≤ s.number v)))
    : Layered nodes targets s ((node, pos') :: work) stack := by
  rcases h with ⟨seg, below, low₀, rfl, hlayer, hparent, hrest⟩
  have hsame : low = low₀ := by
    have heq := hlayer.low_eq
    rw [hlow, Option.some.injEq] at heq
    exact heq
  subst hsame
  refine ⟨seg, below, low, rfl, { hlayer with followed := ?_ }, hparent, hrest⟩
  intro v hv hmem
  rcases hnew v hv hmem with hold | ⟨hsome, hle⟩
  . exact hlayer.followed v hold hmem
  . exact ⟨hsome, fun hbelow => hle (by simp [hbelow])⟩

/- Taking up a node. -/

section Step

variable [DecidableEq α]

theorem number_register (s : State α) (node : α)
    : (s.register node).number node = s.counter := by
  simp [State.register, State.number, put]

theorem number_register_of_ne {s : State α} {node u : α} (hne : u ≠ node)
    : (s.register node).number u = s.number u := by
  simp [State.register, State.number, put, hne]

theorem isSome_register {s : State α} {node u : α}
    : ((s.register node).index u).isSome = true ↔ u = node ∨ (s.index u).isSome = true :=
  isSome_put

theorem Good.register {s : State α} {work : List (α × ℕ)} (h : Good nodes targets s work) {node : α} (hmem : node ∈ nodes)
    (hindex : s.index node = none) (hparent : ∀ parent ∈ work.head?, Edge nodes targets parent.1 node)
    : Good nodes targets (s.register node) ((node, 0) :: work) := by
  have hfresh : node ∉ s.stack ∧ ¬s.Done node := by
    have hseen := h.seen node
    rw [hindex] at hseen
    constructor
    . intro hstack
      cases hseen.mpr (.inl hstack)
    . intro hdone
      cases hseen.mpr (.inr hdone)
  have hne : ∀ u ∈ s.stack, u ≠ node := fun u hu heq => hfresh.1 (heq ▸ hu)
  have hnumber : ∀ u ∈ s.stack, (s.register node).number u = s.number u := fun u hu => number_register_of_ne (hne u hu)
  constructor
  . refine ⟨[], s.stack, s.counter, rfl, ?_, hparent, ?_⟩
    . refine ⟨?_, ?_, ?_, (fun _ hu => by cases hu), (fun _ hu => by cases hu), (fun _ hv => by simp at hv)⟩
      . simp [State.register, put]
      . rw [number_register]
      . exact ⟨node, List.mem_cons_self, number_register s node, Relation.ReflTransGen.refl⟩
    . apply h.layered.frame hnumber
      . intro u hu _
        simp [State.register, put, hne u hu]
      . exact fun u hsome => isSome_register.mpr (.inr hsome)
  . apply List.pairwise_cons.mpr
    constructor
    . intro u hu
      rw [number_register, hnumber u hu]
      exact h.number_lt hu
    . apply h.sorted.imp_of_mem
      intro a b ha hb hlt
      rw [hnumber a ha, hnumber b hb]
      exact hlt
  . intro u i hi
    simp only [State.register, put] at hi ⊢
    split at hi
    . cases hi
      omega
    . have hlt := h.bound u i hi
      omega
  . intro u
    rw [isSome_register, h.seen, show (s.register node).stack = node :: s.stack from rfl, List.mem_cons, or_assoc]
    rfl
  . intro u
    rw [show (s.register node).stack = node :: s.stack from rfl, List.mem_cons, ← h.flags u]
    simp only [State.register, mark]
    split <;> simp_all
  . intro u hu
    rcases List.mem_cons.mp hu with rfl | hu
    . exact hmem
    . exact h.mem u hu
  . intro u hu
    rcases List.mem_cons.mp hu with rfl | hu
    . exact hfresh.2
    . exact h.unfinished u hu
  . exact h.closed
  . exact h.strong
  . exact h.apart

/- Following the edges of a node. -/

theorem Good.lower {s : State α} {node : α} {pos low low' : ℕ} {work : List (α × ℕ)}
    (h : Good nodes targets s ((node, pos) :: work)) (hlow : s.low node = some low) (hle : low' ≤ low)
    (hreached : low' = low ∨ ∃ target ∈ s.stack, s.number target = low' ∧ Edge nodes targets node target)
    : Good nodes targets { s with low := put s.low node low' } ((node, pos) :: work) := by
  rcases h.layered with ⟨seg, below, low₀, hstack, hlayer, hparent, hrest⟩
  have hsorted := h.sorted
  rw [hstack] at hsorted
  have hsame : low = low₀ := by
    have heq := hlayer.low_eq
    rw [hlow, Option.some.injEq] at heq
    exact heq
  subst hsame
  have hfollowed : ∀ v, Followed s below low v → Followed s below low' v :=
    fun v hv => ⟨hv.1, fun hbelow => Nat.le_trans hle (hv.2 hbelow)⟩
  refine { h with layered := ⟨seg, below, low', hstack, ?_, hparent, ?_⟩ }
  . refine ⟨?_, Nat.le_trans hle hlayer.low_le, ?_, hlayer.both, ?_, ?_⟩
    . simp [put]
    . rcases hreached with rfl | ⟨target, hmem, heq, hedge⟩
      . exact hlayer.low_reached
      . -- a node above has a higher number than the low link
        refine ⟨target, ?_, heq, Relation.ReflTransGen.single hedge⟩
        rw [hstack] at hmem
        rcases List.mem_append.mp hmem with hseg | hbelow
        . have hlt := lt_of_mem_seg hsorted hseg
          have hlow_le := hlayer.low_le
          omega
        . exact hbelow
    . exact fun u hu v hedge => hfollowed v (hlayer.finished u hu v hedge)
    . exact fun v hv hmem => hfollowed v (hlayer.followed v hv hmem)
  . refine hrest.frame (fun _ _ => rfl) (fun u hu _ => ?_) fun _ hsome => hsome
    have hlt := lt_of_mem_below hsorted hu
    have hne : u ≠ node := by
      rintro rfl
      omega
    simp [put, hne]

/-- What was found along a run of edges. -/
structure Scanned (nodes : List α) (s : State α) (node : α) (pos low : ℕ) (edges : List α) (s' : State α)
    (child : Option (α × ℕ)) (low' : ℕ) (seen rest : List α) : Prop where
  edges_eq : edges = seen ++ rest
  state_eq : s' = { s with low := put s.low node low' }
  low_le : low' ≤ low
  reached : low' = low ∨ ∃ target ∈ seen, target ∈ nodes ∧ s.onstack target = true ∧ s.index target = some low'
  followed : ∀ v ∈ seen, v ∈ nodes → (∃ pos', child = some (v, pos')) ∨
    ∃ i, s.index v = some i ∧ (s.onstack v = true → low' ≤ i)
  finished : child = none → rest = []
  child_new : ∀ target pos', child = some (target, pos') →
    pos' = pos + seen.length ∧ target ∈ seen ∧ target ∈ nodes ∧ s.index target = none

theorem put_self {table : α → Option ℕ} {node : α} {n : ℕ} (h : table node = some n)
    : put table node n = table := by
  funext other
  unfold put
  split
  . next heq => rw [heq, h]
  . rfl

theorem put_put (table : α → Option ℕ) (node : α) (n m : ℕ)
    : put (put table node n) node m = put table node m := by
  funext other
  unfold put
  split <;> rfl

/-- One edge more before the others, which the low link covers. -/
theorem Scanned.cons {s s' : State α} {node target : α} {pos low low' : ℕ} {edges seen rest : List α}
    {child : Option (α × ℕ)} (h : Scanned nodes s node (pos + 1) low edges s' child low' seen rest)
    (htarget : target ∈ nodes → ∃ i, s.index target = some i ∧ (s.onstack target = true → low ≤ i))
    : Scanned nodes s node pos low (target :: edges) s' child low' (target :: seen) rest := by
  refine ⟨?_, h.state_eq, h.low_le, ?_, ?_, h.finished, ?_⟩
  . rw [h.edges_eq, List.cons_append]
  . rcases h.reached with heq | ⟨reached, hmem, hreached⟩
    . exact .inl heq
    . exact .inr ⟨reached, List.mem_cons_of_mem _ hmem, hreached⟩
  . intro v hv hmem
    rcases List.mem_cons.mp hv with rfl | hv
    . rcases htarget hmem with ⟨i, hi, hle⟩
      exact .inr ⟨i, hi, fun hflag => Nat.le_trans h.low_le (hle hflag)⟩
    . exact h.followed v hv hmem
  . intro found pos' hchild
    rcases h.child_new found pos' hchild with ⟨hpos, hseen, hnew⟩
    refine ⟨?_, List.mem_cons_of_mem _ hseen, hnew⟩
    rw [hpos, List.length_cons]
    omega

theorem scanned {s s' : State α} {node : α} {pos low : ℕ} {edges : List α} {child : Option (α × ℕ)}
    (hlow : s.low node = some low) (h : scan nodes node s pos edges = some (s', child))
    : ∃ low' seen rest, Scanned nodes s node pos low edges s' child low' seen rest := by
  induction edges generalizing s pos low with
  | nil =>
    rw [scan, Option.some.injEq, Prod.mk.injEq] at h
    rcases h with ⟨rfl, rfl⟩
    refine ⟨low, [], [], rfl, ?_, Nat.le_refl _, .inl rfl, (fun _ hv => by cases hv), fun _ => rfl,
      (fun _ _ hchild => by cases hchild)⟩
    rw [put_self hlow]
  | cons target rest ih =>
    unfold scan at h
    split at h
    . next hmem =>
      rcases ih hlow h with ⟨low', seen, rest', hscanned⟩
      exact ⟨low', target :: seen, rest', hscanned.cons fun hin => absurd hin hmem⟩
    . next hmem =>
      rw [not_not] at hmem
      cases hindex : s.index target with
      | none =>
        rw [hindex] at h
        simp only [Option.some.injEq, Prod.mk.injEq] at h
        rcases h with ⟨rfl, rfl⟩
        refine ⟨low, [target], rest, rfl, ?_, Nat.le_refl _, .inl rfl, ?_, (fun hchild => by cases hchild), ?_⟩
        . rw [put_self hlow]
        . intro v hv _
          rw [List.mem_singleton.mp hv]
          exact .inl ⟨pos + 1, rfl⟩
        . intro found pos' hchild
          cases hchild
          exact ⟨rfl, List.mem_singleton.mpr rfl, hmem, hindex⟩
      | some i =>
        rw [hindex] at h
        simp only [hlow] at h
        split at h
        . next hflag =>
          have hput : (put s.low node (min low i)) node = some (min low i) := by simp [put]
          rcases @ih { s with low := put s.low node (min low i) } _ _ hput h with ⟨low', seen, rest', hscanned⟩
          have hfrom : Scanned nodes s node (pos + 1) (min low i) rest s' child low' seen rest' := by
            refine { hscanned with state_eq := ?_ }
            rw [hscanned.state_eq, put_put]
          have hcons : Scanned nodes s node pos (min low i) (target :: rest) s' child low' (target :: seen) rest' :=
            hfrom.cons fun _ => ⟨i, hindex, fun _ => Nat.min_le_right low i⟩
          refine ⟨low', target :: seen, rest', { hcons with low_le := ?_, reached := ?_ }⟩
          . exact Nat.le_trans hcons.low_le (Nat.min_le_left low i)
          . rcases hcons.reached with heq | hreached
            . rcases Nat.le_total low i with hle | hle
              . rw [heq, Nat.min_eq_left hle]
                exact .inl rfl
              . rw [heq, Nat.min_eq_right hle]
                exact .inr ⟨target, List.mem_cons_self, hmem, hflag, hindex⟩
            . exact .inr hreached
        . next hflag =>
          rcases ih hlow h with ⟨low', seen, rest', hscanned⟩
          exact ⟨low', target :: seen, rest', hscanned.cons fun _ => ⟨i, hindex, fun hon => absurd hon hflag⟩⟩

/- Giving back a node. -/

theorem popUntil_eq {node : α} {seg : List α} (below : List α) (hnode : node ∉ seg) (onstack : α → Bool) (comp : List α)
    : ∃ onstack' comp', popUntil node (seg ++ node :: below) onstack comp = some (below, onstack', comp')
        ∧ (∀ u, onstack' u = true ↔ onstack u = true ∧ u ∉ seg ∧ u ≠ node)
        ∧ ∀ u, u ∈ comp' ↔ u ∈ comp ∨ u ∈ seg ∨ u = node := by
  have hmark : ∀ (flags : α → Bool) (member u : α), mark flags member false u = true ↔ flags u = true ∧ u ≠ member := by
    intro flags member u
    unfold mark
    split <;> simp_all
  induction seg generalizing onstack comp with
  | nil =>
    refine ⟨mark onstack node false, comp.insert node, ?_, fun u => ?_, fun u => ?_⟩
    . simp [popUntil]
    . simp [hmark]
    . simp [or_comm]
  | cons member seg ih =>
    rw [List.mem_cons, not_or] at hnode
    rcases ih hnode.2 (mark onstack member false) (comp.insert member) with ⟨onstack', comp', hpop, hflags, hcomp⟩
    refine ⟨onstack', comp', ?_, fun u => ?_, fun u => ?_⟩
    . rw [List.cons_append, popUntil, if_neg (Ne.symm hnode.1)]
      exact hpop
    . rw [hflags, hmark, List.mem_cons, not_or]
      tauto
    . rw [hcomp, List.mem_insert_iff, List.mem_cons]
      tauto

/-- The nodes over the first of a component, and itself, are a strongly connected component. -/
theorem Good.closeFirst {s s' : State α} {node : α} {pos : ℕ} {work : List (α × ℕ)}
    (h : Good nodes targets s ((node, pos) :: work)) (hpos : (targets node).length ≤ pos) (hfirst : s.low node = s.index node)
    (hclose : close node s = some s')
    : Good nodes targets s' work ∧ s'.index = s.index ∧ s'.low = s.low := by
  rcases h.layered with ⟨seg, below, low, hstack, hlayer, hparent, hrest⟩
  have hsorted := h.sorted
  rw [hstack] at hsorted
  have hnumber : s.number node = low := by
    rw [State.number, ← hfirst, hlayer.low_eq]
    rfl
  have hnode : node ∉ seg := fun hmem => Nat.lt_irrefl _ (lt_of_mem_seg hsorted hmem)
  rcases popUntil_eq below hnode s.onstack [] with ⟨onstack', comp, hpop, hflags, hcomp⟩
  simp only [List.not_mem_nil, false_or] at hcomp
  have hs' : s' = { s with out := s.out ++ [comp], stack := below, onstack := onstack' } := by
    rw [close, hlayer.low_eq, ← hfirst, hlayer.low_eq, hstack] at hclose
    simp only [if_true, hpop, Option.map_some, Option.some.injEq] at hclose
    exact hclose.symm
  have hmemStack : ∀ u, u ∈ s.stack ↔ u ∈ comp ∨ u ∈ below := by
    intro u
    rw [hstack, hcomp, List.mem_append, List.mem_cons, or_assoc]
  have hstays : ∀ u ∈ below, u ∉ comp := by
    intro u hu hin
    have hlt := lt_of_mem_below hsorted hu
    rcases (hcomp u).mp hin with hseg | rfl
    . have hlt' := lt_of_mem_seg hsorted hseg
      omega
    . omega
  have hdone : ∀ u, s'.Done u ↔ s.Done u ∨ u ∈ comp := by
    intro u
    rw [hs']
    simp [State.Done, or_and_right, exists_or]
  have hboth : ∀ u ∈ comp, Mutual nodes targets node u := by
    intro u hu
    rcases (hcomp u).mp hu with hseg | rfl
    . exact hlayer.both u hseg
    . exact ⟨Relation.ReflTransGen.refl, Relation.ReflTransGen.refl⟩
  -- no edge leads from the component to the nodes below
  have hclosed : ∀ u ∈ comp, ∀ v, Edge nodes targets u v → s.Done v ∨ v ∈ comp := by
    intro u hu v hedge
    have hfollowed : Followed s below low v := by
      rcases (hcomp u).mp hu with hseg | rfl
      . exact hlayer.finished u hseg v hedge
      . apply hlayer.followed v _ hedge.2.1
        rw [List.take_of_length_le hpos]
        exact hedge.2.2
    rcases (h.seen v).mp hfollowed.1 with hin | hin
    . rcases (hmemStack v).mp hin with hin | hin
      . exact .inr hin
      . have hle := hfollowed.2 hin
        have hlt := lt_of_mem_below hsorted hin
        omega
    . exact .inl hin
  refine ⟨?_, by rw [hs'], by rw [hs']⟩
  constructor
  . rw [hs']
    exact hrest.frame (fun _ _ => rfl) (fun _ _ _ => rfl) fun _ hsome => hsome
  . rw [hs']
    exact (List.pairwise_cons.mp (List.pairwise_append.mp hsorted).2.1).2
  . rw [hs']
    exact h.bound
  . intro u
    rw [hdone, show s'.index = s.index by rw [hs'], show s'.stack = below by rw [hs'], h.seen, hmemStack]
    tauto
  . intro u
    rw [show s'.onstack = onstack' by rw [hs'], show s'.stack = below by rw [hs'], hflags, h.flags, hmemStack]
    have hnot := hstays u
    rw [hcomp] at hnot ⊢
    tauto
  . intro u hu
    rw [show s'.stack = below by rw [hs']] at hu
    exact h.mem u ((hmemStack u).mpr (.inr hu))
  . intro u hu
    rw [show s'.stack = below by rw [hs']] at hu
    rw [hdone, not_or]
    exact ⟨h.unfinished u ((hmemStack u).mpr (.inr hu)), hstays u hu⟩
  . intro u v hu hedge
    rw [hdone] at hu ⊢
    rcases hu with hu | hu
    . exact .inl (h.closed u v hu hedge)
    . exact hclosed u hu v hedge
  . intro found hfound u hu
    rw [hs'] at hfound
    rcases List.mem_append.mp hfound with hold | hnew
    . exact h.strong found hold u hu
    . rw [List.mem_singleton.mp hnew] at hu ⊢
      have hin := (hmemStack u).mpr (.inl hu)
      refine ⟨h.mem u hin, fun v => ⟨fun hv => (hboth u hu).symm.trans (hboth v hv), fun hmutual => ?_⟩⟩
      have hreached : s.Done v ∨ v ∈ comp := by
        apply Reach.closed (p := fun x => s.Done x ∨ x ∈ comp) _ hmutual.1 (.inr hu)
        intro a b ha hedge
        rcases ha with ha | ha
        . exact .inl (h.closed a b ha hedge)
        . exact hclosed a ha b hedge
      apply hreached.resolve_left
      intro hv
      exact h.unfinished u hin (hmutual.2.closed h.closed hv)
  . rw [hs']
    apply List.pairwise_append.mpr
    refine ⟨h.apart, List.pairwise_singleton _ _, fun a ha b hb u hua hub => ?_⟩
    rw [List.mem_singleton.mp hb] at hub
    exact h.unfinished u ((hmemStack u).mpr (.inl hub)) ⟨a, ha, hua⟩

/-- A node that is not the first of its component goes over to the layer of its parent. -/
theorem Good.merge {s : State α} {node parent : α} {pos pos' low lowParent : ℕ} {work : List (α × ℕ)}
    (h : Good nodes targets s ((node, pos) :: (parent, pos') :: work)) (hpos : (targets node).length ≤ pos)
    (hlow : s.low node = some low) (hlowParent : s.low parent = some lowParent) (hnot : s.low node ≠ s.index node)
    : Good nodes targets { s with low := put s.low parent (min lowParent low) } ((parent, pos') :: work) := by
  rcases h.layered with ⟨seg, below, low₀, hstack, hlayer, hparent, hrest⟩
  have hsame : low = low₀ := by
    have heq := hlayer.low_eq
    rw [hlow, Option.some.injEq] at heq
    exact heq
  subst hsame
  have hsorted := h.sorted
  rw [hstack] at hsorted
  have hlt : low < s.number node := by
    rcases Option.isSome_iff_exists.mp (h.isSome (u := node) (by rw [hstack]; simp)) with ⟨i, hi⟩
    have hle := hlayer.low_le
    rw [hlow, hi] at hnot
    rw [State.number, hi, Option.getD_some] at hle ⊢
    rw [ne_eq, Option.some.injEq] at hnot
    omega
  rcases hlayer.low_reached with ⟨reached, hreached, hnumber, hreach⟩
  have hbelow : reached ∈ below := by
    rcases List.mem_cons.mp hreached with rfl | hin
    . omega
    . exact hin
  have htop : Reach nodes targets node parent := hreach.trans (hrest.reach_top hbelow)
  have hchild : Edge nodes targets parent node := hparent (parent, pos') rfl
  have hmutual : Mutual nodes targets parent node := ⟨Relation.ReflTransGen.single hchild, htop⟩
  rcases hrest with ⟨segParent, belowParent, low₁, rfl, hlayerParent, hparent', hrest'⟩
  have hsame : lowParent = low₁ := by
    have heq := hlayerParent.low_eq
    rw [hlowParent, Option.some.injEq] at heq
    exact heq
  subst hsame
  have hsortedBelow : (segParent ++ parent :: belowParent).Pairwise fun a b => s.number b < s.number a :=
    (List.pairwise_cons.mp (List.pairwise_append.mp hsorted).2.1).2
  have hfollowedParent : ∀ v, Followed s belowParent lowParent v → Followed s belowParent (min lowParent low) v :=
    fun v hv => ⟨hv.1, fun hmem => Nat.le_trans (Nat.min_le_left _ _) (hv.2 hmem)⟩
  have hfollowed : ∀ v, Followed s (segParent ++ parent :: belowParent) low v →
      Followed s belowParent (min lowParent low) v :=
    fun v hv => ⟨hv.1, fun hmem => Nat.le_trans (Nat.min_le_right _ _) (hv.2 (by simp [hmem]))⟩
  refine { h with layered := ⟨seg ++ node :: segParent, belowParent, min lowParent low, ?_, ?_, hparent', ?_⟩ }
  . rw [hstack]
    simp
  . refine ⟨?_, ?_, ?_, ?_, ?_, fun v hv hmem => hfollowedParent v (hlayerParent.followed v hv hmem)⟩
    . simp [put]
    . exact Nat.le_trans (Nat.min_le_left _ _) hlayerParent.low_le
    . rcases Nat.le_total lowParent low with hle | hle
      . rw [Nat.min_eq_left hle]
        exact hlayerParent.low_reached
      . rw [Nat.min_eq_right hle]
        refine ⟨reached, ?_, hnumber, hmutual.1.trans hreach⟩
        -- a node above the parent has a higher number than the parent's low link
        rcases List.mem_append.mp hbelow with hseg | hin
        . have hlt := lt_of_mem_seg hsortedBelow hseg
          have hle' := hlayerParent.low_le
          rw [← hnumber] at hle
          omega
        . exact hin
    . intro u hu
      rcases List.mem_append.mp hu with hu | hu
      . exact hmutual.trans (hlayer.both u hu)
      . rcases List.mem_cons.mp hu with rfl | hu
        . exact hmutual
        . exact hlayerParent.both u hu
    . intro u hu v hedge
      rcases List.mem_append.mp hu with hu | hu
      . exact hfollowed v (hlayer.finished u hu v hedge)
      . rcases List.mem_cons.mp hu with rfl | hu
        . apply hfollowed v (hlayer.followed v _ hedge.2.1)
          rw [List.take_of_length_le hpos]
          exact hedge.2.2
        . exact hfollowedParent v (hlayerParent.finished u hu v hedge)
  . refine hrest'.frame (fun _ _ => rfl) (fun u hu _ => ?_) fun _ hsome => hsome
    have hlt := lt_of_mem_below hsortedBelow hu
    have hne : u ≠ parent := by
      rintro rfl
      omega
    simp [put, hne]

/- A step. -/

/-- The state in which the top of the work is numbered. -/
def State.entered (s : State α) : State α :=
  match s.work with
  | [] => s
  | (node, pos) :: _ => if pos = 0 then s.register node else s

/-- What holds between two steps. -/
structure Ready (nodes : List α) (targets : α → List α) (s : State α) : Prop where
  good : Good nodes targets s.entered s.work
  resumed : ∀ entry ∈ s.work.tail, entry.2 ≠ 0

theorem isSome_entered {s : State α} {u : α} (h : (s.index u).isSome = true)
    : (s.entered.index u).isSome = true := by
  unfold State.entered
  split
  . exact h
  . split
    . exact isSome_register.mpr (.inr h)
    . exact h

/-- The edges of a node are followed, and the search stands at it or goes down to a new node. -/
theorem Good.scan {s s' : State α} {node : α} {pos : ℕ} {rest : List (α × ℕ)} {child : Option (α × ℕ)}
    (h : Good nodes targets s ((node, pos) :: rest))
    (hscan : scan nodes node s pos ((targets node).drop pos) = some (s', child))
    : s'.index = s.index ∧
      (child = none → Good nodes targets s' ((node, (targets node).length) :: rest)) ∧
      ∀ target pos', child = some (target, pos') → pos' ≠ 0 ∧ target ∈ nodes ∧
        Good nodes targets (s'.register target) ((target, 0) :: (node, pos') :: rest) := by
  rcases h.layered with ⟨seg, below, low, hstack, hlayer, hparent, hrest⟩
  have hnode : node ∈ s.stack := by
    rw [hstack]
    simp
  rcases scanned hlayer.low_eq hscan with ⟨low', seen, left, hscanned⟩
  have hsub : ∀ v ∈ seen, v ∈ targets node := by
    intro v hv
    apply List.mem_of_mem_drop (i := pos)
    rw [hscanned.edges_eq]
    exact List.mem_append_left left hv
  have hlowered : Good nodes targets s' ((node, pos) :: rest) := by
    rw [hscanned.state_eq]
    apply h.lower hlayer.low_eq hscanned.low_le
    rcases hscanned.reached with heq | ⟨target, hseen, hmem, hflag, hindex⟩
    . exact .inl heq
    . refine .inr ⟨target, (h.flags target).mp hflag, ?_, h.mem node hnode, hmem, hsub target hseen⟩
      rw [State.number, hindex]
      rfl
  have hindex : s'.index = s.index := by rw [hscanned.state_eq]
  have hlow' : s'.low node = some low' := by
    rw [hscanned.state_eq]
    simp [put]
  have htake : ∀ n, pos + seen.length = n ∨ left = [] → ∀ v ∈ (targets node).take n, v ∈ (targets node).take pos ∨ v ∈ seen := by
    intro n hn v hv
    by_cases hin : v ∈ (targets node).take pos
    . exact .inl hin
    . have hdrop : v ∈ ((targets node).take n).drop pos := by
        rw [← List.take_append_drop pos ((targets node).take n), List.mem_append] at hv
        apply hv.resolve_left
        intro hv
        rw [List.take_take] at hv
        exact hin (List.take_subset_take_left _ (Nat.min_le_left pos n) hv)
      rw [List.drop_take, hscanned.edges_eq] at hdrop
      rcases hn with hn | hn
      . rw [← hn, Nat.add_sub_cancel_left, List.take_left] at hdrop
        exact .inr hdrop
      . rw [hn, List.append_nil] at hdrop
        exact .inr (List.mem_of_mem_take hdrop)
  refine ⟨hindex, ?_, ?_⟩
  . rintro rfl
    refine { hlowered with layered := hlowered.layered.advance hlow' ?_ }
    intro v hv hmem
    rcases htake _ (.inr (hscanned.finished rfl)) v hv with hold | hseen
    . exact .inl hold
    . rcases hscanned.followed v hseen hmem with ⟨pos', hchild⟩ | ⟨i, hi, hle⟩
      . cases hchild
      . refine .inr ⟨by rw [hindex, hi]; rfl, fun hin => ?_⟩
        rw [State.number, hindex, hi]
        apply hle
        rw [hscanned.state_eq] at hin
        exact (h.flags v).mpr hin
  . rintro target pos' rfl
    rcases hscanned.child_new target pos' rfl with ⟨hpos', hseen, hmem, hnew⟩
    have hne : node ≠ target := by
      rintro rfl
      have hsome := h.isSome hnode
      rw [hnew] at hsome
      cases hsome
    refine ⟨?_, hmem, ?_⟩
    . -- the edge to the target is one of those followed
      have hlength := List.length_pos_of_mem hseen
      omega
    . have hregistered := hlowered.register hmem (by rw [hindex, hnew]) (by
        intro parent hparent
        cases hparent
        exact ⟨h.mem node hnode, hmem, hsub target hseen⟩)
      rcases hregistered.layered with ⟨segTarget, belowTarget, lowTarget, hstackTarget, hlayerTarget, hparentTarget, hrestTarget⟩
      refine { hregistered with
        layered := ⟨segTarget, belowTarget, lowTarget, hstackTarget, hlayerTarget, ?_, ?_⟩ }
      . intro parent hparent
        cases hparent
        exact hparentTarget (node, pos) rfl
      . have hlowNode : (s'.register target).low node = some low' := by
          simp only [State.register, put, if_neg hne]
          exact hlow'
        apply hrestTarget.advance hlowNode
        intro v hv hvmem
        rcases htake pos' (.inl hpos'.symm) v hv with hold | hvseen
        . exact .inl hold
        . by_cases heq : v = target
          . subst heq
            refine .inr ⟨isSome_register.mpr (.inl rfl), fun _ => ?_⟩
            have hlt := hlowered.number_lt (u := node) (by rw [hscanned.state_eq]; exact hnode)
            have hle := hscanned.low_le
            have hle' := hlayer.low_le
            rw [State.number, hindex, ← State.number] at hlt
            rw [number_register]
            omega
          . rcases hscanned.followed v hvseen hvmem with ⟨pos'', hchild⟩ | ⟨i, hi, hle⟩
            . cases hchild
              exact absurd rfl heq
            . refine .inr ⟨isSome_register.mpr (.inr (by rw [hindex, hi]; rfl)), fun hin => ?_⟩
              rw [number_register_of_ne heq, State.number, hindex, hi]
              apply hle
              have hinStack : v ∈ (s'.register target).stack := by
                rw [hstackTarget]
                simp [hin]
              rcases List.mem_cons.mp hinStack with hfirst | hinStack
              . exact absurd hfirst heq
              . rw [hscanned.state_eq] at hinStack
                exact (h.flags v).mpr hinStack

/-- A node whose edges are all followed is given back. -/
theorem Good.finish {s s₁ s₂ : State α} {node : α} {rest : List (α × ℕ)}
    (h : Good nodes targets s ((node, (targets node).length) :: rest)) (hclose : close node s = some s₁)
    (hfold : fold node rest s₁ = some s₂)
    : Good nodes targets s₂ rest ∧ s₂.index = s.index ∧ s₂.work = rest := by
  rcases h.layered with ⟨seg, below, low, hstack, hlayer, hparent, hrest⟩
  have hsorted := h.sorted
  rw [hstack] at hsorted
  have hnode : node ∈ s.stack := by
    rw [hstack]
    simp
  rcases Option.isSome_iff_exists.mp (h.isSome hnode) with ⟨i, hi⟩
  have hnumber : s.number node = i := by
    rw [State.number, hi]
    rfl
  by_cases hfirst : s.low node = s.index node
  . -- the parent's low link is lower already
    rcases h.closeFirst (Nat.le_refl _) hfirst hclose with ⟨hgood, hindex, hlow⟩
    unfold fold at hfold
    split at hfold
    . cases hfold
      exact ⟨hgood.setWork [], hindex, rfl⟩
    . next parent pos work =>
      rcases hrest with ⟨segParent, belowParent, lowParent, rfl, hlayerParent, _, _⟩
      have hlt := lt_of_mem_below hsorted (List.mem_append_right segParent List.mem_cons_self)
      have hle := hlayerParent.low_le
      rw [hlow, hlayerParent.low_eq, hfirst, hi] at hfold
      simp only [Option.some.injEq] at hfold
      rw [Nat.min_eq_left (by omega), ← hlow, put_self (by rw [hlow, hlayerParent.low_eq])] at hfold
      rw [← hfold]
      exact ⟨hgood.setWork _, hindex, rfl⟩
  . have hsame : s₁ = s := by
      rw [close, hlayer.low_eq, hi] at hclose
      rw [hlayer.low_eq, hi, Option.some.injEq] at hfirst
      simp only [if_neg hfirst, Option.some.injEq] at hclose
      exact hclose.symm
    subst hsame
    unfold fold at hfold
    split at hfold
    . -- the root of a search reaches no node below
      rw [show below = [] from hrest] at hlayer
      rcases hlayer.low_reached with ⟨reached, hreached, heq, _⟩
      rw [List.mem_singleton.mp hreached, hnumber] at heq
      rw [hlayer.low_eq, hi, heq] at hfirst
      exact absurd rfl hfirst
    . next parent pos work =>
      rcases hrest with ⟨segParent, belowParent, lowParent, hbelow, hlayerParent, _, _⟩
      have hmerged := h.merge (Nat.le_refl _) hlayer.low_eq hlayerParent.low_eq hfirst
      rw [hlayerParent.low_eq, hlayer.low_eq] at hfold
      simp only [Option.some.injEq] at hfold
      rw [← hfold]
      exact ⟨hmerged.setWork _, rfl, rfl⟩

theorem Ready.step {s s' : State α} (h : Ready nodes targets s) (hne : s.work ≠ []) (hstep : step nodes targets s = some s')
    : Ready nodes targets s' ∧ ∀ u, (s.entered.index u).isSome = true → (s'.index u).isSome = true := by
  rcases List.exists_cons_of_ne_nil hne with ⟨⟨node, pos⟩, rest, hwork⟩
  have hgood := h.good
  have hresumed := h.resumed
  have hentered : s.entered = if pos = 0 then s.register node else s := by
    rw [State.entered, hwork]
  rw [hwork] at hgood hresumed
  rw [Tarjan.step, hwork] at hstep
  simp only at hstep
  rw [← hentered] at hstep
  split at hstep
  . cases hstep
  . next s₁ target pos' hscan =>
    rcases hgood.scan hscan with ⟨hindex, _, hdown⟩
    rcases hdown target pos' rfl with ⟨hpos', _, hregistered⟩
    cases hstep
    refine ⟨⟨hregistered.setWork _, ?_⟩, fun u hu => ?_⟩
    . intro entry hentry
      rcases List.mem_cons.mp hentry with rfl | hentry
      . exact hpos'
      . exact hresumed entry hentry
    . rw [← hindex] at hu
      exact hu
  . next s₁ hscan =>
    rcases hgood.scan hscan with ⟨hindex, hfinished, _⟩
    rcases Option.bind_eq_some_iff.mp hstep with ⟨s₂, hclose, hfold⟩
    rcases (hfinished rfl).finish hclose hfold with ⟨hgood', hindex', hwork'⟩
    have hentered' : s'.entered = s' := by
      unfold State.entered
      split
      . rfl
      . next node' pos' rest' heq =>
        rw [hwork'] at heq
        have hpos' := hresumed (node', pos') (heq ▸ List.mem_cons_self)
        rw [if_neg hpos']
    refine ⟨⟨?_, ?_⟩, fun u hu => ?_⟩
    . rw [hentered', hwork']
      exact hgood'
    . rw [hwork']
      exact fun entry hentry => hresumed entry (List.mem_of_mem_tail hentry)
    . rw [hindex', hindex]
      exact hu

/- The search. -/

theorem Ready.loop {fuel : ℕ} {s s' : State α} (h : Ready nodes targets s) (hloop : loop nodes targets fuel s = some s')
    : Good nodes targets s' [] ∧ ∀ u, (s.entered.index u).isSome = true → (s'.index u).isSome = true := by
  have hover : ∀ s₁ : State α, Ready nodes targets s₁ → s₁.work = [] →
      Good nodes targets s₁ [] ∧ ∀ u, (s₁.entered.index u).isSome = true → (s₁.index u).isSome = true := by
    intro s₁ h₁ hwork
    have hgood := h₁.good
    have hentered : s₁.entered = s₁ := by rw [State.entered, hwork]
    rw [hentered, hwork] at hgood
    rw [hentered]
    exact ⟨hgood, fun _ hu => hu⟩
  induction fuel generalizing s with
  | zero =>
    rw [Tarjan.loop] at hloop
    split at hloop
    . next hwork =>
      rw [← Option.some.inj hloop]
      exact hover s h hwork
    . cases hloop
  | succ fuel ih =>
    rw [Tarjan.loop] at hloop
    split at hloop
    . next hwork =>
      rw [← Option.some.inj hloop]
      exact hover s h hwork
    . next hwork =>
      rcases Option.bind_eq_some_iff.mp hloop with ⟨s₁, hstep, hrest⟩
      rcases h.step hwork hstep with ⟨hready, hsome⟩
      rcases ih hready hrest with ⟨hgood, hsome'⟩
      exact ⟨hgood, fun u hu => hsome' u (isSome_entered (hsome u hu))⟩

theorem Good.explore {s s' : State α} {root : α} (h : Good nodes targets s []) (hroot : root ∈ nodes)
    (hexplore : explore nodes targets s root = some s')
    : Good nodes targets s' [] ∧ (s'.index root).isSome = true ∧
        ∀ u, (s.index u).isSome = true → (s'.index u).isSome = true := by
  unfold Tarjan.explore at hexplore
  split at hexplore
  . next hsome =>
    cases hexplore
    exact ⟨h, hsome, fun _ hu => hu⟩
  . next hnone =>
    have hready : Ready nodes targets { s with work := [(root, 0)] } := by
      refine ⟨?_, fun entry hentry => by cases hentry⟩
      apply (h.setWork _).register hroot
      . simpa using hnone
      . intro parent hparent
        cases hparent
    rcases hready.loop hexplore with ⟨hgood, hsome⟩
    refine ⟨hgood, hsome root (isSome_register.mpr (.inl rfl)), fun u hu => hsome u (isSome_entered hu)⟩

omit [DecidableEq α] in
theorem good_start
    : Good nodes targets (start : State α) [] where
  layered := rfl
  sorted := List.Pairwise.nil
  bound := by
    intro u i hi
    cases hi
  seen := by simp [start, State.Done]
  flags := by simp [start]
  mem := by simp [start]
  unfinished := by simp [start]
  closed := by simp [start, State.Done]
  strong := by simp [start]
  apart := List.Pairwise.nil

/-- Each node is in one component only, and two nodes are in one component where each reaches the other. -/
theorem components_exact (nodes : List α) (targets : α → List α)
    : ∃ found, components nodes targets = some found ∧
        (∀ node ∈ nodes, ∃! i : ℕ, ∃ comp, found[i]? = some comp ∧ node ∈ comp) ∧
        ∀ comp ∈ found, ∀ a ∈ comp, a ∈ nodes ∧ ∀ b, b ∈ comp ↔ Mutual nodes targets a b := by
  have hfold : ∀ roots : List α, (∀ root ∈ roots, root ∈ nodes) → ∀ s s' : State α, Good nodes targets s [] →
      roots.foldlM (explore nodes targets) s = some s' →
        Good nodes targets s' [] ∧ (∀ root ∈ roots, (s'.index root).isSome = true) ∧
          ∀ u, (s.index u).isSome = true → (s'.index u).isSome = true := by
    intro roots hroots
    induction roots with
    | nil =>
      intro s s' h hs'
      cases hs'
      exact ⟨h, (fun _ hroot => by cases hroot), fun _ hu => hu⟩
    | cons root roots ih =>
      intro s s' h hs'
      rcases List.forall_mem_cons.mp hroots with ⟨hroot, hroots⟩
      rw [List.foldlM_cons] at hs'
      rcases Option.bind_eq_some_iff.mp hs' with ⟨s₁, hexplore, hrest⟩
      rcases h.explore hroot hexplore with ⟨hgood, hsome, hkeep⟩
      rcases ih hroots s₁ s' hgood hrest with ⟨hgood', hsome', hkeep'⟩
      refine ⟨hgood', ?_, fun u hu => hkeep' u (hkeep u hu)⟩
      exact List.forall_mem_cons.mpr ⟨hkeep' root hsome, hsome'⟩
  rcases exists_components nodes targets with ⟨found, hfound⟩
  refine ⟨found, hfound, ?_⟩
  rcases Option.map_eq_some_iff.mp hfound with ⟨s, hs, rfl⟩
  rcases hfold nodes (fun _ h => h) start s good_start hs with ⟨hgood, hsome, _⟩
  have hstack : s.stack = [] := hgood.layered
  refine ⟨fun node hnode => ?_, hgood.strong⟩
  have hdone : s.Done node := by
    apply ((hgood.seen node).mp (hsome node hnode)).resolve_left
    rw [hstack]
    exact List.not_mem_nil
  rcases hdone with ⟨comp, hcomp, hin⟩
  rcases List.getElem?_of_mem hcomp with ⟨i, hi⟩
  refine ⟨i, ⟨comp, hi, hin⟩, ?_⟩
  rintro j ⟨other, hj, hin'⟩
  rcases List.getElem?_eq_some_iff.mp hi with ⟨hilt, rfl⟩
  rcases List.getElem?_eq_some_iff.mp hj with ⟨hjlt, rfl⟩
  rcases Nat.lt_trichotomy i j with hlt | heq | hlt
  . exact absurd hin' (List.pairwise_iff_getElem.mp hgood.apart i j hilt hjlt hlt node hin)
  . exact heq.symm
  . exact absurd hin (List.pairwise_iff_getElem.mp hgood.apart j i hjlt hilt hlt node hin')

end Step

end Tarjan
