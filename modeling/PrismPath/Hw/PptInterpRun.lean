import PrismPath.Hw.PptInterp
import PrismPath.Lib.Clocked

/-!
This module contains the run of the interpreter circuit from an accepted start to its pulse on `done`: the edges of the
node are tried in their order, and each takes two clocks and one for every word of its program.
-/

open Clocked

namespace PptInterp

section

variable (p : Params) (core : Core) (useVisits : Bool) (node : BitVec 16)

/-- The place of the `i`-th edge of the node in the edge memories. -/
def edgeAddr (i : Nat) : Nat :=
  port p.maxEdges (core.nodeEoff (port p.maxNodes node) + BitVec.ofNat 16 i)

/-- A program without words takes a word all the same. -/
def runLength (i : Nat) : Nat :=
  max (core.edgePcnt (edgeAddr p core node i)).toNat 1

def wordAt (i k : Nat) : BitVec 16 :=
  core.prog (port p.maxProg (core.edgePoff (edgeAddr p core node i) + BitVec.ofNat 16 k))

/-- The stack after the words from the `k`-th on, `n` of them. -/
def stackAfter (i : Nat) : (n k : Nat) → List Bool → List Bool
  | 0, _, stk => stk
  | n + 1, k, stk => stackAfter i n (k + 1) (execWord p core useVisits node (wordAt p core node i k) stk)

def edgeResult (i : Nat) : Bool :=
  (stackAfter p core useVisits node i (runLength p core node i) 0 (List.replicate p.stackD false)).headD false

def edgeCount : Nat :=
  (core.nodeEcnt (port p.maxNodes node)).toNat

def tick (s : Fsm) : Fsm :=
  clock p core { useVisits } s

def quiet (s : Fsm) : Prop :=
  s.done = false

end

/-- The machine stands at the `i`-th edge of the node. -/
structure At (node : BitVec 16) (i : Nat) (s : Fsm) : Prop where
  nodeR : s.nodeR = node
  curEdge : s.curEdge = BitVec.ofNat 16 i
  quiet : quiet s

section

variable {p : Params} {core : Core} {useVisits : Bool} {node : BitVec 16} {i : Nat} {s : Fsm}

theorem At.eidx (h : At node i s)
    : port p.maxEdges (PptInterp.eidx p core s) = edgeAddr p core node i := by
  rw [PptInterp.eidx, h.nodeR, h.curEdge, edgeAddr]

theorem runLength_lt (p : Params) (core : Core) (node : BitVec 16) (i : Nat)
    : runLength p core node i < 2 ^ 16 := by
  have hlt := (core.edgePcnt (edgeAddr p core node i)).isLt
  unfold runLength
  omega

theorem pword_at {k : Nat} (hat : At node i s) (hpc : s.pc = BitVec.ofNat 16 k)
    : pword p core s = wordAt p core node i k := by
  rw [pword, hat.eidx, hpc, wordAt]

/- What a clock does in each state. -/

theorem tick_edge (p : Params) (core : Core) (useVisits : Bool) (hst : s.st = .edge)
    : tick p core useVisits s =
        if ecnt p core s ≤ s.curEdge then
          { s with done := false, matched := false, st := .done, ran := false }
        else
          { s with done := false, pc := 0, stk := List.replicate p.stackD false, st := .run, ran := false } := by
  unfold tick clock
  simp only [Bool.false_eq_true, if_false, hst]
  rfl

theorem tick_run (p : Params) (core : Core) (useVisits : Bool) (hst : s.st = .run)
    : tick p core useVisits s =
        if core.edgePcnt (port p.maxEdges (eidx p core s)) ≤ s.pc + 1 then
          { s with
            done := false, stk := execWord p core useVisits s.nodeR (pword p core s) s.stk, ran := true, st := .done }
        else
          { s with
            done := false, stk := execWord p core useVisits s.nodeR (pword p core s) s.stk, ran := true
            pc := s.pc + 1 } := by
  unfold tick clock
  simp only [Bool.false_eq_true, if_false, hst]
  rfl

theorem tick_done (p : Params) (core : Core) (useVisits : Bool) (hst : s.st = .done)
    : tick p core useVisits s =
        if s.ran && !s.stk.headD false && s.curEdge + 1 < ecnt p core s then
          { s with done := false, curEdge := s.curEdge + 1, st := .edge }
        else
          { s with
            matched := s.ran && s.stk.headD false, matchEdge := s.curEdge
            target := core.edgeTgt (port p.maxEdges (eidx p core s)), busy := false, done := true, st := .idle } := by
  unfold tick clock
  simp only [Bool.false_eq_true, if_false, hst]
  rfl

/- The program of one edge. -/

theorem ofNat_succ (k : Nat)
    : BitVec.ofNat 16 k + 1 = BitVec.ofNat 16 (k + 1) := by
  rw [BitVec.ofNat_add]
  rfl

/-- The word is the last one when the edge counts no more of them, or when it is the first. -/
theorem last_word_iff {k : Nat} (hk : k + 1 ≤ runLength p core node i)
    : core.edgePcnt (edgeAddr p core node i) ≤ BitVec.ofNat 16 k + 1 ↔ k + 1 = runLength p core node i := by
  have hlt := runLength_lt p core node i
  rw [ofNat_succ, BitVec.le_def, BitVec.toNat_ofNat, Nat.mod_eq_of_lt (by omega)]
  unfold runLength at hk ⊢
  omega

theorem arrives_last {k : Nat} (useVisits : Bool) (hat : At node i s) (hst : s.st = .run)
    (hpc : s.pc = BitVec.ofNat 16 k) (hk : k + 1 = runLength p core node i)
    : ∃ t, Arrives (tick p core useVisits) quiet 1 s t ∧ At node i t ∧ t.st = .done ∧ t.ran = true
        ∧ t.stk = execWord p core useVisits node (wordAt p core node i k) s.stk := by
  have htick := tick_run p core useVisits hst
  rw [hat.eidx, hpc, if_pos ((last_word_iff hk.le).mpr hk), pword_at hat hpc, hat.nodeR] at htick
  refine ⟨_, .one hat.quiet, ?_⟩
  rw [htick]
  exact ⟨⟨rfl, hat.curEdge, rfl⟩, rfl, rfl, rfl⟩

theorem arrives_next {k : Nat} (useVisits : Bool) (hat : At node i s) (hst : s.st = .run)
    (hpc : s.pc = BitVec.ofNat 16 k) (hk : k + 1 < runLength p core node i)
    : ∃ t, Arrives (tick p core useVisits) quiet 1 s t ∧ At node i t ∧ t.st = .run
        ∧ t.pc = BitVec.ofNat 16 (k + 1)
        ∧ t.stk = execWord p core useVisits node (wordAt p core node i k) s.stk := by
  have htick := tick_run p core useVisits hst
  rw [hat.eidx, hpc, if_neg (fun hlast => absurd ((last_word_iff hk.le).mp hlast) hk.ne), pword_at hat hpc,
    hat.nodeR] at htick
  refine ⟨_, .one hat.quiet, ?_⟩
  rw [htick]
  exact ⟨⟨rfl, hat.curEdge, rfl⟩, hst, ofNat_succ k, rfl⟩

/-- The stack takes the rest of the program, a word a clock. -/
theorem arrives_program (useVisits : Bool) (n : Nat) {k : Nat} (hat : At node i s) (hst : s.st = .run)
    (hpc : s.pc = BitVec.ofNat 16 k) (hlength : k + (n + 1) = runLength p core node i)
    : ∃ t, Arrives (tick p core useVisits) quiet (n + 1) s t ∧ At node i t ∧ t.st = .done ∧ t.ran = true
        ∧ t.stk = stackAfter p core useVisits node i (n + 1) k s.stk := by
  induction n generalizing k s with
  | zero => exact arrives_last useVisits hat hst hpc hlength
  | succ n ih =>
    have hmore : k + 1 < runLength p core node i := by omega
    rcases arrives_next useVisits hat hst hpc hmore with ⟨t, hone, hatT, hstT, hpcT, hstkT⟩
    rcases ih hatT hstT hpcT (by omega) with ⟨u, hrest, hatU, hstU, hranU, hstkU⟩
    refine ⟨u, ?_, hatU, hstU, hranU, ?_⟩
    . rw [Nat.add_comm]
      exact hone.trans hrest
    . rw [hstkU, hstkT]
      rfl

theorem le_runLength (p : Params) (core : Core) (node : BitVec 16) (i : Nat)
    : 1 ≤ runLength p core node i :=
  Nat.le_max_right ..

theorem more_edges_iff {k : Nat} (hk : k < 2 ^ 16) (hnode : s.nodeR = node)
    : BitVec.ofNat 16 k < ecnt p core s ↔ k < edgeCount p core node := by
  rw [BitVec.lt_def, BitVec.toNat_ofNat, Nat.mod_eq_of_lt hk, ecnt, hnode, edgeCount]

theorem edgeCount_lt (p : Params) (core : Core) (node : BitVec 16)
    : edgeCount p core node < 2 ^ 16 :=
  (core.nodeEcnt _).isLt

/-- The fetch of an edge clears the stack. -/
theorem arrives_fetch (useVisits : Bool) (hat : At node i s) (hst : s.st = .edge) (hi : i < edgeCount p core node)
    : ∃ t, Arrives (tick p core useVisits) quiet 1 s t ∧ At node i t ∧ t.st = .run ∧ t.pc = BitVec.ofNat 16 0
        ∧ t.stk = List.replicate p.stackD false := by
  have hlt := edgeCount_lt p core node
  have hmore : s.curEdge < ecnt p core s := by
    rw [hat.curEdge]
    exact (more_edges_iff (by omega) hat.nodeR).mpr hi
  have htick := tick_edge p core useVisits hst
  rw [if_neg (BitVec.not_le.mpr hmore)] at htick
  refine ⟨_, .one hat.quiet, ?_⟩
  rw [htick]
  exact ⟨⟨hat.nodeR, hat.curEdge, rfl⟩, rfl, rfl, rfl⟩

/-- From the fetch of an edge to the result of its program. -/
theorem arrives_edge (useVisits : Bool) (hat : At node i s) (hst : s.st = .edge) (hi : i < edgeCount p core node)
    : ∃ t, Arrives (tick p core useVisits) quiet (1 + runLength p core node i) s t ∧ At node i t ∧ t.st = .done
        ∧ t.ran = true ∧ t.stk.headD false = edgeResult p core useVisits node i := by
  rcases arrives_fetch useVisits hat hst hi with ⟨t, hfetch, hatT, hstT, hpcT, hstkT⟩
  have hlength : 0 + (runLength p core node i - 1 + 1) = runLength p core node i := by
    have hpos := le_runLength p core node i
    omega
  rcases arrives_program useVisits _ hatT hstT hpcT hlength with ⟨u, hrun, hatU, hstU, hranU, hstkU⟩
  rw [Nat.zero_add] at hlength
  rw [hlength] at hrun hstkU
  refine ⟨u, hfetch.trans hrun, hatU, hstU, hranU, ?_⟩
  rw [hstkU, hstkT]
  rfl

/- The edges of a node. -/

/-- What the machine shows on its pulse. -/
structure Finished (p : Params) (core : Core) (node : BitVec 16) (found : Option Nat) (s : Fsm) : Prop where
  done : s.done = true
  matched : s.matched = found.isSome
  edge : ∀ i, found = some i → s.matchEdge = BitVec.ofNat 16 i ∧ s.target = core.edgeTgt (edgeAddr p core node i)

/-- The first edge from the `i`-th on whose program is true, of `n` edges. -/
def firstTrue (p : Params) (core : Core) (useVisits : Bool) (node : BitVec 16) : (n i : Nat) → Option Nat
  | 0, _ => none
  | n + 1, i => if edgeResult p core useVisits node i then some i else firstTrue p core useVisits node n (i + 1)

/-- The edges that are tried from the `i`-th on, of `n`: up to the first whose program is true. -/
def tried (p : Params) (core : Core) (useVisits : Bool) (node : BitVec 16) : (n i : Nat) → Nat
  | 0, _ => 0
  | n + 1, i => if edgeResult p core useVisits node i then 1 else tried p core useVisits node n (i + 1) + 1

/-- The clocks of the edges from the `i`-th on, `n` of them: the fetch, the words and the result. -/
def edgesCycles (p : Params) (core : Core) (node : BitVec 16) (n i : Nat) : Nat :=
  ((List.range' i n).map fun j => 2 + runLength p core node j).sum

theorem tick_finish (useVisits : Bool) (hat : At node i s) (hst : s.st = .done)
    (hlast : (s.ran && !s.stk.headD false && s.curEdge + 1 < ecnt p core s) = false)
    : Finished p core node (if s.ran && s.stk.headD false then some i else none) (tick p core useVisits s) := by
  rw [tick_done p core useVisits hst, hlast, if_neg Bool.false_ne_true, hat.eidx, hat.curEdge]
  refine ⟨rfl, ?_, fun j hj => ?_⟩
  . dsimp only
    cases s.ran && s.stk.headD false <;> rfl
  . split at hj
    . cases hj
      exact ⟨rfl, rfl⟩
    . cases hj

theorem tick_advance (useVisits : Bool) (hat : At node i s) (hst : s.st = .done)
    (hnext : (s.ran && !s.stk.headD false && s.curEdge + 1 < ecnt p core s) = true)
    : At node (i + 1) (tick p core useVisits s) ∧ (tick p core useVisits s).st = .edge := by
  rw [tick_done p core useVisits hst, hnext, if_pos rfl, hat.curEdge, ofNat_succ]
  exact ⟨⟨hat.nodeR, rfl, rfl⟩, rfl⟩

theorem next_edge_iff (hat : At node i s) (hi : i < edgeCount p core node)
    : s.curEdge + 1 < ecnt p core s ↔ i + 1 < edgeCount p core node := by
  have hlt := edgeCount_lt p core node
  rw [hat.curEdge, ofNat_succ, more_edges_iff (by omega) hat.nodeR]

theorem edgesCycles_succ (p : Params) (core : Core) (node : BitVec 16) (n i : Nat)
    : edgesCycles p core node (n + 1) i = 2 + runLength p core node i + edgesCycles p core node n (i + 1) := by
  rw [edgesCycles, List.range'_succ, List.map_cons, List.sum_cons, edgesCycles]

/-- One edge, and what its result leads to: the end of the evaluation, or the next edge. -/
theorem arrives_result (useVisits : Bool) (hat : At node i s) (hst : s.st = .edge) (hi : i < edgeCount p core node)
    : ∃ t, Arrives (tick p core useVisits) quiet (2 + runLength p core node i) s t
        ∧ ((edgeResult p core useVisits node i = true ∧ Finished p core node (some i) t)
          ∨ (edgeResult p core useVisits node i = false ∧ i + 1 = edgeCount p core node
            ∧ Finished p core node none t)
          ∨ (edgeResult p core useVisits node i = false ∧ i + 1 < edgeCount p core node ∧ At node (i + 1) t
            ∧ t.st = .edge)) := by
  rcases arrives_edge useVisits hat hst hi with ⟨u, hrun, hatU, hstU, hranU, htop⟩
  have hdone := hrun.trans (.one hatU.quiet)
  have hlength : 1 + runLength p core node i + 1 = 2 + runLength p core node i := by omega
  rw [hlength] at hdone
  refine ⟨_, hdone, ?_⟩
  cases hresult : edgeResult p core useVisits node i with
  | true =>
    have hlast : (u.ran && !u.stk.headD false && u.curEdge + 1 < ecnt p core u) = false := by
      rw [htop, hresult, Bool.not_true, Bool.and_false, Bool.false_and]
    have hfinish := tick_finish useVisits hatU hstU hlast
    rw [hranU, htop, hresult, Bool.true_and, if_pos rfl] at hfinish
    exact .inl ⟨rfl, hfinish⟩
  | false =>
    by_cases hmore : i + 1 < edgeCount p core node
    . have hnext : (u.ran && !u.stk.headD false && u.curEdge + 1 < ecnt p core u) = true := by
        rw [hranU, htop, hresult, Bool.not_false, Bool.true_and, Bool.true_and, decide_eq_true_iff,
          next_edge_iff hatU hi]
        exact hmore
      rcases tick_advance useVisits hatU hstU hnext with ⟨hat', hst'⟩
      exact .inr (.inr ⟨rfl, hmore, hat', hst'⟩)
    . have hlast : (u.ran && !u.stk.headD false && u.curEdge + 1 < ecnt p core u) = false := by
        rw [decide_eq_false (fun h => hmore ((next_edge_iff hatU hi).mp h)), Bool.and_false]
      have hfinish := tick_finish useVisits hatU hstU hlast
      rw [hranU, htop, hresult, Bool.true_and, if_neg Bool.false_ne_true] at hfinish
      exact .inr (.inl ⟨rfl, by omega, hfinish⟩)

/-- The run over the edges from the `i`-th on: the first true one ends it, or the last. -/
theorem arrives_edges (useVisits : Bool) (n : Nat) (hat : At node i s) (hst : s.st = .edge)
    (hcount : i + (n + 1) = edgeCount p core node)
    : ∃ t, Arrives (tick p core useVisits) quiet
        (edgesCycles p core node (tried p core useVisits node (n + 1) i) i) s t
          ∧ Finished p core node (firstTrue p core useVisits node (n + 1) i) t := by
  induction n generalizing i s with
  | zero =>
    have hi : i < edgeCount p core node := by omega
    rcases arrives_result useVisits hat hst hi with ⟨t, hrun, hcases⟩
    unfold tried firstTrue
    rcases hcases with ⟨hresult, hfinish⟩ | ⟨hresult, _, hfinish⟩ | ⟨_, hmore, _⟩
    . rw [hresult, if_pos rfl, if_pos rfl]
      exact ⟨t, hrun, hfinish⟩
    . rw [hresult, if_neg Bool.false_ne_true, if_neg Bool.false_ne_true]
      exact ⟨t, hrun, hfinish⟩
    . omega
  | succ n ih =>
    have hi : i < edgeCount p core node := by omega
    rcases arrives_result useVisits hat hst hi with ⟨t, hrun, hcases⟩
    rw [tried, firstTrue]
    rcases hcases with ⟨hresult, hfinish⟩ | ⟨_, hend, _⟩ | ⟨hresult, _, hat', hst'⟩
    . rw [hresult, if_pos rfl, if_pos rfl]
      exact ⟨t, hrun, hfinish⟩
    . omega
    . rcases ih hat' hst' (by omega) with ⟨u, hrest, hfinish⟩
      rw [hresult, if_neg Bool.false_ne_true, if_neg Bool.false_ne_true, edgesCycles_succ]
      exact ⟨u, hrun.trans hrest, hfinish⟩

/-- The clocks of an evaluation, from the one that accepts the start on. -/
def cycles (p : Params) (core : Core) (useVisits : Bool) (node : BitVec 16) : Nat :=
  if edgeCount p core node = 0 then
    2
  else
    edgesCycles p core node (tried p core useVisits node (edgeCount p core node) 0) 0

/-- The state after the edge of the clock at which an idle machine is started on the node. -/
def started (p : Params) (core : Core) (useVisits : Bool) (node : BitVec 16) (s : Fsm) : Fsm :=
  clock p core { start := true, nodeIdx := node, useVisits } s

theorem started_at (p : Params) (core : Core) (useVisits : Bool) (node : BitVec 16) (hidle : s.st = .idle)
    : At node 0 (started p core useVisits node s) ∧ (started p core useVisits node s).st = .edge := by
  unfold started clock
  simp only [Bool.false_eq_true, if_false, hidle, if_true]
  exact ⟨⟨rfl, rfl, rfl⟩, trivial⟩

theorem arrives_exhausted (useVisits : Bool) (hat : At node 0 s) (hst : s.st = .edge)
    (hcount : edgeCount p core node = 0)
    : ∃ t, Arrives (tick p core useVisits) quiet 1 s t ∧ At node 0 t ∧ t.st = .done ∧ t.ran = false := by
  have hempty : ecnt p core s ≤ s.curEdge := by
    rw [BitVec.le_def, ecnt, hat.nodeR, ← edgeCount, hcount]
    exact Nat.zero_le _
  have htick := tick_edge p core useVisits hst
  rw [if_pos hempty] at htick
  refine ⟨_, .one hat.quiet, ?_⟩
  rw [htick]
  exact ⟨⟨hat.nodeR, hat.curEdge, rfl⟩, rfl, rfl⟩

/-- A node without edges: the machine finds none, and no program has run. -/
theorem arrives_empty (useVisits : Bool) (hat : At node 0 s) (hst : s.st = .edge) (hcount : edgeCount p core node = 0)
    : ∃ t, Arrives (tick p core useVisits) quiet 2 s t ∧ Finished p core node none t := by
  rcases arrives_exhausted useVisits hat hst hcount with ⟨t, hone, hatT, hstT, hranT⟩
  have hlast : (t.ran && !t.stk.headD false && t.curEdge + 1 < ecnt p core t) = false := by
    rw [hranT, Bool.false_and, Bool.false_and]
  have hfinish := tick_finish useVisits hatT hstT hlast
  rw [hranT, Bool.false_and, if_neg Bool.false_ne_true] at hfinish
  exact ⟨_, hone.trans (.one hatT.quiet), hfinish⟩

/-- Every evaluation ends, with the first true edge of the node. -/
theorem evaluation (p : Params) (core : Core) (useVisits : Bool) (node : BitVec 16) (s : Fsm) (hidle : s.st = .idle)
    : ∃ t, Arrives (tick p core useVisits) quiet (cycles p core useVisits node) (started p core useVisits node s) t
        ∧ Finished p core node (firstTrue p core useVisits node (edgeCount p core node) 0) t := by
  rcases started_at p core useVisits node hidle with ⟨hat, hst⟩
  unfold cycles
  cases hcount : edgeCount p core node with
  | zero => exact arrives_empty useVisits hat hst hcount
  | succ n =>
    have hall : 0 + (n + 1) = edgeCount p core node := by omega
    exact arrives_edges useVisits n hat hst hall

end

end PptInterp
