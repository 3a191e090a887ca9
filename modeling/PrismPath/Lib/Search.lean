import Mathlib.Data.List.Basic
import Mathlib.Data.List.Nodup
import Mathlib.Data.List.Perm.Subperm
import Mathlib.Tactic.Linarith

/-!
This module contains breadth first search over labelled moves of two grades. A state is first reached by a
certain or by an uncertain move, and is visited once more when a certain path to it turns up later.
-/

namespace Search

structure Move (S L : Type) where
  target : S
  certain : Bool
  label : L

/-- A move that was taken, graded by the whole path it ends. -/
structure Hop (S L : Type) where
  source : S
  label : L
  certain : Bool

/-- What is known of a state: whether a certain path leads to it, and the move it was last reached by. -/
structure Entry (S L : Type) where
  state : S
  certain : Bool
  parent : Option (Hop S L)
  depth : Nat

structure Progress (S L : Type) where
  table : List (Entry S L)
  frontier : List (S × Nat)
  exhausted : Bool

variable {S L : Type} [DecidableEq S]

def states (table : List (Entry S L)) : List S :=
  table.map Entry.state

def lookup (table : List (Entry S L)) (s : S) : Option (Entry S L) :=
  table.find? fun e => e.state = s

def isCertain (table : List (Entry S L)) (s : S) : Bool :=
  match lookup table s with
  | some e => e.certain
  | none => false

def put (table : List (Entry S L)) (e : Entry S L) : List (Entry S L) :=
  table.map fun e' => if e'.state = e.state then e else e'

/-- A move reaches its target, which is queued if it is new or known by uncertain moves only. -/
def relax (source : S) (sourceCertain : Bool) (depth : Nat) (p : Progress S L) (m : Move S L)
    : Progress S L :=
  let certain := sourceCertain && m.certain
  let entry := {
    state := m.target
    certain := certain
    parent := some { source := source, label := m.label, certain := certain }
    depth := depth + 1
  }
  match lookup p.table m.target with
  | none =>
    { p with table := p.table ++ [entry], frontier := p.frontier ++ [(m.target, depth + 1)] }
  | some known =>
    if !known.certain && certain then
      { p with table := put p.table entry, frontier := p.frontier ++ [(m.target, depth + 1)] }
    else
      p

/-- Taking the first state off the queue; one that lies at the bound is cut off. -/
def advance (moves : S → List (Move S L)) (bound : Nat) (p : Progress S L) : Progress S L :=
  match p.frontier with
  | [] => p
  | (s, depth) :: rest =>
    if bound ≤ depth then
      { p with frontier := rest, exhausted := false }
    else
      (moves s).foldl (relax s (isCertain p.table s) depth) { p with frontier := rest }

def loop (moves : S → List (Move S L)) (bound : Nat) : Nat → Progress S L → Progress S L
  | 0, p => p
  | fuel + 1, p => if p.frontier.isEmpty then p else loop moves bound fuel (advance moves bound p)

def init (start : S) : Progress S L where
  table := [{ state := start, certain := true, parent := none, depth := 0 }]
  frontier := [(start, 0)]
  exhausted := true

/-- The moves from the start to a state, read backwards along the parents. -/
def trace (table : List (Entry S L)) : Nat → S → Option (List (Hop S L))
  | 0, s =>
    match (lookup table s).bind Entry.parent with
    | none => some []
    | some _ => none
  | fuel + 1, s =>
    match (lookup table s).bind Entry.parent with
    | none => some []
    | some hop => (trace table fuel hop.source).map (· ++ [hop])

theorem lookup_eq_none {table : List (Entry S L)} {s : S}
    : lookup table s = none ↔ s ∉ states table := by
  simp [lookup, states]

theorem mem_of_lookup {table : List (Entry S L)} {s : S} {e : Entry S L} (h : lookup table s = some e)
    : e ∈ table ∧ e.state = s := by
  refine ⟨List.mem_of_find?_eq_some h, ?_⟩
  simpa using List.find?_some h

theorem lookup_append_self {table : List (Entry S L)} {e : Entry S L} (h : lookup table e.state = none)
    : lookup (table ++ [e]) e.state = some e := by
  simp only [lookup] at h ⊢
  rw [List.find?_append, h]
  simp

theorem lookup_append_of_some {table : List (Entry S L)} {s : S} {e e' : Entry S L}
    (h : lookup table s = some e)
    : lookup (table ++ [e']) s = some e := by
  simp only [lookup] at h ⊢
  rw [List.find?_append, h]
  rfl

theorem lookup_append_of_ne {table : List (Entry S L)} {s : S} {e : Entry S L} (h : s ≠ e.state)
    : lookup (table ++ [e]) s = lookup table s := by
  simp [lookup, List.find?_append, h.symm]

@[simp]
theorem states_put (table : List (Entry S L)) (e : Entry S L)
    : states (put table e) = states table := by
  simp only [states, put, List.map_map]
  apply List.map_congr_left
  intro e' _
  by_cases h : e'.state = e.state <;> simp [h]

theorem lookup_put_of_ne {table : List (Entry S L)} {s : S} {e : Entry S L} (h : s ≠ e.state)
    : lookup (put table e) s = lookup table s := by
  induction table with
  | nil => rfl
  | cons e' table ih =>
    simp only [lookup, put, List.map_cons, List.find?_cons] at ih ⊢
    by_cases heq : e'.state = e.state
    . have hne : ¬ e'.state = s := fun hs => h (hs ▸ heq)
      simp [heq, h.symm, ih]
    . simp only [heq, if_false, ih]

theorem lookup_put_self {table : List (Entry S L)} {e known : Entry S L}
    (h : lookup table e.state = some known)
    : lookup (put table e) e.state = some e := by
  induction table with
  | nil => simp [lookup] at h
  | cons e' table ih =>
    simp only [lookup, put, List.map_cons, List.find?_cons] at ih h ⊢
    by_cases heq : e'.state = e.state
    . simp [heq]
    . simp only [heq, decide_false] at h
      simpa [heq] using ih h

/-- The three things a move can do. -/
theorem relax_cases (source : S) (sourceCertain : Bool) (depth : Nat) (p : Progress S L) (m : Move S L)
    : ∃ entry : Entry S L,
        entry.state = m.target
          ∧ entry.certain = (sourceCertain && m.certain)
          ∧ entry.parent = some ⟨source, m.label, entry.certain⟩
          ∧ ((lookup p.table m.target = none
                ∧ relax source sourceCertain depth p m = {
                    p with
                    table := p.table ++ [entry]
                    frontier := p.frontier ++ [(m.target, depth + 1)]
                  })
              ∨ (∃ known, lookup p.table m.target = some known
                  ∧ known.certain = false
                  ∧ entry.certain = true
                  ∧ relax source sourceCertain depth p m = {
                      p with
                      table := put p.table entry
                      frontier := p.frontier ++ [(m.target, depth + 1)]
                    })
              ∨ (∃ known, lookup p.table m.target = some known
                  ∧ (entry.certain = true → known.certain = true)
                  ∧ relax source sourceCertain depth p m = p)) := by
  refine ⟨{
    state := m.target
    certain := sourceCertain && m.certain
    parent := some ⟨source, m.label, sourceCertain && m.certain⟩
    depth := depth + 1
  }, rfl, rfl, rfl, ?_⟩
  cases h : lookup p.table m.target with
  | none =>
    left
    simp [relax, h]
  | some known =>
    right
    cases hknown : known.certain with
    | true =>
      right
      exact ⟨known, rfl, fun _ => hknown, by simp [relax, h, hknown]⟩
    | false =>
      cases hcertain : sourceCertain && m.certain with
      | true =>
        left
        refine ⟨known, rfl, hknown, rfl, ?_⟩
        simp [relax, h, hknown, hcertain]
      | false =>
        right
        refine ⟨known, rfl, by simp, ?_⟩
        simp [relax, h, hknown, hcertain]

/-! ## Exhaustion -/

theorem states_subset_relax (source : S) (sourceCertain : Bool) (depth : Nat) (p : Progress S L)
    (m : Move S L)
    : states p.table ⊆ states (relax source sourceCertain depth p m).table := by
  rcases relax_cases source sourceCertain depth p m with ⟨entry, -, -, -, ⟨-, h⟩ | ⟨_, -, -, -, h⟩ | ⟨_, -, -, h⟩⟩
  . rw [h]
    simp [states]
  . rw [h]
    simp
  . rw [h]
    exact List.Subset.refl _

theorem target_mem_relax (source : S) (sourceCertain : Bool) (depth : Nat) (p : Progress S L)
    (m : Move S L)
    : m.target ∈ states (relax source sourceCertain depth p m).table := by
  rcases relax_cases source sourceCertain depth p m
    with ⟨entry, hstate, -, -, ⟨-, h⟩ | ⟨known, hknown, -, -, h⟩ | ⟨known, hknown, -, h⟩⟩
  . rw [h]
    simp [states, hstate]
  . rw [h, states_put]
    by_contra hmem
    rw [lookup_eq_none.mpr hmem] at hknown
    contradiction
  . rw [h]
    by_contra hmem
    rw [lookup_eq_none.mpr hmem] at hknown
    contradiction

theorem states_subset_foldl (source : S) (sourceCertain : Bool) (depth : Nat) (ms : List (Move S L))
    (p : Progress S L)
    : states p.table ⊆ states (ms.foldl (relax source sourceCertain depth) p).table := by
  induction ms generalizing p with
  | nil => exact List.Subset.refl _
  | cons m ms ih => exact List.Subset.trans (states_subset_relax _ _ _ _ m) (ih _)

theorem target_mem_foldl (source : S) (sourceCertain : Bool) (depth : Nat) (ms : List (Move S L))
    (p : Progress S L) {m : Move S L} (hm : m ∈ ms)
    : m.target ∈ states (ms.foldl (relax source sourceCertain depth) p).table := by
  induction ms generalizing p with
  | nil => contradiction
  | cons m' ms ih =>
    rw [List.foldl_cons]
    rcases List.mem_cons.mp hm with rfl | hm
    . exact states_subset_foldl _ _ _ _ _ (target_mem_relax _ _ _ _ _)
    . exact ih _ hm

/-- A queued state stays queued while the moves of another one are taken, and a new state is queued. -/
theorem queued_relax (source : S) (sourceCertain : Bool) (depth : Nat) (p : Progress S L) (m : Move S L)
    : (p.frontier.map Prod.fst ⊆ (relax source sourceCertain depth p m).frontier.map Prod.fst)
        ∧ ∀ s ∈ states (relax source sourceCertain depth p m).table,
            s ∈ states p.table ∨ s ∈ (relax source sourceCertain depth p m).frontier.map Prod.fst := by
  rcases relax_cases source sourceCertain depth p m
    with ⟨entry, hstate, -, -, ⟨-, h⟩ | ⟨_, -, -, -, h⟩ | ⟨_, -, -, h⟩⟩
  . rw [h]
    constructor
    . simp
    . intro s hs
      simp only [states, List.map_append, List.map_cons, List.map_nil, List.mem_append,
        List.mem_singleton, hstate] at hs ⊢
      tauto
  . rw [h]
    constructor
    . simp
    . intro s hs
      rw [states_put] at hs
      exact Or.inl hs
  . rw [h]
    exact ⟨List.Subset.refl _, fun s hs => Or.inl hs⟩

theorem queued_foldl (source : S) (sourceCertain : Bool) (depth : Nat) (ms : List (Move S L))
    (p : Progress S L)
    : (p.frontier.map Prod.fst
          ⊆ (ms.foldl (relax source sourceCertain depth) p).frontier.map Prod.fst)
        ∧ ∀ s ∈ states (ms.foldl (relax source sourceCertain depth) p).table,
            s ∈ states p.table
              ∨ s ∈ (ms.foldl (relax source sourceCertain depth) p).frontier.map Prod.fst := by
  induction ms generalizing p with
  | nil => exact ⟨List.Subset.refl _, fun s hs => Or.inl hs⟩
  | cons m ms ih =>
    rw [List.foldl_cons]
    have hstep := queued_relax source sourceCertain depth p m
    have hrest := ih (relax source sourceCertain depth p m)
    refine ⟨List.Subset.trans hstep.1 hrest.1, ?_⟩
    intro s hs
    rcases hrest.2 s hs with hs | hs
    . rcases hstep.2 s hs with hs | hs
      . exact Or.inl hs
      . exact Or.inr (hrest.1 hs)
    . exact Or.inr hs

theorem exhausted_foldl (source : S) (sourceCertain : Bool) (depth : Nat) (ms : List (Move S L))
    (p : Progress S L)
    : (ms.foldl (relax source sourceCertain depth) p).exhausted = p.exhausted := by
  induction ms generalizing p with
  | nil => rfl
  | cons m ms ih =>
    rw [List.foldl_cons, ih]
    rcases relax_cases source sourceCertain depth p m
      with ⟨_, -, -, -, ⟨-, h⟩ | ⟨_, -, -, -, h⟩ | ⟨_, -, -, h⟩⟩ <;> rw [h]

/-- Every state in the table is queued or has its moves' targets in the table. -/
def Covered (moves : S → List (Move S L)) (start : S) (p : Progress S L) : Prop :=
  start ∈ states p.table
    ∧ (p.exhausted = true →
        ∀ s ∈ states p.table,
          s ∈ p.frontier.map Prod.fst ∨ ∀ m ∈ moves s, m.target ∈ states p.table)

omit [DecidableEq S] in
theorem covered_init (moves : S → List (Move S L)) (start : S)
    : Covered moves start (init start) := by
  simp [Covered, init, states]

theorem Covered.advance {moves : S → List (Move S L)} {start : S} {p : Progress S L}
    (h : Covered moves start p) (bound : Nat)
    : Covered moves start (advance moves bound p) := by
  unfold Search.advance
  split
  . exact h
  . next s depth rest hfrontier =>
    split
    . exact ⟨h.1, by simp⟩
    . have hmono := states_subset_foldl s (isCertain p.table s) depth (moves s)
        { p with frontier := rest }
      have hqueued := queued_foldl s (isCertain p.table s) depth (moves s) { p with frontier := rest }
      refine ⟨hmono h.1, ?_⟩
      intro hex t ht
      rw [exhausted_foldl] at hex
      rcases hqueued.2 t ht with ht | ht
      . rcases h.2 hex t ht with hfront | hmoves
        . rw [hfrontier, List.map_cons, List.mem_cons] at hfront
          rcases hfront with rfl | hfront
          . right
            intro m hm
            exact target_mem_foldl _ _ _ _ _ hm
          . exact Or.inl (hqueued.1 hfront)
        . right
          intro m hm
          exact hmono (hmoves m hm)
      . exact Or.inl ht

theorem Covered.loop {moves : S → List (Move S L)} {start : S} {p : Progress S L}
    (h : Covered moves start p) (bound fuel : Nat)
    : Covered moves start (loop moves bound fuel p) := by
  induction fuel generalizing p with
  | zero => exact h
  | succ fuel ih =>
    unfold Search.loop
    split
    . exact h
    . exact ih (h.advance bound)

omit [DecidableEq S] in
/-- A search that ran dry without being cut off has found every state the moves reach. -/
theorem closed_of_exhausted {moves : S → List (Move S L)} {start : S} {p : Progress S L}
    (h : Covered moves start p) (hfrontier : p.frontier = []) (hex : p.exhausted = true)
    : start ∈ states p.table
        ∧ ∀ s ∈ states p.table, ∀ m ∈ moves s, m.target ∈ states p.table := by
  refine ⟨h.1, ?_⟩
  intro s hs
  have := h.2 hex s hs
  simpa [hfrontier] using this

/-! ## Termination -/

/-- The work the queue stands for when every state has at most `width` moves. -/
def work (width bound : Nat) (frontier : List (S × Nat)) : Nat :=
  (frontier.map fun p => (width + 1) ^ (bound - p.2)).sum

theorem work_foldl (width bound depth : Nat) (source : S) (sourceCertain : Bool) (ms : List (Move S L))
    (p : Progress S L)
    : work width bound (ms.foldl (relax source sourceCertain depth) p).frontier
        ≤ work width bound p.frontier + ms.length * (width + 1) ^ (bound - (depth + 1)) := by
  induction ms generalizing p with
  | nil => simp
  | cons m ms ih =>
    rw [List.foldl_cons]
    have hstep : work width bound (relax source sourceCertain depth p m).frontier
        ≤ work width bound p.frontier + (width + 1) ^ (bound - (depth + 1)) := by
      rcases relax_cases source sourceCertain depth p m
        with ⟨_, -, -, -, ⟨-, h⟩ | ⟨_, -, -, -, h⟩ | ⟨_, -, -, h⟩⟩ <;> rw [h] <;> simp [work]
    have := ih (relax source sourceCertain depth p m)
    rw [List.length_cons, Nat.succ_mul]
    omega

theorem work_advance {moves : S → List (Move S L)} {width : Nat} (bound : Nat) {p : Progress S L}
    (hwidth : ∀ s, (moves s).length ≤ width) (hfrontier : p.frontier ≠ [])
    : work width bound (advance moves bound p).frontier < work width bound p.frontier := by
  unfold advance
  split
  . contradiction
  . next s depth rest heq =>
    rw [heq]
    split
    . next hdepth => simp [work]
    . next hdepth =>
      have hle := work_foldl width bound depth s (isCertain p.table s) (moves s)
        { p with frontier := rest }
      have hpow : (width + 1) ^ (bound - depth)
          = (width + 1) ^ (bound - (depth + 1)) * (width + 1) := by
        rw [← pow_succ]
        congr 1
        omega
      have hpos : 0 < (width + 1) ^ (bound - (depth + 1)) := by positivity
      have hlen : (moves s).length * (width + 1) ^ (bound - (depth + 1))
          < (width + 1) ^ (bound - depth) := by
        rw [hpow, Nat.mul_comm]
        exact Nat.mul_lt_mul_of_pos_left (Nat.lt_succ_of_le (hwidth s)) hpos
      simp only [work, List.map_cons, List.sum_cons] at hle ⊢
      omega

theorem loop_frontier {moves : S → List (Move S L)} {width bound fuel : Nat} {p : Progress S L}
    (hwidth : ∀ s, (moves s).length ≤ width) (hfuel : work width bound p.frontier ≤ fuel)
    : (loop moves bound fuel p).frontier = [] := by
  induction fuel generalizing p with
  | zero =>
    by_contra hne
    have := work_advance bound hwidth hne
    simp only [loop] at this
    omega
  | succ fuel ih =>
    unfold loop
    split
    . next hempty => simpa using hempty
    . next hempty =>
      apply ih
      have := work_advance bound hwidth (p := p) (by simpa using hempty)
      omega

omit [DecidableEq S] in
theorem work_init (width bound : Nat) (start : S)
    : work width bound (init (L := L) start).frontier = (width + 1) ^ bound := by
  simp [work, init]

/-! ## What holds of every state found -/

/-- What is true of all the states of a search, those of its queue included. -/
def Holds (I : S → Prop) (p : Progress S L) : Prop :=
  (∀ s ∈ states p.table, I s) ∧ ∀ q ∈ p.frontier, I q.1

omit [DecidableEq S] in
theorem holds_init {I : S → Prop} {start : S} (h : I start)
    : Holds I (init (L := L) start) := by
  simpa [Holds, init, states] using h

theorem Holds.relax {I : S → Prop} {p : Progress S L} (h : Holds I p) (source : S) (sourceCertain : Bool)
    (depth : Nat) {m : Move S L} (hm : I m.target)
    : Holds I (relax source sourceCertain depth p m) := by
  rcases relax_cases source sourceCertain depth p m
    with ⟨entry, hstate, -, -, ⟨-, heq⟩ | ⟨_, -, -, -, heq⟩ | ⟨_, -, -, heq⟩⟩
  . rw [heq]
    constructor
    . intro s hs
      simp only [states, List.map_append, List.map_cons, List.map_nil, List.mem_append,
        List.mem_singleton] at hs
      rcases hs with hs | rfl
      . exact h.1 s hs
      . rwa [hstate]
    . intro q hq
      rcases List.mem_append.mp hq with hq | hq
      . exact h.2 q hq
      . rw [List.mem_singleton] at hq
        rwa [hq]
  . rw [heq]
    constructor
    . intro s hs
      rw [states_put] at hs
      exact h.1 s hs
    . intro q hq
      rcases List.mem_append.mp hq with hq | hq
      . exact h.2 q hq
      . rw [List.mem_singleton] at hq
        rwa [hq]
  . rwa [heq]

theorem Holds.foldl {I : S → Prop} {p : Progress S L} (h : Holds I p) (source : S) (sourceCertain : Bool)
    (depth : Nat) {ms : List (Move S L)} (hms : ∀ m ∈ ms, I m.target)
    : Holds I (ms.foldl (Search.relax source sourceCertain depth) p) := by
  induction ms generalizing p with
  | nil => exact h
  | cons m ms ih =>
    rw [List.forall_mem_cons] at hms
    exact ih (h.relax source sourceCertain depth hms.1) hms.2

theorem Holds.advance {I : S → Prop} {moves : S → List (Move S L)} {p : Progress S L} (h : Holds I p)
    (hmoves : ∀ s, I s → ∀ m ∈ moves s, I m.target) (bound : Nat)
    : Holds I (advance moves bound p) := by
  unfold Search.advance
  split
  . exact h
  . next s depth rest hfrontier =>
    have hrest : Holds I { p with frontier := rest } :=
      ⟨h.1, fun q hq => h.2 q (hfrontier ▸ List.mem_cons_of_mem _ hq)⟩
    have hs : I s := h.2 (s, depth) (hfrontier ▸ List.mem_cons_self)
    split
    . exact hrest
    . exact hrest.foldl _ _ _ (hmoves s hs)

/-- What holds of the start and is kept by the moves holds of every state the search finds. -/
theorem Holds.loop {I : S → Prop} {moves : S → List (Move S L)} {p : Progress S L} (h : Holds I p)
    (hmoves : ∀ s, I s → ∀ m ∈ moves s, I m.target) (bound fuel : Nat)
    : Holds I (loop moves bound fuel p) := by
  induction fuel generalizing p with
  | zero => exact h
  | succ fuel ih =>
    unfold Search.loop
    split
    . exact h
    . exact ih (h.advance hmoves bound)

/-! ## No state has two entries -/

def Distinct (p : Progress S L) : Prop :=
  (states p.table).Nodup

theorem lookup_of_mem {p : Progress S L} (h : Distinct p) {e : Entry S L} (he : e ∈ p.table)
    : lookup p.table e.state = some e := by
  cases hlookup : lookup p.table e.state with
  | none => exact absurd (List.mem_map_of_mem he) (lookup_eq_none.mp hlookup)
  | some e' =>
    rcases mem_of_lookup hlookup with ⟨he', hstate⟩
    rw [List.inj_on_of_nodup_map h he' he hstate]

theorem Distinct.relax {p : Progress S L} (h : Distinct p) (source : S) (sourceCertain : Bool) (depth : Nat)
    (m : Move S L)
    : Distinct (relax source sourceCertain depth p m) := by
  unfold Distinct at h ⊢
  rcases relax_cases source sourceCertain depth p m
    with ⟨entry, hstate, -, -, ⟨hnone, heq⟩ | ⟨_, -, -, -, heq⟩ | ⟨_, -, -, heq⟩⟩
  . rw [heq, states, List.map_append, List.map_singleton, hstate]
    refine List.nodup_append.mpr ⟨h, by simp, ?_⟩
    rintro s hs t ht rfl
    rw [List.mem_singleton] at ht
    exact lookup_eq_none.mp hnone (ht ▸ hs)
  . rw [heq, states_put]
    exact h
  . rwa [heq]

theorem Distinct.foldl {p : Progress S L} (h : Distinct p) (source : S) (sourceCertain : Bool) (depth : Nat)
    (ms : List (Move S L))
    : Distinct (ms.foldl (Search.relax source sourceCertain depth) p) := by
  induction ms generalizing p with
  | nil => exact h
  | cons m ms ih => exact ih (h.relax source sourceCertain depth m)

theorem Distinct.advance {p : Progress S L} (h : Distinct p) (moves : S → List (Move S L)) (bound : Nat)
    : Distinct (advance moves bound p) := by
  unfold Search.advance
  split
  . exact h
  . split
    . exact h
    . next s depth rest _ _ =>
      have hrest : Distinct { p with frontier := rest } := h
      exact hrest.foldl _ _ _ _

/-- The certain states, last found first, each with a certain move from one found before it. -/
inductive Grounded (moves : S → List (Move S L)) (start : S) (table : List (Entry S L)) : List S → Prop
  | start {e : Entry S L} : lookup table start = some e → e.certain = true → e.parent = none →
      Grounded moves start table [start]
  | step {found : List S} {source : S} {m : Move S L} {e : Entry S L} :
      Grounded moves start table found → source ∈ found → m ∈ moves source → m.certain = true →
      lookup table m.target = some e → e.certain = true → e.parent = some ⟨source, m.label, true⟩ →
      Grounded moves start table (m.target :: found)

theorem Grounded.mono {moves : S → List (Move S L)} {start : S} {table table' : List (Entry S L)}
    {found : List S} (h : Grounded moves start table found)
    (hkeep : ∀ s e, lookup table s = some e → e.certain = true → lookup table' s = some e)
    : Grounded moves start table' found := by
  induction h with
  | start hlookup hcertain hparent => exact .start (hkeep _ _ hlookup hcertain) hcertain hparent
  | step _ hsource hm hmc hlookup hcertain hparent ih =>
    exact .step ih hsource hm hmc (hkeep _ _ hlookup hcertain) hcertain hparent

/-- All certain states of the table are grounded. -/
def Witnessed (moves : S → List (Move S L)) (start : S) (p : Progress S L) : Prop :=
  ∃ found : List S,
    Grounded moves start p.table found
      ∧ found.Nodup
      ∧ ∀ s, isCertain p.table s = true ↔ s ∈ found

theorem isCertain_of_lookup {table : List (Entry S L)} {s : S} {e : Entry S L}
    (h : lookup table s = some e)
    : isCertain table s = e.certain := by
  simp [isCertain, h]

theorem isCertain_congr {table table' : List (Entry S L)} {s : S}
    (h : lookup table s = lookup table' s)
    : isCertain table s = isCertain table' s := by
  simp [isCertain, h]

/-- A table that gains one certain entry, reached by a certain move from a certain state. -/
theorem Witnessed.gain {moves : S → List (Move S L)} {start : S} {p p' : Progress S L} {source : S}
    {m : Move S L} {e : Entry S L} (h : Witnessed moves start p)
    (hsource : isCertain p.table source = true) (hm : m ∈ moves source) (hmc : m.certain = true)
    (hnew : isCertain p.table m.target = false) (hlookup : lookup p'.table m.target = some e)
    (hcertain : e.certain = true) (hparent : e.parent = some ⟨source, m.label, true⟩)
    (hkeep : ∀ s, s ≠ m.target → lookup p'.table s = lookup p.table s)
    : Witnessed moves start p' := by
  rcases h with ⟨found, hground, hnodup, hfound⟩
  have hnot : m.target ∉ found := by
    rw [← hfound, hnew]
    simp
  refine ⟨m.target :: found, ?_, List.nodup_cons.mpr ⟨hnot, hnodup⟩, ?_⟩
  . refine .step (hground.mono ?_) ((hfound source).mp hsource) hm hmc hlookup hcertain hparent
    intro s e' hs he'
    rw [hkeep, hs]
    rintro rfl
    rw [isCertain_of_lookup hs, he'] at hnew
    contradiction
  . intro s
    by_cases hs : s = m.target
    . subst hs
      simp [isCertain_of_lookup hlookup, hcertain]
    . rw [isCertain_congr (hkeep s hs), hfound]
      simp [hs]

/-- A table that gains no certain entry. -/
theorem Witnessed.keep {moves : S → List (Move S L)} {start : S} {p p' : Progress S L}
    (h : Witnessed moves start p)
    (hkeep : ∀ s e, lookup p.table s = some e → e.certain = true → lookup p'.table s = some e)
    (hnone : ∀ s, isCertain p'.table s = true → isCertain p.table s = true)
    : Witnessed moves start p' := by
  rcases h with ⟨found, hground, hnodup, hfound⟩
  refine ⟨found, hground.mono hkeep, hnodup, ?_⟩
  intro s
  rw [← hfound]
  refine ⟨hnone s, ?_⟩
  intro hs
  cases hlookup : lookup p.table s with
  | none => simp [isCertain, hlookup] at hs
  | some e =>
    rw [isCertain_of_lookup hlookup] at hs
    rw [isCertain_of_lookup (hkeep s e hlookup hs), hs]

theorem Witnessed.relax {moves : S → List (Move S L)} {start source : S} {sourceCertain : Bool}
    {p : Progress S L} {m : Move S L} (h : Witnessed moves start p) (depth : Nat) (hm : m ∈ moves source)
    (hsource : sourceCertain = true → isCertain p.table source = true)
    : Witnessed moves start (relax source sourceCertain depth p m) := by
  rcases relax_cases source sourceCertain depth p m
    with ⟨entry, hstate, hcertain, hparent, ⟨hnone, heq⟩ | ⟨known, hknown, hkc, hec, heq⟩ | ⟨_, -, -, heq⟩⟩
  . rw [heq]
    have hnew : isCertain p.table m.target = false := by simp [isCertain, hnone]
    have hlookup : lookup (p.table ++ [entry]) m.target = some entry := by
      rw [← hstate] at hnone ⊢
      exact lookup_append_self hnone
    have hkeep : ∀ s, s ≠ m.target → lookup (p.table ++ [entry]) s = lookup p.table s := by
      intro s hs
      exact lookup_append_of_ne (hstate ▸ hs)
    cases hec : entry.certain with
    | true =>
      rw [hec, eq_comm, Bool.and_eq_true] at hcertain
      rw [hec] at hparent
      exact h.gain (hsource hcertain.1) hm hcertain.2 hnew hlookup hec hparent hkeep
    | false =>
      apply h.keep
      . intro s e hs _
        exact lookup_append_of_some hs
      . intro s hs
        by_cases hst : s = m.target
        . subst hst
          rw [isCertain_of_lookup hlookup, hec] at hs
          contradiction
        . rwa [isCertain_congr (hkeep s hst)] at hs
  . rw [heq]
    have hnew : isCertain p.table m.target = false := by rw [isCertain_of_lookup hknown, hkc]
    have hlookup : lookup (put p.table entry) m.target = some entry := by
      rw [← hstate] at hknown ⊢
      exact lookup_put_self hknown
    have hkeep : ∀ s, s ≠ m.target → lookup (put p.table entry) s = lookup p.table s := by
      intro s hs
      exact lookup_put_of_ne (hstate ▸ hs)
    rw [hec, eq_comm, Bool.and_eq_true] at hcertain
    rw [hec] at hparent
    exact h.gain (hsource hcertain.1) hm hcertain.2 hnew hlookup hec hparent hkeep
  . rw [heq]
    exact h

theorem isCertain_relax {source : S} {sourceCertain : Bool} {p : Progress S L} {m : Move S L} {s : S}
    (depth : Nat) (h : isCertain p.table s = true)
    : isCertain (relax source sourceCertain depth p m).table s = true := by
  cases hs : lookup p.table s with
  | none => simp [isCertain, hs] at h
  | some e =>
    rcases relax_cases source sourceCertain depth p m
      with ⟨entry, hstate, -, -, ⟨-, heq⟩ | ⟨known, hknown, hkc, -, heq⟩ | ⟨_, -, -, heq⟩⟩
    . rw [heq, isCertain_of_lookup (lookup_append_of_some hs), ← isCertain_of_lookup hs, h]
    . have hne : s ≠ entry.state := by
        rintro rfl
        rw [hstate, isCertain_of_lookup hknown, hkc] at h
        contradiction
      rw [heq, isCertain_congr (lookup_put_of_ne hne), h]
    . rw [heq, h]

theorem Witnessed.foldl {moves : S → List (Move S L)} {start source : S} {sourceCertain : Bool}
    {p : Progress S L} {ms : List (Move S L)} (h : Witnessed moves start p) (depth : Nat)
    (hms : ms ⊆ moves source) (hsource : sourceCertain = true → isCertain p.table source = true)
    : Witnessed moves start (ms.foldl (Search.relax source sourceCertain depth) p) := by
  induction ms generalizing p with
  | nil => exact h
  | cons m ms ih =>
    rw [List.cons_subset] at hms
    exact ih (h.relax depth hms.1 hsource) hms.2 fun hc => isCertain_relax depth (hsource hc)

theorem Witnessed.advance {moves : S → List (Move S L)} {start : S} {p : Progress S L}
    (h : Witnessed moves start p) (bound : Nat)
    : Witnessed moves start (advance moves bound p) := by
  unfold Search.advance
  split
  . exact h
  . split
    . exact h
    . next s depth rest _ _ =>
      have h' : Witnessed moves start { p with frontier := rest } := h
      exact h'.foldl depth (List.Subset.refl _) id

theorem Witnessed.loop {moves : S → List (Move S L)} {start : S} {p : Progress S L}
    (h : Witnessed moves start p) (bound fuel : Nat)
    : Witnessed moves start (loop moves bound fuel p) := by
  induction fuel generalizing p with
  | zero => exact h
  | succ fuel ih =>
    unfold Search.loop
    split
    . exact h
    . exact ih (h.advance bound)

end Search
