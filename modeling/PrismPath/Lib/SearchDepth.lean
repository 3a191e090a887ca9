import PrismPath.Lib.Search

/-!
This module contains how far a breadth first search sees: a search that ran dry has found every state within as
many moves of the start as its bound, cut off or not.
-/

namespace Search

variable {S L : Type} [DecidableEq S]

/-- The states so many moves from the start. -/
inductive Reaches (moves : S → List (Move S L)) (start : S) : Nat → S → Prop
  | start : Reaches moves start 0 start
  | step {n : Nat} {s : S} {m : Move S L} : Reaches moves start n s → m ∈ moves s →
      Reaches moves start (n + 1) m.target

omit [DecidableEq S] in
theorem Reaches.mem_of_closed {moves : S → List (Move S L)} {start s : S} {n : Nat} {found : List S}
    (h : Reaches moves start n s) (hstart : start ∈ found)
    (hclosed : ∀ s ∈ found, ∀ m ∈ moves s, m.target ∈ found)
    : s ∈ found := by
  induction h with
  | start => exact hstart
  | step _ hm ih => exact hclosed _ ih _ hm

omit [DecidableEq S] in
theorem Reaches.holds {I : S → Prop} {moves : S → List (Move S L)} {start s : S} {n : Nat}
    (h : Reaches moves start n s) (hstart : I start) (hmoves : ∀ s, I s → ∀ m ∈ moves s, I m.target)
    : I s := by
  induction h with
  | start => exact hstart
  | step _ hm ih => exact hmoves _ ih _ hm

theorem frontier_foldl (source : S) (sourceCertain : Bool) (depth : Nat) (ms : List (Move S L)) (p : Progress S L)
    : ∃ queued, (ms.foldl (relax source sourceCertain depth) p).frontier = p.frontier ++ queued
        ∧ ∀ q ∈ queued, q.2 = depth + 1 := by
  induction ms generalizing p with
  | nil => exact ⟨[], by simp, by simp⟩
  | cons m ms ih =>
    rw [List.foldl_cons]
    rcases ih (relax source sourceCertain depth p m) with ⟨queued, hqueued, hdepth⟩
    rcases relax_cases source sourceCertain depth p m
      with ⟨entry, -, -, -, ⟨-, h⟩ | ⟨_, -, -, -, h⟩ | ⟨_, -, -, h⟩⟩
    . refine ⟨(m.target, depth + 1) :: queued, by rw [hqueued, h]; simp, ?_⟩
      simpa using hdepth
    . refine ⟨(m.target, depth + 1) :: queued, by rw [hqueued, h]; simp, ?_⟩
      simpa using hdepth
    . exact ⟨queued, by rw [hqueued, h], hdepth⟩

/-- The queue holds states of two neighbouring depths, the nearer first. -/
def TwoLayers (frontier : List (S × Nat)) : Prop :=
  ∃ depth near far, frontier = near ++ far ∧ (∀ q ∈ near, q.2 = depth) ∧ ∀ q ∈ far, q.2 = depth + 1

omit [DecidableEq S] in
theorem TwoLayers.span {s : S} {depth : Nat} {rest : List (S × Nat)} (h : TwoLayers ((s, depth) :: rest))
    : ∀ q ∈ rest, depth ≤ q.2 ∧ q.2 ≤ depth + 1 := by
  rcases h with ⟨d, near, far, heq, hnear, hfar⟩
  intro q hq
  rcases near with _ | ⟨head, near⟩
  . rw [List.nil_append] at heq
    subst heq
    have hhead := hfar (s, depth) List.mem_cons_self
    have hqd := hfar q (List.mem_cons_of_mem _ hq)
    dsimp only at hhead
    omega
  . rw [List.cons_append, List.cons.injEq] at heq
    rcases heq with ⟨rfl, rfl⟩
    have hhead := hnear (s, depth) List.mem_cons_self
    dsimp only at hhead
    rcases List.mem_append.mp hq with hq | hq
    . have := hnear q (List.mem_cons_of_mem _ hq)
      omega
    . have := hfar q hq
      omega

omit [DecidableEq S] in
theorem TwoLayers.pop {s : S} {depth : Nat} {rest queued : List (S × Nat)} (h : TwoLayers ((s, depth) :: rest))
    (hqueued : ∀ q ∈ queued, q.2 = depth + 1)
    : TwoLayers (rest ++ queued) := by
  rcases h with ⟨d, near, far, heq, hnear, hfar⟩
  rcases near with _ | ⟨head, near⟩
  . rw [List.nil_append] at heq
    subst heq
    have hhead := hfar (s, depth) List.mem_cons_self
    dsimp only at hhead
    exact ⟨d + 1, rest, queued, rfl, fun q hq => hfar q (List.mem_cons_of_mem _ hq), fun q hq => by
      rw [hqueued q hq, hhead]⟩
  . rw [List.cons_append, List.cons.injEq] at heq
    rcases heq with ⟨rfl, rfl⟩
    have hhead := hnear (s, depth) List.mem_cons_self
    dsimp only at hhead
    refine ⟨d, near, far ++ queued, by simp, fun q hq => hnear q (List.mem_cons_of_mem _ hq), ?_⟩
    intro q hq
    rcases List.mem_append.mp hq with hq | hq
    . exact hfar q hq
    . rw [hqueued q hq, hhead]

/-- The moves of a state lead to states that are known. -/
def Expanded (moves : S → List (Move S L)) (p : Progress S L) (s : S) : Prop :=
  ∀ m ∈ moves s, m.target ∈ states p.table

/--
What the search keeps of the states within its bound: one that is not known yet has a nearer state in the queue,
and one that is known is queued no deeper than it lies, or its moves have been taken.
-/
structure Layered (moves : S → List (Move S L)) (start : S) (bound : Nat) (p : Progress S L) : Prop where
  layers : TwoLayers p.frontier
  settled : ∀ s ∈ states p.table,
    s ∈ p.frontier.map Prod.fst ∨ Expanded moves p s ∨ ∀ q ∈ p.frontier, bound ≤ q.2
  met : ∀ n s, Reaches moves start n s → n ≤ bound →
    (∃ q ∈ p.frontier, q.2 < n)
      ∨ (s ∈ states p.table ∧ ((∃ q ∈ p.frontier, q.1 = s ∧ q.2 ≤ n) ∨ n = bound ∨ Expanded moves p s))

omit [DecidableEq S] in
theorem layered_init (moves : S → List (Move S L)) (start : S) (bound : Nat)
    : Layered moves start bound (init start) where
  layers := ⟨0, [(start, 0)], [], rfl, by simp, by simp⟩
  settled := by simp [init, states]
  met := by
    intro n s hreaches hn
    cases hreaches with
    | start => exact .inr ⟨by simp [init, states], .inl ⟨(start, 0), by simp [init], rfl, le_refl 0⟩⟩
    | step _ _ => exact .inl ⟨(start, 0), by simp [init], by simp⟩

omit [DecidableEq S] in
theorem Layered.cut {moves : S → List (Move S L)} {start s : S} {bound depth : Nat} {p : Progress S L}
    {rest : List (S × Nat)} (h : Layered moves start bound p) (hfrontier : p.frontier = (s, depth) :: rest)
    (hdepth : bound ≤ depth)
    : Layered moves start bound { p with frontier := rest, exhausted := false } := by
  have hlayers := hfrontier ▸ h.layers
  have hdeep : ∀ q ∈ rest, bound ≤ q.2 := fun q hq => le_trans hdepth (hlayers.span q hq).1
  constructor
  . have hnone : ∀ q ∈ ([] : List (S × Nat)), q.2 = depth + 1 := fun q hq => by cases hq
    have := hlayers.pop hnone
    rwa [List.append_nil] at this
  . exact fun _ _ => .inr (.inr hdeep)
  . intro n t hreaches hn
    rcases h.met n t hreaches hn with ⟨q, hq, hlt⟩ | ⟨hmem, ⟨q, hq, hqt, hle⟩ | hrest⟩
    . rw [hfrontier, List.mem_cons] at hq
      rcases hq with rfl | hq
      . dsimp only at hlt
        omega
      . exact .inl ⟨q, hq, hlt⟩
    . rw [hfrontier, List.mem_cons] at hq
      rcases hq with rfl | hq
      . dsimp only at hle
        exact .inr ⟨hmem, .inr (.inl (by omega))⟩
      . exact .inr ⟨hmem, .inl ⟨q, hq, hqt, hle⟩⟩
    . exact .inr ⟨hmem, .inr hrest⟩

theorem Layered.expand {moves : S → List (Move S L)} {start s : S} {bound depth : Nat} {p : Progress S L}
    {rest : List (S × Nat)} (h : Layered moves start bound p) (hfrontier : p.frontier = (s, depth) :: rest)
    (hdepth : depth < bound) (sourceCertain : Bool)
    : Layered moves start bound ((moves s).foldl (relax s sourceCertain depth) { p with frontier := rest }) := by
  have hlayers := hfrontier ▸ h.layers
  rcases frontier_foldl s sourceCertain depth (moves s) { p with frontier := rest } with ⟨queued, hqueue, hqueued⟩
  have hmono := states_subset_foldl s sourceCertain depth (moves s) { p with frontier := rest }
  have hkept := queued_foldl s sourceCertain depth (moves s) { p with frontier := rest }
  have htaken := fun m => @target_mem_foldl S L _ s sourceCertain depth (moves s) { p with frontier := rest } m
  generalize (moves s).foldl (relax s sourceCertain depth) { p with frontier := rest } = p' at *
  dsimp only at hqueue hmono hkept htaken
  have hexpanded : ∀ t, Expanded moves p t → Expanded moves p' t := fun t ht m hm => hmono (ht m hm)
  have hrest : ∀ q ∈ rest, q ∈ p'.frontier := fun q hq => hqueue ▸ List.mem_append_left _ hq
  have hspan : ∀ q ∈ p'.frontier, q.2 ≤ depth + 1 := by
    intro q hq
    rw [hqueue] at hq
    rcases List.mem_append.mp hq with hq | hq
    . exact (hlayers.span q hq).2
    . exact le_of_eq (hqueued q hq)
  -- a state below the bound is never cut off, so it is queued or its moves have been taken
  have hsettled : ∀ t ∈ states p'.table, t ∈ p'.frontier.map Prod.fst ∨ Expanded moves p' t := by
    intro t ht
    rcases hkept.2 t ht with ht | ht
    . rcases h.settled t ht with hqueue' | hexp | hcut
      . rw [hfrontier, List.map_cons, List.mem_cons] at hqueue'
        rcases hqueue' with rfl | hqueue'
        . exact .inr htaken
        . exact .inl (hkept.1 hqueue')
      . exact .inr (hexpanded t hexp)
      . have := hcut (s, depth) (hfrontier ▸ List.mem_cons_self)
        dsimp only at this
        omega
    . exact .inl ht
  constructor
  . rw [hqueue]
    exact hlayers.pop hqueued
  . exact fun t ht => (hsettled t ht).imp_right .inl
  . intro n t hreaches
    induction hreaches with
    | start =>
      intro hn
      rcases h.met 0 start .start hn with ⟨q, -, hlt⟩ | ⟨hmem, ⟨q, hq, hqt, hle⟩ | hn | hexp⟩
      . omega
      . rw [hfrontier, List.mem_cons] at hq
        rcases hq with rfl | hq
        . exact .inr ⟨hmono hmem, .inr (.inr (hqt ▸ htaken))⟩
        . exact .inr ⟨hmono hmem, .inl ⟨q, hrest q hq, hqt, hle⟩⟩
      . exact .inr ⟨hmono hmem, .inr (.inl hn)⟩
      . exact .inr ⟨hmono hmem, .inr (.inr (hexpanded _ hexp))⟩
    | step hsource hm ih =>
      next n source m =>
      intro hn
      rcases h.met (n + 1) m.target (.step hsource hm) hn with ⟨q, hq, hlt⟩ | ⟨hmem, ⟨q, hq, hqt, hle⟩ | hn | hexp⟩
      . rw [hfrontier, List.mem_cons] at hq
        rcases hq with rfl | hq
        . -- only the state just taken was nearer, so the one before it on the path decides
          dsimp only at hlt
          rcases ih (by omega) with ⟨q, hq, hlt'⟩ | ⟨-, ⟨q, hq, -, hle⟩ | hn' | hexp⟩
          . exact .inl ⟨q, hq, by omega⟩
          . exact .inl ⟨q, hq, by omega⟩
          . omega
          . refine .inr ⟨hexp m hm, ?_⟩
            rcases hsettled _ (hexp m hm) with hqueue' | hexp'
            . rcases List.mem_map.mp hqueue' with ⟨q, hq, hqt⟩
              exact .inl ⟨q, hq, hqt, le_trans (hspan q hq) (by omega)⟩
            . exact .inr (.inr hexp')
        . exact .inl ⟨q, hrest q hq, hlt⟩
      . rw [hfrontier, List.mem_cons] at hq
        rcases hq with rfl | hq
        . dsimp only at hqt
          exact .inr ⟨hmono hmem, .inr (.inr (hqt ▸ htaken))⟩
        . exact .inr ⟨hmono hmem, .inl ⟨q, hrest q hq, hqt, hle⟩⟩
      . exact .inr ⟨hmono hmem, .inr (.inl hn)⟩
      . exact .inr ⟨hmono hmem, .inr (.inr (hexpanded _ hexp))⟩

theorem Layered.loop {moves : S → List (Move S L)} {start : S} {bound : Nat} {p : Progress S L}
    (h : Layered moves start bound p) (fuel : Nat)
    : Layered moves start bound (loop moves bound fuel p) := by
  induction fuel generalizing p with
  | zero => exact h
  | succ fuel ih =>
    unfold Search.loop
    split
    . exact h
    . apply ih
      unfold advance
      split
      . exact h
      . next s depth rest hfrontier =>
        split
        . next hdepth => exact h.cut hfrontier hdepth
        . next hdepth => exact h.expand hfrontier (by omega) _

omit [DecidableEq S] in
theorem Layered.mem_of_reaches {moves : S → List (Move S L)} {start s : S} {bound n : Nat} {p : Progress S L}
    (h : Layered moves start bound p) (hfrontier : p.frontier = []) (hreaches : Reaches moves start n s)
    (hn : n ≤ bound)
    : s ∈ states p.table := by
  rcases h.met n s hreaches hn with ⟨q, hq, -⟩ | ⟨hmem, -⟩
  . rw [hfrontier] at hq
    cases hq
  . exact hmem

end Search
