import Mathlib.Data.Int.Basic
import Mathlib.Data.List.Basic

/-!
This module contains intervals of the integers: the points and the gaps that a list of integers cuts them into, and
the cells that are left when neighbours are joined on which an observation does not change.
-/

/-- The integers from `lo` to `hi`; an end that is missing is no bound. -/
structure IntSpan where
  lo : Option ℤ
  hi : Option ℤ

namespace IntSpan

def contains (i : IntSpan) (n : ℤ) : Bool :=
  i.lo.all (· ≤ n) && i.hi.all (n ≤ ·)

/-- The lower end, or else the upper one. -/
def rep : IntSpan → ℤ
  | ⟨some lo, _⟩ => lo
  | ⟨none, some hi⟩ => hi
  | ⟨none, none⟩ => 0

theorem contains_iff {i : IntSpan} {n : ℤ}
    : i.contains n = true ↔ (∀ lo ∈ i.lo, lo ≤ n) ∧ ∀ hi ∈ i.hi, n ≤ hi := by
  rcases i with ⟨_ | lo, _ | hi⟩ <;> simp [contains]

/-- One after the other, from a lower end on without an upper one. -/
def Tiles : Option ℤ → List IntSpan → Prop
  | _, [] => False
  | lo, [i] => i = ⟨lo, none⟩
  | lo, i :: j :: is => ∃ hi, i = ⟨lo, some hi⟩ ∧ (∀ l ∈ lo, l ≤ hi) ∧ Tiles (some (hi + 1)) (j :: is)

theorem Tiles.head {lo : Option ℤ} {i : IntSpan} {is : List IntSpan} (h : Tiles lo (i :: is))
    : i.lo = lo ∧ ∀ l ∈ lo, i.contains l = true := by
  cases is with
  | nil =>
    rw [Tiles] at h
    subst h
    exact ⟨rfl, fun l hl => contains_iff.mpr ⟨by simp [Option.mem_def.mp hl], by simp⟩⟩
  | cons j is =>
    rcases h with ⟨hi, rfl, hle, _⟩
    exact ⟨rfl, fun l hl => contains_iff.mpr ⟨by simp [Option.mem_def.mp hl], by simpa using hle l hl⟩⟩

theorem Tiles.contains_rep {lo : Option ℤ} {is : List IntSpan} (h : Tiles lo is) {i : IntSpan} (hmem : i ∈ is)
    : i.contains i.rep = true := by
  induction is generalizing lo with
  | nil => cases h
  | cons j is ih =>
    cases is with
    | nil =>
      rw [Tiles] at h
      rw [List.mem_singleton] at hmem
      subst h hmem
      cases lo <;> simp [contains, rep]
    | cons k is =>
      rcases h with ⟨hi, rfl, hle, hrest⟩
      rcases List.mem_cons.mp hmem with rfl | hmem
      . cases lo with
        | none => simp [contains, rep]
        | some l =>
          have := hle l rfl
          simp [contains, rep, this]
      . exact ih hrest hmem

/- Cutting. -/

/-- Each of the increasing points, and the gap after it unless it is empty. -/
def pointsFrom : List ℤ → List IntSpan
  | [] => []
  | [c] => [⟨some c, some c⟩, ⟨some (c + 1), none⟩]
  | c :: d :: cs =>
    ⟨some c, some c⟩ :: ((if c + 1 ≤ d - 1 then [⟨some (c + 1), some (d - 1)⟩] else []) ++ pointsFrom (d :: cs))

theorem tiles_cons {lo : Option ℤ} {hi : ℤ} {is : List IntSpan} (hle : ∀ l ∈ lo, l ≤ hi)
    (h : Tiles (some (hi + 1)) is)
    : Tiles lo (⟨lo, some hi⟩ :: is) := by
  cases is with
  | nil => cases h
  | cons j is => exact ⟨hi, rfl, hle, h⟩

theorem Tiles.tail {lo : Option ℤ} {i j : IntSpan} {is : List IntSpan} (h : Tiles lo (i :: j :: is))
    : ∃ hi, i = ⟨lo, some hi⟩ ∧ (∀ l ∈ lo, l ≤ hi) ∧ Tiles (some (hi + 1)) (j :: is) :=
  h

theorem Tiles.le {lo : ℤ} {is : List IntSpan} (h : Tiles (some lo) is) {i : IntSpan} (hmem : i ∈ is) {n : ℤ}
    (hn : i.contains n = true)
    : lo ≤ n := by
  rw [contains_iff] at hn
  induction is generalizing lo with
  | nil => cases h
  | cons j is ih =>
    cases is with
    | nil =>
      rw [Tiles] at h
      rw [List.mem_singleton] at hmem
      subst h hmem
      exact hn.1 lo rfl
    | cons k is =>
      rcases h.tail with ⟨hi, rfl, hle, hrest⟩
      rcases List.mem_cons.mp hmem with rfl | hmem
      . exact hn.1 lo rfl
      . have hlo := ih hrest hmem
        have hhead := hle lo rfl
        omega

theorem tiles_pointsFrom {c : ℤ} {cs : List ℤ} (h : (c :: cs).Pairwise (· < ·))
    : Tiles (some c) (pointsFrom (c :: cs)) := by
  induction cs generalizing c with
  | nil =>
    rw [pointsFrom]
    exact tiles_cons (by simp) rfl
  | cons d cs ih =>
    rw [List.pairwise_cons] at h
    have hlt := h.1 d List.mem_cons_self
    rw [pointsFrom]
    refine tiles_cons (by simp) ?_
    split
    next hgap =>
      refine tiles_cons (by simpa using hgap) ?_
      rw [Int.sub_add_cancel]
      exact ih h.2
    next hgap =>
      have hnext : d = c + 1 := by omega
      subst hnext
      exact ih h.2

/-- What is below the first point, and the rest. -/
def cutAt : List ℤ → List IntSpan
  | [] => []
  | c :: cs => ⟨none, some (c - 1)⟩ :: pointsFrom (c :: cs)

theorem tiles_cutAt {c : ℤ} {cs : List ℤ} (h : (c :: cs).Pairwise (· < ·))
    : Tiles none (cutAt (c :: cs)) := by
  rw [cutAt]
  refine tiles_cons (by simp) ?_
  rw [Int.sub_add_cancel]
  exact tiles_pointsFrom h

/-- An interval of a cut is one of the points, or none of them is in it. -/
theorem mem_pointsFrom {c : ℤ} {cs : List ℤ} (h : (c :: cs).Pairwise (· < ·)) {i : IntSpan}
    (hi : i ∈ pointsFrom (c :: cs))
    : (∃ d, i = ⟨some d, some d⟩) ∨ ∀ n, i.contains n = true → n ∉ c :: cs := by
  induction cs generalizing c with
  | nil =>
    rw [pointsFrom, List.mem_pair] at hi
    rcases hi with rfl | rfl
    . exact .inl ⟨c, rfl⟩
    . refine .inr fun n hn hmem => ?_
      rw [contains_iff] at hn
      have hlo := hn.1 _ rfl
      rw [List.mem_singleton] at hmem
      omega
  | cons d cs ih =>
    have hpairs := List.pairwise_cons.mp h
    have hrest := List.pairwise_cons.mp hpairs.2
    rw [pointsFrom, List.mem_cons, List.mem_append] at hi
    rcases hi with rfl | hi | hi
    . exact .inl ⟨c, rfl⟩
    . -- the gap between two neighbours
      split at hi
      next =>
        rw [List.mem_singleton] at hi
        subst hi
        refine .inr fun n hn hmem => ?_
        rw [contains_iff] at hn
        have hlo := hn.1 _ rfl
        have hhi := hn.2 _ rfl
        rcases List.mem_cons.mp hmem with rfl | hmem
        . omega
        . rcases List.mem_cons.mp hmem with rfl | hmem
          . omega
          . have := hrest.1 n hmem
            omega
      next => cases hi
    . refine (ih hpairs.2 hi).imp_right fun hnone n hn hmem => ?_
      rcases List.mem_cons.mp hmem with rfl | hmem
      . have hle := (tiles_pointsFrom hpairs.2).le hi hn
        have hlt := hpairs.1 d List.mem_cons_self
        omega
      . exact hnone n hn hmem

/-- An interval of a cut is one of the points, or none of them is in it. -/
theorem mem_cutAt {c : ℤ} {cs : List ℤ} (h : (c :: cs).Pairwise (· < ·)) {i : IntSpan}
    (hi : i ∈ cutAt (c :: cs))
    : (∃ d, i = ⟨some d, some d⟩) ∨ ∀ n, i.contains n = true → n ∉ c :: cs := by
  rw [cutAt] at hi
  rcases List.mem_cons.mp hi with rfl | hi
  . refine .inr fun n hn hmem => ?_
    rw [contains_iff] at hn
    have hhi := hn.2 _ rfl
    rcases List.mem_cons.mp hmem with rfl | hmem
    . omega
    . have := (List.pairwise_cons.mp h).1 n hmem
      omega
  . exact mem_pointsFrom h hi

/- Joining. -/

/-- An interval, and the integer that stands for it. -/
structure Cell extends IntSpan where
  rep : ℤ

section

variable {α : Type} [DecidableEq α]

/-- Each interval comes with what is observed on it. The last cell goes on as long as that stays the same. -/
def joinFrom (cell : Cell) (a : α) : List (IntSpan × α) → List Cell
  | [] => [cell]
  | (i, b) :: is =>
    if b = a then joinFrom { cell with hi := i.hi } a is else cell :: joinFrom ⟨i, i.rep⟩ b is

def join : List (IntSpan × α) → List Cell
  | [] => []
  | (i, a) :: is => joinFrom ⟨i, i.rep⟩ a is

def indexOf (cells : List Cell) (n : ℤ) : Option ℕ :=
  cells.findIdx? fun cell => cell.contains n

/-- The cell that `n` is in: the observation `f` is the same on all of it, and on no larger interval to the left. -/
structure Found (f : ℤ → α) (cells : List Cell) (n : ℤ) (k : ℕ) (cell : Cell) : Prop where
  get : cells[k]? = some cell
  index : ∀ m, cell.contains m = true → indexOf cells m = some k
  mem : cell.contains n = true
  same : ∀ m, cell.contains m = true → f m = f n

theorem indexOf_cons_of_contains {cell : Cell} {n : ℤ} (h : cell.contains n = true) (cells : List Cell)
    : indexOf (cell :: cells) n = some 0 := by
  rw [indexOf, List.findIdx?_cons, if_pos h]

theorem indexOf_cons_of_lt {cell : Cell} {hi n : ℤ} (hhi : cell.hi = some hi) (hlt : hi < n) (cells : List Cell)
    : indexOf (cell :: cells) n = (indexOf cells n).map (· + 1) := by
  have hout : ¬ cell.contains n = true := by
    rw [contains_iff]
    intro hin
    have := hin.2 hi hhi
    omega
  rw [indexOf, List.findIdx?_cons, if_neg hout, indexOf]

/-- Joining an interval to the one before it. -/
theorem Tiles.join {lo : Option ℤ} {i j : IntSpan} {is : List IntSpan} (h : Tiles lo (i :: j :: is))
    : Tiles lo ({ i with hi := j.hi } :: is) := by
  rcases h.tail with ⟨hi, rfl, hle, hrest⟩
  cases is with
  | nil =>
    rw [Tiles] at hrest
    rw [hrest]
    rfl
  | cons k is =>
    rcases hrest.tail with ⟨hi', rfl, hle', hrest'⟩
    refine ⟨hi', rfl, fun l hl => ?_, hrest'⟩
    have := hle l hl
    have := hle' _ rfl
    omega

/-- Where a cell of a join starts: the cell in hand goes on, or the observation changes there. -/
def Starts (f : ℤ → α) (lo : Option ℤ) (rep : ℤ) (k : ℕ) (cell : Cell) : Prop :=
  (k = 0 ∧ cell.lo = lo ∧ cell.rep = rep)
    ∨ (cell.lo = some cell.rep ∧ (∀ l ∈ lo, l < cell.rep) ∧ f (cell.rep - 1) ≠ f cell.rep)

theorem joinFrom_found {f : ℤ → α} {cell : Cell} {a : α} {is : List (IntSpan × α)} {lo : Option ℤ}
    (htiles : Tiles lo (cell.toIntSpan :: is.map Prod.fst)) (hcell : ∀ m, cell.contains m = true → f m = a)
    (his : ∀ p ∈ is, ∀ m, p.1.contains m = true → f m = p.2) {n : ℤ} (hn : ∀ l ∈ lo, l ≤ n)
    : ∃ k c, Found f (joinFrom cell a is) n k c ∧ Starts f lo cell.rep k c := by
  induction is generalizing cell a lo with
  | nil =>
    rw [List.map_nil, Tiles] at htiles
    have hmem : cell.contains n = true := by
      rw [htiles, contains_iff]
      exact ⟨hn, by simp⟩
    have hlo := congrArg IntSpan.lo htiles
    refine ⟨0, cell, ⟨rfl, fun m hm => indexOf_cons_of_contains hm [], hmem, fun m hm => ?_⟩, .inl ⟨rfl, hlo, rfl⟩⟩
    rw [hcell m hm, hcell n hmem]
  | cons p is ih =>
    rcases p with ⟨i, b⟩
    rw [List.forall_mem_cons] at his
    rw [List.map_cons] at htiles
    rw [joinFrom]
    rcases htiles.tail with ⟨hi, hwhole, hle, hrest⟩
    have hlo : cell.lo = lo := congrArg IntSpan.lo hwhole
    have hhi : cell.hi = some hi := congrArg IntSpan.hi hwhole
    have hilo : i.lo = some (hi + 1) := hrest.head.1
    split
    next hsame =>
      -- the cell in hand goes on
      refine @ih { cell with hi := i.hi } a lo htiles.join (fun m hm => ?_) his.2 hn
      rw [contains_iff] at hm
      by_cases hle : m ≤ hi
      . refine hcell m (contains_iff.mpr ⟨hm.1, ?_⟩)
        simpa [hhi] using hle
      . rw [← hsame]
        refine his.1 m (contains_iff.mpr ⟨?_, hm.2⟩)
        simp [hilo]
        omega
    next hchange =>
      by_cases hin : n ≤ hi
      . have hmem : cell.contains n = true := by
          rw [contains_iff, hlo, hhi]
          exact ⟨hn, by simpa using hin⟩
        refine ⟨0, cell, ⟨rfl, fun m hm => indexOf_cons_of_contains hm _, hmem, fun m hm => ?_⟩, .inl ⟨rfl, hlo, rfl⟩⟩
        rw [hcell m hm, hcell n hmem]
      . rcases @ih ⟨i, i.rep⟩ b (some (hi + 1)) hrest his.1 his.2 (by simp; omega) with ⟨k, c, hfound, hstarts⟩
        have hrep : (⟨i, i.rep⟩ : Cell).rep = hi + 1 := by
          rcases i with ⟨_ | l, _⟩
          . cases hilo
          . exact Option.some.inj hilo
        rw [hrep] at hstarts
        have hlater : c.lo = some c.rep ∧ hi < c.rep ∧ f (c.rep - 1) ≠ f c.rep := by
          rcases hstarts with ⟨_, hclo, hcrep⟩ | ⟨hclo, hlt, hne⟩
          . -- the cell after the one in hand, where the observation has just changed
            rw [hcrep]
            refine ⟨hclo, by omega, ?_⟩
            have hlast : cell.contains hi = true := by
              rw [contains_iff, hlo, hhi]
              exact ⟨hle, by simp⟩
            rw [Int.add_sub_cancel, hcell hi hlast, his.1 (hi + 1) (hrest.head.2 _ rfl)]
            exact Ne.symm hchange
          . have := hlt _ rfl
            exact ⟨hclo, by omega, hne⟩
        refine ⟨k + 1, c, ⟨?_, fun m hm => ?_, hfound.mem, hfound.same⟩, .inr ⟨hlater.1, fun l hl => ?_, hlater.2.2⟩⟩
        . rw [List.getElem?_cons_succ]
          exact hfound.get
        . have hm' := (contains_iff.mp hm).1 _ hlater.1
          rw [indexOf_cons_of_lt hhi (by omega), hfound.index m hm]
          rfl
        . have := hle l hl
          omega

/--
The lowest integer from which on the observation is what it is at `n`. Where there is none, as it is the same on
everything below, the integer before the least point stands for it.
-/
def Floor (f : ℤ → α) (least n w : ℤ) : Prop :=
  (w ≤ n ∧ (∀ u, w ≤ u → u ≤ n → f u = f n) ∧ f (w - 1) ≠ f n) ∨ ((∀ u, u ≤ n → f u = f n) ∧ w = least - 1)

omit [DecidableEq α] in
theorem Floor.unique {f : ℤ → α} {least n v w : ℤ} (hv : Floor f least n v) (hw : Floor f least n w)
    : v = w := by
  rcases hv with ⟨hvn, hvsame, hvne⟩ | ⟨hvsame, rfl⟩
  . rcases hw with ⟨hwn, hwsame, hwne⟩ | ⟨hwsame, rfl⟩
    . rcases Int.lt_trichotomy v w with hlt | heq | hgt
      . exact absurd (hvsame (w - 1) (by omega) (by omega)) hwne
      . exact heq
      . exact absurd (hwsame (v - 1) (by omega) (by omega)) hvne
    . exact absurd (hwsame (v - 1) (by omega)) hvne
  . rcases hw with ⟨hwn, hwsame, hwne⟩ | ⟨hwsame, rfl⟩
    . exact absurd (hvsame (w - 1) (by omega)) hwne
    . rfl

/-- The cells of a cut on whose intervals the observation does not change. -/
def cells (f : ℤ → α) (points : List ℤ) : List Cell :=
  join ((cutAt points).map fun i => (i, f i.rep))

variable {f : ℤ → α} {c : ℤ} {cs : List ℤ}

theorem cells_starts (hpairs : (c :: cs).Pairwise (· < ·))
    (huniform : ∀ i ∈ cutAt (c :: cs), ∀ m, i.contains m = true → f m = f i.rep) (n : ℤ)
    : ∃ k cell, Found f (cells f (c :: cs)) n k cell ∧ Starts f none (c - 1) k cell := by
  have htiles := tiles_cutAt hpairs
  rw [cutAt] at htiles huniform
  rw [List.forall_mem_cons] at huniform
  rw [cells, cutAt, List.map_cons, join]
  refine joinFrom_found ?_ huniform.1 (fun p hp m hm => ?_) (by simp)
  . rw [List.map_map]
    have hid : (Prod.fst ∘ fun i : IntSpan => (i, f i.rep)) = id := rfl
    rw [hid, List.map_id]
    exact htiles
  . rcases List.mem_map.mp hp with ⟨i, hi, rfl⟩
    exact huniform.2 i hi m hm

/-- Every integer is in one cell only, whose representative is in it and is the floor of all of it. -/
theorem cells_found (hpairs : (c :: cs).Pairwise (· < ·))
    (huniform : ∀ i ∈ cutAt (c :: cs), ∀ m, i.contains m = true → f m = f i.rep) (n : ℤ)
    : ∃ k cell, Found f (cells f (c :: cs)) n k cell ∧ cell.contains cell.rep = true ∧ Floor f c n cell.rep := by
  rcases cells_starts hpairs huniform n with ⟨k, cell, hfound, hstarts⟩
  refine ⟨k, cell, hfound, ?_⟩
  have hn := contains_iff.mp hfound.mem
  rcases hstarts with ⟨rfl, hlo, hrep⟩ | ⟨hlo, _, hne⟩
  . have hbelow (u : ℤ) (hu : u ≤ n) : cell.contains u = true := by
      rw [contains_iff, hlo]
      refine ⟨by simp, fun hi hhi => ?_⟩
      have := hn.2 hi hhi
      omega
    refine ⟨?_, .inr ⟨fun u hu => hfound.same u (hbelow u hu), hrep⟩⟩
    -- what is before the least point is in the first cell, as nothing changes up to there
    rcases cells_starts hpairs huniform (c - 1) with ⟨k', cell', hfound', hstarts'⟩
    rcases hstarts' with ⟨rfl, _, _⟩ | ⟨hlo', _, hne'⟩
    . have hsame := hfound.get.symm.trans hfound'.get
      rw [Option.some.injEq] at hsame
      rw [hrep, hsame]
      exact hfound'.mem
    . have hle := (contains_iff.mp hfound'.mem).1 _ hlo'
      have hfirst (u : ℤ) (hu : u ≤ c - 1) : f u = f (c - 1) := by
        have := huniform ⟨none, some (c - 1)⟩ (by rw [cutAt]; exact List.mem_cons_self) u
        exact this (contains_iff.mpr ⟨by simp, by simpa using hu⟩)
      refine absurd ?_ hne'
      rw [hfirst _ (by omega), hfirst _ hle]
  . have hlow := hn.1 _ hlo
    have hbetween (u : ℤ) (hu : cell.rep ≤ u) (hun : u ≤ n) : cell.contains u = true := by
      rw [contains_iff, hlo]
      refine ⟨by simpa using hu, fun hi hhi => ?_⟩
      have := hn.2 hi hhi
      omega
    have hrep := hbetween cell.rep (by omega) hlow
    refine ⟨hrep, .inl ⟨hlow, fun u hu hun => hfound.same u (hbetween u hu hun), ?_⟩⟩
    rw [← hfound.same _ hrep]
    exact hne

end

end IntSpan
