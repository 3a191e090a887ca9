import Mathlib.Algebra.BigOperators.Group.List.Basic
import Mathlib.Algebra.Order.BigOperators.Ring.List
import Mathlib.Data.List.Chain
import Mathlib.Data.List.Nodup
import Mathlib.Logic.Function.Iterate
import Mathlib.Tactic.Linarith

/-!
This module contains the reflected Gray code of a grid with any number of digits, and that it visits every cell once,
one unit step at a time.
-/

namespace Spiral

/-- One digit of the walk, and which way it turns. -/
structure Wheel where
  radix : ℤ
  digit : ℤ
  direction : ℤ

/-- One pass of the inner loop: the wheels after it, and whether one of them has moved. The last wheel turns first. -/
def advance : List Wheel → List Wheel × Bool
  | [] => ([], false)
  | wheel :: wheels =>
    let (wheels, moved) := advance wheels
    if moved then
      (wheel :: wheels, true)
    else
      let nd := wheel.digit + wheel.direction
      if 0 ≤ nd ∧ nd < wheel.radix then
        ({ wheel with digit := nd } :: wheels, true)
      else
        -- reflect this wheel, carry to the next more significant one
        ({ wheel with direction := -wheel.direction } :: wheels, false)

def turn (wheels : List Wheel) : List Wheel :=
  (advance wheels).1

def digits (wheels : List Wheel) : List ℤ :=
  wheels.map Wheel.digit

/-- The digits, and those after so many turns. -/
def walk : ℕ → List Wheel → List (List ℤ)
  | 0, wheels => [digits wheels]
  | n + 1, wheels => digits wheels :: walk n (turn wheels)

def startWheels (radices : List ℤ) : List Wheel :=
  radices.map fun radix => ⟨radix, 0, 1⟩

def mixedRadixGray (radices : List ℤ) : List (List ℤ) :=
  walk (radices.prod - 1).toNat (startWheels radices)

/- The place of a state in the sweep that it is in. -/

structure Wheel.Valid (wheel : Wheel) : Prop where
  lower : 0 ≤ wheel.digit
  upper : wheel.digit < wheel.radix
  direction : wheel.direction = 1 ∨ wheel.direction = -1

def Valid (wheels : List Wheel) : Prop :=
  ∀ wheel ∈ wheels, wheel.Valid

/-- How far a wheel has come from the end it started at. -/
def Wheel.index (wheel : Wheel) : ℤ :=
  if wheel.direction = 1 then wheel.digit else wheel.radix - 1 - wheel.digit

def total (wheels : List Wheel) : ℤ :=
  (wheels.map Wheel.radix).prod

def rank : List Wheel → ℤ
  | [] => 0
  | wheel :: wheels => wheel.index * total wheels + rank wheels

theorem total_cons (wheel : Wheel) (wheels : List Wheel)
    : total (wheel :: wheels) = wheel.radix * total wheels := by
  rw [total, List.map_cons, List.prod_cons, ← total]

theorem Wheel.Valid.index {wheel : Wheel} (h : wheel.Valid)
    : 0 ≤ wheel.index ∧ wheel.index < wheel.radix := by
  have hlower := h.lower
  have hupper := h.upper
  rw [Wheel.index]
  split <;> omega

theorem Valid.total_pos {wheels : List Wheel} (h : Valid wheels)
    : 0 < total wheels := by
  induction wheels with
  | nil => decide
  | cons wheel wheels ih =>
    rw [Valid, List.forall_mem_cons] at h
    have hradix := h.1.lower.trans_lt h.1.upper
    rw [total_cons]
    exact mul_pos hradix (ih h.2)

theorem Valid.rank {wheels : List Wheel} (h : Valid wheels)
    : 0 ≤ rank wheels ∧ rank wheels < total wheels := by
  induction wheels with
  | nil => decide
  | cons wheel wheels ih =>
    rw [Valid, List.forall_mem_cons] at h
    rcases ih h.2 with ⟨hlower, hupper⟩
    rcases h.1.index with ⟨hzero, hradix⟩
    have htotal := Valid.total_pos h.2
    rw [Spiral.rank, total_cons]
    constructor
    . positivity
    . have hstep : (wheel.index + 1) * total wheels ≤ wheel.radix * total wheels :=
        Int.mul_le_mul_of_nonneg_right (by omega) htotal.le
      rw [Int.add_mul, Int.one_mul] at hstep
      omega

/- One turn. -/

/-- The two vectors differ by one in one digit. -/
def UnitStep (xs ys : List ℤ) : Prop :=
  ∃ init x y rest, xs = init ++ x :: rest ∧ ys = init ++ y :: rest ∧ |x - y| = 1

theorem UnitStep.cons (d : ℤ) {xs ys : List ℤ} (h : UnitStep xs ys)
    : UnitStep (d :: xs) (d :: ys) := by
  rcases h with ⟨init, x, y, rest, rfl, rfl, hone⟩
  exact ⟨d :: init, x, y, rest, rfl, rfl, hone⟩

theorem Wheel.Valid.moves_iff {wheel : Wheel} (h : wheel.Valid)
    : (0 ≤ wheel.digit + wheel.direction ∧ wheel.digit + wheel.direction < wheel.radix)
        ↔ wheel.index + 1 < wheel.radix := by
  have hlower := h.lower
  have hupper := h.upper
  rw [Wheel.index]
  rcases h.direction with hdir | hdir <;> rw [hdir] <;> simp <;> omega

/-- What a turn does: a step inside the sweep, or the turning round at its end. -/
structure Turned (wheels : List Wheel) : Prop where
  valid : Valid (turn wheels)
  radices : (turn wheels).map Wheel.radix = wheels.map Wheel.radix
  inside : rank wheels + 1 < total wheels → (advance wheels).2 = true ∧ rank (turn wheels) = rank wheels + 1
    ∧ UnitStep (digits wheels) (digits (turn wheels))
  atEnd : rank wheels + 1 = total wheels → (advance wheels).2 = false ∧ rank (turn wheels) = 0
    ∧ digits (turn wheels) = digits wheels

section

variable {wheel : Wheel} {wheels : List Wheel}

theorem advance_moved (h : (advance wheels).2 = true)
    : advance (wheel :: wheels) = (wheel :: turn wheels, true) := by
  rw [advance]
  dsimp only
  rw [if_pos h, turn]

theorem advance_step (h : (advance wheels).2 = false)
    (hmoves : 0 ≤ wheel.digit + wheel.direction ∧ wheel.digit + wheel.direction < wheel.radix)
    : advance (wheel :: wheels) = ({ wheel with digit := wheel.digit + wheel.direction } :: turn wheels, true) := by
  rw [advance]
  dsimp only
  rw [h, if_neg Bool.false_ne_true, if_pos hmoves, turn]

theorem advance_reflect (h : (advance wheels).2 = false)
    (hmoves : ¬ (0 ≤ wheel.digit + wheel.direction ∧ wheel.digit + wheel.direction < wheel.radix))
    : advance (wheel :: wheels) = ({ wheel with direction := -wheel.direction } :: turn wheels, false) := by
  rw [advance]
  dsimp only
  rw [h, if_neg Bool.false_ne_true, if_neg hmoves, turn]

theorem total_turn (h : (turn wheels).map Wheel.radix = wheels.map Wheel.radix)
    : total (turn wheels) = total wheels := by
  rw [total, h, total]

theorem Wheel.Valid.index_step (h : wheel.Valid)
    : Wheel.index { wheel with digit := wheel.digit + wheel.direction } = wheel.index + 1 := by
  unfold Wheel.index
  rcases h.direction with hdir | hdir <;> rw [hdir] <;> simp
  omega

theorem Wheel.Valid.index_reflect (h : wheel.Valid) (hend : wheel.index + 1 = wheel.radix)
    : Wheel.index { wheel with direction := -wheel.direction } = 0 := by
  unfold Wheel.index at *
  rcases h.direction with hdir | hdir
  . rw [hdir] at hend ⊢
    simp at hend ⊢
    omega
  . rw [hdir] at hend ⊢
    simp at hend ⊢
    omega

end

theorem turned {wheels : List Wheel} (h : Valid wheels)
    : Turned wheels := by
  induction wheels with
  | nil => exact ⟨h, rfl, fun hlt => absurd hlt (by decide), fun _ => ⟨rfl, rfl, rfl⟩⟩
  | cons wheel wheels ih =>
    rw [Valid, List.forall_mem_cons] at h
    have hrest := ih h.2
    have hrank := Valid.rank h.2
    have hindex := h.1.index
    have htotal := total_turn hrest.radices
    have hcons : rank (wheel :: wheels) = wheel.index * total wheels + rank wheels := rfl
    by_cases hinside : rank wheels + 1 < total wheels
    . -- a wheel after this one moves
      rcases hrest.inside hinside with ⟨hmoved, hnext, hstep⟩
      have hadvance := @advance_moved wheel wheels hmoved
      have hturn : turn (wheel :: wheels) = wheel :: turn wheels := by rw [turn, hadvance]
      have hbound : (wheel.index + 1) * total wheels ≤ wheel.radix * total wheels :=
        Int.mul_le_mul_of_nonneg_right (by omega) (by omega)
      rw [Int.add_mul, Int.one_mul] at hbound
      refine ⟨?_, ?_, fun _ => ⟨?_, ?_, ?_⟩, fun hend => ?_⟩
      . rw [hturn]
        exact List.forall_mem_cons.mpr ⟨h.1, hrest.valid⟩
      . rw [hturn, List.map_cons, hrest.radices, List.map_cons]
      . rw [hadvance]
      . rw [hturn, rank, hnext, htotal, hcons]
        omega
      . rw [hturn, digits, List.map_cons, digits, List.map_cons]
        exact hstep.cons _
      . rw [hcons, total_cons] at hend
        omega
    . rcases hrest.atEnd (by omega) with ⟨hmoved, hnext, hdigits⟩
      by_cases hmoves : 0 ≤ wheel.digit + wheel.direction ∧ wheel.digit + wheel.direction < wheel.radix
      . -- this wheel moves, those after it have turned round
        have hadvance := advance_step hmoved hmoves
        have hturn : turn (wheel :: wheels)
            = { wheel with digit := wheel.digit + wheel.direction } :: turn wheels := by rw [turn, hadvance]
        have hlt := h.1.moves_iff.mp hmoves
        have hbound : (wheel.index + 1 + 1) * total wheels ≤ wheel.radix * total wheels :=
          Int.mul_le_mul_of_nonneg_right (by omega) (by omega)
        rw [Int.add_mul, Int.add_mul, Int.one_mul] at hbound
        refine ⟨?_, ?_, fun _ => ⟨?_, ?_, ?_⟩, fun hend => ?_⟩
        . rw [hturn]
          exact List.forall_mem_cons.mpr ⟨⟨hmoves.1, hmoves.2, h.1.direction⟩, hrest.valid⟩
        . rw [hturn, List.map_cons, hrest.radices, List.map_cons]
        . rw [hadvance]
        . rw [hturn, rank, hnext, htotal, h.1.index_step, hcons, Int.add_mul, Int.one_mul]
          omega
        . rw [hturn, digits, List.map_cons, digits, List.map_cons, ← digits, ← digits, hdigits]
          refine ⟨[], wheel.digit, wheel.digit + wheel.direction, digits wheels, rfl, rfl, ?_⟩
          rcases h.1.direction with hdir | hdir <;> rw [hdir] <;> simp
        . rw [hcons, total_cons] at hend
          omega
      . -- the sweep of all of them is over
        have hadvance := advance_reflect hmoved hmoves
        have hturn : turn (wheel :: wheels)
            = { wheel with direction := -wheel.direction } :: turn wheels := by rw [turn, hadvance]
        have hend : wheel.index + 1 = wheel.radix := by
          have := h.1.moves_iff.not.mp hmoves
          omega
        have hlast : rank (wheel :: wheels) + 1 = total (wheel :: wheels) := by
          rw [hcons, total_cons, ← hend, Int.add_mul, Int.one_mul]
          omega
        refine ⟨?_, ?_, fun hlt => absurd hlt (by omega), fun _ => ⟨?_, ?_, ?_⟩⟩
        . rw [hturn]
          refine List.forall_mem_cons.mpr ⟨⟨h.1.lower, h.1.upper, ?_⟩, hrest.valid⟩
          rcases h.1.direction with hdir | hdir <;> rw [hdir] <;> simp
        . rw [hturn, List.map_cons, hrest.radices, List.map_cons]
        . rw [hadvance]
        . rw [hturn, rank, hnext, h.1.index_reflect hend, Int.zero_mul, Int.zero_add]
        . rw [hturn, digits, List.map_cons, digits, List.map_cons, ← digits, ← digits, hdigits]

/- Turn after turn. -/

theorem Valid.iterate {wheels : List Wheel} (h : Valid wheels) (t : ℕ)
    : Valid (turn^[t] wheels) ∧ total (turn^[t] wheels) = total wheels
        ∧ (turn^[t] wheels).map Wheel.radix = wheels.map Wheel.radix := by
  induction t with
  | zero => exact ⟨h, rfl, rfl⟩
  | succ t ih =>
    have hturned := turned ih.1
    rw [Function.iterate_succ_apply']
    exact ⟨hturned.valid, (total_turn hturned.radices).trans ih.2.1, hturned.radices.trans ih.2.2⟩

theorem emod_succ {t n : ℤ} (hn : 0 < n)
    : (t + 1) % n = if t % n + 1 < n then t % n + 1 else 0 := by
  have hdiv := Int.emod_add_mul_ediv t n
  have hlt := Int.emod_lt_of_pos t hn
  have hnonneg := Int.emod_nonneg t hn.ne'
  split
  next hinside =>
    have hsum : t + 1 = t % n + 1 + n * (t / n) := by omega
    conv_lhs => rw [hsum]
    rw [Int.add_mul_emod_self_left, Int.emod_eq_of_lt (by omega) hinside]
  next hend =>
    have hsum : t + 1 = n * (t / n + 1) := by
      rw [Int.mul_add, Int.mul_one]
      omega
    rw [hsum, Int.mul_emod_right]

theorem Valid.rank_iterate {wheels : List Wheel} (h : Valid wheels) (hstart : Spiral.rank wheels = 0) (t : ℕ)
    : Spiral.rank (turn^[t] wheels) = t % total wheels := by
  have htotal := h.total_pos
  induction t with
  | zero => rw [Function.iterate_zero_apply, hstart, Nat.cast_zero, Int.zero_emod]
  | succ t ih =>
    rcases h.iterate t with ⟨hvalid, hsame, _⟩
    have hturned := turned hvalid
    have hrank := hvalid.rank
    rw [Function.iterate_succ_apply', Nat.cast_add, Nat.cast_one, emod_succ htotal, ← ih]
    rw [hsame] at hrank
    split
    next hinside => exact (hturned.inside (by omega)).2.1
    next hend => exact (hturned.atEnd (by omega)).2.1

theorem turn_cons {wheel : Wheel} {wheels : List Wheel} (h : (advance (wheel :: wheels)).2 = true)
    : ∃ wheel', turn (wheel :: wheels) = wheel' :: turn wheels ∧ wheel'.radix = wheel.radix
        ∧ wheel'.direction = wheel.direction := by
  rw [turn]
  cases hmoved : (advance wheels).2 with
  | true =>
    rw [advance_moved hmoved]
    exact ⟨wheel, rfl, rfl, rfl⟩
  | false =>
    by_cases hmoves : 0 ≤ wheel.digit + wheel.direction ∧ wheel.digit + wheel.direction < wheel.radix
    . rw [advance_step hmoved hmoves]
      exact ⟨_, rfl, rfl, rfl⟩
    . rw [advance_reflect hmoved hmoves] at h
      cases h

/-- At the start of a sweep every wheel is where it started, and so are the wheels after the first. -/
theorem rank_cons_eq_zero {wheel : Wheel} {wheels : List Wheel} (h : Valid (wheel :: wheels))
    (hstart : rank (wheel :: wheels) = 0)
    : wheel.index = 0 ∧ rank wheels = 0 := by
  rw [Valid, List.forall_mem_cons] at h
  have hrest := Valid.rank h.2
  have hindex := h.1.index.1
  rw [rank] at hstart
  have hproduct : 0 ≤ wheel.index * total wheels := mul_nonneg hindex (by omega)
  have hzero : wheel.index * total wheels = 0 := by omega
  rcases mul_eq_zero.mp hzero with hindex | htotal
  . exact ⟨hindex, by omega⟩
  . omega

/-- Inside a sweep the first wheel has turned once for every sweep of the others. -/
theorem iterate_cons {wheel : Wheel} {wheels : List Wheel} (h : Valid (wheel :: wheels))
    (hstart : rank (wheel :: wheels) = 0) {t : ℕ} (ht : t < total (wheel :: wheels))
    : ∃ wheel', turn^[t] (wheel :: wheels) = wheel' :: turn^[t] wheels ∧ wheel'.radix = wheel.radix
        ∧ wheel'.direction = wheel.direction ∧ wheel'.index = t / total wheels := by
  have hvalid := (List.forall_mem_cons.mp h).2
  have htotal : 0 < total wheels := Valid.total_pos hvalid
  have hshape : ∃ wheel', turn^[t] (wheel :: wheels) = wheel' :: turn^[t] wheels ∧ wheel'.radix = wheel.radix
      ∧ wheel'.direction = wheel.direction := by
    induction t with
    | zero => exact ⟨wheel, rfl, rfl, rfl⟩
    | succ t ih =>
      rw [Nat.cast_add, Nat.cast_one] at ht
      rcases ih (by omega) with ⟨wheel', hturn, hradix, hdirection⟩
      rcases h.iterate t with ⟨hvalid', hsame, _⟩
      have hrank := h.rank_iterate hstart t
      rw [Int.emod_eq_of_lt (by omega) (by omega)] at hrank
      have hmoved := ((turned hvalid').inside (by omega)).1
      rw [hturn] at hmoved
      rcases turn_cons hmoved with ⟨wheel'', hnext, hradix', hdirection'⟩
      rw [Function.iterate_succ_apply', Function.iterate_succ_apply', hturn]
      exact ⟨wheel'', hnext, hradix'.trans hradix, hdirection'.trans hdirection⟩
  rcases hshape with ⟨wheel', hturn, hradix, hdirection⟩
  refine ⟨wheel', hturn, hradix, hdirection, ?_⟩
  have hrank := h.rank_iterate hstart t
  rw [Int.emod_eq_of_lt (by omega) ht, hturn, rank, (Valid.iterate hvalid t).2.1,
    Valid.rank_iterate hvalid (rank_cons_eq_zero h hstart).2 t] at hrank
  have hdiv := Int.emod_add_mul_ediv t (total wheels)
  have hproduct : wheel'.index * total wheels = t / total wheels * total wheels := by
    rw [Int.mul_comm (_ / _)]
    omega
  exact Int.eq_of_mul_eq_mul_right htotal.ne' hproduct

theorem length_iterate {wheels : List Wheel} (h : Valid wheels) (t : ℕ)
    : (turn^[t] wheels).length = wheels.length := by
  have hradices := congrArg List.length (h.iterate t).2.2
  rwa [List.length_map, List.length_map] at hradices

/-- A turn count, as whole sweeps and the turns after them. -/
theorem iterate_sweeps {wheels : List Wheel} (h : Valid wheels) (hstart : rank wheels = 0) (k a : ℕ)
    : turn^[a + (total wheels).toNat * k] wheels = turn^[a] (turn^[(total wheels).toNat * k] wheels)
        ∧ Valid (turn^[(total wheels).toNat * k] wheels) ∧ rank (turn^[(total wheels).toNat * k] wheels) = 0
        ∧ total (turn^[(total wheels).toNat * k] wheels) = total wheels
        ∧ (turn^[(total wheels).toNat * k] wheels).map Wheel.radix = wheels.map Wheel.radix := by
  have htotal := h.total_pos
  rcases h.iterate ((total wheels).toNat * k) with ⟨hvalid, hsame, hradices⟩
  refine ⟨Function.iterate_add_apply _ _ _ _, hvalid, ?_, hsame, hradices⟩
  rw [h.rank_iterate hstart, Nat.cast_mul, Int.toNat_of_nonneg htotal.le, Int.mul_emod_right]

/-- No digits come up twice in a sweep. -/
theorem digits_injective {wheels : List Wheel} (h : Valid wheels) (hstart : rank wheels = 0) {a b : ℕ}
    (ha : a < total wheels) (hb : b < total wheels) (heq : digits (turn^[a] wheels) = digits (turn^[b] wheels))
    : a = b := by
  -- by length, as the other wheels are somewhere else in their next sweep
  induction hn : wheels.length generalizing wheels a b with
  | zero =>
    rw [List.length_eq_zero_iff.mp hn, total, List.map_nil, List.prod_nil] at ha hb
    omega
  | succ n ih =>
    rcases List.exists_cons_of_length_eq_add_one hn with ⟨wheel, wheels, rfl⟩
    have hvalid : Valid wheels := (List.forall_mem_cons.mp h).2
    have htotal := hvalid.total_pos
    have hrest := (rank_cons_eq_zero h hstart).2
    rcases iterate_cons h hstart ha with ⟨wheelA, hturnA, hradixA, hdirectionA, hindexA⟩
    rcases iterate_cons h hstart hb with ⟨wheelB, hturnB, hradixB, hdirectionB, hindexB⟩
    rw [hturnA, hturnB, digits, digits, List.map_cons, List.map_cons, List.cons.injEq] at heq
    rcases heq with ⟨hdigit, htail⟩
    -- the first digits agree, so both are in the same sweep of the other wheels
    have hindex : wheelA.index = wheelB.index := by
      rw [Wheel.index, Wheel.index, hdigit, hradixA, hradixB, hdirectionA, hdirectionB]
    have hsweep : a / (total wheels).toNat = b / (total wheels).toNat := by
      zify
      rw [Int.toNat_of_nonneg htotal.le, ← hindexA, ← hindexB, hindex]
    have hsplitA := Nat.mod_add_div a (total wheels).toNat
    have hsplitB := Nat.mod_add_div b (total wheels).toNat
    rw [← hsweep] at hsplitB
    rcases iterate_sweeps hvalid hrest (a / (total wheels).toNat) (a % (total wheels).toNat)
      with ⟨hfirst, hvalid', hrest', htotal', _⟩
    have hsecond := (iterate_sweeps hvalid hrest (a / (total wheels).toNat) (b % (total wheels).toNat)).1
    rw [hsplitA] at hfirst
    rw [hsplitB] at hsecond
    rw [hfirst, hsecond] at htail
    have hmodA := Nat.mod_lt a (show 0 < (total wheels).toNat by omega)
    have hmodB := Nat.mod_lt b (show 0 < (total wheels).toNat by omega)
    have hlength := length_iterate hvalid ((total wheels).toNat * (a / (total wheels).toNat))
    rw [List.length_cons] at hn
    have hmod := ih hvalid' hrest' (by omega) (by omega) htail (by omega)
    omega

/-- A digit vector of the grid: each digit is below its radix. -/
def InGrid (radices ds : List ℤ) : Prop :=
  List.Forall₂ (fun d radix => 0 ≤ d ∧ d < radix) ds radices

theorem Valid.inGrid {wheels : List Wheel} (h : Valid wheels)
    : InGrid (wheels.map Wheel.radix) (digits wheels) := by
  induction wheels with
  | nil => exact List.Forall₂.nil
  | cons wheel wheels ih =>
    rw [Valid, List.forall_mem_cons] at h
    exact List.Forall₂.cons ⟨h.1.lower, h.1.upper⟩ (ih h.2)

theorem Wheel.digit_eq_of_index {wheel wheel' : Wheel} (hradix : wheel.radix = wheel'.radix)
    (hdirection : wheel.direction = wheel'.direction) (hindex : wheel.index = wheel'.index)
    : wheel.digit = wheel'.digit := by
  rw [Wheel.index, Wheel.index, hradix, hdirection] at hindex
  split at hindex <;> omega

/-- Every digit vector of the grid comes up in a sweep. -/
theorem digits_surjective {wheels : List Wheel} (h : Valid wheels) (hstart : rank wheels = 0) {ds : List ℤ}
    (hds : InGrid (wheels.map Wheel.radix) ds)
    : ∃ t : ℕ, t < total wheels ∧ digits (turn^[t] wheels) = ds := by
  induction hn : wheels.length generalizing wheels ds with
  | zero =>
    rw [List.length_eq_zero_iff.mp hn] at hds ⊢
    cases hds
    exact ⟨0, by decide, rfl⟩
  | succ n ih =>
    rcases List.exists_cons_of_length_eq_add_one hn with ⟨wheel, wheels, rfl⟩
    rw [List.map_cons, InGrid] at hds
    rcases hds with _ | ⟨hd, htail⟩
    next d ds =>
    have hwheel := (List.forall_mem_cons.mp h).1
    have hvalid : Valid wheels := (List.forall_mem_cons.mp h).2
    have htotal := hvalid.total_pos
    -- the sweep of the other wheels in which the first digit is `d`
    have hthere : Wheel.Valid { wheel with digit := d } := ⟨hd.1, hd.2, hwheel.direction⟩
    rcases hthere.index with ⟨hlower, hupper⟩
    generalize hk : (Wheel.index { wheel with digit := d }).toNat = k
    have hindex : Wheel.index { wheel with digit := d } = k := by omega
    rcases iterate_sweeps hvalid (rank_cons_eq_zero h hstart).2 k 0 with ⟨_, hvalid', hrest', htotal', hradices'⟩
    have hlength := length_iterate hvalid ((total wheels).toNat * k)
    rw [List.length_cons] at hn
    rw [← hradices'] at htail
    rcases ih hvalid' hrest' htail (by omega) with ⟨a, ha, hdigits⟩
    rw [htotal'] at ha
    have hsum : ((a + (total wheels).toNat * k : ℕ) : ℤ) = a + total wheels * k := by
      rw [Nat.cast_add, Nat.cast_mul, Int.toNat_of_nonneg htotal.le]
    have hlast : (k + 1 : ℤ) * total wheels ≤ wheel.radix * total wheels :=
      Int.mul_le_mul_of_nonneg_right (by rw [← hindex]; exact hupper) htotal.le
    have hbound : ((a + (total wheels).toNat * k : ℕ) : ℤ) < total (wheel :: wheels) := by
      rw [Int.add_mul, Int.one_mul, Int.mul_comm] at hlast
      rw [hsum, total_cons]
      omega
    refine ⟨a + (total wheels).toNat * k, hbound, ?_⟩
    rcases iterate_cons h hstart hbound with ⟨wheel', hturn, hradix, hdirection, hindex'⟩
    rw [hsum, Int.add_mul_ediv_left _ _ htotal.ne', Int.ediv_eq_zero_of_lt (by omega) ha, Int.zero_add, ← hindex]
      at hindex'
    rw [hturn, digits, List.map_cons, @Wheel.digit_eq_of_index wheel' { wheel with digit := d } hradix hdirection hindex',
      (iterate_sweeps hvalid (rank_cons_eq_zero h hstart).2 k a).1]
    exact congrArg (d :: ·) hdigits

/- The whole walk. -/

theorem walk_eq (n : ℕ) (wheels : List Wheel)
    : walk n wheels = (List.range (n + 1)).map fun t => digits (turn^[t] wheels) := by
  induction n generalizing wheels with
  | zero => rfl
  | succ n ih =>
    rw [walk, ih, @List.range_succ_eq_map (n + 1), List.map_cons, List.map_map]
    rfl

theorem walk_isChain {n : ℕ} {wheels : List Wheel} (h : Valid wheels) (hn : rank wheels + n < total wheels)
    : (walk n wheels).IsChain UnitStep := by
  induction n generalizing wheels with
  | zero => exact List.isChain_singleton _
  | succ n ih =>
    rw [Nat.cast_add, Nat.cast_one] at hn
    have hturned := turned h
    rcases hturned.inside (by omega) with ⟨_, hrank, hstep⟩
    have hrest := ih hturned.valid (by rw [hrank, total_turn hturned.radices]; omega)
    rw [walk]
    cases n with
    | zero => exact List.isChain_pair.mpr hstep
    | succ n => exact List.isChain_cons_cons.mpr ⟨hstep, hrest⟩

section

variable {radices : List ℤ}

theorem startWheels_radices
    : (startWheels radices).map Wheel.radix = radices := by
  rw [startWheels, List.map_map]
  exact List.map_id radices

theorem startWheels_valid (h : ∀ radix ∈ radices, 1 ≤ radix)
    : Valid (startWheels radices) := by
  intro wheel hmem
  rcases List.mem_map.mp hmem with ⟨radix, hradix, rfl⟩
  have hone := h radix hradix
  exact ⟨Int.le_refl 0, by dsimp only; omega, Or.inl rfl⟩

theorem startWheels_rank
    : rank (startWheels radices) = 0 := by
  induction radices with
  | nil => rfl
  | cons radix radices ih =>
    rw [startWheels, List.map_cons, rank, ← startWheels, ih, Int.add_zero]
    exact Int.zero_mul _

theorem startWheels_total
    : total (startWheels radices) = radices.prod := by
  rw [total, startWheels_radices]

/--
The walk over a grid passes through each of its cells exactly once, and from one cell to the next it moves one digit by
one.
-/
theorem mixedRadixGray_hamiltonian (h : ∀ radix ∈ radices, 1 ≤ radix)
    : (mixedRadixGray radices).Nodup ∧ (∀ ds, ds ∈ mixedRadixGray radices ↔ InGrid radices ds)
        ∧ (mixedRadixGray radices).IsChain UnitStep := by
  have hvalid := startWheels_valid h
  have hstart := @startWheels_rank radices
  have htotal := hvalid.total_pos
  have hprod := @startWheels_total radices
  rw [mixedRadixGray]
  refine ⟨?_, fun ds => ⟨fun hmem => ?_, fun hds => ?_⟩, ?_⟩
  . rw [walk_eq]
    refine List.Nodup.map_on (fun a ha b hb heq => ?_) List.nodup_range
    rw [List.mem_range] at ha hb
    exact digits_injective hvalid hstart (by omega) (by omega) heq
  . rw [walk_eq] at hmem
    rcases List.mem_map.mp hmem with ⟨t, _, rfl⟩
    rcases hvalid.iterate t with ⟨hthere, _, hradices⟩
    have hin := hthere.inGrid
    rwa [hradices, startWheels_radices] at hin
  . rw [← @startWheels_radices radices] at hds
    rcases digits_surjective hvalid hstart hds with ⟨t, ht, rfl⟩
    rw [walk_eq]
    exact List.mem_map.mpr ⟨t, List.mem_range.mpr (by omega), rfl⟩
  . exact walk_isChain hvalid (by omega)

end

theorem mixedRadixGray_hamiltonian_mixed
    : mixedRadixGray [2, 3] = [[0, 0], [0, 1], [0, 2], [1, 2], [1, 1], [1, 0]]
        ∧ (mixedRadixGray [2, 3]).IsChain UnitStep :=
  ⟨by with_unfolding_all decide, (mixedRadixGray_hamiltonian (by decide)).2.2⟩

end Spiral
