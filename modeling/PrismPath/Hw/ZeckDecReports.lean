import PrismPath.Hw.ZeckCodec
import PrismPath.Telemetry.FibonacciWire

/-!
This module contains what the decoder circuit reports of the codes in a serial stream, and of which of them it reports
the value or an error.
-/

open Fibonacci Zeckendorf

namespace ZeckCodec

namespace Dec

/-- What is reported when a code ends: the value, and whether the error flag was up during the code. -/
structure Report where
  value : BitVec 32
  flagged : Bool
  deriving DecidableEq

/-- The reports of a run, with the flag of the code that was begun. -/
def reports : List Serial → Regs → (flagged : Bool) → List Report
  | [], _, _ => []
  | x :: xs, s, flagged =>
    let s := clock false x s
    let flagged := flagged || s.err
    if s.outValid then ⟨s.outVal, flagged⟩ :: reports xs s false else reports xs s flagged

/-- The bits of the line, without the cycles that carry none. -/
def carried (xs : List Serial) : List Bool :=
  xs.filterMap fun x => if x.inValid then some x.inBit else none

/-- A report of a code says its value, or that there was an error. -/
def Right (report : Report) (ds : List Bool) : Prop :=
  report.flagged = true ∨ decode (ds.reverse ++ [true]) = .ok report.value.toNat

/-- A one of the code stands where the index, of six bits, is beyond the ROM. -/
def Beyond (ds : List Bool) : Prop :=
  ∃ p, ds.reverse[p]? = some true ∧ 45 ≤ p % 64

/-- The ones of the code stand where the ROM has a number. -/
def Within (ds : List Bool) : Prop :=
  ∀ p, ds.reverse[p]? = some true → p < 45

/- Where the ones are. -/

theorem getElem?_reverse_cons (bit : Bool) (code : List Bool) (p : ℕ)
    : (bit :: code).reverse[p]? = some true ↔ code.reverse[p]? = some true ∨ (p = code.length ∧ bit = true) := by
  rw [List.reverse_cons, List.getElem?_append, List.length_reverse]
  split
  . next hlt =>
    constructor
    . exact .inl
    . rintro (h | ⟨rfl, _⟩)
      . exact h
      . omega
  . next hge =>
    have hnone : code.reverse[p]? = none := by
      rw [List.getElem?_eq_none_iff, List.length_reverse]
      omega
    rw [hnone]
    by_cases hp : p = code.length
    . subst hp
      simp
    . have hpos : 0 < p - code.length := by omega
      rcases Nat.exists_eq_succ_of_ne_zero (Nat.ne_of_gt hpos) with ⟨q, hq⟩
      rw [hq]
      simp [hp]

theorem beyond_cons (bit : Bool) (code : List Bool)
    : Beyond (bit :: code) ↔ Beyond code ∨ (bit = true ∧ 45 ≤ code.length % 64) := by
  unfold Beyond
  constructor
  . rintro ⟨p, hp, hmod⟩
    rcases (getElem?_reverse_cons bit code p).mp hp with hp | ⟨rfl, hbit⟩
    . exact .inl ⟨p, hp, hmod⟩
    . exact .inr ⟨hbit, hmod⟩
  . rintro (⟨p, hp, hmod⟩ | ⟨hbit, hmod⟩)
    . exact ⟨p, (getElem?_reverse_cons bit code p).mpr (.inl hp), hmod⟩
    . exact ⟨code.length, (getElem?_reverse_cons bit code _).mpr (.inr ⟨rfl, hbit⟩), hmod⟩

theorem within_cons (bit : Bool) (code : List Bool)
    : Within (bit :: code) ↔ Within code ∧ (bit = true → code.length < 45) := by
  unfold Within
  constructor
  . intro h
    refine ⟨?_, ?_⟩
    . intro p hp
      exact h p ((getElem?_reverse_cons bit code p).mpr (.inl hp))
    . intro hbit
      exact h code.length ((getElem?_reverse_cons bit code _).mpr (.inr ⟨rfl, hbit⟩))
  . rintro ⟨hcode, hlast⟩ p hp
    rcases (getElem?_reverse_cons bit code p).mp hp with hp | ⟨rfl, hbit⟩
    . exact hcode p hp
    . exact hlast hbit

/-- A one adds its Fibonacci number to the value. -/
theorem fib_le_weight {ds : List Bool} {p : ℕ} (h : ds.reverse[p]? = some true)
    : Nat.fib (p + 2) ≤ weight ds := by
  induction ds with
  | nil => simp at h
  | cons bit ds ih =>
    rcases (getElem?_reverse_cons bit ds p).mp h with hp | ⟨rfl, rfl⟩
    . exact Nat.le_trans (ih hp) (weight_le_cons bit ds)
    . rw [weight_true]
      omega

/- A run. -/

/-- What the decoder holds after the bits of a code that was begun, the last one first. -/
structure Holds (s : Regs) (flagged : Bool) (code : List Bool) : Prop where
  sparse : Sparse code
  i_eq : s.i = BitVec.ofNat 6 code.length
  prev_eq : s.prev = true ↔ code.head? = some true
  flagged_iff : flagged = true ↔ Beyond code
  acc_eq : Within code → s.acc.toNat = weight code

theorem holds_reset (s : Regs) (x : Serial)
    : Holds (clock true x s) false [] where
  sparse := sparse_nil
  i_eq := rfl
  prev_eq := by simp [clock]
  flagged_iff := by simp [Beyond]
  acc_eq _ := rfl

section

variable {s : Regs} {flagged : Bool} {code : List Bool}

/-- A cycle that carries no bit. -/
theorem Holds.gap (h : Holds s flagged code) (b : Bool)
    : (clock false ⟨false, b⟩ s).outValid = false
        ∧ Holds (clock false ⟨false, b⟩ s) (flagged || (clock false ⟨false, b⟩ s).err) code := by
  refine ⟨rfl, h.sparse, h.i_eq, h.prev_eq, ?_, h.acc_eq⟩
  rw [← h.flagged_iff]
  simp [clock]

/-- A bit that ends the code. -/
theorem Holds.terminator (h : Holds s flagged code) (hhead : code.head? = some true)
    : clock false ⟨true, true⟩ s
        = { s with outVal := s.acc, outValid := true, err := false, acc := 0, i := 0, prev := false } := by
  have hprev : s.prev = true := h.prev_eq.mpr hhead
  unfold clock
  simp [hprev]

theorem holds_ended (s : Regs)
    : Holds { s with outVal := s.acc, outValid := true, err := false, acc := 0, i := 0, prev := false } false [] where
  sparse := sparse_nil
  i_eq := rfl
  prev_eq := by simp
  flagged_iff := by simp [Beyond]
  acc_eq _ := rfl

/-- A bit of the code. -/
theorem Holds.bit (h : Holds s flagged code) {b : Bool} (hend : ¬(b = true ∧ code.head? = some true))
    : (clock false ⟨true, b⟩ s).outValid = false
        ∧ Holds (clock false ⟨true, b⟩ s) (flagged || (clock false ⟨true, b⟩ s).err) (b :: code) := by
  have hindex : s.i < nfib ↔ ¬45 ≤ code.length % 64 := by
    rw [h.i_eq]
    unfold nfib
    bv_omega
  have hnext : s.i + 1 = BitVec.ofNat 6 (b :: code).length := by
    rw [h.i_eq, List.length_cons]
    bv_omega
  cases b with
  | false =>
    have hclock : clock false ⟨true, false⟩ s
        = { s with outValid := false, err := false, prev := false, i := s.i + 1 } := by
      simp [clock]
    rw [hclock]
    refine ⟨rfl, h.sparse.cons_false, hnext, by simp, ?_, ?_⟩
    . rw [Bool.or_false, h.flagged_iff, beyond_cons]
      simp
    . intro hwithin
      rw [weight_false]
      exact h.acc_eq ((within_cons false code).mp hwithin).1
  | true =>
    have hhead : code.head? ≠ some true := fun hhead => hend ⟨rfl, hhead⟩
    have hsparse := sparse_cons_true h.sparse hhead
    have hprev : s.prev = false := by
      rw [← Bool.not_eq_true, h.prev_eq]
      exact hhead
    by_cases hrom : s.i < nfib
    . have hclock : clock false ⟨true, true⟩ s
          = { s with outValid := false, err := false, acc := s.acc + fib s.i, prev := true, i := s.i + 1 } := by
        simp [clock, hprev, hrom]
      rw [hclock]
      refine ⟨rfl, hsparse, hnext, by simp, ?_, ?_⟩
      . rw [Bool.or_false, h.flagged_iff, beyond_cons]
        have := hindex.mp hrom
        simp [this]
      . intro hwithin
        rcases (within_cons true code).mp hwithin with ⟨hcode, hlast⟩
        have hlength := hlast rfl
        have hi : s.i.toNat = code.length := by
          rw [h.i_eq, BitVec.toNat_ofNat]
          omega
        have hfib : (fib s.i).toNat = Nat.fib (code.length + 2) := by
          rw [fib_toNat (by omega), hi]
        -- the value of a code of so many digits fits into the word
        have hlt := weight_lt hsparse
        have hmono : Nat.fib ((true :: code).length + 2) ≤ Nat.fib 47 := by
          apply Nat.fib_mono
          rw [List.length_cons]
          omega
        have hword : Nat.fib 47 < 2 ^ 32 := by decide
        rw [weight_true] at hlt ⊢
        dsimp only
        rw [BitVec.toNat_add, hfib, h.acc_eq hcode, Nat.mod_eq_of_lt (by omega), Nat.add_comm]
    . have hclock : clock false ⟨true, true⟩ s
          = { s with outValid := false, err := true, prev := true, i := s.i + 1 } := by
        simp [clock, hprev, hrom]
      have hbeyond : 45 ≤ code.length % 64 := by
        rw [hindex, not_not] at hrom
        exact hrom
      rw [hclock]
      refine ⟨rfl, hsparse, hnext, by simp, ?_, ?_⟩
      . rw [beyond_cons]
        simp [hbeyond]
      . intro hwithin
        have := ((within_cons true code).mp hwithin).2 rfl
        omega

/-- The report of a code is right when the index did not come round to the ROM again before the last one. -/
theorem Holds.right_iff (h : Holds s flagged (true :: code))
    : Right ⟨s.acc, flagged⟩ (true :: code) ↔ Beyond (true :: code) ∨ Within (true :: code) := by
  have hdecode : decode ((true :: code).reverse ++ [true]) = .ok (weight (true :: code)) := decode_codeOf h.sparse
  unfold Right
  rw [hdecode, h.flagged_iff, Except.ok.injEq]
  constructor
  . rintro (hbeyond | hvalue)
    . exact .inl hbeyond
    . by_cases hbeyond : Beyond (true :: code)
      . exact .inl hbeyond
      . right
        intro p hp
        by_contra hlarge
        have hmod : ¬45 ≤ p % 64 := fun hmod => hbeyond ⟨p, hp, hmod⟩
        have hle := fib_le_weight hp
        have hmono : Nat.fib 66 ≤ Nat.fib (p + 2) := Nat.fib_mono (by omega)
        have hword : 2 ^ 32 ≤ Nat.fib 66 := by decide
        have hlt := s.acc.isLt
        dsimp only at hvalue
        omega
  . rintro (hbeyond | hwithin)
    . exact .inl hbeyond
    . exact .inr (h.acc_eq hwithin).symm

theorem reports_iff (h : Holds s flagged code) (xs : List Serial)
    : List.Forall₂ Right (reports xs s flagged) (digits code (carried xs))
        ↔ ∀ ds ∈ digits code (carried xs), Beyond ds ∨ Within ds := by
  induction xs generalizing s flagged code with
  | nil => simp [reports, carried, digits]
  | cons x xs ih =>
    rcases x with ⟨valid, b⟩
    unfold reports
    dsimp only
    cases valid with
    | false =>
      rcases h.gap b with ⟨hout, hholds⟩
      have hcarried : carried (⟨false, b⟩ :: xs) = carried xs := rfl
      rw [hout, hcarried]
      exact ih hholds
    | true =>
      have hcarried : carried (⟨true, b⟩ :: xs) = b :: carried xs := rfl
      rw [hcarried, digits]
      by_cases hend : b = true ∧ code.head? = some true
      . rcases hend with ⟨rfl, hhead⟩
        rcases List.head?_eq_some_iff.mp hhead with ⟨rest, rfl⟩
        have hright := h.right_iff
        have hone : true = true ∧ (true :: rest).head? = some true := ⟨rfl, hhead⟩
        rw [h.terminator hhead]
        dsimp only
        rw [if_pos hone, if_pos rfl, List.forall₂_cons, List.forall_mem_cons, Bool.or_false, hright, ih (holds_ended s)]
      . rcases h.bit hend with ⟨hout, hholds⟩
        rw [hout, if_neg hend]
        exact ih hholds

end

/-- After a reset every code of a stream is reported with its value or an error, unless one of its ones stands where the
index has come round to the ROM again, and none where it is beyond it. -/
theorem reports_right_iff (s : Regs) (x : Serial) (xs : List Serial)
    : List.Forall₂ Right (reports xs (clock true x s) false) (digits [] (carried xs))
        ↔ ∀ ds ∈ digits [] (carried xs), Beyond ds ∨ Within ds :=
  reports_iff (holds_reset s x) xs

/-- 64 zeros and a pair of ones. -/
def roundedStream : List Serial :=
  List.replicate 64 ⟨true, false⟩ ++ [⟨true, true⟩, ⟨true, true⟩]

def blank : Regs where
  acc := 0
  i := 0
  prev := false
  outVal := 0
  outValid := false
  err := false

/-- The index comes round to the ROM: the code of `F66` is reported as 1. -/
theorem roundedStream_misread
    : reports roundedStream (clock true ⟨false, false⟩ blank) false = [⟨1, false⟩]
        ∧ decode (carried roundedStream) = .ok (Nat.fib 66)
        ∧ ¬List.Forall₂ Right (reports roundedStream (clock true ⟨false, false⟩ blank) false)
            (digits [] (carried roundedStream)) := by
  have hreports : reports roundedStream (clock true ⟨false, false⟩ blank) false = [⟨1, false⟩] := by decide +kernel
  have hdigits : digits [] (carried roundedStream) = [true :: List.replicate 64 false] := by decide +kernel
  have hcode : (true :: List.replicate 64 false).reverse ++ [true] = carried roundedStream := by decide +kernel
  have hdecode : decode (carried roundedStream) = .ok (Nat.fib 66) := by with_unfolding_all rfl
  refine ⟨hreports, hdecode, ?_⟩
  rw [hreports, hdigits, List.forall₂_cons]
  rintro ⟨hright, _⟩
  unfold Right at hright
  rw [hcode, hdecode] at hright
  revert hright
  decide

end Dec

end ZeckCodec
