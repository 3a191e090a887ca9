import Mathlib.Data.List.GetD
import PrismPath.Hw.ZeckCodec
import PrismPath.Lib.Clocked
import PrismPath.Telemetry.FibonacciWire

/-!
This module contains the run of the encoder circuit on one word, from the clock that takes it to the pulse on `done`,
and the words whose code it emits.
-/

open Clocked Fibonacci Zeckendorf

namespace ZeckCodec

namespace Enc

/-- The bit that is on the wire. -/
def out (s : Regs) : Option Bool :=
  if s.outValid then some s.outBit else none

/-- The code is not at its end, and there is no error. -/
def Quiet (s : Regs) : Prop :=
  s.done = false ∧ s.err = false

def NoReset (x : Inputs) : Prop :=
  x.rst = false

/-- After a clock that takes a word the machine flags an error, or it emits the code of the word. -/
def Answers (ins : ℕ → Inputs) (s : Regs) (w : BitVec 32) : Prop :=
  ∃ n, 0 < n ∧ (∀ k, 0 < k → k < n → Quiet (state clock ins s k))
    ∧ ((state clock ins s n).err = true
      ∨ ((state clock ins s n).done = true ∧ encode w.toNat = .ok (emitted clock out ins s n)))

abbrev Runs : ℕ → Regs → Regs → List Bool → Prop :=
  Goes clock out NoReset Quiet

/- Searching the highest digit. -/

/-- The highest digit of a word the ROM has: the ROM ends there, or the next number is larger than the word. -/
structure Highest (w k : ℕ) : Prop where
  le : k ≤ 44
  fits : Nat.fib (k + 2) ≤ w
  next : k = 44 ∨ w < Nat.fib (k + 3)

theorem exists_highest {w : ℕ} (h : 1 ≤ w)
    : ∃ k, Highest w k := by
  rcases fibsUpto_eq h with ⟨n, _, hle, hlt⟩
  by_cases hn : n ≤ 44
  . exact ⟨n, hn, hle, .inr hlt⟩
  . have hmono : Nat.fib (44 + 2) ≤ Nat.fib (n + 2) := Nat.fib_mono (by omega)
    exact ⟨44, Nat.le_refl 44, by omega, .inl rfl⟩

/-- The search goes up to the highest digit. -/
theorem runs_scan {top m : ℕ} {w : BitVec 32} (htop : Highest w.toNat top) {s : Regs} (hst : s.st = .scan)
    (hrem : s.rem = w) (hcode : s.code = 0) (hle : m ≤ top) (hk : s.k = BitVec.ofNat 6 m)
    : ∃ n t, Runs n s t [] ∧ t.st = .mark ∧ t.rem = w ∧ t.code = 0 ∧ t.k = BitVec.ofNat 6 top
        ∧ t.i = BitVec.ofNat 6 top := by
  have hrange := htop.le
  generalize hd : top - m = d
  induction d generalizing m s with
  | zero =>
    have hm : m = top := by omega
    subst hm
    -- the last of the ROM, or the next number is too large
    have hstop : ¬(s.k + 1 < nfib ∧ fib (s.k + 1) ≤ s.rem) := by
      rintro ⟨hrom, hfits⟩
      have hnext : (s.k + 1).toNat = m + 1 := by
        rw [hk]
        bv_omega
      have hfib : (fib (s.k + 1)).toNat = Nat.fib (m + 3) := by
        rw [fib_toNat (by unfold nfib at hrom; bv_omega), hnext]
      rcases htop.next with rfl | hlt
      . unfold nfib at hrom
        bv_omega
      . rw [hrem] at hfits
        bv_omega
    refine ⟨1, { s with outValid := false, done := false, err := false, i := s.k, st := .mark }, ?_, rfl, hrem, hcode,
      hk, hk⟩
    apply Goes.one
    . intro x hx
      unfold NoReset at hx
      simp only [clock, hx, hst, Bool.false_eq_true, if_false, if_neg hstop]
    . exact ⟨rfl, rfl⟩
  | succ d ih =>
    have hgo : s.k + 1 < nfib ∧ fib (s.k + 1) ≤ s.rem := by
      have hnext : (s.k + 1).toNat = m + 1 := by
        rw [hk]
        bv_omega
      have hrom : s.k + 1 < nfib := by
        unfold nfib
        bv_omega
      have hfib : (fib (s.k + 1)).toNat = Nat.fib (m + 3) := by
        rw [fib_toNat (by omega), hnext]
      have hmono : Nat.fib (m + 3) ≤ Nat.fib (top + 2) := Nat.fib_mono (by omega)
      have hfits := htop.fits
      refine ⟨hrom, ?_⟩
      rw [hrem]
      bv_omega
    have hstep : Runs 1 s { s with outValid := false, done := false, err := false, k := s.k + 1 } [] := by
      apply Goes.one
      . intro x hx
        unfold NoReset at hx
        simp only [clock, hx, hst, Bool.false_eq_true, if_false, if_pos hgo]
      . exact ⟨rfl, rfl⟩
    have hnext : s.k + 1 = BitVec.ofNat 6 (m + 1) := by
      rw [hk]
      bv_omega
    rcases @ih (m + 1) { s with outValid := false, done := false, err := false, k := s.k + 1 } hst hrem hcode (by omega)
      hnext (by omega) with ⟨n, t, hruns, ht⟩
    exact ⟨1 + n, t, hstep.trans hruns, ht⟩

/- Marking the digits. -/

theorem length_greedy (fs : List ℕ) (rem : ℕ)
    : (greedy fs rem).1.length = fs.length := by
  induction fs generalizing rem with
  | nil => rfl
  | cons f fs ih =>
    rw [greedy]
    split
    . exact congrArg (· + 1) (ih _)
    . exact congrArg (· + 1) (ih _)

/-- The digits of a number up to the `m`-th, the lowest first. -/
def lowFirst (m rem : ℕ) : List Bool :=
  (greedy (fibs (m + 1)).reverse rem).1.reverse

theorem length_lowFirst (m rem : ℕ)
    : (lowFirst m rem).length = m + 1 := by
  rw [lowFirst, List.length_reverse, length_greedy, List.length_reverse, length_fibs]

theorem lowFirst_zero (rem : ℕ)
    : lowFirst 0 rem = [decide (1 ≤ rem)] := by
  unfold lowFirst
  have hfibs : (fibs (0 + 1)).reverse = [1] := by decide
  rw [hfibs, greedy]
  split
  . next h => simp [greedy, h]
  . next h => simp [greedy, h]

theorem lowFirst_succ (m rem : ℕ)
    : lowFirst (m + 1) rem
        = lowFirst m (if Nat.fib (m + 3) ≤ rem then rem - Nat.fib (m + 3) else rem)
          ++ [decide (Nat.fib (m + 3) ≤ rem)] := by
  unfold lowFirst
  rw [fibs_succ_reverse, greedy]
  split
  . next h => simp [h]
  . next h => simp [h]

theorem getLsbD_setBit {code : BitVec 45} {i : BitVec 6} (hi : i.toNat < 45) (p : ℕ)
    : (setBit code i).getLsbD p = (code.getLsbD p || decide (i.toNat = p)) := by
  rw [setBit, BitVec.getLsbD_or, BitVec.getLsbD_twoPow]
  simp [hi]

/-- The state after the clock that marks the digit `i`. -/
def marked (s : Regs) : Regs :=
  if fib s.i ≤ s.rem then
    { s with outValid := false, done := false, err := false, code := setBit s.code s.i, rem := s.rem - fib s.i }
  else
    { s with outValid := false, done := false, err := false }

theorem clock_mark {x : Inputs} (hx : NoReset x) {s : Regs} (hst : s.st = .mark)
    : clock x s = if s.i = 0 then { marked s with st := .emit } else { marked s with i := s.i - 1 } := by
  unfold NoReset at hx
  by_cases hle : fib s.i ≤ s.rem
  . simp only [clock, marked, hx, hst, hle, Bool.false_eq_true, if_false, if_true]
  . simp only [clock, marked, hx, hst, hle, Bool.false_eq_true, if_false]

theorem marked_rem {s : Regs} {m : ℕ} (hm : m ≤ 44) (hi : s.i = BitVec.ofNat 6 m)
    : (marked s).rem.toNat
        = if Nat.fib (m + 2) ≤ s.rem.toNat then s.rem.toNat - Nat.fib (m + 2) else s.rem.toNat := by
  have hindex : s.i.toNat = m := by
    rw [hi]
    bv_omega
  have hfib : (fib s.i).toNat = Nat.fib (m + 2) := by
    rw [fib_toNat (by omega), hindex]
  unfold marked
  by_cases hle : fib s.i ≤ s.rem
  . rw [if_pos hle, if_pos (by bv_omega)]
    dsimp only
    rw [BitVec.toNat_sub_of_le hle, hfib]
  . rw [if_neg hle, if_neg (by bv_omega)]

theorem marked_code {s : Regs} {m : ℕ} (hm : m ≤ 44) (hi : s.i = BitVec.ofNat 6 m)
    (hclear : s.code.getLsbD m = false) (p : ℕ)
    : (marked s).code.getLsbD p
        = if p = m then decide (Nat.fib (m + 2) ≤ s.rem.toNat) else s.code.getLsbD p := by
  have hindex : s.i.toNat = m := by
    rw [hi]
    bv_omega
  have hfib : (fib s.i).toNat = Nat.fib (m + 2) := by
    rw [fib_toNat (by omega), hindex]
  unfold marked
  by_cases hle : fib s.i ≤ s.rem
  . have hfits : Nat.fib (m + 2) ≤ s.rem.toNat := by bv_omega
    rw [if_pos hle]
    dsimp only
    rw [getLsbD_setBit (by omega), hindex]
    split
    . next hp => simp [hp, hfits]
    . next hp => simp [Ne.symm hp]
  . have hfits : ¬Nat.fib (m + 2) ≤ s.rem.toNat := by bv_omega
    rw [if_neg hle]
    dsimp only
    split
    . next hp => simp [hp, hfits, hclear]
    . rfl

theorem marked_quiet (s : Regs)
    : Quiet (marked s) ∧ out (marked s) = none ∧ (marked s).st = s.st ∧ (marked s).k = s.k ∧ (marked s).i = s.i := by
  unfold marked
  split
  . exact ⟨⟨rfl, rfl⟩, rfl, rfl, rfl, rfl⟩
  . exact ⟨⟨rfl, rfl⟩, rfl, rfl, rfl, rfl⟩

/-- The digits are marked from the highest down. -/
theorem runs_mark {m : ℕ} (hm : m ≤ 44) {s : Regs} (hst : s.st = .mark) (hi : s.i = BitVec.ofNat 6 m)
    (hclear : ∀ p ≤ m, s.code.getLsbD p = false)
    : ∃ t, Runs (m + 1) s t [] ∧ t.st = .emit ∧ t.k = s.k ∧ t.i = 0
        ∧ ∀ p, t.code.getLsbD p
          = if p ≤ m then (lowFirst m s.rem.toNat).getD p false else s.code.getLsbD p := by
  induction m generalizing s with
  | zero =>
    rcases marked_quiet s with ⟨hquiet, hout, hmst, hmk, hmi⟩
    have hzero : s.i = 0 := hi
    refine ⟨{ marked s with st := .emit }, ?_, rfl, hmk, hmi.trans hzero, ?_⟩
    . have hone := @Goes.one _ Quiet s { marked s with st := .emit } Inputs Bool clock out NoReset
        (fun x hx => by rw [clock_mark hx hst, if_pos hzero]) hquiet
      rw [show out { marked s with st := .emit } = none from hout] at hone
      exact hone
    . intro p
      have hcode := marked_code hm hi (hclear 0 (Nat.le_refl 0)) p
      rw [lowFirst_zero]
      dsimp only
      rw [hcode]
      by_cases hp : p = 0
      . subst hp
        rfl
      . rw [if_neg hp, if_neg (by omega)]
  | succ m ih =>
    rcases marked_quiet s with ⟨hquiet, hout, hmst, hmk, hmi⟩
    have hne : s.i ≠ 0 := by
      rw [hi]
      bv_omega
    have hpred : s.i - 1 = BitVec.ofNat 6 m := by
      rw [hi]
      bv_omega
    have hstep : Runs 1 s { marked s with i := s.i - 1 } [] := by
      have hone := @Goes.one _ Quiet s { marked s with i := s.i - 1 } Inputs Bool clock out NoReset
        (fun x hx => by rw [clock_mark hx hst, if_neg hne]) hquiet
      rw [show out { marked s with i := s.i - 1 } = none from hout] at hone
      exact hone
    have hcode (p : ℕ) := marked_code hm hi (hclear (m + 1) (Nat.le_refl _)) p
    have hclear' : ∀ p ≤ m, ({ marked s with i := s.i - 1 } : Regs).code.getLsbD p = false := by
      intro p hp
      dsimp only
      rw [hcode, if_neg (by omega)]
      exact hclear p (by omega)
    rcases @ih (by omega) { marked s with i := s.i - 1 } (hmst.trans hst) hpred hclear' with
      ⟨t, hruns, htst, htk, hti, htcode⟩
    refine ⟨t, ?_, htst, htk.trans hmk, hti, ?_⟩
    . rw [Nat.add_comm]
      exact hstep.trans hruns
    . intro p
      rw [htcode, lowFirst_succ]
      dsimp only
      rw [marked_rem hm hi, hcode]
      by_cases hp : p ≤ m
      . have hlt : p < (lowFirst m (if Nat.fib (m + 3) ≤ s.rem.toNat then s.rem.toNat - Nat.fib (m + 3)
            else s.rem.toNat)).length := by
          rw [length_lowFirst]
          omega
        rw [if_pos hp, if_pos (show p ≤ m + 1 by omega), List.getD_append _ _ _ _ hlt]
      . rw [if_neg hp]
        by_cases htop : p = m + 1
        . subst htop
          rw [if_pos rfl, if_pos (Nat.le_refl _), List.getD_append_right _ _ _ _ (by rw [length_lowFirst]), length_lowFirst,
            Nat.sub_self]
          rfl
        . rw [if_neg htop, if_neg (show ¬p ≤ m + 1 by omega)]

/- Emitting the digits. -/

/-- The digits are emitted from the lowest up. -/
theorem runs_emit {top m : ℕ} (htop : top ≤ 44) (hm : m ≤ top + 1) {s : Regs} (hst : s.st = .emit)
    (hk : s.k = BitVec.ofNat 6 top) (hi : s.i = BitVec.ofNat 6 m)
    : ∃ t, Runs (top + 1 - m) s t ((List.range' m (top + 1 - m)).map s.code.getLsbD) ∧ t.st = .emit
        ∧ t.k = BitVec.ofNat 6 top ∧ t.i = BitVec.ofNat 6 (top + 1) := by
  generalize hd : top + 1 - m = d
  induction d generalizing m s with
  | zero =>
    have hm' : m = top + 1 := by omega
    subst hm'
    exact ⟨s, Goes.refl s, hst, hk, hi⟩
  | succ d ih =>
    have hle : s.i ≤ s.k := by
      rw [hi, hk]
      bv_omega
    have hindex : s.i.toNat = m := by
      rw [hi]
      bv_omega
    have hnext : s.i + 1 = BitVec.ofNat 6 (m + 1) := by
      rw [hi]
      bv_omega
    have hstep : Runs 1 s
        { s with outValid := true, done := false, err := false, outBit := s.code.getLsbD m, i := s.i + 1 }
        [s.code.getLsbD m] := by
      apply Goes.one
      . intro x hx
        unfold NoReset at hx
        simp only [clock, hx, hst, hle, hindex, Bool.false_eq_true, if_false, if_true]
      . exact ⟨rfl, rfl⟩
    rcases @ih (m + 1) (by omega)
      { s with outValid := true, done := false, err := false, outBit := s.code.getLsbD m, i := s.i + 1 } hst hk hnext
      (by omega) with ⟨t, hruns, ht⟩
    refine ⟨t, ?_, ht⟩
    rw [List.range'_succ, List.map_cons, Nat.add_comm]
    exact hstep.trans hruns

/-- The clock that ends the code. -/
theorem clock_end {x : Inputs} (hx : NoReset x) {s : Regs} (hst : s.st = .emit) {top : ℕ} (htop : top ≤ 44)
    (hk : s.k = BitVec.ofNat 6 top) (hi : s.i = BitVec.ofNat 6 (top + 1))
    : clock x s = { s with outValid := true, err := false, outBit := true, done := true, st := .idle } := by
  unfold NoReset at hx
  have hgt : ¬s.i ≤ s.k := by
    rw [hi, hk]
    bv_omega
  simp only [clock, hx, hst, hgt, Bool.false_eq_true, if_false]

/- A word. -/

theorem map_getD_range (bits : List Bool)
    : (List.range' 0 bits.length).map (fun p => bits.getD p false) = bits := by
  apply List.ext_getElem
  . simp
  . intro p hp hp'
    simp [hp']

/-- The state after the clock that takes a word. -/
def taken (s : Regs) (w : BitVec 32) : Regs :=
  { s with outValid := false, done := false, err := false, rem := w, k := 0, code := 0, st := .scan }

/-- From the clock after that: the digits up to the highest the ROM has. -/
theorem runs_word (s : Regs) {w : BitVec 32} {top : ℕ} (htop : Highest w.toNat top)
    : ∃ n t, Runs n (taken s w) t (lowFirst top w.toNat) ∧ t.st = .emit ∧ t.k = BitVec.ofNat 6 top
        ∧ t.i = BitVec.ofNat 6 (top + 1) := by
  have hrange := htop.le
  rcases @runs_scan top 0 w htop (taken s w) rfl rfl rfl (Nat.zero_le top) rfl with
    ⟨n, a, hscan, hast, harem, hacode, hak, hai⟩
  have hclear : ∀ p ≤ top, a.code.getLsbD p = false := by
    intro p _
    rw [hacode]
    exact BitVec.getLsbD_zero
  rcases runs_mark hrange hast hai hclear with ⟨b, hmark, hbst, hbk, hbi, hbcode⟩
  rcases @runs_emit top 0 hrange (Nat.zero_le (top + 1)) b hbst (hbk.trans hak) hbi with ⟨c, hemit, hc⟩
  have hbits : (List.range' 0 (top + 1 - 0)).map b.code.getLsbD = lowFirst top w.toNat := by
    rw [Nat.sub_zero, ← length_lowFirst top w.toNat]
    refine Eq.trans ?_ (map_getD_range (lowFirst top w.toNat))
    apply List.map_congr_left
    intro p hp
    rw [List.mem_range'_1, length_lowFirst] at hp
    rw [hbcode, harem, if_pos (by omega)]
  rw [hbits] at hemit
  exact ⟨_, c, hscan.trans (hmark.trans hemit), hc⟩

/-- The code of a word: the digits up to the highest the ROM has, and a one. -/
theorem run_word {ins : ℕ → Inputs} {s : Regs} {w : BitVec 32} (hst : s.st = .idle)
    (hfirst : ins 0 = { inValid := true, inVal := w }) (hw : w ≠ 0) (hrst : ∀ k, NoReset (ins k)) {top : ℕ}
    (htop : Highest w.toNat top)
    : ∃ n, 0 < n ∧ (∀ k, 0 < k → k < n → Quiet (state clock ins s k)) ∧ (state clock ins s n).done = true
        ∧ (state clock ins s n).err = false
        ∧ emitted clock out ins s n = lowFirst top w.toNat ++ [true] := by
  have htaken : clock (ins 0) s = taken s w := by
    rw [hfirst]
    simp only [clock, hst, Bool.false_eq_true, if_false, if_true, if_pos hw]
    rfl
  rcases runs_word s htop with ⟨n, t, hruns, htst, htk, hti⟩
  have hrest : ∀ k, NoReset (ins (1 + k)) := fun k => hrst (1 + k)
  have hone : state clock ins s 1 = taken s w := htaken
  have hreached : state clock ins s (1 + n) = t := by
    rw [state_add, hone]
    exact hruns.reached _ hrest
  have hlast := clock_end (hrst (1 + n)) htst htop.le htk hti
  have hend : state clock ins s (1 + n + 1)
      = { t with outValid := true, err := false, outBit := true, done := true, st := .idle } := by
    rw [state, hreached, hlast]
  refine ⟨1 + n + 1, Nat.succ_pos _, ?_, ?_, ?_, ?_⟩
  . intro k hpos hlt
    have hsplit : k = 1 + (k - 1) := by omega
    rw [hsplit, state_add, hone]
    by_cases hk : k = 1
    . subst hk
      exact ⟨rfl, rfl⟩
    . exact hruns.holds _ hrest (k - 1) (by omega) (by omega)
  . rw [hend]
  . rw [hend]
  . have hfirstBit : emitted clock out ins s 1 = [] := by
      unfold emitted
      rw [List.range_one, List.filterMap_cons, hone]
      rfl
    have hlastBit : emitted clock out (fun k => ins (1 + n + k)) t 1 = [true] := by
      unfold emitted
      rw [List.range_one, List.filterMap_cons, state, state, Nat.add_zero, hlast]
      rfl
    rw [emitted_add, hreached, hlastBit, emitted_add, hone, hfirstBit, hruns.emitted _ hrest, List.nil_append]

/-- The machine answers by the code of the word, or not at all. -/
theorem answers_iff_encode {ins : ℕ → Inputs} {s : Regs} {w : BitVec 32} (hst : s.st = .idle)
    (hfirst : ins 0 = { inValid := true, inVal := w }) (hw : w ≠ 0) (hrst : ∀ k, NoReset (ins k)) {top : ℕ}
    (htop : Highest w.toNat top)
    : Answers ins s w ↔ encode w.toNat = .ok (lowFirst top w.toNat ++ [true]) := by
  rcases run_word hst hfirst hw hrst htop with ⟨n, hpos, hquiet, hdone, herr, hemitted⟩
  constructor
  . rintro ⟨m, hmpos, hmquiet, hanswer⟩
    have hm : m = n := by
      rcases Nat.lt_trichotomy m n with hlt | heq | hgt
      . have hnot := hquiet m hmpos hlt
        rcases hanswer with hflag | ⟨hend, _⟩
        . rw [hnot.2] at hflag
          cases hflag
        . rw [hnot.1] at hend
          cases hend
      . exact heq
      . rw [(hmquiet n hpos hgt).1] at hdone
        cases hdone
    subst hm
    rcases hanswer with hflag | ⟨_, hencode⟩
    . rw [herr] at hflag
      cases hflag
    . rw [hemitted] at hencode
      exact hencode
  . intro hencode
    refine ⟨n, hpos, hquiet, .inr ⟨hdone, ?_⟩⟩
    rw [hemitted]
    exact hencode

/-- Below the Fibonacci number after those of the ROM the digits of the ROM are the code; from it on they are not. -/
theorem encode_lowFirst_iff {w top : ℕ} (hw : 1 ≤ w) (htop : Highest w top)
    : encode w = .ok (lowFirst top w ++ [true]) ↔ w < Nat.fib 47 := by
  constructor
  . intro hencode
    rcases encode_ok hencode with ⟨ds, hsparse, hweight, hcode⟩
    have hlength : (lowFirst top w ++ [true]).length = ds.length + 2 := by
      rw [hcode, codeOf_eq, List.length_append, List.length_reverse]
      rfl
    rw [List.length_append, length_lowFirst, List.length_singleton] at hlength
    have hlt := weight_lt hsparse
    have hmono : Nat.fib ((true :: ds).length + 2) ≤ Nat.fib 47 := by
      apply Nat.fib_mono
      have := htop.le
      rw [List.length_cons]
      omega
    omega
  . intro hlt
    rcases fibsUpto_eq hw with ⟨n, hfibs, hge, hless⟩
    -- both are the highest Fibonacci number that fits
    have hn : n = top := by
      have hnext : w < Nat.fib (top + 3) := by
        rcases htop.next with rfl | hnext
        . exact hlt
        . exact hnext
      have hfits := htop.fits
      by_contra hne
      rcases Nat.lt_or_gt_of_ne hne with hlow | hhigh
      . have : Nat.fib (n + 3) ≤ Nat.fib (top + 2) := Nat.fib_mono (by omega)
        omega
      . have : Nat.fib (top + 3) ≤ Nat.fib (n + 2) := Nat.fib_mono (by omega)
        omega
    have hpos : (1 : ℤ) ≤ (w : ℤ) := by omega
    rcases encode_of_pos hpos with ⟨ds, _, _, hencode⟩
    have hgreedy := hencode
    rw [encode, if_neg (by omega), Int.toNat_natCast, hfibs, hn] at hgreedy
    dsimp only at hgreedy
    split at hgreedy
    . rw [hencode, ← hgreedy]
      rfl
    . cases hgreedy

/-- A word is answered by its code, or by an error, when it is below `F47`. -/
theorem answers_iff {ins : ℕ → Inputs} {s : Regs} {w : BitVec 32} (hst : s.st = .idle)
    (hfirst : ins 0 = { inValid := true, inVal := w }) (hw : w ≠ 0) (hrst : ∀ k, NoReset (ins k))
    : Answers ins s w ↔ w.toNat < 2971215073 := by
  have hone : 1 ≤ w.toNat := by
    by_contra hzero
    have hzeroNat : (0 : BitVec 32).toNat = 0 := rfl
    exact hw (BitVec.eq_of_toNat_eq (by omega))
  have hnext : Nat.fib 47 = 2971215073 := by decide
  rcases exists_highest hone with ⟨top, htop⟩
  rw [answers_iff_encode hst hfirst hw hrst htop, encode_lowFirst_iff hone htop, hnext]

/-- The first word is given, and nothing after it. -/
def once (w : BitVec 32) : ℕ → Inputs
  | 0 => { inValid := true, inVal := w }
  | _ + 1 => {}

def idleRegs : Regs where
  st := .idle
  rem := 0
  k := 0
  i := 0
  code := 0
  outValid := false
  outBit := false
  done := false
  err := false

theorem noReset_once (w : BitVec 32) (k : ℕ)
    : NoReset (once w k) := by
  cases k <;> rfl

theorem answers_four
    : Answers (once 4) idleRegs 4 := by
  have hlt : (4 : BitVec 32).toNat < 2971215073 := by decide
  exact (answers_iff rfl rfl (by decide) (noReset_once 4)).mpr hlt

/-- The largest word has no code in the digits of the ROM, and no error is flagged. -/
theorem largest_word_unanswered
    : ¬Answers (once 0xFFFFFFFF) idleRegs 0xFFFFFFFF := by
  have hhighest : Highest (0xFFFFFFFF : BitVec 32).toNat 44 := ⟨Nat.le_refl 44, by decide, .inl rfl⟩
  rw [answers_iff_encode rfl rfl (by decide) (noReset_once _) hhighest, encode_lowFirst_iff (by decide) hhighest]
  decide

end Enc

end ZeckCodec
