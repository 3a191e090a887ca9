import Mathlib.Data.Nat.Bitwise
import Mathlib.Data.List.Nodup
import Mathlib.Order.Bounds.Defs

/-!
This module contains the replay window over the ticks of a stream, and that it answers as a receiver would that
remembers every tick.
-/

namespace Replay

def acceptCause : String := "accept"

def replayDuplicate : String := "replay-duplicate"

def replayStale : String := "replay-stale"

/-- The window of one stream. -/
structure TickWindow where
  reorder : ℕ
  /-- The highest tick accepted so far. -/
  top : ℤ
  /-- Bit `k` is set where the tick `top - k` was seen. -/
  mask : ℕ

namespace TickWindow

def new (reorder : ℤ) : Except String TickWindow :=
  if reorder < 0 ∨ 64 < reorder then
    .error s!"reorder must be in 0..64; got {reorder}"
  else
    .ok ⟨reorder.toNat, -1, 0⟩

/-- Whether this tick would be accepted right now, and why not. -/
def check (win : TickWindow) (tick : ℤ) : Bool × String :=
  if win.top < tick then
    (true, acceptCause)
  else if win.reorder = 0 then
    (false, if tick = win.top then replayDuplicate else replayStale)
  else
    let back := (win.top - tick).toNat
    if win.reorder ≤ back then
      (false, replayStale)
    else if (win.mask >>> back) &&& 1 ≠ 0 then
      (false, replayDuplicate)
    else
      (true, acceptCause)

/-- Check a tick, and admit an accepted one into the window. -/
def observe (win : TickWindow) (tick : ℤ) : (Bool × String) × TickWindow :=
  match win.check tick with
  | (false, cause) => ((false, cause), win)
  | (true, _) =>
    if win.top < tick then
      let ahead := (tick - win.top).toNat
      let mask := ((win.mask <<< ahead) ||| 1) &&& ((1 <<< max win.reorder 1) - 1)
      ((true, acceptCause), { win with mask := mask, top := tick })
    else
      ((true, acceptCause), { win with mask := win.mask ||| (1 <<< (win.top - tick).toNat) })

def accepts (win : TickWindow) (tick : ℤ) : Bool :=
  (win.observe tick).1.1

/-- The window after some ticks. -/
def after (win : TickWindow) (ticks : List ℤ) : TickWindow :=
  ticks.foldl (fun win tick => (win.observe tick).2) win

/-- Those of the ticks that are accepted, in their order. -/
def accepted (win : TickWindow) : List ℤ → List ℤ
  | [] => []
  | tick :: ticks =>
    if win.accepts tick then
      tick :: accepted (win.observe tick).2 ticks
    else
      accepted (win.observe tick).2 ticks

end TickWindow

/-- What a receiver with an unbounded memory answers that has accepted some ticks before. -/
def Admits (width : ℤ) (past : List ℤ) (tick : ℤ) : Prop :=
  tick ∉ past ∧ ∀ top, IsGreatest {t | t ∈ past} top → top - tick < width

/- What the window remembers of the ticks. -/

namespace TickWindow

/-- The window stands for the ticks that were accepted before it. -/
structure Remembers (win : TickWindow) (past : List ℤ) : Prop where
  start : -1 ≤ win.top
  below : ∀ t ∈ past, t ≤ win.top
  seen : win.top = -1 ∨ win.top ∈ past
  bits : ∀ k, win.mask.testBit k = true ↔ k < max win.reorder 1 ∧ win.top - k ∈ past

theorem bit_ne_zero (mask back : ℕ) : (mask >>> back) &&& 1 ≠ 0 ↔ mask.testBit back = true := by
  rw [Nat.and_comm]
  simp only [Nat.testBit, bne_iff_ne]

theorem check_fst (win : TickWindow) (tick : ℤ)
    : (win.check tick).1 = true ↔
        win.top < tick ∨
          win.top - tick < win.reorder ∧ win.mask.testBit (win.top - tick).toNat = false := by
  unfold check
  split
  . next h => simp [h]
  . next h =>
    split
    . next hzero =>
      simp only [Bool.false_eq_true, h, false_or, false_iff, hzero]
      omega
    . dsimp only
      split
      . next hback =>
        simp only [Bool.false_eq_true, h, false_or, false_iff]
        omega
      . next hback =>
        have hlt : win.top - tick < win.reorder := by omega
        simp only [bit_ne_zero]
        cases hbit : win.mask.testBit (win.top - tick).toNat <;> simp [h, hlt]

theorem accepts_eq (win : TickWindow) (tick : ℤ) : win.accepts tick = (win.check tick).1 := by
  unfold accepts observe
  split
  . next hcheck => rw [hcheck]
  . next hcheck =>
    rw [hcheck]
    split <;> rfl

theorem observe_of_refused {win : TickWindow} {tick : ℤ} (hno : win.accepts tick = false)
    : (win.observe tick).2 = win := by
  rw [accepts_eq] at hno
  unfold observe
  split
  . rfl
  . next hcheck => simp [hcheck] at hno

theorem observe_of_ahead {win : TickWindow} {tick : ℤ} (hahead : win.top < tick)
    : (win.observe tick).2
        =
      { win with
        mask := ((win.mask <<< (tick - win.top).toNat) ||| 1) &&& ((1 <<< max win.reorder 1) - 1), top := tick } := by
  unfold observe check
  rw [if_pos hahead]
  simp only [hahead, ↓reduceIte]

theorem observe_of_late {win : TickWindow} {tick : ℤ} (hok : win.accepts tick = true) (hlate : ¬win.top < tick)
    : (win.observe tick).2 = { win with mask := win.mask ||| (1 <<< (win.top - tick).toNat) } := by
  rw [accepts_eq] at hok
  unfold observe
  split
  . next hcheck => simp [hcheck] at hok
  . simp only [hlate, ↓reduceIte]

@[simp]
theorem reorder_observe (win : TickWindow) (tick : ℤ) : (win.observe tick).2.reorder = win.reorder := by
  unfold observe
  split
  . rfl
  . split <;> rfl

theorem remembers_new {reorder : ℤ} {win : TickWindow} (hnew : new reorder = .ok win) : win.Remembers [] := by
  unfold new at hnew
  split at hnew
  . cases hnew
  . cases hnew
    constructor <;> simp

/-- The window answers from its mask what the unbounded memory answers, from the start value on. -/
theorem Remembers.accepts_iff {win : TickWindow} {past : List ℤ} (h : win.Remembers past) (tick : ℤ)
    : win.accepts tick = true ↔ tick ∉ past ∧ win.top - tick < win.reorder ∨ win.top < tick := by
  rw [accepts_eq, check_fst]
  by_cases hahead : win.top < tick
  . simp [hahead]
  . simp only [hahead, false_or, or_false]
    have hbit := h.bits (win.top - tick).toNat
    have hback : win.top - ((win.top - tick).toNat : ℤ) = tick := by omega
    rw [hback] at hbit
    constructor
    . intro ⟨hwidth, hclear⟩
      refine ⟨fun hmem => ?_, hwidth⟩
      have hset := hbit.mpr ⟨by omega, hmem⟩
      rw [hclear] at hset
      cases hset
    . intro ⟨hmem, hwidth⟩
      refine ⟨hwidth, ?_⟩
      rw [Bool.eq_false_iff]
      intro hset
      apply hmem
      apply (hbit.mp hset).2

theorem Remembers.not_mem {win : TickWindow} {past : List ℤ} (h : win.Remembers past) {tick : ℤ}
    (hok : win.accepts tick = true)
    : tick ∉ past := by
  intro hmem
  rcases (h.accepts_iff tick).mp hok with ⟨hno, -⟩ | hahead
  . apply hno hmem
  . have := h.below tick hmem
    omega

/-- An accepted tick is remembered, and everything before it that the width still covers. -/
theorem Remembers.observe {win : TickWindow} {past : List ℤ} (h : win.Remembers past) {tick : ℤ}
    (hok : win.accepts tick = true)
    : (win.observe tick).2.Remembers (tick :: past) := by
  by_cases hahead : win.top < tick
  . rw [observe_of_ahead hahead]
    constructor
    . have := h.start
      dsimp only
      omega
    . intro t ht
      rcases List.mem_cons.mp ht with rfl | ht
      . apply Int.le_refl
      . have := h.below t ht
        dsimp only
        omega
    . simp
    . intro k
      have hold := h.bits (k - (tick - win.top).toNat)
      simp only [Nat.testBit_and, Nat.testBit_or, Nat.testBit_shiftLeft, Nat.one_shiftLeft,
        Nat.testBit_two_pow_sub_one, Nat.testBit_one_eq_true_iff_self_eq_zero, Bool.and_eq_true, Bool.or_eq_true,
        decide_eq_true_eq, hold, List.mem_cons]
      constructor
      . rintro ⟨⟨hk, -, hmem⟩ | rfl, hlt⟩
        . have hsame : win.top - ((k - (tick - win.top).toNat : ℕ) : ℤ) = tick - k := by omega
          rw [hsame] at hmem
          exact ⟨hlt, .inr hmem⟩
        . exact ⟨hlt, .inl (by omega)⟩
      . rintro ⟨hlt, heq | hmem⟩
        . exact ⟨.inr (by omega), hlt⟩
        . -- a tick seen before this one lies at or below the old top
          have hbelow := h.below _ hmem
          have hsame : win.top - ((k - (tick - win.top).toNat : ℕ) : ℤ) = tick - k := by omega
          refine ⟨.inl ⟨by omega, by omega, ?_⟩, hlt⟩
          rw [hsame]
          apply hmem
  . rw [observe_of_late hok hahead]
    constructor
    . apply h.start
    . intro t ht
      rcases List.mem_cons.mp ht with rfl | ht
      . dsimp only
        omega
      . apply h.below t ht
    . rcases h.seen with hstart | hseen
      . left
        apply hstart
      . right
        apply List.mem_cons_of_mem _ hseen
    . intro k
      have hwidth := ((h.accepts_iff tick).mp hok).resolve_right hahead
      simp only [Nat.testBit_or, Nat.one_shiftLeft, Nat.testBit_two_pow, Bool.or_eq_true, decide_eq_true_eq, h.bits,
        List.mem_cons]
      constructor
      . rintro (⟨hlt, hmem⟩ | rfl)
        . exact ⟨hlt, .inr hmem⟩
        . exact ⟨by omega, .inl (by omega)⟩
      . rintro ⟨hlt, heq | hmem⟩
        . right
          omega
        . left
          exact ⟨hlt, hmem⟩

/- The whole history of a window. -/

@[simp]
theorem after_cons (win : TickWindow) (tick : ℤ) (ticks : List ℤ)
    : win.after (tick :: ticks) = (win.observe tick).2.after ticks := by
  rfl

theorem Remembers.after {win : TickWindow} {past : List ℤ} (h : win.Remembers past) (ticks : List ℤ)
    : (win.after ticks).Remembers ((win.accepted ticks).reverse ++ past) := by
  induction ticks generalizing win past with
  | nil => apply h
  | cons tick ticks ih =>
    rw [after_cons]
    unfold accepted
    split
    . next hok =>
      rw [List.reverse_cons, List.append_assoc]
      apply ih (h.observe hok)
    . next hno =>
      rw [Bool.not_eq_true] at hno
      rw [observe_of_refused hno]
      apply ih h

theorem Remembers.nodup {win : TickWindow} {past : List ℤ} (h : win.Remembers past) (hpast : past.Nodup)
    (ticks : List ℤ)
    : ((win.accepted ticks).reverse ++ past).Nodup := by
  induction ticks generalizing win past with
  | nil => apply hpast
  | cons tick ticks ih =>
    unfold accepted
    split
    . next hok =>
      rw [List.reverse_cons, List.append_assoc]
      apply ih (h.observe hok)
      apply List.nodup_cons.mpr ⟨h.not_mem hok, hpast⟩
    . next hno =>
      rw [Bool.not_eq_true] at hno
      rw [observe_of_refused hno]
      apply ih h hpast

@[simp]
theorem reorder_after (win : TickWindow) (ticks : List ℤ) : (win.after ticks).reorder = win.reorder := by
  induction ticks generalizing win with
  | nil => rfl
  | cons tick ticks ih => rw [after_cons, ih, reorder_observe]

/-- The start value of the top stands for no tick that a stream carries. -/
theorem Remembers.admits_iff {win : TickWindow} {past : List ℤ} (h : win.Remembers past) {tick : ℤ} (htick : 0 ≤ tick)
    : win.accepts tick = true ↔ Admits win.reorder past tick := by
  rw [h.accepts_iff]
  constructor
  . rintro (⟨hmem, hwidth⟩ | hahead)
    . refine ⟨hmem, fun top htop => ?_⟩
      have := h.below top htop.1
      omega
    . refine ⟨fun hmem => ?_, fun top htop => ?_⟩
      . have := h.below tick hmem
        omega
      . have := h.below top htop.1
        omega
  . intro ⟨hmem, hwidth⟩
    rcases h.seen with hstart | hseen
    . right
      omega
    . left
      exact ⟨hmem, hwidth win.top ⟨hseen, fun t ht => h.below t ht⟩⟩

end TickWindow

/-- The window answers what an unbounded memory answers, after every history of ticks, and accepts no tick twice. -/
theorem tickWindow_unbounded (reorder : ℤ) (hlow : 0 ≤ reorder) (hhigh : reorder ≤ 64)
    : ∃ win, TickWindow.new reorder = .ok win ∧
        ∀ ticks,
          (win.accepted ticks).Nodup ∧
            ∀ tick, 0 ≤ tick → ((win.after ticks).accepts tick = true ↔ Admits reorder (win.accepted ticks) tick) := by
  have hnew : TickWindow.new reorder = .ok ⟨reorder.toNat, -1, 0⟩ := by
    unfold TickWindow.new
    rw [if_neg (by omega)]
  refine ⟨_, hnew, fun ticks => ?_⟩
  have hstart := TickWindow.remembers_new hnew
  constructor
  . have hnodup := hstart.nodup List.nodup_nil ticks
    rw [List.append_nil, List.nodup_reverse] at hnodup
    apply hnodup
  . intro tick htick
    have hafter := hstart.after ticks
    rw [List.append_nil] at hafter
    rw [hafter.admits_iff htick, TickWindow.reorder_after]
    simp only [Admits, List.mem_reverse, Int.toNat_of_nonneg hlow]

theorem tickWindow_unbounded_four
    : (0 : ℤ) ≤ 4 ∧ (4 : ℤ) ≤ 64 ∧
        ∃ win, TickWindow.new 4 = .ok win ∧
          ∀ ticks,
            (win.accepted ticks).Nodup ∧
              ∀ tick, 0 ≤ tick → ((win.after ticks).accepts tick = true ↔ Admits 4 (win.accepted ticks) tick) :=
  ⟨by decide, by decide, tickWindow_unbounded 4 (by decide) (by decide)⟩

end Replay
