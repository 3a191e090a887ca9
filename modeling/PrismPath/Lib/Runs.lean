import Mathlib.Data.List.Basic
import Mathlib.Logic.Basic
import Mathlib.Logic.Relation

/-!
This module contains the runs of a system that takes one step after another, the rules to prove what they keep, and what
a cell of a memory holds after a run of writes, in whatever order they come.
-/

namespace Writes

variable {σ W α : Type} {step : σ → W → σ} {read : σ → α} {touches : W → Prop} {value : W → α}

/-- A write that touches the cell gives it its value, and any other leaves it. -/
structure Cell (step : σ → W → σ) (read : σ → α) (touches : W → Prop) (value : W → α) : Prop where
  writes : ∀ s w, touches w → read (step s w) = value w
  leaves : ∀ s w, ¬ touches w → read (step s w) = read s

theorem Cell.keeps (h : Cell step read touches value) {v : α} {ws : List W}
    (hall : ∀ w ∈ ws, touches w → value w = v) {s : σ} (hs : read s = v)
    : read (ws.foldl step s) = v := by
  induction ws generalizing s with
  | nil => exact hs
  | cons w ws ih =>
    refine ih (fun w' hw' => hall w' (List.mem_cons_of_mem _ hw')) ?_
    by_cases htouches : touches w
    . rw [h.writes s w htouches, hall w (List.mem_cons_self ..) htouches]
    . rw [h.leaves s w htouches, hs]

/-- A cell that is written, and always the same, holds that. -/
theorem Cell.holds (h : Cell step read touches value) {v : α} {ws : List W}
    (hall : ∀ w ∈ ws, touches w → value w = v) (hsome : ∃ w ∈ ws, touches w) (s : σ)
    : read (ws.foldl step s) = v := by
  induction ws generalizing s with
  | nil =>
    rcases hsome with ⟨w, hw, _⟩
    cases hw
  | cons w ws ih =>
    have hrest : ∀ w' ∈ ws, touches w' → value w' = v := fun w' hw' => hall w' (List.mem_cons_of_mem _ hw')
    by_cases htouches : touches w
    . refine h.keeps hrest ?_
      rw [h.writes s w htouches, hall w (List.mem_cons_self ..) htouches]
    . refine ih hrest ?_ (step s w)
      rcases hsome with ⟨w', hw', htouches'⟩
      rcases List.mem_cons.mp hw' with rfl | hmem
      . exact absurd htouches' htouches
      . exact ⟨w', hmem, htouches'⟩

end Writes

/-- The runs in which every step meets a condition on the state it is taken in. -/
def Runs {S A : Type} (step : S → A → S) (P : S → A → Prop) : S → S → Prop :=
  Relation.ReflTransGen fun s s' => ∃ a, P s a ∧ s' = step s a

namespace Runs

variable {S A : Type} {step : S → A → S} {P Q : S → A → Prop} {s₀ s : S}

/-- What every step keeps, every run keeps. -/
theorem invariant {I : S → Prop} (hrun : Runs step P s₀ s) (hinit : I s₀) (hstep : ∀ s a, I s → P s a → I (step s a))
    : I s := by
  induction hrun with
  | refl => exact hinit
  | tail _ hlast ih =>
    rcases hlast with ⟨a, ha, rfl⟩
    exact hstep _ a ih ha

/-- What every step keeps while some measure of the state is below a bound, every run keeps that ends below it. -/
theorem invariant_below {I : S → Prop} {μ : S → Nat} {bound : Nat} (hmono : ∀ s a, μ s ≤ μ (step s a))
    (hrun : Runs step P s₀ s) (hbound : μ s < bound) (hinit : I s₀)
    (hstep : ∀ s a, I s → P s a → μ s < bound → I (step s a))
    : I s := by
  induction hrun with
  | refl => exact hinit
  | @tail s s' _ hlast ih =>
    rcases hlast with ⟨a, ha, rfl⟩
    have hbefore := Nat.lt_of_le_of_lt (hmono s a) hbound
    exact hstep s a (ih hbefore) ha hbefore

/-- A condition that every state reached below the bound meets can be asked of the run. -/
theorem of_reached {μ : S → Nat} {bound : Nat} (hmono : ∀ s a, μ s ≤ μ (step s a))
    (hreached : ∀ s, Runs step P s₀ s → μ s < bound → ∀ a, P s a → Q s a) (hrun : Runs step P s₀ s)
    (hbound : μ s < bound)
    : Runs step Q s₀ s := by
  induction hrun with
  | refl => exact .refl
  | @tail s s' hrun hlast ih =>
    rcases hlast with ⟨a, ha, rfl⟩
    have hbefore := Nat.lt_of_le_of_lt (hmono s a) hbound
    exact .tail (ih hbefore) ⟨a, hreached s hrun hbefore a ha, rfl⟩

/-- The steps of a list, one after the other. -/
theorem foldl (s : S) (l : List A) (hP : ∀ pre a post, l = pre ++ a :: post → P (pre.foldl step s) a)
    : Runs step P s (l.foldl step s) := by
  induction l generalizing s with
  | nil => exact .refl
  | cons a l ih =>
    refine .head ⟨a, hP [] a l rfl, rfl⟩ (ih _ fun pre b post heq => ?_)
    exact hP (a :: pre) b post (by rw [heq]; rfl)

end Runs
