import Mathlib.Data.List.Count

/-!
This module contains words that end in a terminator, and when the place of the terminator can be told.
-/

namespace Terminated

variable {α : Type} [DecidableEq α] {t : α}

/-- Two words that hold the terminator equally often end at the same place. -/
theorem append_inj_of_count {a b x y : List α} (hcount : a.count t = b.count t) (h : a ++ t :: x = b ++ t :: y)
    : a = b ∧ x = y := by
  induction a generalizing b with
  | nil =>
    cases b with
    | nil => simpa using h
    | cons c b =>
      simp only [List.nil_append, List.cons_append, List.cons.injEq] at h
      rw [← h.1] at hcount
      simp at hcount
  | cons c a ih =>
    cases b with
    | nil =>
      simp only [List.nil_append, List.cons_append, List.cons.injEq] at h
      rw [h.1] at hcount
      simp at hcount
    | cons d b =>
      simp only [List.cons_append, List.cons.injEq] at h
      rw [h.1, List.count_cons, List.count_cons] at hcount
      rcases ih (by omega) h.2 with ⟨hab, hxy⟩
      exact ⟨by rw [h.1, hab], hxy⟩

theorem append_inj {a b x y : List α} (ha : t ∉ a) (hb : t ∉ b) (h : a ++ t :: x = b ++ t :: y) : a = b ∧ x = y := by
  apply append_inj_of_count _ h
  rw [List.count_eq_zero.mpr ha, List.count_eq_zero.mpr hb]

end Terminated
