import PrismPath.Python.Text

/-!
This module contains the methods of a text that cut it into lines and take the white space off its ends.
-/

namespace Python

/-- The characters `str.splitlines` breaks a text at. -/
def isLineBreak (c : Char) : Bool :=
  let n := c.toNat
  (10 ≤ n && n ≤ 13) || (28 ≤ n && n ≤ 30) || n = 0x85 || n = 0x2028 || n = 0x2029

/-- The lines of a text that begins in the middle of one. -/
def splitlinesFrom (line : List Char) : List Char → List (List Char)
  | [] => if line = [] then [] else [line]
  | '\r' :: '\n' :: cs => line :: splitlinesFrom [] cs
  | c :: cs => if isLineBreak c then line :: splitlinesFrom [] cs else splitlinesFrom (line ++ [c]) cs

/-- `str.splitlines` -/
def splitlines (cs : List Char) : List (List Char) :=
  splitlinesFrom [] cs

/-- `str.strip` -/
def stripChars (cs : List Char) : List Char :=
  rstripChars (lstripChars cs)

/-- `s.strip(c)` -/
def stripChar (c : Char) (cs : List Char) : List Char :=
  (cs.dropWhile (· = c)).rdropWhile (· = c)

/-- Text of one line with no white space at either end. -/
structure OneLine (cs : List Char) : Prop where
  unbroken : ∀ c ∈ cs, isLineBreak c = false
  stripped : stripChars cs = cs

theorem unbroken_iff (cs : List Char)
    : cs.all (fun c => !isLineBreak c) = true ↔ ∀ c ∈ cs, isLineBreak c = false := by
  simp

instance (cs : List Char) : Decidable (OneLine cs) :=
  decidable_of_iff (cs.all (fun c => !isLineBreak c) = true ∧ stripChars cs = cs)
    ⟨fun h => ⟨(unbroken_iff cs).mp h.1, h.2⟩, fun h => ⟨(unbroken_iff cs).mpr h.unbroken, h.stripped⟩⟩

theorem isSpace_of_isLineBreak {c : Char} (h : isLineBreak c = true)
    : isSpace c = true := by
  unfold isLineBreak at h
  unfold isSpace
  simp only [Bool.or_eq_true, Bool.and_eq_true, decide_eq_true_eq] at h ⊢
  omega

theorem stripChars_stripChars (cs : List Char)
    : stripChars (stripChars cs) = stripChars cs := by
  unfold stripChars
  rw [lstripChars_strip]
  unfold rstripChars
  apply List.rdropWhile_idempotent

theorem infix_stripChars (cs : List Char)
    : stripChars cs <:+: cs := by
  apply List.IsInfix.trans
  . exact (List.rdropWhile_prefix isSpace _).isInfix
  . exact (List.dropWhile_suffix isSpace).isInfix

theorem oneLine_stripChars {cs : List Char} (h : ∀ c ∈ cs, isLineBreak c = false)
    : OneLine (stripChars cs) where
  unbroken := by
    intro c hc
    exact h c ((infix_stripChars cs).subset hc)
  stripped := stripChars_stripChars cs

/-- Stripping a text that is not blank leaves something. -/
theorem stripChars_ne_nil {cs : List Char} {c : Char} (hc : c ∈ cs) (hspace : isSpace c = false)
    : stripChars cs ≠ [] := by
  intro hnil
  unfold stripChars at hnil
  unfold rstripChars at hnil
  rw [List.rdropWhile_eq_nil_iff] at hnil
  have hmem : c ∈ lstripChars cs := by
    rw [← List.takeWhile_append_dropWhile (p := isSpace) (l := cs)] at hc
    rcases List.mem_append.mp hc with hc | hc
    . rw [List.mem_takeWhile_imp hc] at hspace
      cases hspace
    . exact hc
  rw [hnil c hmem] at hspace
  cases hspace

/-- What is read of the lines of a text, where nothing is read of an empty one, does not depend on how the two characters
of one line break are counted. -/
theorem filterMap_splitlines {α : Type} {read : List Char → Option α} (hread : read [] = none) (cs : List Char)
    : (splitlines cs).filterMap read = (cs.splitOnP isLineBreak).filterMap read := by
  have hfrom (line : List Char)
      : (splitlinesFrom line cs).filterMap read = (cs.splitOnPPrepend isLineBreak line.reverse).filterMap read := by
    induction line, cs using splitlinesFrom.induct with
    | case1 =>
      simp [splitlinesFrom, hread]
    | case2 line hne =>
      simp [splitlinesFrom, hne]
    | case3 line cs ih =>
      have hreturn : isLineBreak '\r' = true := by decide
      have hnewline : isLineBreak '\n' = true := by decide
      rw [List.reverse_nil, List.splitOnPPrepend_nil_right] at ih
      rw [splitlinesFrom, List.splitOnPPrepend_cons_pos hreturn, List.splitOnP_eq_splitOnPPrepend,
        List.splitOnPPrepend_cons_pos hnewline]
      simp only [List.filterMap_cons, List.reverse_reverse, List.reverse_nil, hread, ih]
    | case4 line c cs hne hbreak ih =>
      rw [List.reverse_nil, List.splitOnPPrepend_nil_right] at ih
      rw [splitlinesFrom, if_pos hbreak, List.splitOnPPrepend_cons_pos hbreak]
      . simp only [List.filterMap_cons, List.reverse_reverse, ih]
      . exact hne
    | case5 line c cs hne hbreak ih =>
      rw [splitlinesFrom, if_neg hbreak, List.splitOnPPrepend_cons_neg (Bool.not_eq_true _ ▸ hbreak)]
      . rw [ih, List.reverse_append]
        rfl
      . exact hne
  exact hfrom []

theorem mem_of_mem_splitOnP {α : Type} {p : α → Bool} {xs piece : List α} (h : piece ∈ xs.splitOnP p)
    : (∀ x ∈ piece, p x = false) ∧ piece ⊆ xs := by
  induction xs generalizing piece with
  | nil =>
    rw [List.splitOnP_nil, List.mem_singleton] at h
    subst h
    simp
  | cons x xs ih =>
    rw [List.splitOnP_cons_eq_if_modifyHead] at h
    split at h
    . rcases List.mem_cons.mp h with rfl | h
      . simp
      . exact ⟨(ih h).1, List.subset_cons_of_subset _ (ih h).2⟩
    . next hx =>
      cases hpieces : xs.splitOnP p with
      | nil => exact absurd hpieces (List.splitOnP_ne_nil p xs)
      | cons first pieces =>
        rw [hpieces, List.modifyHead_cons] at h
        rcases List.mem_cons.mp h with rfl | h
        . rcases ih (hpieces ▸ List.mem_cons_self) with ⟨hp, hsub⟩
          refine ⟨?_, ?_⟩
          . intro y hy
            rcases List.mem_cons.mp hy with rfl | hy
            . exact Bool.not_eq_true _ ▸ hx
            . exact hp y hy
          . exact List.cons_subset_cons x hsub
        . rcases ih (hpieces ▸ List.mem_cons_of_mem _ h) with ⟨hp, hsub⟩
          exact ⟨hp, List.subset_cons_of_subset _ hsub⟩

end Python
