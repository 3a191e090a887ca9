import Mathlib.Data.List.DropRight

/-!
This module contains the string methods the kernel reads conditions with.
-/

namespace Python

/-- `str.isspace` of one character. -/
def isSpace (c : Char) : Bool :=
  let n := c.toNat
  (9 ≤ n && n ≤ 13) || (28 ≤ n && n ≤ 32) || n = 0x85 || n = 0xA0 || n = 0x1680
    || (0x2000 ≤ n && n ≤ 0x200A) || n = 0x2028 || n = 0x2029 || n = 0x202F || n = 0x205F || n = 0x3000

def lstripChars (cs : List Char) : List Char :=
  cs.dropWhile isSpace

def rstripChars (cs : List Char) : List Char :=
  cs.rdropWhile isSpace

def strip (s : String) : String :=
  .ofList (rstripChars (lstripChars s.toList))

def rstrip (s : String) : String :=
  .ofList (rstripChars s.toList)

/--
`str.lower` on the letters a keyword is made of. The other cased letters stay as they are: none of them
lowers to a letter of a keyword alone, so no test below can tell.
-/
def lowerChar (c : Char) : Char :=
  if 'A' ≤ c ∧ c ≤ 'Z' then Char.ofNat (c.toNat + 32) else c

def lower (s : String) : String :=
  .ofList (s.toList.map lowerChar)

def startsWith (s p : String) : Bool :=
  p.toList.isPrefixOf s.toList

/-- `s[n:]`. -/
def dropChars (s : String) (n : Nat) : String :=
  .ofList (s.toList.drop n)

theorem lstripChars_strip (cs : List Char)
    : lstripChars (rstripChars (lstripChars cs)) = rstripChars (lstripChars cs) := by
  rw [lstripChars, List.dropWhile_eq_self_iff]
  intro hlen
  have hne : lstripChars cs ≠ [] := by
    intro hnil
    simp [hnil, rstripChars] at hlen
  have hpos := List.length_pos_of_ne_nil hne
  have hhead : (rstripChars (lstripChars cs))[0] = (lstripChars cs)[0] :=
    (List.rdropWhile_prefix isSpace _).getElem hlen
  rw [hhead]
  exact List.dropWhile_get_zero_not isSpace cs hpos

/-- Text without white space at either end. -/
def Stripped (s : String) : Prop :=
  lstripChars s.toList = s.toList ∧ rstripChars s.toList = s.toList

theorem stripped_strip (s : String)
    : Stripped (strip s) := by
  constructor
  . rw [strip, String.toList_ofList, lstripChars_strip]
  . rw [strip, String.toList_ofList, rstripChars, rstripChars, List.rdropWhile_idempotent]

theorem strip_of_stripped {s : String} (h : Stripped s)
    : strip s = s := by
  rw [strip, h.1, h.2, String.ofList_toList]

/-- A word in front of stripped text is stripped if it starts with no space. -/
theorem stripped_append {p s : String} (hp : lstripChars p.toList = p.toList) (hne : p ≠ "") (hs : Stripped s)
    (hs' : s ≠ "")
    : Stripped (p ++ s) := by
  have hp0 : p.toList ≠ [] := by simpa using hne
  have hs0 : s.toList ≠ [] := by simpa using hs'
  constructor
  . rw [String.toList_append, lstripChars, List.dropWhile_append]
    rw [lstripChars] at hp
    rw [hp]
    simp [hne]
  . rw [String.toList_append, rstripChars, List.rdropWhile_eq_self_iff]
    intro hl
    rw [List.getLast_append_of_ne_nil _ hs0]
    exact List.rdropWhile_eq_self_iff.mp hs.2 hs0

/-- A word in front of text that is not blank keeps its own spaces. -/
theorem startsWith_strip_append {p s : String} (hp : lstripChars p.toList = p.toList) (hne : p ≠ "")
    (hs : strip s ≠ "")
    : startsWith (strip (p ++ s)) p = true := by
  have hlast : rstripChars s.toList ≠ [] := by
    intro hnil
    rw [rstripChars, List.rdropWhile_eq_nil_iff] at hnil
    apply hs
    have : lstripChars s.toList = [] := by
      rw [lstripChars, List.dropWhile_eq_nil_iff]
      exact hnil
    simp [strip, this, rstripChars]
  have hleft : lstripChars (p.toList ++ s.toList) = p.toList ++ s.toList := by
    rw [lstripChars, List.dropWhile_append]
    rw [lstripChars] at hp
    rw [hp]
    simp [hne]
  have hright : rstripChars (p.toList ++ s.toList) = p.toList ++ rstripChars s.toList := by
    rw [rstripChars, List.rdropWhile, List.reverse_append, List.dropWhile_append]
    rw [rstripChars, List.rdropWhile] at hlast
    split
    . next hempty =>
      rw [List.isEmpty_iff] at hempty
      rw [hempty] at hlast
      simp at hlast
    . simp [rstripChars, List.rdropWhile]
  simp [startsWith, strip, String.toList_append, hleft, hright]

theorem startsWith_iff {s p : String}
    : startsWith s p = true ↔ p.toList <+: s.toList := by
  rw [startsWith, List.isPrefixOf_iff_prefix]

theorem startsWith_append (p s : String)
    : startsWith (p ++ s) p = true := by
  simp [startsWith, String.toList_append]

theorem lower_append (s t : String)
    : lower (s ++ t) = lower s ++ lower t := by
  simp [lower, String.ofList_append]

theorem startsWith_lower {s p : String} (h : startsWith s p = true)
    : startsWith (lower s) (lower p) = true := by
  simp only [startsWith_iff, lower, String.toList_ofList] at h ⊢
  exact h.map lowerChar

/-- Two words that text starts with agree on their first letter. -/
theorem head?_eq_of_startsWith {s p q : String} (hp : startsWith s p = true) (hq : startsWith s q = true)
    (hpne : p.toList ≠ []) (hqne : q.toList ≠ [])
    : p.toList.head? = q.toList.head? := by
  rw [startsWith_iff] at hp hq
  rcases hp with ⟨t, ht⟩
  rcases hq with ⟨u, hu⟩
  have h := ht.trans hu.symm
  cases hcp : p.toList with
  | nil => exact absurd hcp hpne
  | cons c cs =>
    cases hcq : q.toList with
    | nil => exact absurd hcq hqne
    | cons d ds =>
      rw [hcp, hcq] at h
      simp only [List.cons_append, List.cons.injEq] at h
      simp [h.1]

theorem dropChars_append (p s : String)
    : dropChars (p ++ s) p.toList.length = s := by
  simp [dropChars, String.toList_append]

-- Nothing is learnt from unfolding these on a text that is not a literal.
attribute [irreducible] strip rstrip lower startsWith dropChars

end Python
