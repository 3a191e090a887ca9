import PrismPath.Safety.Policy

/-!
This module contains how a rule of a policy matches a text: the folding of the text, and the search for the rule's
patterns in the text and in what it folds to; and which denials of a literal pattern invisible characters cannot undo.
-/

namespace Guard

/- Folding. -/

def isInvisible (c : Char) : Bool :=
  c.toNat = 0x200b || c.toNat = 0x200c || c.toNat = 0x200d || c.toNat = 0x2060 || c.toNat = 0xfeff || c.toNat = 0xad

/--
What the guard uses of the Unicode tables of the runtime, and of its matcher: `sameLetter c d` is whether a literal `c`
matches `d` under `re.IGNORECASE`. Nothing but itself is the same letter as an invisible character, which has no case.
-/
structure Unicode where
  nfkc : List Char → List Char
  nfd : List Char → List Char
  nfc : List Char → List Char
  combining : Char → Bool
  casefold : List Char → List Char
  isWord : Char → Bool
  sameLetter : Char → Char → Bool
  search : List Char → List Flag → List Char → Bool
  sameLetter_refl : ∀ c, sameLetter c c = true
  sameLetter_invisible : ∀ c d, isInvisible c = true ∨ isInvisible d = true → sameLetter c d = true → c = d

def confusables : List (ℕ × Char) :=
  [(0x430, 'a'), (0x432, 'b'), (0x441, 'c'), (0x435, 'e'), (0x4bb, 'h'), (0x456, 'i'), (0x458, 'j'), (0x43a, 'k'),
    (0x43c, 'm'), (0x43d, 'h'), (0x43e, 'o'), (0x440, 'p'), (0x455, 's'), (0x442, 't'), (0x443, 'y'), (0x445, 'x'),
    (0x433, 'r'), (0x501, 'd'), (0x3bd, 'v'), (0x461, 'w'), (0x3b1, 'a'), (0x3b2, 'b'), (0x3b5, 'e'), (0x3b9, 'i'),
    (0x3ba, 'k'), (0x3bf, 'o'), (0x3c1, 'p'), (0x3c4, 't'), (0x3c5, 'u'), (0x3c7, 'x'), (0x3f2, 'c'), (0x475, 'v')]

def leetUnambiguous : List (Char × Char) :=
  [('4', 'a'), ('3', 'e'), ('5', 's'), ('0', 'o'), ('7', 't'), ('@', 'a'), ('$', 's')]

def stripInvisible (text : List Char) : List Char :=
  text.filter fun c => !isInvisible c

def stripAccents (u : Unicode) (text : List Char) : List Char :=
  u.nfc ((u.nfd text).filter fun c => !u.combining c)

def foldConfusables (text : List Char) : List Char :=
  text.map fun c => (confusables.lookup c.toNat).getD c

def foldLeet (text : List Char) : List Char :=
  text.map fun c => (leetUnambiguous.lookup c).getD c

/-- `[ .\-_]` -/
def isSeparator (c : Char) : Bool :=
  c = ' ' || c = '.' || c = '-' || c = '_'

/-- How often `\w[ .\-_]` matches one after the other at the start of a text. -/
def pairs (u : Unicode) : List Char → ℕ
  | c :: d :: cs => if u.isWord c && isSeparator d then pairs u cs + 1 else 0
  | _ => 0

/-- `\w\b` matches at the start. -/
def endsRun (u : Unicode) : List Char → Bool
  | [] => false
  | [c] => u.isWord c
  | c :: d :: _ => u.isWord c && !u.isWord d

/-- The length of a match of `(?:\w[ .\-_]){2,}\w\b` with at most `k` pairs, the longest first. -/
def runUpTo (u : Unicode) (text : List Char) : ℕ → Option ℕ
  | 0 => none
  | 1 => none
  | k + 2 => if endsRun u (text.drop (2 * (k + 2))) then some (2 * (k + 2) + 1) else runUpTo u text (k + 1)

/-- The text with its matches joined, where `afterWord` says whether a word character comes before it, and the first
`skip` characters are the rest of a match. -/
def collapseFrom (u : Unicode) : (afterWord : Bool) → (skip : ℕ) → List Char → List Char
  | _, _, [] => []
  | _, skip + 1, c :: cs =>
    if isSeparator c then collapseFrom u (u.isWord c) skip cs else c :: collapseFrom u (u.isWord c) skip cs
  | afterWord, 0, c :: cs =>
    match if afterWord then none else runUpTo u (c :: cs) (pairs u (c :: cs)) with
    | some length =>
      if isSeparator c then
        collapseFrom u (u.isWord c) (length - 1) cs
      else
        c :: collapseFrom u (u.isWord c) (length - 1) cs
    | none => c :: collapseFrom u (u.isWord c) 0 cs

/-- `_collapse_spaced_runs`, which joins what `\b(?:\w[ .\-_]){2,}\w\b` matches. -/
def collapseSpacedRuns (u : Unicode) (text : List Char) : List Char :=
  collapseFrom u false 0 text

def normalize (u : Unicode) (text : List Char) : List Char :=
  if text = [] then
    []
  else
    u.casefold (collapseSpacedRuns u (foldLeet (foldConfusables (stripAccents u (u.nfkc (stripInvisible text))))))

/- Matching. -/

/-- The literal matches at the start of the text. -/
def matchesHere (u : Unicode) : List Char → List Char → Bool
  | [], _ => true
  | _ :: _, [] => false
  | c :: cs, d :: ds => u.sameLetter c d && matchesHere u cs ds

def searchLiteral (u : Unicode) (value : List Char) : List Char → Bool
  | [] => matchesHere u value []
  | d :: ds => matchesHere u value (d :: ds) || searchLiteral u value ds

/-- `pattern.search(text)` -/
def Pattern.search (u : Unicode) (text : List Char) : Pattern → Bool
  | .literal value => searchLiteral u value text
  | .regex body flags => u.search body flags text

/-- The pattern matches the text or what it folds to. -/
def Pattern.denies (u : Unicode) (text : List Char) (pattern : Pattern) : Bool :=
  pattern.search u text || pattern.search u (normalize u text)

def Rule.matches (u : Unicode) (rule : Rule) (text : List Char) : Bool :=
  rule.patterns.any (Pattern.denies u text)

end Guard

namespace Guard

variable {u : Unicode}

/-- The second text is the first with invisible characters in between. -/
def Inserted (text text' : List Char) : Prop :=
  stripInvisible text' = text

def isAscii (text : List Char) : Bool :=
  text.all fun c => decide (c.toNat < 128)

/- Invisible characters and folding. -/

theorem isInvisible_of_ascii {text : List Char} (h : isAscii text = true) {c : Char} (hc : c ∈ text)
    : isInvisible c = false := by
  have hlt : c.toNat < 128 := by simpa using List.all_eq_true.mp h c hc
  simp only [isInvisible, Bool.or_eq_false_iff, decide_eq_false_iff_not]
  omega

theorem stripInvisible_ascii {text : List Char} (h : isAscii text = true)
    : stripInvisible text = text := by
  unfold stripInvisible
  rw [List.filter_eq_self]
  intro c hc
  rw [isInvisible_of_ascii h hc]
  rfl

/-- What a text folds to does not depend on its invisible characters. -/
theorem normalize_inserted {text text' : List Char} (h : isAscii text = true) (hne : text ≠ [])
    (hinserted : Inserted text text')
    : normalize u text' = normalize u text := by
  have hne' : text' ≠ [] := by
    rintro rfl
    exact hne hinserted.symm
  unfold normalize
  rw [if_neg hne, if_neg hne', stripInvisible_ascii h, hinserted]

/- Searching. -/

theorem matchesHere_append (value rest : List Char)
    : matchesHere u value (value ++ rest) = true := by
  induction value with
  | nil => rfl
  | cons c value ih =>
    rw [List.cons_append, matchesHere, u.sameLetter_refl, ih]
    rfl

theorem searchLiteral_iff {value text : List Char}
    : searchLiteral u value text = true ↔ ∃ rest, rest <:+ text ∧ matchesHere u value rest = true := by
  induction text with
  | nil =>
    simp [searchLiteral]
  | cons d text ih =>
    rw [searchLiteral, Bool.or_eq_true, ih]
    constructor
    . rintro (h | ⟨rest, hsuffix, h⟩)
      . exact ⟨_, List.suffix_refl _, h⟩
      . exact ⟨rest, hsuffix.trans (List.suffix_cons _ _), h⟩
    . rintro ⟨rest, hsuffix, h⟩
      rcases List.suffix_cons_iff.mp hsuffix with rfl | hsuffix
      . exact .inl h
      . exact .inr ⟨rest, hsuffix, h⟩

/-- A text that contains a literal as it is matches it. -/
theorem searchLiteral_of_contains {value text : List Char} (h : value <:+: text)
    : searchLiteral u value text = true := by
  rcases h with ⟨before, after, rfl⟩
  rw [searchLiteral_iff]
  refine ⟨value ++ after, ?_, matchesHere_append value after⟩
  rw [List.append_assoc]
  apply List.suffix_append

/-- Each character of a literal that matches is the same letter as one of the text. -/
theorem exists_sameLetter {value text : List Char} (h : searchLiteral u value text = true) {c : Char} (hc : c ∈ value)
    : ∃ d ∈ text, u.sameLetter c d = true := by
  rcases searchLiteral_iff.mp h with ⟨rest, hsuffix, hmatch⟩
  clear h
  have hrest : ∃ d ∈ rest, u.sameLetter c d = true := by
    clear hsuffix
    induction value generalizing rest with
    | nil => cases hc
    | cons c' value ih =>
      cases rest with
      | nil => cases hmatch
      | cons d rest =>
        rw [matchesHere, Bool.and_eq_true] at hmatch
        rcases List.mem_cons.mp hc with rfl | hc
        . exact ⟨d, List.mem_cons_self, hmatch.1⟩
        . rcases ih hc rest hmatch.2 with ⟨d', hd', hsame⟩
          exact ⟨d', List.mem_cons_of_mem _ hd', hsame⟩
  rcases hrest with ⟨d, hd, hsame⟩
  exact ⟨d, hsuffix.subset hd, hsame⟩

/- The text with a zero width space after each of its characters. -/

def zeroWidthSpace : Char :=
  Char.ofNat 0x200b

def spacedOut (text : List Char) : List Char :=
  text.flatMap fun c => [c, zeroWidthSpace]

theorem inserted_spacedOut {text : List Char} (h : isAscii text = true)
    : Inserted text (spacedOut text) := by
  have hzero : isInvisible zeroWidthSpace = true := by decide
  unfold Inserted stripInvisible spacedOut
  rw [List.filter_flatMap]
  have hall : ∀ c ∈ text, ([c, zeroWidthSpace].filter fun c => !isInvisible c) = [c] := by
    intro c hc
    simp [isInvisible_of_ascii h hc, hzero]
  rw [List.flatMap_congr hall]
  simp

/-- A literal of two characters, none of them invisible, is nowhere in it. -/
theorem searchLiteral_spacedOut {a b : Char} {value text : List Char} (ha : isInvisible a = false)
    (hb : isInvisible b = false)
    : searchLiteral u (a :: b :: value) (spacedOut text) = false := by
  have hzero : isInvisible zeroWidthSpace = true := by decide
  have hnot {c : Char} (hc : isInvisible c = false) : u.sameLetter c zeroWidthSpace = false := by
    by_contra hsame
    rw [Bool.not_eq_false] at hsame
    have heq := u.sameLetter_invisible c zeroWidthSpace (.inr hzero) hsame
    rw [heq, hzero] at hc
    cases hc
  induction text with
  | nil => rfl
  | cons c text ih =>
    have hcons : spacedOut (c :: text) = c :: zeroWidthSpace :: spacedOut text := rfl
    rw [hcons, searchLiteral, searchLiteral, ih]
    simp [matchesHere, hnot ha, hnot hb]

/- Denials. -/

/-- What is left of a match when the text is spaced out: a literal of one character. -/
theorem length_le_one {value text : List Char} (hascii : isAscii text = true) (h : searchLiteral u value text = true)
    (hspaced : searchLiteral u value (spacedOut text) = true)
    : value.length ≤ 1 := by
  have hvisible {c : Char} (hc : c ∈ value) : isInvisible c = false := by
    rcases exists_sameLetter h hc with ⟨d, hd, hsame⟩
    by_contra hinvisible
    rw [Bool.not_eq_false] at hinvisible
    have heq := u.sameLetter_invisible c d (.inl hinvisible) hsame
    rw [heq, isInvisible_of_ascii hascii hd] at hinvisible
    cases hinvisible
  cases value with
  | nil => simp
  | cons a value =>
    cases value with
    | nil => simp
    | cons b value =>
      have ha := hvisible List.mem_cons_self
      have hb := hvisible (List.mem_cons_of_mem _ List.mem_cons_self)
      rw [searchLiteral_spacedOut ha hb] at hspaced
      cases hspaced

theorem searchLiteral_short {value text text' : List Char} (hshort : value.length ≤ 1) (hsub : text ⊆ text')
    (h : searchLiteral u value text = true)
    : searchLiteral u value text' = true := by
  cases value with
  | nil => exact searchLiteral_iff.mpr ⟨[], List.nil_suffix, rfl⟩
  | cons a value =>
    have hnil : value = [] := by
      rw [List.length_cons] at hshort
      apply List.eq_nil_of_length_eq_zero
      omega
    subst hnil
    rcases exists_sameLetter h List.mem_cons_self with ⟨d, hd, hsame⟩
    rcases List.append_of_mem (hsub hd) with ⟨before, after, rfl⟩
    rw [searchLiteral_iff]
    refine ⟨d :: after, List.suffix_append _ _, ?_⟩
    rw [matchesHere, hsame]
    rfl

/-- The literal denies the text however many invisible characters are put in. -/
def SurvivesInsertion (u : Unicode) (value text : List Char) : Prop :=
  ∀ text', Inserted text text' → (Pattern.literal value).denies u text' = true

/-- The literal matches what the text folds to, or is of one character. -/
def FoldsAlike (u : Unicode) (value text : List Char) : Prop :=
  searchLiteral u value (normalize u text) = true ∨ value.length ≤ 1

theorem survivesInsertion_iff {value text : List Char} (hascii : isAscii text = true)
    (hdenied : (Pattern.literal value).denies u text = true)
    : SurvivesInsertion u value text ↔ FoldsAlike u value text := by
  unfold Pattern.denies Pattern.search at hdenied
  rw [Bool.or_eq_true] at hdenied
  constructor
  . intro hall
    rcases hdenied with hraw | hfolded
    . by_cases hne : text = []
      . subst hne
        right
        apply length_le_one hascii hraw hraw
      . have hspaced := hall (spacedOut text) (inserted_spacedOut hascii)
        unfold Pattern.denies Pattern.search at hspaced
        rw [normalize_inserted hascii hne (inserted_spacedOut hascii), Bool.or_eq_true] at hspaced
        rcases hspaced with hspaced | hfolded
        . exact .inr (length_le_one hascii hraw hspaced)
        . exact .inl hfolded
    . exact .inl hfolded
  . intro hcond text' hinserted
    have hsub : text ⊆ text' := by
      rw [← hinserted]
      exact List.filter_sublist.subset
    unfold Pattern.denies Pattern.search
    rw [Bool.or_eq_true]
    by_cases hne : text = []
    . -- only the empty literal denies the empty text
      have hraw : searchLiteral u value text = true := by
        rcases hdenied with hraw | hfolded
        . exact hraw
        . rwa [hne, normalize, if_pos rfl, ← hne] at hfolded
      have hnil : value = [] := by
        rw [hne] at hraw
        cases value with
        | nil => rfl
        | cons c value => cases hraw
      exact .inl (searchLiteral_short (by rw [hnil]; simp) hsub hraw)
    . rcases hcond with hfolded | hshort
      . right
        rwa [normalize_inserted hascii hne hinserted]
      . rcases hdenied with hraw | hfolded
        . exact .inl (searchLiteral_short hshort hsub hraw)
        . right
          rwa [normalize_inserted hascii hne hinserted]

theorem Rule.matches_of_denies {rule : Rule} {pattern : Pattern} {text : List Char} (hpattern : pattern ∈ rule.patterns)
    (h : pattern.denies u text = true)
    : rule.matches u text = true :=
  List.any_eq_true.mpr ⟨pattern, hpattern, h⟩

/--
A literal's denial of an ASCII text outlives every insertion if and only if the literal folds alike, where a rule with the
literal goes on denying; and a rule denies every text that contains a literal of it.
-/
theorem literal_denials (u : Unicode) {rule : Rule} {value : List Char} (hpattern : .literal value ∈ rule.patterns)
    : (∀ text, isAscii text = true → (Pattern.literal value).denies u text = true →
          (SurvivesInsertion u value text ↔ FoldsAlike u value text)) ∧
        (∀ text text', isAscii text = true → (Pattern.literal value).denies u text = true → FoldsAlike u value text →
          Inserted text text' → rule.matches u text' = true) ∧
        ∀ text, value <:+: text → rule.matches u text = true := by
  refine ⟨?_, ?_, ?_⟩
  . intro text hascii hdenied
    apply survivesInsertion_iff hascii hdenied
  . intro text text' hascii hdenied hfolds hinserted
    apply Rule.matches_of_denies hpattern
    exact (survivesInsertion_iff hascii hdenied).mpr hfolds text' hinserted
  . intro text hinfix
    apply Rule.matches_of_denies hpattern
    change (searchLiteral u value text || searchLiteral u value (normalize u text)) = true
    rw [searchLiteral_of_contains hinfix]
    rfl

/- ASCII texts. -/

/-- The tables on ASCII characters; any other character is the same letter as itself only. -/
def asciiUnicode : Unicode where
  nfkc cs := cs
  nfd cs := cs
  nfc cs := cs
  combining _ := false
  casefold cs := cs.map Python.lowerChar
  isWord c := c.isAlphanum || c = '_'
  sameLetter c d :=
    c = d || (decide (c.toNat < 128) && decide (d.toNat < 128) && Python.lowerChar c = Python.lowerChar d)
  search _ _ _ := false
  sameLetter_refl := by simp
  sameLetter_invisible := by
    intro c d hinvisible hsame
    simp only [Bool.or_eq_true, Bool.and_eq_true, decide_eq_true_eq] at hsame
    rcases hsame with heq | ⟨⟨hc, hd⟩, _⟩
    . exact heq
    . simp only [isInvisible, Bool.or_eq_true, decide_eq_true_eq] at hinvisible
      omega

def denyRule (value : String) : Rule where
  name := "r".toList
  directions := directions
  patterns := [.literal value.toList]
  message := []
  citation := []
  rationale := []
  policy := "floor".toList
  precedence := "floor".toList

theorem spacedLetters_denied
    : (denyRule "bomb").matches asciiUnicode (spacedOut "a bomb".toList) = true := by
  have hpattern : Pattern.literal "bomb".toList ∈ (denyRule "bomb").patterns := List.mem_cons_self
  refine (literal_denials asciiUnicode hpattern).2.1 "a bomb".toList _ ?_ ?_ (.inl ?_) ?_
  . decide +kernel
  . decide +kernel
  . decide +kernel
  . exact inserted_spacedOut (by decide +kernel)

/-- The digits of the text fold to letters, those of the pattern stay. -/
theorem digits_bypassed
    : ¬ ∀ (u : Unicode) (rule : Rule) (value text text' : List Char), rule.patterns = [.literal value] →
        isAscii text = true → rule.matches u text = true → Inserted text text' → rule.matches u text' = true := by
  intro h
  have hmatches := h asciiUnicode (denyRule "pin 4321") "pin 4321".toList "pin 4321".toList (spacedOut "pin 4321".toList)
    rfl (by decide +kernel) (by decide +kernel) (inserted_spacedOut (by decide +kernel))
  revert hmatches
  decide +kernel

end Guard
