import Mathlib.Data.List.Infix
import Mathlib.Tactic

/-!
This module contains files to which records are appended one line at a time, and which a crash can cut anywhere
in the line that was being appended.
-/

/-- How a record is written in one line, and what reading a line gives. -/
structure LineCodec (R β : Type) where
  line : R → List Char
  value : R → β
  read : List Char → Option β
  line_ne_nil : ∀ r, line r ≠ []
  no_newline : ∀ r, '\n' ∉ line r
  read_line : ∀ r, read (line r) = some (value r)
  read_cut : ∀ r p, p <+: line r → p ≠ line r → read p = none

namespace LineFile

/-- `text.split("\n")` -/
def splitLines : List Char → List (List Char)
  | [] => [[]]
  | c :: cs =>
    if c = '\n' then
      [] :: splitLines cs
    else
      match splitLines cs with
      | [] => [[c]]
      | l :: ls => (c :: l) :: ls

/-- The lines of a file: the empty one after a final newline is none. -/
def rawLines (t : List Char) : List (List Char) :=
  if (splitLines t).getLast? = some [] then (splitLines t).dropLast else splitLines t

/-- Reads one line after the other. A last line that cannot be read is left out, which the flag tells; at any other
line that cannot be read it gives up. -/
def readRecords {β : Type} (read : List Char → Option β) : List (List Char) → Option (List β × Bool)
  | [] => some ([], false)
  | l :: ls =>
    match read l with
    | some r => (readRecords read ls).map fun (rs, cut) => (r :: rs, cut)
    | none => if ls = [] then some ([], true) else none

/-- Whether an append would start a line of its own. -/
def ended (t : List Char) : Bool :=
  match t.getLast? with
  | none => true
  | some c => c = '\n'

theorem splitLines_of_no_newline {p : List Char} (h : '\n' ∉ p)
    : splitLines p = [p] := by
  induction p with
  | nil => rfl
  | cons c p ih =>
    simp only [List.mem_cons, not_or] at h
    rw [splitLines, if_neg (Ne.symm h.1), ih h.2]

theorem splitLines_line {l : List Char} (h : '\n' ∉ l) (t : List Char)
    : splitLines (l ++ '\n' :: t) = l :: splitLines t := by
  induction l with
  | nil => rfl
  | cons c l ih =>
    simp only [List.mem_cons, not_or] at h
    rw [List.cons_append, splitLines, if_neg (Ne.symm h.1), ih h.2]

variable {R β : Type} (codec : LineCodec R β)

/-- The file of whole lines. -/
def text (rs : List R) : List Char :=
  rs.flatMap fun r => codec.line r ++ ['\n']

theorem text_append (rs rs' : List R)
    : text codec (rs ++ rs') = text codec rs ++ text codec rs' :=
  List.flatMap_append

theorem text_singleton (r : R)
    : text codec [r] = codec.line r ++ ['\n'] := by
  simp [text]

/-- A file that reads as `rs`: its last line may lack the newline. -/
def Whole (t : List Char) (rs : List R) : Prop :=
  t = text codec rs ∨ ∃ rs' r, rs = rs' ++ [r] ∧ t = text codec rs' ++ codec.line r

/-- A file that keeps `rs`: a record cut short may stand at its end. -/
def Stores (t : List Char) (rs : List R) : Prop :=
  Whole codec t rs ∨ ∃ r p, p <+: codec.line r ∧ p ≠ codec.line r ∧ p ≠ [] ∧ t = text codec rs ++ p

variable {codec}

theorem whole_text (rs : List R)
    : Whole codec (text codec rs) rs :=
  .inl rfl

/- Reading. -/

theorem splitLines_text (rs : List R) {p : List Char} (h : '\n' ∉ p)
    : splitLines (text codec rs ++ p) = rs.map codec.line ++ [p] := by
  induction rs with
  | nil => exact splitLines_of_no_newline h
  | cons r rs ih =>
    have htext : text codec (r :: rs) ++ p = codec.line r ++ '\n' :: (text codec rs ++ p) := by
      simp [text]
    rw [htext, splitLines_line (codec.no_newline r), ih, List.map_cons, List.cons_append]

theorem rawLines_text (rs : List R)
    : rawLines (text codec rs) = rs.map codec.line := by
  have h := @splitLines_text R β codec rs [] (by simp)
  rw [List.append_nil] at h
  rw [rawLines, h, if_pos (by simp), List.dropLast_concat]

theorem rawLines_cut (rs : List R) {p : List Char} (h : '\n' ∉ p) (hp : p ≠ [])
    : rawLines (text codec rs ++ p) = rs.map codec.line ++ [p] := by
  rw [rawLines, splitLines_text rs h, if_neg (by simpa using hp)]

theorem readRecords_append (rs : List R) (ls : List (List Char))
    : readRecords codec.read (rs.map codec.line ++ ls)
      = (readRecords codec.read ls).map fun (vs, cut) => (rs.map codec.value ++ vs, cut) := by
  induction rs with
  | nil =>
    rw [List.map_nil, List.nil_append]
    cases readRecords codec.read ls <;> rfl
  | cons r rs ih =>
    rw [List.map_cons, List.cons_append, readRecords, codec.read_line, ih]
    cases readRecords codec.read ls <;> rfl

theorem readRecords_lines (rs : List R)
    : readRecords codec.read (rs.map codec.line) = some (rs.map codec.value, false) := by
  have h := @readRecords_append R β codec rs []
  simpa [readRecords] using h

theorem readRecords_whole {t : List Char} {rs : List R} (h : Whole codec t rs)
    : readRecords codec.read (rawLines t) = some (rs.map codec.value, false) := by
  rcases h with rfl | ⟨rs', r, rfl, rfl⟩
  . rw [rawLines_text, readRecords_lines]
  . rw [rawLines_cut rs' (codec.no_newline r) (codec.line_ne_nil r)]
    have h := @readRecords_lines R β codec (rs' ++ [r])
    rw [List.map_append] at h
    exact h

theorem no_newline_of_initial {r : R} {p : List Char} (h : p <+: codec.line r)
    : '\n' ∉ p :=
  fun hp => codec.no_newline r (h.subset hp)

/-- The lines in front of a record that was cut short make up the file without it. -/
theorem readRecords_cut {r : R} {p : List Char} (rs : List R) (h : p <+: codec.line r) (hne : p ≠ codec.line r)
    (hp : p ≠ [])
    : readRecords codec.read (rawLines (text codec rs ++ p)) = some (rs.map codec.value, true)
      ∧ ((rawLines (text codec rs ++ p)).dropLast.flatMap fun l => l ++ ['\n']) = text codec rs := by
  rw [rawLines_cut rs (no_newline_of_initial h) hp]
  constructor
  . rw [readRecords_append, readRecords, codec.read_cut r p h hne]
    simp
  . rw [List.dropLast_concat, List.flatMap_map]
    rfl

/- Appending. -/

theorem ended_text (rs : List R)
    : ended (text codec rs) = true := by
  rcases List.eq_nil_or_concat rs with rfl | ⟨rs', r, rfl⟩
  . rfl
  . rw [List.concat_eq_append, text_append, text_singleton, ← List.append_assoc]
    simp [ended]

/-- A file that ends its last line holds nothing but whole lines. -/
theorem eq_text_of_ended {t : List Char} {rs : List R} (h : Whole codec t rs) (hended : ended t = true)
    : t = text codec rs := by
  rcases h with rfl | ⟨rs', r, rfl, rfl⟩
  . rfl
  . exfalso
    rcases List.eq_nil_or_concat (codec.line r) with hnil | ⟨l, c, hl⟩
    . exact codec.line_ne_nil r hnil
    . rw [List.concat_eq_append] at hl
      have hc : c ≠ '\n' := by
        rintro rfl
        exact codec.no_newline r (by rw [hl]; simp)
      rw [hl, ← List.append_assoc] at hended
      simp [ended, hc] at hended

theorem append_line {t : List Char} {rs : List R} (h : Whole codec t rs) (hended : ended t = true) (r : R)
    : t ++ (codec.line r ++ ['\n']) = text codec (rs ++ [r]) := by
  rw [eq_text_of_ended h hended, text_append, text_singleton]

/-- An append that is cut short leaves the records there were, and the new one if it got that far. -/
theorem stores_append {t p : List Char} {rs : List R} (h : Whole codec t rs) (hended : ended t = true) (r : R)
    (hp : p <+: codec.line r ++ ['\n'])
    : Stores codec (t ++ p) rs ∨ Whole codec (t ++ p) (rs ++ [r]) := by
  have ht := eq_text_of_ended h hended
  rcases List.prefix_concat_iff.mp hp with rfl | hp
  . right
    left
    exact append_line h hended r
  . by_cases hne : p = codec.line r
    . right
      right
      exact ⟨rs, r, rfl, by rw [ht, hne]⟩
    . left
      by_cases hnil : p = []
      . rw [hnil, List.append_nil]
        exact .inl h
      . exact .inr ⟨r, p, hp, hne, hnil, by rw [ht]⟩

/- Files in which no record stands at the end without its newline. -/

/-- The file ends in a newline, or in a line that cannot be read. -/
def Clean (read : List Char → Option β) (t : List Char) : Prop :=
  ended t = true ∨ ∀ l, (rawLines t).getLast? = some l → read l = none

/-- A file of whole lines, or one with a part of another record behind them. -/
def Torn (codec : LineCodec R β) (t : List Char) (rs : List R) : Prop :=
  t = text codec rs ∨ ∃ r p, p <+: codec.line r ∧ p ≠ codec.line r ∧ p ≠ [] ∧ t = text codec rs ++ p

theorem torn_text (rs : List R)
    : Torn codec (text codec rs) rs :=
  .inl rfl

/-- A clean file that reads as `rs` has whole lines only. -/
theorem eq_text_of_clean {t : List Char} {rs : List R} (h : Whole codec t rs) (hclean : Clean codec.read t)
    : t = text codec rs := by
  rcases hclean with hended | hlast
  . exact eq_text_of_ended h hended
  . rcases h with rfl | ⟨rs', r, rfl, rfl⟩
    . rfl
    . exfalso
      have hlines := @rawLines_cut R β codec rs' _ (codec.no_newline r) (codec.line_ne_nil r)
      have hread := hlast (codec.line r) (by rw [hlines]; simp)
      rw [codec.read_line] at hread
      cases hread

/-- Where an append is cut short and the file is clean, the new record is there whole or not at all. -/
theorem torn_append {p : List Char} {rs : List R} (r : R) (hp : p <+: codec.line r ++ ['\n'])
    (hclean : Clean codec.read (text codec rs ++ p))
    : Torn codec (text codec rs ++ p) rs ∨ text codec rs ++ p = text codec (rs ++ [r]) := by
  rcases stores_append (whole_text rs) (ended_text rs) r hp with (hwhole | hcut) | hnew
  . left
    left
    exact eq_text_of_clean hwhole hclean
  . left
    right
    exact hcut
  . right
    exact eq_text_of_clean hnew hclean

end LineFile
