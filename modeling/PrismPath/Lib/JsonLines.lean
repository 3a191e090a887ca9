import PrismPath.Lib.JsonPrefix
import PrismPath.Lib.LineFile

/-!
This module contains JSON objects as the lines of a file: a text is printable ASCII and has no newline, and a line that
holds more than an object is not read.
-/

namespace Json

/- What is written is printable ASCII. -/

def Printable (cs : List Char) : Prop :=
  ∀ c ∈ cs, 32 ≤ c.toNat ∧ c.toNat ≤ 126

theorem printable_nil
    : Printable [] := by
  intro c hc
  cases hc

theorem Printable.append {cs ds : List Char} (hcs : Printable cs) (hds : Printable ds)
    : Printable (cs ++ ds) := by
  intro c hc
  rcases List.mem_append.mp hc with hc | hc
  . apply hcs c hc
  . apply hds c hc

theorem Printable.cons {c : Char} {cs : List Char} (hc : 32 ≤ c.toNat ∧ c.toNat ≤ 126) (hcs : Printable cs)
    : Printable (c :: cs) := by
  intro d hd
  rcases List.mem_cons.mp hd with rfl | hd
  . exact hc
  . apply hcs d hd

theorem printable_of_all {cs : List Char} (h : (cs.all fun c => decide (32 ≤ c.toNat ∧ c.toNat ≤ 126)) = true)
    : Printable cs := by
  intro c hc
  have := List.all_eq_true.mp h c hc
  exact of_decide_eq_true this

theorem printable_of_isDigit {cs : List Char} (h : ∀ c ∈ cs, c.isDigit = true)
    : Printable cs := by
  intro c hc
  have hdigit := h c hc
  simp only [Char.isDigit, Bool.and_eq_true, decide_eq_true_eq, UInt32.le_iff_toNat_le] at hdigit
  have hlow : 48 ≤ c.toNat := hdigit.1
  have hhigh : c.toNat ≤ 57 := hdigit.2
  omega

theorem printable_unicodeEscape (n : ℕ)
    : Printable (unicodeEscape n) := by
  have hdigit : ∀ k < 16, 32 ≤ (Nat.digitChar k).toNat ∧ (Nat.digitChar k).toNat ≤ 126 := by decide
  have hmod : ∀ m, 32 ≤ (Nat.digitChar (m % 16)).toNat ∧ (Nat.digitChar (m % 16)).toNat ≤ 126 := by
    intro m
    apply hdigit
    apply Nat.mod_lt _ (by decide)
  refine .cons (by decide) (.cons (by decide) ?_)
  exact .cons (hmod _) (.cons (hmod _) (.cons (hmod _) (.cons (hmod _) printable_nil)))

theorem printable_escape (c : CodePoint)
    : Printable (escape c) := by
  unfold escape
  split
  . apply printable_of_all rfl
  split
  . apply printable_of_all rfl
  split
  . apply printable_of_all rfl
  split
  . apply printable_of_all rfl
  split
  . apply printable_of_all rfl
  split
  . apply printable_of_all rfl
  split
  . apply printable_of_all rfl
  split
  . next hrange =>
    refine .cons ?_ printable_nil
    rw [toNat_printable hrange.2]
    exact hrange
  split
  . apply printable_unicodeEscape
  . apply Printable.append
    . apply printable_unicodeEscape
    . apply printable_unicodeEscape

theorem printable_writeString (s : Str)
    : Printable (writeString s) := by
  have hbody : Printable (s.flatMap escape) := by
    intro c hc
    rcases List.mem_flatMap.mp hc with ⟨code, -, hcode⟩
    apply printable_escape code c hcode
  exact .append (.cons (by decide) hbody) (.cons (by decide) printable_nil)

theorem printable_number (n : Number)
    : Printable n.write := by
  have hfraction : Printable (writeFraction n.fraction) := by
    unfold writeFraction
    split
    . apply printable_nil
    . exact .cons (by decide) (printable_of_isDigit n.fraction.property)
  have hexponent : Printable (writeExponent n.exponent) := by
    unfold writeExponent
    split
    . apply printable_nil
    . next e _ =>
      refine .cons (by decide) (.append ?_ (printable_of_isDigit e.digits.property))
      split
      . apply printable_nil
      . apply printable_of_all rfl
      . apply printable_of_all rfl
  have hwhole : Printable (Nat.toDigits 10 n.whole) := by
    apply printable_of_isDigit
    intro c hc
    apply Nat.isDigit_of_mem_toDigits (by decide) (by decide) hc
  refine .append ?_ (.append hwhole (.append hfraction hexponent))
  split
  . apply printable_of_all rfl
  . apply printable_nil

theorem printable_gap (style : Style)
    : Printable style.gap := by
  cases style with
  | spaced => apply printable_of_all rfl
  | compact => apply printable_nil

mutual
theorem printable_write (style : Style) (t : Tree)
    : Printable (write style t) := by
  match t with
  | .word w => cases w <;> exact printable_of_all rfl
  | .number n => exact printable_number n
  | .string s => exact printable_writeString s
  | .array [] => exact printable_of_all rfl
  | .array (t :: ts) =>
    rw [write]
    exact .append (.cons (by decide) (printable_write style t)) (printable_items style ts)
  | .object [] => exact printable_of_all rfl
  | .object ((k, t) :: ms) =>
    rw [write]
    exact .append (.append (.append (.cons (by decide) (printable_writeString k))
      (.cons (by decide) (printable_gap style))) (printable_write style t)) (printable_members style ms)

theorem printable_items (style : Style) (ts : List Tree)
    : Printable (writeItems style ts) := by
  match ts with
  | [] => exact printable_of_all rfl
  | t :: ts =>
    rw [writeItems]
    exact .append (.append (.cons (by decide) (printable_gap style)) (printable_write style t))
      (printable_items style ts)

theorem printable_members (style : Style) (ms : List (Str × Tree))
    : Printable (writeMembers style ms) := by
  match ms with
  | [] => exact printable_of_all rfl
  | (k, t) :: ms =>
    rw [writeMembers]
    exact .append (.append (.append (.append (.cons (by decide) (printable_gap style)) (printable_writeString k))
      (.cons (by decide) (printable_gap style))) (printable_write style t)) (printable_members style ms)
end

/- No newline is written. -/

def OneLine (cs : List Char) : Prop :=
  '\n' ∉ cs

theorem OneLine.append {cs ds : List Char} (hcs : OneLine cs) (hds : OneLine ds)
    : OneLine (cs ++ ds) := by
  simp only [OneLine, List.mem_append, not_or]
  exact ⟨hcs, hds⟩

theorem OneLine.cons {c : Char} {cs : List Char} (hc : c ≠ '\n') (hcs : OneLine cs)
    : OneLine (c :: cs) := by
  simp only [OneLine, List.mem_cons, not_or]
  exact ⟨hc.symm, hcs⟩

theorem oneLine_unicodeEscape (n : ℕ)
    : OneLine (unicodeEscape n) := by
  have hdigit : ∀ k < 16, Nat.digitChar k ≠ '\n' := by decide
  have hmod : ∀ m, Nat.digitChar (m % 16) ≠ '\n' := fun m => hdigit _ (Nat.mod_lt _ (by decide))
  refine .cons (by decide) (.cons (by decide) ?_)
  exact .cons (hmod _) (.cons (hmod _) (.cons (hmod _) (.cons (hmod _) (by simp [OneLine]))))

theorem oneLine_escape (c : CodePoint)
    : OneLine (escape c) := by
  rcases escape_cases c with ⟨e, _, hsimple, h, _⟩ | ⟨hlo, hhi, _, _, h⟩ | ⟨_, h⟩ | ⟨_, h⟩
  . rw [h]
    have he : e ≠ '\n' := by
      rintro rfl
      cases hsimple
    exact .cons (by decide) (.cons he (by simp [OneLine]))
  . rw [h]
    have hc : Char.ofNat c.val ≠ '\n' := by
      intro heq
      have hval := congrArg Char.toNat heq
      rw [toNat_printable hhi] at hval
      change c.val = 10 at hval
      omega
    exact .cons hc (by simp [OneLine])
  . rw [h]
    exact oneLine_unicodeEscape _
  . rw [h]
    exact .append (oneLine_unicodeEscape _) (oneLine_unicodeEscape _)

theorem oneLine_writeString (s : Str)
    : OneLine (writeString s) := by
  have hbody : OneLine (s.flatMap escape) := by
    intro h
    rcases List.mem_flatMap.mp h with ⟨c, _, hc⟩
    exact oneLine_escape c hc
  exact .append (.cons (by decide) hbody) (.cons (by decide) (by simp [OneLine]))

theorem oneLine_digits (ds : Digits)
    : OneLine ds.val := by
  intro h
  have := ds.property '\n' h
  cases this

theorem oneLine_toDigits (n : ℕ)
    : OneLine (Nat.toDigits 10 n) := by
  intro h
  have hdigit : '\n'.isDigit = true := Nat.isDigit_of_mem_toDigits (by decide) (by decide) h
  cases hdigit

theorem oneLine_number (n : Number)
    : OneLine n.write := by
  have hfraction : OneLine (writeFraction n.fraction) := by
    unfold writeFraction
    split
    . simp [OneLine]
    . exact .cons (by decide) (oneLine_digits _)
  have hexponent : OneLine (writeExponent n.exponent) := by
    unfold writeExponent
    split
    . simp [OneLine]
    . next e =>
      refine .cons (by decide) (.append ?_ (oneLine_digits _))
      split <;> simp [OneLine]
  refine .append ?_ (.append (oneLine_toDigits _) (.append hfraction hexponent))
  split <;> simp [OneLine]

theorem oneLine_gap (style : Style)
    : OneLine style.gap := by
  cases style <;> simp [OneLine, Style.gap]

mutual
theorem oneLine_write (style : Style) (t : Tree)
    : OneLine (write style t) := by
  match t with
  | .word w => cases w <;> simp [OneLine, write, Word.text]
  | .number n => exact oneLine_number n
  | .string s => exact oneLine_writeString s
  | .array [] => simp [OneLine, write]
  | .array (t :: ts) =>
    rw [write]
    exact .append (.cons (by decide) (oneLine_write style t)) (oneLine_items style ts)
  | .object [] => simp [OneLine, write]
  | .object ((k, t) :: ms) =>
    rw [write]
    exact .append (.append (.append (.cons (by decide) (oneLine_writeString k))
      (.cons (by decide) (oneLine_gap style))) (oneLine_write style t)) (oneLine_members style ms)

theorem oneLine_items (style : Style) (ts : List Tree)
    : OneLine (writeItems style ts) := by
  match ts with
  | [] => simp [OneLine, writeItems]
  | t :: ts =>
    rw [writeItems]
    exact .append (.append (.cons (by decide) (oneLine_gap style)) (oneLine_write style t)) (oneLine_items style ts)

theorem oneLine_members (style : Style) (ms : List (Str × Tree))
    : OneLine (writeMembers style ms) := by
  match ms with
  | [] => simp [OneLine, writeMembers]
  | (k, t) :: ms =>
    rw [writeMembers]
    exact .append (.append (.append (.append (.cons (by decide) (oneLine_gap style)) (oneLine_writeString k))
      (.cons (by decide) (oneLine_gap style))) (oneLine_write style t)) (oneLine_members style ms)
end

/-- Objects, one in a line. -/
def lineCodec (style : Style) : LineCodec (List (Str × Tree)) Tree where
  line ms := write style (.object ms)
  value ms := (Tree.object ms).join
  read := parse
  line_ne_nil ms h := by
    rcases head_write style (.object ms) with ⟨c, cs, heq, _⟩
    rw [heq] at h
    cases h
  no_newline ms := oneLine_write style _
  read_line ms := parse_write style _
  read_cut ms p hp hne := parse_prefix style (opened_object style ms) hp hne

/-- A text that goes on after a value is not read. -/
theorem parse_write_append (style : Style) (t : Tree) {rest : List Char} (hboundary : Boundary rest)
    (hrest : skipSpace rest ≠ [])
    : parse (write style t ++ rest) = none := by
  rcases head_write style t with ⟨c, cs, htext, hspace, _⟩
  have hskip : skipSpace (write style t ++ rest) = write style t ++ rest := by
    rw [htext]
    exact skipSpace_of_head hspace
  have hfuel : (write style t).length ≤ (write style t ++ rest).length.succ := by
    rw [List.length_append]
    omega
  have h := (scanOnce_write style t hfuel).2 rest hboundary
  rw [parse, hskip, h]
  exact if_neg hrest

/-- Two objects in a line, the second whole or cut short, are not read. -/
theorem parse_glued (style : Style) (ms ms' : List (Str × Tree)) {p : List Char} (hp : p <+: write style (.object ms'))
    (hne : p ≠ [])
    : parse (write style (.object ms) ++ p) = none := by
  have hhead : ∃ rest, p = '{' :: rest := by
    rcases hp with ⟨q, hq⟩
    rcases p with _ | ⟨c, p⟩
    . exact absurd rfl hne
    . have hbrace : ∃ rest, write style (.object ms') = '{' :: rest := by
        rcases ms' with _ | ⟨⟨k, t⟩, ms'⟩
        . exact ⟨_, by rw [write]⟩
        . exact ⟨_, by rw [write]; rfl⟩
      rcases hbrace with ⟨rest, heq⟩
      rw [heq, List.cons_append, List.cons.injEq] at hq
      exact ⟨p, by rw [hq.1]⟩
  rcases hhead with ⟨rest, rfl⟩
  refine parse_write_append style _ (fun c rest' heq => ?_) ?_
  . cases heq
    decide
  . rw [skipSpace_of_head (by decide)]
    simp

end Json
