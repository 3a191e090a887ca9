import Mathlib
import PrismPath.Lib.Process
import PrismPath.Safety.Policy

/-!
This module contains where the clauses of a policy document go: a policy holds every clause of its document if and only
if no clause stands where the parser takes a line for something else.
-/

open Python

namespace Guard

variable {rt : Runtime}

/- Clauses. -/

inductive Verb where
  | deny
  | approve
  | allow
  deriving DecidableEq

def verbOf (key : List Char) : Option Verb :=
  if key = "deny".toList then some .deny
  else if key = "approve".toList then some .approve
  else if key = "allow".toList then some .allow
  else none

/-- The clause that a line begins: what it does, and the text of its pattern. -/
def clauseOf (rt : Runtime) (line : List Char) : Option (Verb × List Char) := do
  let (key, value) ← attrOf rt (stripChars line)
  let verb ← verbOf (rt.lower key)
  return (verb, value)

def clausesIn (rt : Runtime) (text : List Char) : List (Verb × List Char) :=
  (splitlines text).filterMap (clauseOf rt)

/-- The pattern is what the text of the clause is compiled to. -/
def Contributes (rt : Runtime) (clause : Verb × List Char) (pattern : Pattern) : Prop :=
  ∃ rule, parsePattern rt clause.2 rule = .ok pattern

/-- The patterns of the rules are, one after the other, those of the clauses of the document. -/
def Attributed (rt : Runtime) (text : List Char) (policy : Policy) : Prop :=
  List.Forall₂ (Contributes rt) (clausesIn rt text) (policy.rules.flatMap Rule.patterns)

def isPreamble (line : List Char) : Bool :=
  (headingOf line).isNone

/-- The clauses of the front matter and of the preamble, and those under a heading that approve. -/
def strayClauses (rt : Runtime) (text : List Char) : List (Verb × List Char) :=
  match frontmatter text with
  | none => []
  | some (fm, body) =>
    clausesIn rt fm
      ++ ((splitlines body).takeWhile isPreamble).filterMap (clauseOf rt)
      ++ (((splitlines body).dropWhile isPreamble).filterMap (clauseOf rt)).filter (·.1 = .approve)

/- Lines that begin no clause. -/

theorem isAlpha_of_isSpace {c : Char} (h : isSpace c = true)
    : (c.isAlpha || c = '_') = false := by
  have hne : c ≠ '_' := by
    rintro rfl
    revert h
    decide
  unfold isSpace at h
  simp only [Bool.or_eq_true, Bool.and_eq_true, decide_eq_true_eq] at h
  simp only [Bool.or_eq_false_iff, decide_eq_false_iff_not]
  refine ⟨?_, hne⟩
  by_contra halpha
  simp only [Bool.not_eq_false, Char.isAlpha, Char.isUpper, Char.isLower, Bool.or_eq_true, Bool.and_eq_true,
    decide_eq_true_eq, ge_iff_le, UInt32.le_iff_toNat_le] at halpha
  simp only [Char.toNat] at h
  have hA : 'A'.val.toNat = 65 := rfl
  have hZ : 'Z'.val.toNat = 90 := rfl
  have ha : 'a'.val.toNat = 97 := rfl
  have hz : 'z'.val.toNat = 122 := rfl
  omega

theorem clauseOf_eq_none {line : List Char} (h : ∀ c ∈ line, isSpace c = true ∨ c = '-')
    : clauseOf rt line = none := by
  have hattr : attrOf rt (stripChars line) = none := by
    cases hstrip : stripChars line with
    | nil => rfl
    | cons c cs =>
      have hmem : c ∈ line := (infix_stripChars line).subset (hstrip ▸ List.mem_cons_self)
      have hfirst : (c.isAlpha || c = '_') = false := by
        rcases h c hmem with hspace | rfl
        . apply isAlpha_of_isSpace hspace
        . decide
      rw [attrOf, if_neg (by simp only [hfirst, Bool.false_eq_true, not_false_eq_true])]
  simp [clauseOf, hattr]

theorem clauseOf_heading {line : List Char} (h : isPreamble line = false)
    : clauseOf rt line = none := by
  unfold isPreamble headingOf at h
  split at h
  . next c name =>
    have hstrip : ∃ cs, stripChars ('#' :: '#' :: c :: name) = '#' :: cs := by
      have hleft : lstripChars ('#' :: '#' :: c :: name) = '#' :: '#' :: c :: name := by
        unfold lstripChars
        rw [List.dropWhile_cons_of_neg (by decide)]
      have hprefix' := List.rdropWhile_prefix isSpace ('#' :: '#' :: c :: name)
      unfold stripChars
      rw [hleft]
      unfold rstripChars
      cases hdrop : List.rdropWhile isSpace ('#' :: '#' :: c :: name) with
      | nil =>
        rw [List.rdropWhile_eq_nil_iff] at hdrop
        exact absurd (hdrop '#' List.mem_cons_self) (by decide)
      | cons d ds =>
        rw [hdrop] at hprefix'
        rcases hprefix' with ⟨tail, htail⟩
        rw [List.cons_append, List.cons.injEq] at htail
        rw [htail.1]
        exact ⟨ds, rfl⟩
    rcases hstrip with ⟨cs, hcs⟩
    simp [clauseOf, hcs, attrOf]
  . simp at h

/- The two parts of a document. -/

theorem of_mem_blankEnds {cs rest : List Char} (h : rest ∈ blankEnds cs)
    : ∃ blank, cs = blank ++ '\n' :: rest ∧ ∀ c ∈ blank, isSpace c = true := by
  induction cs with
  | nil => cases h
  | cons c cs ih =>
    unfold blankEnds at h
    split at h
    . next hspace =>
      rcases List.mem_append.mp h with h | h
      . rcases ih h with ⟨blank, rfl, hblank⟩
        refine ⟨c :: blank, rfl, ?_⟩
        intro d hd
        rcases List.mem_cons.mp hd with rfl | hd
        . exact hspace
        . exact hblank d hd
      . split at h
        . next hnewline =>
          rw [List.mem_singleton] at h
          subst h hnewline
          exact ⟨[], rfl, by simp⟩
        . cases h
    . cases h

theorem closingAt_eq_some {cs body : List Char} (h : closingAt cs = some body)
    : ∃ blank, cs = '\n' :: fence ++ blank ++ '\n' :: body ∧ ∀ c ∈ blank, isSpace c = true := by
  unfold closingAt at h
  split at h
  . next hfence =>
    rw [List.isPrefixOf_iff_prefix] at hfence
    rcases hfence with ⟨rest, rfl⟩
    have hdrop : ('\n' :: fence ++ rest).drop 4 = rest := rfl
    rw [hdrop] at h
    rcases of_mem_blankEnds (List.mem_of_head? h) with ⟨blank, rfl, hblank⟩
    exact ⟨blank, by simp, hblank⟩
  . cases h

theorem closing_eq_some {cs fm body : List Char} (h : closing cs = some (fm, body))
    : ∃ blank, cs = fm ++ '\n' :: fence ++ blank ++ '\n' :: body ∧ ∀ c ∈ blank, isSpace c = true := by
  induction cs generalizing fm with
  | nil => cases h
  | cons c cs ih =>
    unfold closing at h
    split at h
    . next found hfound =>
      cases h
      rcases closingAt_eq_some hfound with ⟨blank, hcs, hblank⟩
      exact ⟨blank, hcs, hblank⟩
    . rcases Option.map_eq_some_iff.mp h with ⟨⟨fm', body'⟩, hrest, heq⟩
      cases heq
      rcases ih hrest with ⟨blank, rfl, hblank⟩
      exact ⟨blank, rfl, hblank⟩

theorem frontmatter_eq_some {text fm body : List Char} (h : frontmatter text = some (fm, body))
    : ∃ blank blank', text = fence ++ blank ++ '\n' :: (fm ++ '\n' :: (fence ++ blank' ++ '\n' :: body)) ∧
        (∀ c ∈ blank, isSpace c = true) ∧ ∀ c ∈ blank', isSpace c = true := by
  unfold frontmatter at h
  split at h
  . next hfence =>
    rw [List.isPrefixOf_iff_prefix] at hfence
    rcases hfence with ⟨rest, rfl⟩
    have hdrop : (fence ++ rest).drop 3 = rest := rfl
    rw [hdrop] at h
    rcases List.exists_of_findSome?_eq_some h with ⟨inner, hinner, hclosing⟩
    rcases of_mem_blankEnds hinner with ⟨blank, rfl, hblank⟩
    rcases closing_eq_some hclosing with ⟨blank', rfl, hblank'⟩
    exact ⟨blank, blank', by simp, hblank, hblank'⟩
  . cases h

theorem clausesIn_append (xs ys : List Char)
    : clausesIn rt (xs ++ '\n' :: ys) = clausesIn rt xs ++ clausesIn rt ys := by
  have hnil : clauseOf rt [] = none := clauseOf_eq_none (by simp)
  have hnewline : isLineBreak '\n' = true := by decide
  unfold clausesIn
  rw [filterMap_splitlines hnil, filterMap_splitlines hnil, filterMap_splitlines hnil,
    List.splitOnP_append_cons xs ys hnewline, List.filterMap_append]

theorem clausesIn_fence {blank : List Char} (h : ∀ c ∈ blank, isSpace c = true)
    : clausesIn rt (fence ++ blank) = [] := by
  unfold clausesIn
  rw [filterMap_splitlines (clauseOf_eq_none (by simp)), List.filterMap_eq_nil_iff]
  intro line hline
  apply clauseOf_eq_none
  intro c hc
  rcases List.mem_append.mp ((mem_of_mem_splitOnP hline).2 hc) with hc | hc
  . right
    rw [fence] at hc
    simpa using hc
  . left
    exact h c hc

theorem clausesIn_of_frontmatter {text fm body : List Char} (h : frontmatter text = some (fm, body))
    : clausesIn rt text = clausesIn rt fm ++ clausesIn rt body := by
  rcases frontmatter_eq_some h with ⟨blank, blank', rfl, hblank, hblank'⟩
  rw [clausesIn_append, clausesIn_append, clausesIn_append, clausesIn_fence hblank, clausesIn_fence hblank']
  simp

/- The rules that are read. -/

/-- The patterns that have been read: those of the rules, and those of the section that is open. -/
def State.held (st : State) : List Pattern :=
  st.rules.flatMap Rule.patterns ++ (st.current.map Draft.patterns).getD []

/-- The clauses of some lines that are not of a verb the parser does not know. -/
def ruleClauses (rt : Runtime) (lines : List (List Char)) : List (Verb × List Char) :=
  (lines.filterMap (clauseOf rt)).filter (·.1 ≠ .approve)

theorem held_withProse (st : State) (line : List Char)
    : (st.withProse line).held = st.held ∧ (st.withProse line).current = st.current := by
  unfold State.withProse
  split
  . exact ⟨rfl, rfl⟩
  . exact ⟨rfl, rfl⟩

theorem flush_held {header : Header} {st : State} {rules : List Rule} (h : flush header st = .ok rules)
    : rules.flatMap Rule.patterns = st.held := by
  unfold flush at h
  unfold State.held
  split at h
  . next hcurrent =>
    cases h
    simp [hcurrent]
  . next draft hcurrent =>
    split at h
    . cases h
    . cases h
      simp [hcurrent]

/-- A line under a heading adds the pattern of its clause, if it begins one that the parser knows. -/
theorem readRuleLine_held {header : Header} {st st' : State} {draft : Draft} {line : List Char}
    (hcurrent : st.current = some draft) (h : readRuleLine rt header st draft line = .ok st')
    : st'.current.isSome = true ∧
        ∃ patterns, st'.held = st.held ++ patterns ∧
          List.Forall₂ (Contributes rt) (ruleClauses rt [line]) patterns := by
  have hkeep {draft' : Draft} (hpatterns : draft'.patterns = draft.patterns)
      : ({ st with current := some draft' } : State).held = st.held := by
    unfold State.held
    simp only [hcurrent, Option.map_some, Option.getD_some, hpatterns]
  have hprose : (st.withProse line).current.isSome = true := by
    rw [(held_withProse st line).2, hcurrent]
    rfl
  unfold readRuleLine at h
  split at h
  . next hattr =>
    cases h
    refine ⟨hprose, [], by rw [(held_withProse st line).1, List.append_nil], ?_⟩
    simp [ruleClauses, clauseOf, hattr]
  . next key value hattr =>
    have hclause : clauseOf rt line = (verbOf (rt.lower key)).map fun verb => (verb, value) := by
      unfold clauseOf
      rw [hattr, Option.bind_eq_bind, Option.bind_some]
      dsimp only
      cases verbOf (rt.lower key) <;> rfl
    dsimp only at h
    split at h
    . next hdeny =>
      rcases Except.bind_eq_ok.mp h with ⟨pattern, hpattern, h⟩
      cases h
      refine ⟨rfl, [pattern], ?_, ?_⟩
      . simp [State.held, hcurrent]
      . have hverb : verbOf (rt.lower key) = some .deny := by
          rw [hdeny]
          decide
        have hclauses : ruleClauses rt [line] = [(.deny, value)] := by
          simp [ruleClauses, hclause, hverb]
        rw [hclauses]
        exact .cons ⟨draft.name, hpattern⟩ .nil
    . next hdeny =>
      split at h
      . cases h
      . next hallow =>
        have hclauses : ruleClauses rt [line] = [] := by
          unfold ruleClauses
          rw [List.filter_eq_nil_iff]
          intro clause hmem
          simp only [List.filterMap_cons, List.filterMap_nil, hclause, verbOf, if_neg hdeny, if_neg hallow] at hmem
          split at hmem
          . cases hmem
          . next found hfound =>
            rw [List.mem_singleton] at hmem
            subst hmem
            split at hfound
            . cases hfound
              simp
            . cases hfound
        have hnone {st'' : State} (hcur : st''.current.isSome = true) (hheld : st''.held = st.held)
            : st''.current.isSome = true ∧
                ∃ patterns, st''.held = st.held ++ patterns ∧
                  List.Forall₂ (Contributes rt) (ruleClauses rt [line]) patterns := by
          refine ⟨hcur, [], by rw [hheld, List.append_nil], ?_⟩
          rw [hclauses]
          exact .nil
        split at h
        . rcases Except.bind_eq_ok.mp h with ⟨directions, _, h⟩
          cases h
          apply hnone rfl
          apply hkeep rfl
        . split at h
          . cases h
            apply hnone rfl
            apply hkeep rfl
          . split at h
            . cases h
              apply hnone rfl
              apply hkeep rfl
            . cases h
              apply hnone hprose
              exact (held_withProse st line).1

/-- Once a section is open, every line adds the pattern of its clause. -/
theorem readLine_held {header : Header} {st st' : State} {line : List Char}
    (hopen : st.current.isSome = true ∨ isPreamble line = false) (h : readLine rt header st line = .ok st')
    : st'.current.isSome = true ∧
        ∃ patterns, st'.held = st.held ++ patterns ∧
          List.Forall₂ (Contributes rt) (ruleClauses rt [line]) patterns := by
  unfold readLine at h
  split at h
  . next name hheading =>
    rcases Except.bind_eq_ok.mp h with ⟨rules, hrules, h⟩
    cases h
    have hclause : clauseOf rt line = none := by
      apply clauseOf_heading
      simp [isPreamble, hheading]
    refine ⟨rfl, [], ?_, ?_⟩
    . rw [← flush_held hrules]
      simp [State.held]
    . simp [ruleClauses, hclause]
  . next hheading =>
    split at h
    . next hcurrent =>
      simp [hcurrent, isPreamble, hheading] at hopen
    . next draft hcurrent =>
      apply readRuleLine_held hcurrent h

theorem foldlM_readLine_held {header : Header} {lines : List (List Char)} {st st' : State}
    (hopen : st.current.isSome = true) (h : lines.foldlM (readLine rt header) st = .ok st')
    : ∃ patterns, st'.held = st.held ++ patterns ∧ List.Forall₂ (Contributes rt) (ruleClauses rt lines) patterns := by
  induction lines generalizing st with
  | nil =>
    cases h
    exact ⟨[], by rw [List.append_nil], .nil⟩
  | cons line lines ih =>
    rw [List.foldlM_cons] at h
    rcases Except.bind_eq_ok.mp h with ⟨next, hnext, h⟩
    rcases readLine_held (.inl hopen) hnext with ⟨hopen', here, hheld, hhere⟩
    rcases ih hopen' h with ⟨later, hheld', hlater⟩
    refine ⟨here ++ later, by rw [hheld', hheld, List.append_assoc], ?_⟩
    have happend : ruleClauses rt (line :: lines) = ruleClauses rt [line] ++ ruleClauses rt lines := by
      unfold ruleClauses
      rw [← List.filter_append, ← List.filterMap_append, List.singleton_append]
    rw [happend]
    apply List.rel_append hhere hlater

/-- The preamble is passed over. -/
theorem foldlM_readLine_preamble {header : Header} (lines : List (List Char)) {st : State} (hst : st.current = none)
    : lines.foldlM (readLine rt header) st = (lines.dropWhile isPreamble).foldlM (readLine rt header) st := by
  induction lines with
  | nil => rfl
  | cons line lines ih =>
    rw [List.dropWhile_cons]
    split
    . next hpreamble =>
      have hstep : readLine rt header st line = .ok st := by
        unfold readLine
        split
        . next name hheading => simp [isPreamble, hheading] at hpreamble
        . rw [hst]
      rw [List.foldlM_cons, hstep]
      exact ih
    . rfl

/-- The rules hold the patterns of the clauses under the headings. -/
theorem foldlM_readLine_body {header : Header} {lines : List (List Char)} {st : State}
    (h : lines.foldlM (readLine rt header) {} = .ok st)
    : List.Forall₂ (Contributes rt) (ruleClauses rt (lines.dropWhile isPreamble)) st.held := by
  rw [foldlM_readLine_preamble lines rfl] at h
  cases hlines : lines.dropWhile isPreamble with
  | nil =>
    rw [hlines] at h
    cases h
    exact .nil
  | cons line rest =>
    have hhead : isPreamble line = false := by
      have := List.head?_dropWhile_not isPreamble lines
      simpa [hlines] using this
    rw [hlines, List.foldlM_cons] at h
    rcases Except.bind_eq_ok.mp h with ⟨next, hnext, h⟩
    rcases readLine_held (.inr hhead) hnext with ⟨hopen, here, hheld, hhere⟩
    rcases foldlM_readLine_held hopen h with ⟨later, hheld', hlater⟩
    have happend : ruleClauses rt (line :: rest) = ruleClauses rt [line] ++ ruleClauses rt rest := by
      unfold ruleClauses
      rw [← List.filter_append, ← List.filterMap_append, List.singleton_append]
    rw [happend, hheld', hheld]
    exact List.rel_append hhere hlater

/- Documents. -/

theorem parsePolicy_eq_ok {text : List Char} {policy : Policy} (h : parsePolicy rt text = .ok policy)
    : ∃ fm body, frontmatter text = some (fm, body) ∧
        List.Forall₂ (Contributes rt) (ruleClauses rt ((splitlines body).dropWhile isPreamble))
          (policy.rules.flatMap Rule.patterns) := by
  unfold parsePolicy at h
  split at h
  . cases h
  . next fm body hfront =>
    rcases Except.bind_eq_ok.mp h with ⟨found, _, h⟩
    rcases Except.bind_eq_ok.mp h with ⟨header, _, h⟩
    rcases Except.bind_eq_ok.mp h with ⟨st, hst, h⟩
    rcases Except.bind_eq_ok.mp h with ⟨rules, hrules, h⟩
    refine ⟨fm, body, hfront, ?_⟩
    have hheld := foldlM_readLine_body hst
    rw [← flush_held hrules] at hheld
    split at h
    . cases h
    . cases h
      exact hheld

/-- A policy holds every clause of its document if and only if none is astray. -/
theorem attributed_iff {text : List Char} {policy : Policy} (h : parsePolicy rt text = .ok policy)
    : Attributed rt text policy ↔ strayClauses rt text = [] := by
  rcases parsePolicy_eq_ok h with ⟨fm, body, hfront, hheld⟩
  have hstray : strayClauses rt text =
      clausesIn rt fm
        ++ ((splitlines body).takeWhile isPreamble).filterMap (clauseOf rt)
        ++ (((splitlines body).dropWhile isPreamble).filterMap (clauseOf rt)).filter (·.1 = .approve) := by
    unfold strayClauses
    rw [hfront]
  have hbody : clausesIn rt body =
      ((splitlines body).takeWhile isPreamble).filterMap (clauseOf rt) ++
        ((splitlines body).dropWhile isPreamble).filterMap (clauseOf rt) := by
    rw [← List.filterMap_append, List.takeWhile_append_dropWhile, clausesIn]
  unfold Attributed
  rw [clausesIn_of_frontmatter hfront, hbody, hstray]
  generalize ((splitlines body).takeWhile isPreamble).filterMap (clauseOf rt) = preamble
  unfold ruleClauses at hheld
  generalize ((splitlines body).dropWhile isPreamble).filterMap (clauseOf rt) = sections at hheld ⊢
  constructor
  . intro hall
    have hlength := hall.length_eq
    rw [← hheld.length_eq] at hlength
    have hsplit := List.length_eq_length_filter_add (l := sections) fun clause => decide (clause.1 = Verb.approve)
    simp only [List.length_append] at hlength
    have happrove : (sections.filter fun clause => !decide (clause.1 = Verb.approve)).length =
        (sections.filter fun clause => decide (clause.1 ≠ Verb.approve)).length := by
      simp
    rw [← List.length_eq_zero_iff]
    simp only [List.length_append]
    omega
  . intro hstray
    simp only [List.append_eq_nil_iff, List.filter_eq_nil_iff] at hstray
    rcases hstray with ⟨⟨hfm, hpreamble⟩, hsections⟩
    have hkept : (sections.filter fun clause => decide (clause.1 ≠ Verb.approve)) = sections := by
      rw [List.filter_eq_self]
      intro clause hmem
      simpa using hsections clause hmem
    rw [hkept] at hheld
    rw [hfm, hpreamble, List.nil_append, List.nil_append]
    exact hheld

def oneRule : List Char :=
  "---\nname: x\nauthority: y\n---\n\n## r\ndeny: \"b\"\n".toList

/-- The document with a clause in front of its first heading. -/
def earlyClause : List Char :=
  "---\nname: x\nauthority: y\n---\n\ndeny: \"a\"\n## r\ndeny: \"b\"\n".toList

/-- The runtime on the two documents. -/
def documentRuntime : Runtime where
  isWord c := c.isAlphanum || c = '_'
  lower cs := cs.map lowerChar
  repr cs := '\'' :: cs ++ ['\'']
  complaint _ _ := none
  sha256 text :=
    if text = oneRule then
      "957304ad008cc185be182799d8713569b6c4a2b5a681fb666e6e872fb013c57a".toList
    else
      "1070e9c93cb40214322d89e905821ad29fdf83a8d7c0ef0283b1ed5a545647ff".toList

theorem oneRule_attributed
    : ∃ policy, parsePolicy documentRuntime oneRule = .ok policy ∧ Attributed documentRuntime oneRule policy := by
  have hok : (parsePolicy documentRuntime oneRule).toOption.isSome = true := by
    decide +kernel
  cases hparse : parsePolicy documentRuntime oneRule with
  | error e =>
    rw [hparse] at hok
    cases hok
  | ok policy => exact ⟨policy, rfl, (attributed_iff hparse).mpr (by decide +kernel)⟩

theorem earlyClause_dropped
    : ¬ ∀ (rt : Runtime) (text : List Char) (policy : Policy),
        parsePolicy rt text = .ok policy → Attributed rt text policy := by
  intro h
  have hpatterns : ((parsePolicy documentRuntime earlyClause).toOption.map fun policy =>
      (policy.rules.flatMap Rule.patterns).length) = some 1 := by
    decide +kernel
  have hclauses : (clausesIn documentRuntime earlyClause).length = 2 := by
    decide +kernel
  cases hparse : parsePolicy documentRuntime earlyClause with
  | error e =>
    rw [hparse] at hpatterns
    cases hpatterns
  | ok policy =>
    have hlength := (h _ _ policy hparse).length_eq
    rw [hparse] at hpatterns
    simp only [Except.toOption, Option.map_some, Option.some.injEq] at hpatterns
    omega

end Guard
