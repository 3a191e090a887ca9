import PrismPath.Ledgers.SignerRuns

/-!
This module contains what a root signer's file holds over any number of crashes: which of them its chain survives, and
the one that loses a statement.
-/

open Python LineFile

namespace RootStatement

/- Opening a file. -/

section

variable {d : Signing} {rootAt : ℤ → Json.Str} {rs : List (List (Json.Str × Json.Tree))} {signer : RootSigner}
  {leaves : ℕ}

theorem start_eq {sha256 : Bytes → Bytes} {text : Text} {statements : List Obj} {interrupted : Bool} {bad : List ℕ}
    {prev : Json.Str} (hread : readStatements text = (statements, interrupted, bad))
    (hlast : statements.getLast?.elim (.ok []) (statementHash sha256) = .ok prev)
    : RootSigner.start sha256 text
        = .ok (⟨statements.length, prev⟩, if interrupted then some (keptText text) else none) := by
  unfold RootSigner.start
  simp only [hread]
  cases hlastStatement : statements.getLast? with
  | none =>
    rw [hlastStatement] at hlast
    cases hlast
    rfl
  | some last =>
    rw [hlastStatement, Option.elim] at hlast
    simp only [hlast]
    rfl

theorem start_lines {text : Text} (h : Chain d rootAt rs signer leaves) (hlines : rawLines text = rs.map codec.line)
    : RootSigner.start d.sha256 text = .ok (signer, none) := by
  rw [start_eq (readStatements_lines hlines) h.last, List.length_map, ← h.seq]
  rfl

theorem start_cut {p : Text} (h : Chain d rootAt rs signer leaves) (hp : Json.parse p = none) (hline : '\n' ∉ p)
    (hne : p ≠ [])
    : RootSigner.start d.sha256 (text codec rs ++ p) = .ok (signer, some (text codec rs)) := by
  rw [start_eq (readStatements_cut (rawLines_cut rs hline hne) hp) h.last, List.length_map, ← h.seq,
    keptText_cut rs hline hne]
  rfl

theorem Chain.dropLast {ms : List (Json.Str × Json.Tree)} (h : Chain d rootAt (rs ++ [ms]) signer leaves)
    : ∃ signer leaves', Chain d rootAt rs signer leaves' ∧ leaves' ≤ leaves := by
  generalize hrs : rs ++ [ms] = rs' at h
  cases h with
  | nil => simp at hrs
  | sign hchain _ hleaves _ =>
    rcases List.append_inj' hrs rfl with ⟨rfl, _⟩
    exact ⟨_, _, hchain, hleaves⟩

end

/- The invariant. -/

/-- The statements of the calls that returned, as they are read back, are among those of the chain. -/
def Keeps (s : State) (rs : List (List (Json.Str × Json.Tree))) : Prop :=
  (s.returned.map Obj.reread).Sublist (rs.map statementOf)

/-- What a signer's file holds: whole lines, or a last statement that lacks its newline, or one that was cut short. -/
inductive Holds (d : Signing) (rootAt : ℤ → Json.Str) (s : State) : Prop
  | whole (rs : List (List (Json.Str × Json.Tree))) (signer : RootSigner) (leaves : ℕ)
      (chain : Chain d rootAt rs signer leaves) (covers : leaves ≤ s.leaves) (text : s.text = text codec rs)
      (live : ∀ signer', s.signer = some signer' → signer' = signer) (keeps : Keeps s rs)
  | lacksNewline (rs : List (List (Json.Str × Json.Tree))) (ms : List (Json.Str × Json.Tree)) (signer : RootSigner)
      (leaves : ℕ) (chain : Chain d rootAt (rs ++ [ms]) signer leaves) (covers : leaves ≤ s.leaves)
      (text : s.text = text codec rs ++ codec.line ms) (live : ∀ signer', s.signer = some signer' → signer' = signer)
      (keeps : Keeps s rs)
  | cut (rs : List (List (Json.Str × Json.Tree))) (signer : RootSigner) (leaves : ℕ) (p : Text)
      (chain : Chain d rootAt rs signer leaves) (covers : leaves ≤ s.leaves) (text : s.text = text codec rs ++ p)
      (unread : Json.parse p = none) (line : '\n' ∉ p) (ne : p ≠ []) (dead : s.signer = none) (keeps : Keeps s rs)

section

variable {d : Signing} {rootAt : ℤ → Json.Str} {s : State}

theorem Holds.init
    : Holds d rootAt {} :=
  .whole [] ⟨0, []⟩ 0 .nil (le_refl _) rfl (fun _ h => by cases h) (List.Sublist.refl _)

theorem rawLines_lacksNewline (rs : List (List (Json.Str × Json.Tree))) (ms : List (Json.Str × Json.Tree))
    : rawLines (text codec rs ++ codec.line ms) = (rs ++ [ms]).map codec.line := by
  rw [rawLines_cut rs (codec.no_newline ms) (codec.line_ne_nil ms), List.map_append]
  rfl

theorem not_ended (rs : List (List (Json.Str × Json.Tree))) (ms : List (Json.Str × Json.Tree))
    : ended (text codec rs ++ codec.line ms) = false := by
  by_contra hended
  have hwhole : Whole codec (text codec rs ++ codec.line ms) (rs ++ [ms]) := .inr ⟨rs, ms, rfl, rfl⟩
  have heq := eq_text_of_ended hwhole (by simpa using hended)
  rw [text_append, text_singleton, List.append_cancel_left_eq] at heq
  simp at heq

theorem Holds.start (h : Holds d rootAt s)
    : Holds d rootAt (d.next s .start) := by
  cases h with
  | whole rs signer leaves chain covers text live keeps =>
    have hstart : RootSigner.start d.sha256 s.text = .ok (signer, none) :=
      start_lines chain (by rw [text, rawLines_text])
    rw [Signing.next, hstart]
    exact .whole rs signer leaves chain covers text (fun _ h => (Option.some.inj h).symm) keeps
  | lacksNewline rs ms signer leaves chain covers text live keeps =>
    have hstart : RootSigner.start d.sha256 s.text = .ok (signer, none) :=
      start_lines chain (by rw [text, rawLines_lacksNewline])
    rw [Signing.next, hstart]
    exact .lacksNewline rs ms signer leaves chain covers text (fun _ h => (Option.some.inj h).symm) keeps
  | cut rs signer leaves p chain covers text unread line ne dead keeps =>
    have hstart := start_cut chain unread line ne
    rw [← text] at hstart
    rw [Signing.next, hstart]
    exact .whole rs signer leaves chain covers rfl (fun _ h => (Option.some.inj h).symm) keeps

/-- A line of a call on a file of whole lines, written in part. -/
theorem Holds.sign_whole {rs : List (List (Json.Str × Json.Tree))} {signer signer' : RootSigner} {leaves : ℕ}
    {call : SignCall} {statement : Obj} {ms : List (Json.Str × Json.Tree)} (chain : Chain d rootAt rs signer leaves)
    (covers : leaves ≤ s.leaves) (keeps : Keeps s rs) (hroot : call.root = rootAt call.leaves)
    (hleaves : s.leaves ≤ call.leaves) (hmade : Made d signer call statement ms signer') {p : Text}
    (hp : p <+: codec.line ms ++ ['\n'])
    : Holds d rootAt { s with text := text codec rs ++ p, signer := none, leaves := call.leaves } := by
  have hnext : Chain d rootAt (rs ++ [ms]) signer' call.leaves := .sign chain hroot (covers.trans hleaves) hmade
  have hcovers : leaves ≤ call.leaves := covers.trans hleaves
  rcases List.prefix_concat_iff.mp hp with rfl | hp
  . have htext : text codec rs ++ (codec.line ms ++ ['\n']) = text codec (rs ++ [ms]) := by
      rw [text_append, text_singleton]
    have hkeeps : (s.returned.map Obj.reread).Sublist ((rs ++ [ms]).map statementOf) := by
      rw [List.map_append]
      exact keeps.trans (List.sublist_append_left _ _)
    exact .whole (rs ++ [ms]) signer' call.leaves hnext (le_refl _) htext (fun _ h => by cases h) hkeeps
  . by_cases hne : p = []
    . refine .whole rs signer leaves chain hcovers ?_ (fun _ h => by cases h) keeps
      rw [hne, List.append_nil]
    . by_cases hfull : p = codec.line ms
      . rw [hfull]
        exact .lacksNewline rs ms signer' call.leaves hnext (le_refl _) rfl (fun _ h => by cases h) keeps
      . exact .cut rs signer leaves p chain hcovers rfl (codec.read_cut ms p hp hfull) (no_newline_of_initial hp) hne rfl
          keeps

/-- A line of a call on a file that lacks its last newline, written in part: both lines go. -/
theorem Holds.sign_lacksNewline {rs : List (List (Json.Str × Json.Tree))} {ms ms' : List (Json.Str × Json.Tree)}
    {signer : RootSigner} {leaves leaves' : ℕ} (chain : Chain d rootAt (rs ++ [ms]) signer leaves)
    (covers : leaves ≤ s.leaves) (keeps : Keeps s rs) (hleaves : s.leaves ≤ leaves') {p : Text}
    (hp : p <+: codec.line ms')
    : Holds d rootAt { s with text := text codec rs ++ codec.line ms ++ p, signer := none, leaves := leaves' } := by
  by_cases hne : p = []
  . refine .lacksNewline rs ms signer leaves chain (covers.trans hleaves) ?_ (fun _ h => by cases h) keeps
    rw [hne, List.append_nil]
  . rcases chain.dropLast with ⟨before, leavesBefore, hchain, hbefore⟩
    have hline : '\n' ∉ codec.line ms ++ p := by
      rw [List.mem_append, not_or]
      exact ⟨codec.no_newline ms, no_newline_of_initial hp⟩
    exact .cut rs before leavesBefore (codec.line ms ++ p) hchain ((hbefore.trans covers).trans hleaves)
      (List.append_assoc _ _ _) (Json.parse_glued .spaced ms ms' hp hne) hline (by simp [hne]) rfl keeps

theorem Holds.sign {call : SignCall} {written : Option ℕ} (h : Holds d rootAt s)
    (hpromised : Promised rootAt s (.sign call written)) (hbegins : LineBegins d s (.sign call written))
    : Holds d rootAt (d.next s (.sign call written)) := by
  have hroot := hpromised.root call written rfl
  have hleaves := hpromised.leaves call written rfl
  have hpolicy := hpromised.policy call written rfl
  cases hlive : s.signer with
  | none =>
    simp only [Signing.next, hlive]
    exact h
  | some signer =>
    have hmade : ∃ statement ms signer', Made d signer call statement ms signer' := exists_made hpolicy signer
    rcases hmade with ⟨statement, ms, signer', hmade⟩
    have hsigns := hmade.signs
    cases h with
    | whole rs signer₀ leaves chain covers text live keeps =>
      have hsame : signer = signer₀ := live signer hlive
      rw [hsame] at hmade hsigns
      cases written with
      | none =>
        have htext : s.text ++ (codec.line ms ++ ['\n']) = LineFile.text codec (rs ++ [ms]) := by
          rw [text, text_append, text_singleton]
        have hkeeps : ((s.returned ++ [statement]).map Obj.reread).Sublist ((rs ++ [ms]).map statementOf) := by
          rw [List.map_append, List.map_append, List.map_singleton, hmade.reread]
          exact keeps.append (List.Sublist.refl _)
        simp only [Signing.next, hlive, hsame, hsigns]
        exact .whole (rs ++ [ms]) signer' call.leaves (.sign chain hroot (covers.trans hleaves) hmade) (le_refl _) htext
          (fun _ h => (Option.some.inj h).symm) hkeeps
      | some n =>
        simp only [Signing.next, hlive, hsame, hsigns, text]
        exact .sign_whole chain covers keeps hroot hleaves hmade (List.take_prefix _ _)
    | lacksNewline rs last signer₀ leaves chain covers text live keeps =>
      rcases hbegins call written signer statement _ signer' rfl hlive hsigns with hended | ⟨n, rfl, hn⟩
      . rw [text, not_ended] at hended
        cases hended
      . simp only [Signing.next, hlive, hsigns, text, List.take_append_of_le_length hn]
        exact .sign_lacksNewline chain covers keeps hleaves (List.take_prefix _ _)
    | cut _ _ _ _ _ _ _ _ _ _ dead _ =>
      rw [hlive] at dead
      cases dead

theorem Holds.run (hrun : Runs d.next (fun s step => Promised rootAt s step ∧ LineBegins d s step) {} s)
    : Holds d rootAt s := by
  refine Runs.invariant hrun Holds.init fun s step h ⟨hpromised, hbegins⟩ => ?_
  cases step with
  | start => exact h.start
  | sign call written => exact h.sign hpromised hbegins

end

/- The runs a chain survives. -/

/-- The chain in a state's file is accepted, with every statement whose signing call returned, and a signer that is
started on the file goes on with it. -/
structure Survives (v : Verifier) (d : Signing) (s : State) : Prop where
  keeps : (s.returned.map Obj.reread).Sublist (readStatements s.text).1
  accepted : (readStatements s.text).1 ≠ [] → ∃ report,
    v.verifyChain (readStatements s.text).1 (readFindings s.text) = .ok report ∧ report.accepted = true
  continues : ∃ signer kept, RootSigner.start d.sha256 s.text = .ok (signer, kept)
    ∧ signer.seq = (readStatements s.text).1.length
    ∧ (readStatements s.text).1.getLast?.elim (.ok []) (statementHash d.sha256) = .ok signer.prev

theorem survives_lines {v : Verifier} {d : Signing} (hd : d.WellFormed) (hv : v.Trusts d) {s : State}
    {rs : List (List (Json.Str × Json.Tree))} {signer : RootSigner} {leaves : ℕ}
    (chain : Chain d v.rootAt rs signer leaves) (htotal : (leaves : ℤ) ≤ v.totalLeaves) (keeps : Keeps s rs)
    (hlines : rawLines s.text = rs.map codec.line)
    : Survives v d s := by
  have hread := readStatements_lines hlines
  have hfindings : readFindings s.text = [] := by
    rw [readFindings, hread]
    rfl
  refine ⟨by rw [hread]; exact keeps, fun hne => ?_, signer, none, start_lines chain hlines, ?_, ?_⟩
  . rw [hread] at hne ⊢
    rw [hfindings]
    exact accepted_chain hd hv chain (fun h => hne (by rw [h]; rfl)) htotal rfl
  . rw [hread, List.length_map, chain.seq]
  . rw [hread]
    exact chain.last

theorem Holds.survives {v : Verifier} {d : Signing} (hd : d.WellFormed) (hv : v.Trusts d) {s : State}
    (h : Holds d v.rootAt s) (htotal : (s.leaves : ℤ) ≤ v.totalLeaves)
    : Survives v d s := by
  cases h with
  | whole rs signer leaves chain covers text live keeps =>
    have hleaves : (leaves : ℤ) ≤ v.totalLeaves := (Int.ofNat_le.mpr covers).trans htotal
    exact survives_lines hd hv chain hleaves keeps (by rw [text, rawLines_text])
  | lacksNewline rs ms signer leaves chain covers text live keeps =>
    have hleaves : (leaves : ℤ) ≤ v.totalLeaves := (Int.ofNat_le.mpr covers).trans htotal
    have hkeeps : Keeps s (rs ++ [ms]) := by
      rw [Keeps, List.map_append]
      exact keeps.trans (List.sublist_append_left _ _)
    exact survives_lines hd hv chain hleaves hkeeps (by rw [text, rawLines_lacksNewline])
  | cut rs signer leaves p chain covers text unread line ne dead keeps =>
    have hleaves : (leaves : ℤ) ≤ v.totalLeaves := (Int.ofNat_le.mpr covers).trans htotal
    have hread := readStatements_cut (rawLines_cut rs line ne) unread
    have hstart := start_cut chain unread line ne
    rw [← text] at hread hstart
    have hfatal : (readFindings s.text).any Finding.fatal = false := by
      rw [readFindings, hread]
      rfl
    refine ⟨by rw [hread]; exact keeps, fun hne => ?_, signer, _, hstart, ?_, ?_⟩
    . rw [hread] at hne ⊢
      exact accepted_chain hd hv chain (fun h => hne (by rw [h]; rfl)) hleaves hfatal
    . rw [hread, List.length_map, chain.seq]
    . rw [hread]
      exact chain.last

/-- Over any number of crashes the chain is accepted and no returned statement is lost, as long as every line that gets
its newline begins at the start of a line. -/
theorem signer_survives {v : Verifier} {d : Signing} (hd : d.WellFormed) (hv : v.Trusts d) {s : State}
    (hrun : Runs d.next (fun s step => Promised v.rootAt s step ∧ LineBegins d s step) {} s)
    (htotal : (s.leaves : ℤ) ≤ v.totalLeaves)
    : Survives v d s :=
  (Holds.run hrun).survives hd hv htotal

/- A log of two leaves. -/

def demoPublic : Bytes :=
  [138, 136, 227, 221, 116, 9, 241, 149, 253, 82, 219, 45, 60, 186, 93, 114, 202, 103, 9, 191, 29, 148, 18, 27,
    243, 116, 136, 1, 180, 15, 111, 92]

def demoPublicDigest : Bytes :=
  [52, 117, 15, 152, 189, 89, 252, 252, 148, 109, 164, 90, 170, 190, 147, 59, 225, 84, 164, 181, 9, 78, 28, 74,
    191, 66, 134, 101, 5, 243, 201, 126]

def demoRoot (leaves : ℤ) : Json.Str :=
  if leaves = 1 then
    str "022a6979e6dab7aa5ae4c3e5e45f7e977112a7e63593820dbec1ec738a24f93c"
  else
    str "8025de747bafe2560d6b991bdb17ca89efe1b6fedda1be209c0ee015338861ea"

def demoTime (seq : ℕ) : Json.Str :=
  if seq = 0 then str "2026-01-01T00:00:00.000Z" else str "2026-01-01T00:00:01.000Z"

def demoCall (seq : ℕ) : SignCall where
  root := demoRoot (seq + 1)
  leaves := seq + 1
  trigger := str "startup"
  time := demoTime seq

/-- The fields of the statements over the first leaf and over both. -/
def demoBody (seq : ℕ) (prev : Json.Str) : List (String × Obj) :=
  body ⟨hex demoPublicDigest, demoPublic, id⟩ (str "audit-log") seq (demoCall seq).root (demoCall seq).leaves prev
    (demoCall seq).time (demoCall seq).trigger .none

def demoText (fields : List (String × Obj)) : Bytes :=
  textBytes ((canonicalCompact (record fields)).getD [])

/-- The key's signature of the first statement. -/
def demoSig : Bytes :=
  [220, 59, 185, 193, 92, 106, 31, 138, 17, 114, 124, 17, 155, 43, 178, 187, 43, 222, 84, 153, 157, 13, 31, 9,
    37, 243, 187, 87, 149, 2, 237, 177, 159, 181, 145, 32, 252, 223, 9, 227, 157, 22, 214, 136, 17, 104, 42, 49,
    96, 88, 5, 229, 62, 251, 184, 163, 43, 161, 87, 95, 21, 211, 35, 8]

def demoFirst : Bytes :=
  demoText (demoBody 0 [] ++ [("sig", .str (hex demoSig))])

def demoFirstDigest : Bytes :=
  [223, 195, 208, 100, 255, 100, 191, 27, 195, 127, 82, 48, 46, 224, 241, 158, 3, 132, 32, 136, 194, 200, 116,
    148, 237, 238, 82, 156, 230, 16, 132, 69]

/-- The key's signature of a statement over both leaves that comes after the first. -/
def demoNextSig : Bytes :=
  [103, 246, 228, 145, 230, 16, 174, 167, 182, 155, 140, 44, 243, 116, 205, 174, 63, 246, 209, 18, 57, 55, 32,
    42, 59, 187, 25, 18, 176, 228, 100, 209, 49, 49, 235, 230, 218, 7, 231, 255, 242, 130, 250, 197, 78, 50, 15,
    247, 111, 74, 216, 213, 1, 132, 121, 62, 29, 68, 218, 226, 103, 92, 139, 10]

def demoNextDigest : Bytes :=
  [91, 95, 22, 4, 123, 227, 89, 194, 20, 223, 17, 45, 5, 79, 140, 150, 19, 250, 162, 34, 205, 183, 30, 32, 123,
    233, 175, 224, 122, 140, 46, 238]

def demoSigning : Signing where
  sha256 data := if data = demoPublic then demoPublicDigest else if data = demoFirst then demoFirstDigest else demoNextDigest
  key := {
    keyId := hex demoPublicDigest
    publicRaw := demoPublic
    sign := fun message => if message = signingDomain ++ demoText (demoBody 0 []) then demoSig else demoNextSig
  }
  log := str "audit-log"

def demoVerifier : Verifier where
  sha256 := demoSigning.sha256
  verify key message sig := key = demoPublic && sig = demoSigning.key.sign message
  log := str "audit-log"
  pinned := [demoPublic]
  authority := []
  rootAt := demoRoot
  totalLeaves := 2

theorem demoSigning_wellFormed
    : demoSigning.WellFormed where
  keyId := by with_unfolding_all decide
  publicLength := rfl
  sigLength message := by
    rw [demoSigning]
    dsimp only
    split <;> rfl
  log := by with_unfolding_all decide

theorem demoVerifier_trusts
    : demoVerifier.Trusts demoSigning where
  sha256 := rfl
  log := rfl
  verifies message := by
    simp only [demoVerifier, Bool.and_eq_true, decide_eq_true_eq, and_true]
    rfl
  pinned := .inr (List.mem_singleton_self _)
  authority := List.not_mem_nil
  roots leaves := by
    simp only [demoVerifier, demoRoot]
    split <;> with_unfolding_all decide

theorem promised_demoCall {s : State} {seq : ℕ} {written : Option ℕ} (h : s.leaves ≤ seq + 1)
    : Promised demoRoot s (.sign (demoCall seq) written) where
  root _ _ heq := by
    cases heq
    rfl
  leaves _ _ heq := by
    cases heq
    exact h
  policy _ _ heq := by
    cases heq
    rfl

theorem promised_start (rootAt : ℤ → Json.Str) (s : State)
    : Promised rootAt s .start where
  root _ _ heq := by cases heq
  leaves _ _ heq := by cases heq
  policy _ _ heq := by cases heq

theorem lineBegins_of_ended {d : Signing} {s : State} {step : Step} (h : step = .start ∨ ended s.text = true)
    : LineBegins d s step := by
  intro call written signer statement line signer' heq _ _
  rcases h with hstart | hended
  . rw [hstart] at heq
    cases heq
  . exact .inl hended

/-- The process of a signer dies when so many characters of its first line are written, and the next one signs. -/
def restart (written : ℕ) : List Step :=
  [.start, .sign (demoCall 0) (some written), .start]

/-- The state after it. -/
def restarted (written : ℕ) (call : SignCall) : State :=
  (restart written ++ [Step.sign call none]).foldl demoSigning.next {}

theorem runs_restart {P : State → Step → Prop} (written : ℕ) (call : SignCall) (hstart : ∀ s, P s .start)
    (hfirst : P (demoSigning.next {} .start) (.sign (demoCall 0) (some written)))
    (hnext : P ((restart written).foldl demoSigning.next {}) (.sign call none))
    : Runs demoSigning.next P {} (restarted written call) := by
  refine Runs.foldl _ _ fun pre step post heq => ?_
  rcases pre with _ | ⟨a, _ | ⟨b, _ | ⟨c, _ | ⟨e, pre⟩⟩⟩⟩
  . cases heq
    exact hstart _
  . cases heq
    exact hfirst
  . cases heq
    exact hstart _
  . cases heq
    exact hnext
  . simp [restart] at heq

theorem signer_survives_demo
    : Survives demoVerifier demoSigning (restarted 200 (demoCall 0)) := by
  have hended : ended ((restart 200).foldl demoSigning.next {}).text = true := by decide +kernel
  have hbegun : ended (demoSigning.next {} .start).text = true := by with_unfolding_all decide
  have hcovered : ((restarted 200 (demoCall 0)).leaves : ℤ) ≤ demoVerifier.totalLeaves := by decide +kernel
  refine signer_survives demoSigning_wellFormed demoVerifier_trusts (runs_restart 200 _ (fun s => ?_) ?_ ?_) hcovered
  . exact ⟨promised_start _ _, lineBegins_of_ended (.inl rfl)⟩
  . exact ⟨promised_demoCall (by with_unfolding_all decide), lineBegins_of_ended (.inr hbegun)⟩
  . exact ⟨promised_demoCall (by decide +kernel), lineBegins_of_ended (.inr hended)⟩

/-- The line without its newline counts as a statement, and the one written after it makes both unreadable. -/
theorem statement_lost
    : Runs demoSigning.next (Promised demoVerifier.rootAt) {} (restarted 544 (demoCall 1))
        ∧ (restarted 544 (demoCall 1)).returned.length = 1
        ∧ (readStatements (restarted 544 (demoCall 1)).text).1 = []
        ∧ ¬ Survives demoVerifier demoSigning (restarted 544 (demoCall 1)) := by
  have hreturned : (restarted 544 (demoCall 1)).returned.length = 1 := by decide +kernel
  have hread : (readStatements (restarted 544 (demoCall 1)).text).1 = [] :=
    List.eq_nil_of_length_eq_zero (by decide +kernel)
  refine ⟨runs_restart 544 _ (fun s => promised_start _ s) ?_ ?_, hreturned, hread, fun h => ?_⟩
  . exact promised_demoCall (by with_unfolding_all decide)
  . exact promised_demoCall (by decide +kernel)
  . have hlength := h.keeps.length_le
    rw [hread, List.length_map, hreturned] at hlength
    cases hlength

end RootStatement
