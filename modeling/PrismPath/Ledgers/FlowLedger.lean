import Mathlib.Data.Nat.Digits.Defs
import PrismPath.Ledgers.FilesDigest
import PrismPath.Lib.Dict
import PrismPath.Python.Lines

/-!
This module contains the ledger of work units: the commit messages whose trailers record a unit, how the log reads
them back, and which texts it reads back as they were.
-/

open Python

namespace FlowLedger

open Ledger (Bytes Files sha256Files)

/- Trailers. -/

def isKeyChar (c : Char) : Bool :=
  c.isAlpha || c = '-'

/-- `key.lower().replace("-", "_")`, of one character. -/
def keyChar (c : Char) : Char :=
  if c = '-' then '_' else lowerChar c

def keyOf (name : List Char) : List Char :=
  name.map keyChar

def trailerPrefix : List Char :=
  "PrismPath-".toList

/-- What `^PrismPath-([A-Za-z-]+):\s*(.*)$` matches in a line: a key, and a value without the white space around it. -/
def trailerOf (line : List Char) : Option (List Char × List Char) :=
  if trailerPrefix.isPrefixOf line then
    let rest := line.drop trailerPrefix.length
    match rest.takeWhile isKeyChar, rest.dropWhile isKeyChar with
    | c :: name, ':' :: value => some (keyOf (c :: name), stripChars value)
    | _, _ => none
  else
    none

def trailersIn (text : List Char) : List (List Char × List Char) :=
  (splitlines text).filterMap trailerOf

/-- What a record holds under a key. -/
inductive Entry where
  | text (s : List Char)
  | seq (n : ℤ)
  | list (ds : List (List Char))
  deriving DecidableEq

abbrev Record : Type :=
  List (List Char × Entry)

/-- `str(n)` -/
def decimal (n : ℤ) : List Char :=
  if n < 0 then '-' :: Nat.toDigits 10 n.natAbs else Nat.toDigits 10 n.natAbs

/-- `",".join(ds)` -/
def commas (ds : List (List Char)) : List Char :=
  [','].intercalate ds

def Entry.written : Entry → List Char
  | text s => s
  | seq n => decimal n
  | list ds => commas ds

/--
What is recorded of a unit; an empty text is `None` here where the source takes both for the same, and `wallclock` is the
time that is given, or else that of the clock.
-/
structure Call where
  unit : List Char
  node : List Char := []
  gate : List Char := "green".toList
  gateName : List Char := []
  files : Files
  outputHash : Option (List Char) := none
  seq : Option ℤ := none
  edge : List Char := []
  inputHash : List Char := []
  depends : List (List Char) := []
  summary : List Char := []
  wallclock : List Char

structure Ledger where
  flow : List Char
  runId : List Char

/-- `if value: trailers.append((name, value))` -/
def optional (name : String) (value : List Char) : Record :=
  if value = [] then [] else [(name.toList, .text value)]

def Call.hash (hexdigest : Bytes → String) (call : Call) : List Char :=
  call.outputHash.getD (sha256Files hexdigest call.files).toList

def trailers (hexdigest : Bytes → String) (ledger : Ledger) (call : Call) (seq : ℤ) : Record :=
  [("Flow".toList, .text ledger.flow), ("Run".toList, .text ledger.runId), ("Unit".toList, .text call.unit),
    ("Node".toList, .text (if call.node = [] then call.unit else call.node)), ("Seq".toList, .seq seq),
    ("Gate".toList, .text call.gate)]
    ++ optional "Gate-Name" call.gateName
    ++ [("Output-Hash".toList, .text (call.hash hexdigest)), ("Wallclock".toList, .text call.wallclock)]
    ++ optional "Input-Hash" call.inputHash
    ++ optional "Edge" call.edge
    ++ if call.depends = [] then [] else [("Depends".toList, .list call.depends)]

def trailerLine (trailer : List Char × Entry) : List Char :=
  trailerPrefix ++ trailer.1 ++ ": ".toList ++ trailer.2.written

def subject (ledger : Ledger) (call : Call) : List Char :=
  "prismpath: ".toList ++ call.unit ++ " ".toList ++ call.gate ++ "  (".toList ++ ledger.flow ++ " run ".toList
    ++ ledger.runId.take 8 ++ ")".toList

def body (hexdigest : Bytes → String) (ledger : Ledger) (call : Call) (seq : ℤ) : List Char :=
  subject ledger call ++ "\n\n".toList
    ++ (if call.summary = [] then [] else stripChars call.summary ++ "\n\n".toList)
    ++ ['\n'].intercalate ((trailers hexdigest ledger call seq).map trailerLine) ++ ['\n']

/- The log. -/

structure Commit where
  sha : List Char
  message : List Char
  deriving DecidableEq

/-- `git log --reverse -z --format=%H%n%B` -/
def gitLog (commits : List Commit) : List Char :=
  commits.flatMap fun commit => commit.sha ++ '\n' :: commit.message ++ ['\x00']

/-- A value as the record keeps it; a `seq` that is no number stays a text. -/
def entryOf (int : List Char → Option ℤ) (key value : List Char) : Entry :=
  if key = "seq".toList then
    match int value with
    | some n => .seq n
    | none => .text value
  else if key = "depends".toList then
    .list ((value.splitOn ',').filter fun d => d ≠ [])
  else
    .text value

def readRecord (int : List Char → Option ℤ) (chunk : List Char) : Record :=
  let sha := stripChars (chunk.takeWhile (· ≠ '\n'))
  let bodytext := (chunk.dropWhile (· ≠ '\n')).drop 1
  let texts := (("commit".toList, sha) :: trailersIn bodytext).foldl (fun rec kv => Dict.set rec kv.1 kv.2) []
  texts.map fun (key, value) => (key, entryOf int key value)

def log (int : List Char → Option ℤ) (out : List Char) : List Record :=
  (out.splitOn '\x00').filterMap fun chunk =>
    let chunk := stripChar '\n' chunk
    if stripChars chunk = [] then none else some (readRecord int chunk)

def seqOf (rec : Record) : Option ℤ :=
  match rec.lookup "seq".toList with
  | some (.seq n) => some n
  | _ => none

def nextSeq (records : List Record) : ℤ :=
  match (records.filterMap seqOf).max? with
  | some n => n + 1
  | none => 1

/-- The latest green record of each unit. -/
def doneSet (records : List Record) : List (List Char × Record) :=
  records.foldl
    (fun done rec =>
      match rec.lookup "gate".toList, rec.lookup "unit".toList with
      | some (.text gate), some (.text unit) =>
        if gate = "green".toList ∧ unit ≠ [] then Dict.set done unit rec else done
      | _, _ => done)
    []

/- Committing. -/

def isHex (c : Char) : Bool :=
  c.isDigit || ('a' ≤ c && c ≤ 'f')

/-- What the ledger is given: a digest, `git commit-tree` on the tip, the files and a message, and `int`. -/
structure Host where
  hexdigest : Bytes → String
  commitTree : Option (List Char) → Files → List Char → Option (List Char)
  int : List Char → Option ℤ
  sha_hex : ∀ {tip files message sha}, commitTree tip files message = some sha → sha ≠ [] ∧ sha.all isHex = true
  refuses_nul : ∀ {tip files message sha}, commitTree tip files message = some sha → '\x00' ∉ message
  int_decimal : ∀ n, int (decimal n) = some n

/-- One attempt of `commit_unit` on the commits there are; `none` is a `LedgerError`. -/
def commitUnit (host : Host) (ledger : Ledger) (commits : List Commit) (call : Call) : Option (ℤ × Commit) :=
  let seq := call.seq.getD (nextSeq (log host.int (gitLog commits)))
  let message := body host.hexdigest ledger call seq
  (host.commitTree (commits.getLast?.map Commit.sha) call.files message).map fun sha => (seq, ⟨sha, message⟩)

/- Reading trailers. -/

theorem trailersIn_eq (text : List Char)
    : trailersIn text = (text.splitOnP isLineBreak).filterMap trailerOf :=
  filterMap_splitlines rfl text

theorem trailersIn_append {c : Char} (hc : isLineBreak c = true) (before after : List Char)
    : trailersIn (before ++ c :: after) = trailersIn before ++ trailersIn after := by
  rw [trailersIn_eq, trailersIn_eq, trailersIn_eq, List.splitOnP_append_cons _ _ hc, List.filterMap_append]

theorem trailersIn_line {line : List Char} (h : ∀ c ∈ line, isLineBreak c = false)
    : trailersIn line = (trailerOf line).toList := by
  rw [trailersIn_eq, List.splitOnP_eq_singleton h]
  cases htrailer : trailerOf line <;> simp [htrailer]

theorem mem_of_trailerOf {line : List Char} {trailer : List Char × List Char} (h : trailerOf line = some trailer)
    : ∃ value, trailer.2 = stripChars value ∧ value ⊆ line := by
  unfold trailerOf at h
  split at h
  . dsimp only at h
    split at h
    . next hname hvalue =>
      cases h
      refine ⟨_, rfl, ?_⟩
      intro c hc
      have hmem : c ∈ (line.drop trailerPrefix.length).dropWhile isKeyChar := by
        rw [hvalue]
        exact List.mem_cons_of_mem _ hc
      exact List.drop_subset _ _ ((List.dropWhile_suffix isKeyChar).subset hmem)
    . cases h
  . cases h

/-- What is read of a trailer is of one line. -/
theorem oneLine_of_mem {text : List Char} {trailer : List Char × List Char} (h : trailer ∈ trailersIn text)
    : OneLine trailer.2 := by
  rw [trailersIn_eq, List.mem_filterMap] at h
  rcases h with ⟨line, hline, htrailer⟩
  rcases mem_of_trailerOf htrailer with ⟨value, hvalue, hsub⟩
  rw [hvalue]
  apply oneLine_stripChars
  intro c hc
  exact (mem_of_mem_splitOnP hline).1 c (hsub hc)

/-- A line that is written as a trailer is read as one. -/
theorem trailerOf_trailerLine {name : List Char} (hname : name ≠ []) (hchars : name.all isKeyChar = true) (entry : Entry)
    : trailerOf (trailerLine (name, entry)) = some (keyOf name, stripChars entry.written) := by
  have hspace : stripChars (' ' :: entry.written) = stripChars entry.written := by
    unfold stripChars lstripChars
    rw [List.dropWhile_cons_of_pos (by decide)]
  have hstart : trailerPrefix.isPrefixOf (trailerLine (name, entry)) = true := by
    rw [List.isPrefixOf_iff_prefix, trailerLine, List.append_assoc, List.append_assoc]
    apply List.prefix_append
  have hrest : (trailerLine (name, entry)).drop trailerPrefix.length = name ++ ':' :: ' ' :: entry.written := by
    rw [trailerLine, List.append_assoc, List.append_assoc, List.drop_left]
    rfl
  have hall : ∀ c ∈ name, isKeyChar c = true := List.all_eq_true.mp hchars
  have htake : (name ++ ':' :: ' ' :: entry.written).takeWhile isKeyChar = name := by
    rw [List.takeWhile_append_of_pos hall, List.takeWhile_cons_of_neg (by decide), List.append_nil]
  have hdrop : (name ++ ':' :: ' ' :: entry.written).dropWhile isKeyChar = ':' :: ' ' :: entry.written := by
    rw [List.dropWhile_append_of_pos hall, List.dropWhile_cons_of_neg (by decide)]
  unfold trailerOf
  simp only [hstart, if_true, hrest, htake, hdrop]
  cases name with
  | nil => exact absurd rfl hname
  | cons c name => exact congrArg (fun value => some (keyOf (c :: name), value)) hspace

theorem trailersIn_intercalate (line : List Char) (lines : List (List Char))
    : trailersIn (['\n'].intercalate (line :: lines)) = (line :: lines).flatMap trailersIn := by
  induction lines generalizing line with
  | nil => simp
  | cons next lines ih =>
    rw [List.intercalate_cons_cons, List.append_assoc, List.singleton_append, trailersIn_append (by decide), ih,
      List.flatMap_cons, List.flatMap_cons, List.flatMap_cons]

/- Reading records. -/

theorem stripChars_of_no_space {cs : List Char} (h : ∀ c ∈ cs, isSpace c = false)
    : stripChars cs = cs := by
  have hleft : cs.dropWhile isSpace = cs := by
    cases cs with
    | nil => rfl
    | cons c cs => rw [List.dropWhile_cons_of_neg (by simp [h])]
  unfold stripChars lstripChars rstripChars
  rw [hleft, List.rdropWhile_eq_self_iff]
  intro hne
  simp [h _ (List.getLast_mem hne)]

theorem isSpace_of_isHex {c : Char} (h : isHex c = true)
    : isSpace c = false := by
  unfold isHex Char.isDigit at h
  simp only [Bool.or_eq_true, Bool.and_eq_true, decide_eq_true_eq, Char.le_def, UInt32.le_iff_toNat_le] at h
  have hval : c.toNat = c.val.toNat := rfl
  unfold isSpace
  simp only [Bool.or_eq_false_iff, Bool.and_eq_false_iff, decide_eq_false_iff_not]
  simp at h
  omega

/-- A commit id: it is not empty, and all its characters are hex digits. -/
def ShaLike (sha : List Char) : Prop :=
  sha ≠ [] ∧ sha.all isHex = true

theorem ShaLike.not_mem {sha : List Char} (h : ShaLike sha) {c : Char} (hc : isHex c = false)
    : c ∉ sha := by
  intro hmem
  rw [List.all_eq_true.mp h.2 c hmem] at hc
  cases hc

theorem ShaLike.stripped {sha : List Char} (h : ShaLike sha)
    : stripChars sha = sha := by
  apply stripChars_of_no_space
  intro c hc
  exact isSpace_of_isHex (List.all_eq_true.mp h.2 c hc)

/-- The newlines that are taken off the end of a chunk are those of its message. -/
theorem rdropWhile_chunk {sha : List Char} (hsha : ShaLike sha) (message : List Char)
    : ((sha ++ '\n' :: message).rdropWhile (· = '\n')).takeWhile (· ≠ '\n') = sha
        ∧ trailersIn ((((sha ++ '\n' :: message).rdropWhile (· = '\n')).dropWhile (· ≠ '\n')).drop 1)
          = trailersIn message := by
  have hmem : '\n' ∉ sha := hsha.not_mem (by decide)
  have hall : ∀ c ∈ sha, decide (c ≠ '\n') = true := by
    intro c hc
    rw [decide_eq_true_eq]
    rintro rfl
    exact hmem hc
  induction message using List.reverseRecOn with
  | nil =>
    have hdrop : (sha ++ ['\n']).rdropWhile (· = '\n') = sha := by
      rw [List.rdropWhile_concat_pos _ _ _ (by decide), List.rdropWhile_eq_self_iff]
      intro hne
      have := hall _ (List.getLast_mem hne)
      simpa using this
    rw [hdrop, List.takeWhile_eq_self_iff.mpr hall, List.dropWhile_eq_nil_iff.mpr hall]
    exact ⟨rfl, rfl⟩
  | append_singleton message c ih =>
    have hassoc : sha ++ '\n' :: (message ++ [c]) = (sha ++ '\n' :: message) ++ [c] := by simp
    by_cases hc : c = '\n'
    . rw [hassoc, List.rdropWhile_concat_pos _ _ _ (by simpa using hc), hc, trailersIn_append (by decide)]
      refine ⟨ih.1, ih.2.trans ?_⟩
      exact (List.append_nil _).symm
    . rw [hassoc, List.rdropWhile_concat_neg _ _ _ (by simpa using hc), ← hassoc]
      rw [List.takeWhile_append_of_pos hall, List.takeWhile_cons_of_neg (by decide), List.append_nil]
      rw [List.dropWhile_append_of_pos hall, List.dropWhile_cons_of_neg (by decide)]
      exact ⟨rfl, rfl⟩

theorem stripChar_chunk {sha : List Char} (hsha : ShaLike sha) (message : List Char)
    : stripChar '\n' (sha ++ '\n' :: message) = (sha ++ '\n' :: message).rdropWhile (· = '\n') := by
  unfold stripChar
  cases sha with
  | nil => exact absurd rfl hsha.1
  | cons c sha =>
    have hc : c ≠ '\n' := by
      rintro rfl
      exact hsha.not_mem (by decide) List.mem_cons_self
    rw [List.cons_append, List.dropWhile_cons_of_neg (by simpa using hc)]

theorem lookup_map_entryOf (int : List Char → Option ℤ) (texts : List (List Char × List Char)) (key : List Char)
    : (texts.map fun (key, value) => (key, entryOf int key value)).lookup key
        = (texts.lookup key).map (entryOf int key) := by
  induction texts with
  | nil => rfl
  | cons text texts ih =>
    rcases text with ⟨key', value⟩
    rw [List.map_cons, Dict.lookup_cons_eq, Dict.lookup_cons_eq, ih]
    split
    . next heq =>
      subst heq
      rfl
    . rfl

/-- Of the trailers of a message with the same key the last one is in the record; the id is, if none is called so. -/
theorem lookup_readRecord (int : List Char → Option ℤ) {sha : List Char} (hsha : ShaLike sha)
    (message key : List Char)
    : (readRecord int (stripChar '\n' (sha ++ '\n' :: message))).lookup key
        = (((trailersIn message).reverse.lookup key).or
            (if "commit".toList = key then some sha else none)).map (entryOf int key) := by
  rcases rdropWhile_chunk hsha message with ⟨htake, htrailers⟩
  unfold readRecord
  rw [stripChar_chunk hsha]
  dsimp only
  rw [htake, htrailers, hsha.stripped, lookup_map_entryOf, Dict.lookup_foldl_set, List.reverse_cons,
    List.lookup_append, Dict.lookup_cons_eq, List.lookup_nil]

/-- The log has a record for each commit. -/
theorem log_gitLog (int : List Char → Option ℤ) {commits : List Commit} (hsha : ∀ c ∈ commits, ShaLike c.sha)
    (hnul : ∀ c ∈ commits, '\x00' ∉ c.message)
    : log int (gitLog commits)
        = commits.map fun c => readRecord int (stripChar '\n' (c.sha ++ '\n' :: c.message)) := by
  unfold log gitLog
  induction commits with
  | nil => rfl
  | cons commit commits ih =>
    have hhead := hsha commit List.mem_cons_self
    have hmem : '\x00' ∉ commit.sha ++ '\n' :: commit.message := by
      rw [List.mem_append, List.mem_cons]
      rintro (hmem | hmem | hmem)
      . exact hhead.not_mem (by decide) hmem
      . cases hmem
      . exact hnul commit List.mem_cons_self hmem
    have hne : stripChars (stripChar '\n' (commit.sha ++ '\n' :: commit.message)) ≠ [] := by
      rcases List.exists_mem_of_ne_nil _ hhead.1 with ⟨c, hc⟩
      have htake := (rdropWhile_chunk hhead commit.message).1
      rw [stripChar_chunk hhead]
      apply stripChars_ne_nil _ (isSpace_of_isHex (List.all_eq_true.mp hhead.2 c hc))
      rw [← htake] at hc
      exact (List.takeWhile_prefix _).subset hc
    have hchunk : (commit :: commits).flatMap (fun c => c.sha ++ '\n' :: c.message ++ ['\x00'])
        = (commit.sha ++ '\n' :: commit.message)
          ++ '\x00' :: commits.flatMap fun c => c.sha ++ '\n' :: c.message ++ ['\x00'] := by
      simp
    rw [hchunk, List.splitOn_append_cons_self_of_not_mem hmem, List.filterMap_cons, List.map_cons]
    dsimp only
    rw [if_neg hne, ih (fun c hc => hsha c (List.mem_cons_of_mem _ hc)) fun c hc => hnul c (List.mem_cons_of_mem _ hc)]

end FlowLedger
