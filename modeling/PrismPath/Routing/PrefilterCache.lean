import PrismPath.Lib.Dict
import PrismPath.Lib.Durable
import PrismPath.Python.Value

/-!
This module contains the learned routing cache: the pair of files its corpus is kept in, loading and saving them, and
learning one more verdict. A save can be cut short at any of its writes, and the corpus that is loaded then is
compared with what was saved.
-/

open Python

namespace PrefilterCache

inductive Error where
  /-- A file that holds no array, or no list of records; rows that do not stack. -/
  | valueError
  | embedError

/- Records. -/

abbrev Record : Type := List (String × Value)

/-- `if new not in record and old in record: record[new] = record.pop(old)` -/
def rename (new old : String) (record : Record) : Record :=
  match record.lookup new, record.lookup old with
  | none, some v => Dict.set (record.filter fun p => p.1 ≠ old) new v
  | _, _ => record

def setdefault (key : String) (v : Value) (record : Record) : Record :=
  match record.lookup key with
  | some _ => record
  | none => Dict.set record key v

/-- `_migrate` -/
def migrate (record : Record) : Record :=
  let record := rename "action" "recommended_action" record
  let record := rename "key" "alert_key" record
  let record := setdefault "action" (.str "") record
  let record := setdefault "confidence" (.float (.finite 0)) record
  let record := setdefault "key" (.str "") record
  setdefault "description" (.str "") record

structure Matrix (F : Type) where
  rows : List (List F)
  width : ℕ
  wide : ∀ row ∈ rows, row.length = width

namespace Matrix

variable {F : Type}

/-- `np.zeros((0, 0))` -/
def zeros : Matrix F where
  rows := []
  width := 0
  wide := fun _ h => nomatch h

/-- `vec.reshape(1, -1)` -/
def ofRow (vec : List F) : Matrix F where
  rows := [vec]
  width := vec.length
  wide := fun row h => by rw [List.mem_singleton.mp h]

/-- `np.vstack([emb, vec.reshape(1, -1)])` -/
def vstack (emb : Matrix F) (vec : List F) : Except Error (Matrix F) :=
  if h : vec.length = emb.width then
    .ok {
      rows := emb.rows ++ [vec]
      width := emb.width
      wide := fun row hrow => by
        rcases List.mem_append.mp hrow with hrow | hrow
        . exact emb.wide row hrow
        . rw [List.mem_singleton.mp hrow, h]
    }
  else
    .error .valueError

end Matrix

/-- What numpy computes on vectors, and the embedder. -/
structure Embedding (F : Type) where
  norm : List F → F
  positive : F → Bool
  div : F → F → F
  embed : String → Except Error (List F)

/-- `_normalize` -/
def Embedding.normalize {F : Type} (e : Embedding F) (vec : List F) : List F :=
  let norm := e.norm vec
  if e.positive norm then vec.map (e.div · norm) else vec

/- Files. -/

/-- A file that was written to its end, and one that was not and cannot be read. -/
inductive File (α : Type) where
  | whole (content : α)
  | part

def File.read {α : Type} : File α → Except Error α
  | whole content => .ok content
  | part => .error .valueError

structure Disk (F : Type) where
  /-- `embeddings.npy` -/
  emb : Option (File (Matrix F))
  /-- `meta.json` -/
  records : Option (File (List Record))
  /-- `embeddings.npy.tmp.npy` -/
  embTmp : Option (File (Matrix F))
  /-- `meta.json.tmp` -/
  recordsTmp : Option (File (List Record))

def Disk.empty {F : Type} : Disk F :=
  ⟨none, none, none, none⟩

structure Corpus (F : Type) where
  emb : Matrix F
  records : List Record
  paired : records.length = emb.rows.length

namespace Corpus

variable {F : Type}

def empty : Corpus F where
  emb := .zeros
  records := []
  paired := rfl

/-- The embeddings, each with its record. -/
def entries (c : Corpus F) : List (List F × Record) :=
  c.emb.rows.zip c.records

end Corpus

abbrev Op (F : Type) (α : Type) : Type := Durable (Disk F) Unit Error α

section

variable {F : Type}

/-- `PrefilterCache.load` -/
def Disk.load (d : Disk F) : Except Error (Corpus F) :=
  match d.emb, d.records with
  | some emb, some records =>
    match emb.read, records.read with
    | .ok emb, .ok records =>
      let records := records.map migrate
      if h : records.length = emb.rows.length ∧ 0 < emb.rows.length then
        .ok ⟨emb, records, h.1⟩
      else
        .ok .empty
    | .error e, _ => .error e
    | .ok _, .error e => .error e
  | _, _ => .ok .empty

/-- `PrefilterCache._save`. The temporary files are written piece by piece; a rename is made whole or not at all. -/
def save (emb : Matrix F) (records : List Record) : Op F Unit := do
  Durable.write (fun d => {{ d with embTmp := some .part }}) fun d => { d with embTmp := some (.whole emb) }
  Durable.write (fun d => {{ d with recordsTmp := some .part }}) fun d => { d with recordsTmp := some (.whole records) }
  Durable.writeAtomic fun d => { d with emb := d.embTmp, embTmp := none }
  Durable.writeAtomic fun d => { d with records := d.recordsTmp, recordsTmp := none }

inductive VecOrDoc (F : Type) where
  | vec (vec : List F)
  | doc (text : String)

/-- The arguments of a call of `learn`. -/
structure Adjudication (F : Type) where
  vecOrDoc : VecOrDoc F
  action : String
  confidence : Option PyFloat
  key : String
  description : String
  policyHash : Option String

def Adjudication.record (a : Adjudication F) : Record :=
  let record : Record := [
    ("action", .str a.action),
    ("confidence", .float (a.confidence.getD (.finite 0))),
    ("key", .str a.key),
    ("description", .str a.description)]
  match a.policyHash with
  | none => record
  | some hash => Dict.set record "policy_hash" (.str hash)

variable (e : Embedding F)

def Adjudication.vec (a : Adjudication F) : Except Error (List F) :=
  match a.vecOrDoc with
  | .vec vec => .ok (e.normalize vec)
  | .doc text => (e.embed text).map e.normalize

/-- `emb` with one more row -/
def Corpus.addRow (c : Corpus F) (vec : List F) : Except Error (Matrix F) :=
  if c.emb.rows.length = 0 then .ok (.ofRow vec) else c.emb.vstack vec

/-- `PrefilterCache.learn` -/
def learn (a : Adjudication F) : Op F Unit := do
  let vec ← Durable.ofExcept (a.vec e)
  let corpus ← Durable.ofExcept (← Durable.getDisk).load
  let emb ← Durable.ofExcept (corpus.addRow vec)
  save emb (corpus.records ++ [a.record])

/- What loading gives. -/

variable {e}

theorem Disk.load_congr {d d' : Disk F} (hemb : d'.emb = d.emb) (hrecords : d'.records = d.records)
    : d'.load = d.load := by
  unfold Disk.load
  rw [hemb, hrecords]

/-- The embeddings have been replaced and the records have not. -/
def Torn (d x : Disk F) : Prop :=
  x.emb ≠ d.emb ∧ x.records = d.records

variable (e) in
/--
The disks that a cache goes through from `start` on, with the entries that are saved in it and those of the calls that
were cut short. `allowed` tells where power may be lost: on which disk it may leave, given the one the call began on.
-/
inductive Runs (allowed : Disk F → Disk F → Prop) (start : Disk F) (corpus : Corpus F)
    : Disk F → List (List F × Record) → List (List F × Record) → Prop where
  | start : Runs allowed start corpus start corpus.entries []
  | completed {d saved lost} {a : Adjudication F} {vec : List F} (before : Runs allowed start corpus d saved lost)
      (hvec : a.vec e = .ok vec) (hexit : (learn e a d ()).exit = .ok ())
      : Runs allowed start corpus (learn e a d ()).disk (saved ++ [(vec, a.record)]) lost
  | refused {d saved lost} {a : Adjudication F} {err : Error} (before : Runs allowed start corpus d saved lost)
      (hexit : (learn e a d ()).exit = .error err)
      : Runs allowed start corpus (learn e a d ()).disk saved lost
  | crashed {d saved lost} {a : Adjudication F} {vec : List F} {x : Disk F}
      (before : Runs allowed start corpus d saved lost) (hvec : a.vec e = .ok vec) (hcut : x ∈ (learn e a d ()).cuts)
      (hallowed : allowed d x)
      : Runs allowed start corpus x saved (lost ++ [(vec, a.record)])

/--
The cache loads, the entries that were saved are in it one after the other, and every entry in it is one that was
learned.
-/
def Kept (saved lost : List (List F × Record)) (d : Disk F) : Prop :=
  ∃ c, d.load = .ok c ∧ saved.Sublist c.entries ∧ ∀ entry ∈ c.entries, entry ∈ saved ∨ entry ∈ lost

/-- Power is not lost between the two renames, unless there are no records yet. -/
def Careful (d x : Disk F) : Prop :=
  Torn d x → d.records = none

/-- There are no records, or those that are there can be loaded. -/
def Sound (d : Disk F) : Prop :=
  d.records = none ∨ ∃ c, d.load = .ok c ∧ c.entries ≠ []

theorem Sound.congr {d x : Disk F} (h : Sound d) (hemb : x.emb = d.emb) (hrecords : x.records = d.records)
    : Sound x := by
  unfold Sound
  rw [hrecords, Disk.load_congr hemb hrecords]
  exact h

theorem Kept.congr {saved lost : List (List F × Record)} {d x : Disk F} (h : Kept saved lost d) (hemb : x.emb = d.emb)
    (hrecords : x.records = d.records) (entry : List F × Record)
    : Kept saved (lost ++ [entry]) x := by
  rcases h with ⟨c, hload, hsub, hfrom⟩
  refine ⟨c, by rw [Disk.load_congr hemb hrecords, hload], hsub, fun entry' hentry => ?_⟩
  rcases hfrom entry' hentry with hsaved | hlost
  . exact .inl hsaved
  . exact .inr (List.mem_append_left _ hlost)

end

/- A cache of vectors with one entry. -/

end PrefilterCache
