import TimescaleLp.Schema

/-!
The write path. A batch of one measurement becomes rows with fresh sequence
numbers, deduplicated by upsert key; the rows go to a cold staging object when
write-through is on, and are then upserted into the hypertable. Awaits separate
these stages, so each is a function of its own. The digest is a parameter.
-/
namespace TimescaleLp

structure Point (F : Type) where
  measurement : Str
  tags : Dict Str Str
  fields : Dict Str (Value F)
  time : Time

/-- Rows of one `_write_measurement` call, ready to be stored. -/
structure Batch (F : Type) where
  table : Str
  cols : List Str
  records : List (Row (Value F))

namespace Store

open Names Schema

variable {F : Type} (digest : Str → ℕ)

/-- The text that is hashed: sorted `key\x1evalue` pairs joined by `\x1f`. -/
def tagBlob (tags : Dict Str Str) : Str :=
  List.intercalate ['\x1f'] ((tags.keys.insertionSort (· ≤ ·)).map
    (fun k => k ++ '\x1e' :: (tags.get? k).getD []))

/-- Stable 63-bit hash of a tag set. -/
def hashTags (tags : Dict Str Str) : ℕ :=
  if tags.keys = [] then 0 else digest (tagBlob tags) % 2 ^ 63

def pointKey (p : Point F) : Key := ⟨p.time, hashTags digest p.tags⟩

/-- The tag names of a batch. Python leaves the order of a set open. -/
def tagNames (points : List (Point F)) : List Str := (points.flatMap (·.tags.keys)).dedup

/-- Keep the value whose type is highest in the widening lattice. -/
def keepWidest (samples : Dict Str (Value F)) (e : Str × Value F) : Dict Str (Value F) :=
  match samples.get? e.1 with
  | none => samples.set e.1 e.2
  | some v =>
    if typeRank (inferFieldType v) < typeRank (inferFieldType e.2) then samples.set e.1 e.2
    else samples

def fieldSamples (points : List (Point F)) : Dict Str (Value F) :=
  (points.flatMap (·.fields.entries)).foldl keepWidest Dict.empty

/-- Where a column of the batch takes its value from. -/
inductive Source
  | tag (t : Str)
  | field (f : Str) (colType : PgType)
deriving DecidableEq

/-- The columns after `time`, `tag_hash`, `seq`; `none` is a `KeyError`. -/
def columnSources (schema : TableSchema) (tagNames fieldNames : List Str) :
    Option (List (Str × Source)) := do
  let tags ← tagNames.mapM fun t => (schema.tagCols.get? t).map fun col => (col, Source.tag t)
  let fields ← fieldNames.mapM fun f =>
    (schema.fieldCols.get? f).map fun e => (e.1, Source.field f e.2)
  return tags ++ fields

variable [Numerics F]

def sourceValue (p : Point F) : Source → Except WriteError (Option (Value F))
  | .tag t => .ok ((p.tags.get? t).map .str)
  | .field f colType => coerce (p.fields.get? f) colType

def rowValues (p : Point F) : List (Str × Source) →
    Except WriteError (List (Str × Option (Value F)))
  | [] => .ok []
  | e :: es => do
    let v ← sourceValue p e.2
    let vs ← rowValues p es
    return (e.1, v) :: vs

/-- Cells of a record given as a column list with values. -/
def cellsOf (values : List (Str × Option (Value F))) : Cells (Value F) :=
  fun c => (values.find? (fun e => e.1 = c)).bind Prod.snd

/-- One row per point; a sequence number is drawn before the fields are coerced. -/
def buildRows (sources : List (Str × Source)) : ℕ → List (Point F) →
    ℕ × Except WriteError (List (Row (Value F)))
  | n, [] => (n, .ok [])
  | n, p :: ps =>
    match rowValues p sources with
    | .error e => (n + 1, .error e)
    | .ok values =>
      let (n', rest) := buildRows sources (n + 1) ps
      (n', rest.map (⟨pointKey digest p, n, cellsOf values⟩ :: ·))

/-- The last row of each key, at the place of the first. -/
def dedupRecords (rows : List (Row (Value F))) : List (Row (Value F)) :=
  (rows.foldl (fun d r => d.set r.key r) (Dict.empty : Dict Key (Row (Value F)))).values

/-- The part of `_write_measurement` between two awaits: draw sequence numbers,
build the rows and dedup them. Returns the next sequence number. -/
def buildBatch (schema : TableSchema) (points : List (Point F)) (nextSeq : ℕ) :
    ℕ × Except WriteError (Batch F) :=
  match columnSources schema (tagNames points) (fieldSamples points).keys with
  | none => (nextSeq, .error .keyError)
  | some sources =>
    let (n, rows) := buildRows digest sources nextSeq points
    (n, rows.map fun rows => ⟨schema.table, sources.map Prod.fst, dedupRecords rows⟩)

end Store

namespace Batch

variable {F : Type}

def minSeq (b : Batch F) : ℕ := (b.records.map (·.seq)).min?.getD 0

def maxSeq (b : Batch F) : ℕ := (b.records.map (·.seq)).max?.getD 0

def key (b : Batch F) : Str := ColdStore.stagingKey b.table b.minSeq b.maxSeq

/-- The manifest row of the batch's staging object. -/
def stagingMeta (b : Batch F) : ObjectMeta where
  measurement := b.table
  kind := .staging
  objectKey := b.key
  rangeStart := (b.records.map (·.key.time)).min?.getD 0
  rangeEnd := (b.records.map (·.key.time)).max?.getD 0
  rows := b.records.length
  minSeq := b.minSeq
  maxSeq := b.maxSeq

end Batch

namespace Store

open Names Schema

variable {F : Type}

/-- The value an insert brings for a stored column, if the column is listed. -/
def insertedCell (cols : List Str) (r : Row (Value F)) (c : Str) : Option (Option (Value F)) :=
  (cols.find? (fun col => pgIdent col = c)).map r.cells

/-- `INSERT ... ON CONFLICT (time, tag_hash) DO UPDATE`: `seq` and the listed
columns are set, the others keep what they held. -/
def upsertRow (cols : List Str) (t : Table (Value F)) (r : Row (Value F)) : Table (Value F) :=
  t.set r.key ⟨r.seq, fun c =>
    (insertedCell cols r c).getD ((t.get? r.key).bind fun old => old.cells c)⟩

/-- The data transaction, on a table that has the columns and its unique index. Creating
the temporary table fails when two columns have one name in the database. -/
def commit (b : Batch F) (t : Table (Value F)) : Option (Table (Value F)) :=
  if (b.cols.map pgIdent).Nodup then some (b.records.foldl (upsertRow b.cols) t) else none

/-- Where a write is made to fail. -/
inductive Fault
  | stagingWrite
  | manifestRecord
  | transaction
deriving DecidableEq

def stage (b : Batch F) (c : Cold (Value F)) : Cold (Value F) :=
  ColdStore.writeTable c b.key b.records

def writeThrough (fault : Option Fault) (b : Batch F) (c : Cold (Value F)) :
    Cold (Value F) × Option WriteError :=
  if fault = some .stagingWrite then (c, some .objectStore)
  else if fault = some .manifestRecord then (stage b c, some .database)
  else (ColdStore.record (stage b c) b.stagingMeta, none)

/-- The stages after the rows are built. -/
def storeBatch (writeThroughOn : Bool) (fault : Option Fault) (s : Service F) (b : Batch F) :
    Service F × Except WriteError ℕ :=
  let (c, err) := if writeThroughOn then writeThrough fault b s.cold else (s.cold, none)
  let s' := { s with cold := c }
  match err with
  | some e => (s', .error e)
  | none =>
    match if fault = some .transaction then none else commit b (s'.hot b.table) with
    | none => (s', .error .database)
    | some t => ({ s' with hot := Function.update s'.hot b.table t }, .ok b.records.length)

/-- The schema `delete_lp` uses: the cached one, or one read from the database. -/
def deleteSchema (s : Service F) (measurement : Str) : Service F × TableSchema :=
  match s.cache.get? measurement with
  | some schema => (s, schema)
  | none =>
    let (s', schema) := createOrLoad s measurement
    ({ s' with cache := s'.cache.set measurement schema }, schema)

variable (digest : Str → ℕ) [Numerics F]

/-- Schema and rows of a call, before anything is stored. -/
def prepare (s : Service F) (measurement : Str) (points : List (Point F)) :
    Service F × Except WriteError (Batch F) :=
  match ensureSchema s measurement (tagNames points) (fieldSamples points) with
  | (s', none) => (s', .error .database)
  | (s', some schema) =>
    let (n, b) := buildBatch digest schema points s'.nextSeq
    ({ s' with nextSeq := n }, b)

def writeMeasurement (writeThroughOn : Bool) (fault : Option Fault) (s : Service F)
    (measurement : Str) (points : List (Point F)) : Service F × Except WriteError ℕ :=
  match prepare digest s measurement points with
  | (s', .error e) => (s', .error e)
  | (s', .ok b) => storeBatch writeThroughOn fault s' b

/-- The measurements of a batch one after another, up to the first failure. -/
def writeGroups (writeThroughOn : Bool) (fault : Str → Option Fault) (s : Service F) :
    List (Str × List (Point F)) → Service F × Except WriteError ℕ
  | [] => (s, .ok 0)
  | (m, points) :: groups =>
    match writeMeasurement digest writeThroughOn (fault m) s m points with
    | (s', .error e) => (s', .error e)
    | (s', .ok n) =>
      let (s'', total) := writeGroups writeThroughOn fault s' groups
      (s'', total.map (n + ·))

def byMeasurement (points : List (Point F)) : Dict Str (List (Point F)) :=
  Dict.groupBy (·.measurement) points

def writeBatch (writeThroughOn : Bool) (fault : Str → Option Fault) (s : Service F)
    (points : List (Point F)) : Service F × Except WriteError ℕ :=
  writeGroups digest writeThroughOn fault s (byMeasurement points).entries

/-- The tag conditions of the WHERE clause as columns with values; `none` when a
filter names a tag that the schema does not list. -/
def filterColumns (schema : TableSchema) (tagFilters : List (Str × Str)) :
    Option (List (Str × Str)) :=
  tagFilters.mapM fun e => (schema.tagCols.get? e.1).map fun col => (pgIdent col, e.2)

/-- `col = $n` is not true of NULL. -/
def textEq (v : Str) : Option (Value F) → Bool
  | some (.str w) => decide (w = v)
  | _ => false

/-- The WHERE clause. -/
def deleteMatches (columns : List (Str × Str)) (start stop : Option Time) (k : Key)
    (cells : Cells (Value F)) : Bool :=
  start.all (fun t => decide (t ≤ k.time)) && stop.all (fun t => decide (k.time < t)) &&
    columns.all (fun e => textEq e.2 (cells e.1))

/-- `delete_lp`: rows are deleted from the hypertable only. Returns the number
of rows deleted. A column that the table lacks, where Postgres raises, matches no row. -/
def deleteLp (s : Service F) (measurement : Str) (tagFilters : List (Str × Str))
    (start stop : Option Time) : Service F × ℕ :=
  let (s', schema) := deleteSchema s measurement
  match filterColumns schema tagFilters with
  | none => (s', 0)
  | some columns =>
    let t := s'.hot schema.table
    let kept := t.filter fun k r => !deleteMatches columns start stop k r.cells
    ({ s' with hot := Function.update s'.hot schema.table kept },
      t.entries.length - kept.entries.length)

end Store

end TimescaleLp
