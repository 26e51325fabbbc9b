import TimescaleLp.Engine

/-!
Cold-tier maintenance. Compaction merges the staging objects of a UTC day into
one cold object; eviction drops old chunks, exporting first those that cold does
not cover. Both work through lists fixed before their loops start, and both are
written here as the loops of the source, one call at a time.
-/
namespace TimescaleLp

universe u

/-- What one process and its two stores hold. -/
structure World (V : Type u) where
  nextSeq : ℕ
  hot : Str → Table V
  cold : Cold V

structure CompactResult where
  measurement : Str
  day : Str
  objectKey : Str
  merged : ℕ
  rows : ℕ
deriving DecidableEq

structure EvictResult where
  measurement : Str
  rangeStart : Time
  rangeEnd : Time
deriving DecidableEq

namespace Tiering

open ColdStore

variable {V : Type u}

/-- Group staging objects by UTC day of `range_start`, in the order listed. -/
def planCompaction (stagingObjects : List ObjectMeta) : Dict Str (List ObjectMeta) :=
  Dict.groupBy (fun o => dayOf o.rangeStart) stagingObjects

section Intervals

variable {α : Type u} [LinearOrder α]

/-- `sorted(intervals)` compares the pairs lexicographically. -/
def intervalOrder (a b : α × α) : Prop := a.1 < b.1 ∨ a.1 = b.1 ∧ a.2 ≤ b.2

instance (a b : α × α) : Decidable (intervalOrder a b) := by
  unfold intervalOrder
  infer_instance

def mergeInterval (out : List (α × α)) (iv : α × α) : List (α × α) :=
  match out.getLast? with
  | some last => if iv.1 ≤ last.2 then out.dropLast ++ [(last.1, max last.2 iv.2)] else out ++ [iv]
  | none => out ++ [iv]

def mergeIntervals (intervals : List (α × α)) : List (α × α) :=
  (intervals.insertionSort intervalOrder).foldl mergeInterval []

/-- The sweep of `is_covered` from a cursor over merged intervals. -/
def coveredFrom (chunkEnd cursor : α) : List (α × α) → Bool
  | [] => decide (chunkEnd ≤ cursor)
  | (start, stop) :: rest =>
    if cursor < start then false
    else
      let cursor' := if cursor < stop then stop else cursor
      if chunkEnd ≤ cursor' then true else coveredFrom chunkEnd cursor' rest

/-- Is `[chunkStart, chunkEnd)` fully covered by the union of the intervals? -/
def isCovered (chunkStart chunkEnd : α) (intervals : List (α × α)) : Bool :=
  coveredFrom chunkEnd chunkStart (mergeIntervals intervals)

example : isCovered 1 4 [(1, 2), (2, 4)] = true ∧ isCovered 1 4 [(1, 2), (3, 4)] = false := by
  decide

end Intervals

/-- `min(o["min_seq"] for o in objs)`; the list is never empty. -/
def minSeqOf (objs : List ObjectMeta) : ℕ := (objs.map (·.minSeq)).min?.getD 0

def metaOf (measurement : Str) (kind : Kind) (key : Str) (objs : List ObjectMeta) (rows : ℕ) :
    ObjectMeta where
  measurement := measurement
  kind := kind
  objectKey := key
  rangeStart := (objs.map (·.rangeStart)).min?.getD 0
  rangeEnd := (objs.map (·.rangeEnd)).max?.getD 0
  rows := rows
  minSeq := minSeqOf objs
  maxSeq := (objs.map (·.maxSeq)).max?.getD 0

/-- Drop the merged staging objects: the file first, then its listing. -/
def dropStaging (objs : List ObjectMeta) (c : Cold V) : Cold V :=
  objs.foldl (fun c o => forget (delete c o.objectKey) o.objectKey) c

/-- The output key of a group. -/
def outKey (m day : Str) (objs : List ObjectMeta) : Str := coldKey m day (minSeqOf objs)

/-- One day of `compact_once`: merge, record, drop. -/
def compactGroup (m day : Str) (objs : List ObjectMeta) (c : Cold V) :
    Option (Cold V × CompactResult) :=
  (Engine.compact c (objs.map (·.objectKey)) (outKey m day objs)).map fun (c', rows) =>
    (dropStaging objs (record c' (metaOf m .cold (outKey m day objs) objs rows)),
      ⟨m, day, outKey m day objs, objs.length, rows⟩)

/-- The days of one measurement. When a merge fails the exception leaves the
days before it compacted. -/
def compactGroups (m : Str) : List (Str × List ObjectMeta) → Cold V →
    Cold V × Option (List CompactResult)
  | [], c => (c, some [])
  | (day, objs) :: groups, c =>
    match compactGroup m day objs c with
    | none => (c, none)
    | some (c', result) =>
      let (c'', results) := compactGroups m groups c'
      (c'', results.map (result :: ·))

def compactAll : List Str → Cold V → Cold V × Option (List CompactResult)
  | [], c => (c, some [])
  | m :: ms, c =>
    match compactGroups m (planCompaction (objects c m (some .staging))).entries c with
    | (c', none) => (c', none)
    | (c', some done) =>
      let (c'', results) := compactAll ms c'
      (c'', results.map (done ++ ·))

/-- An empty measurement name counts as none given. -/
def passMeasurements (c : Cold V) (measurement : Option Str) : List Str :=
  match measurement with
  | some (ch :: m) => [ch :: m]
  | _ => measurements c

def compactOnce (measurement : Option Str) (c : Cold V) : Cold V × Option (List CompactResult) :=
  compactAll (passMeasurements c measurement) c

/-- `drop_chunks(older_than => end, newer_than => start)` -/
def dropChunk (hot : Table V) (start stop : Time) : Table V :=
  hot.filter (fun k _ => !(decide (start ≤ k.time) && decide (k.time < stop)))

/-- The object an export of a chunk is written to. -/
def exportKey (table : Str) (start : Time) : Str := coldKey table (dayOf start) 0

/-- One chunk of `evict_once`; the intervals were read before the loop. -/
def evictChunk (table : Str) (intervals : List (Time × Time)) (w : World V)
    (chunk : Time × Time) : World V :=
  let dropped := Function.update w.hot table (dropChunk (w.hot table) chunk.1 chunk.2)
  if isCovered chunk.1 chunk.2 intervals then { w with hot := dropped }
  else
    let (c, rows) := Engine.exportHotRange w.cold (w.hot table) (exportKey table chunk.1)
      chunk.1 chunk.2
    { w with
      hot := dropped
      cold := record c ⟨⟨table, .cold, chunk.1, chunk.2, rows, 0, 0⟩, exportKey table chunk.1⟩ }

def coverage (c : Cold V) (table : Str) : List (Time × Time) :=
  (objects c table none).map (fun o => (o.rangeStart, o.rangeEnd))

def evictTable (w : World V) (table : Str) (chunks : List (Time × Time)) : World V :=
  chunks.foldl (evictChunk table (coverage w.cold table)) w

/-- The tables with the chunks the database reports as old enough. -/
def evictOnce (w : World V) (eligible : List (Str × List (Time × Time))) :
    World V × List EvictResult :=
  (eligible.foldl (fun w e => evictTable w e.1 e.2) w,
    eligible.flatMap (fun e => e.2.map (fun chunk => ⟨e.1, chunk.1, chunk.2⟩)))

inductive Tier
  | hot
  | cold
  | all
deriving DecidableEq

/-- The rows under the view of a table: the hot relation and the objects that
survive pruning. -/
def viewRows (w : World V) (tier : Tier) (table : Str) (start stop : Option Time) : Set (Row V) :=
  {r | (tier ≠ .cold ∧ r ∈ Table.rows (w.hot table)) ∨
    (tier ≠ .hot ∧ ∃ o ∈ selectOverlapping (objects w.cold table none) start stop,
      ∃ rows, w.cold.files o.objectKey = some rows ∧ r ∈ rows)}

/-- A row a query of the tier can return for a key: its tag and field columns. -/
def Read (w : World V) (tier : Tier) (table : Str) (k : Key) (cells : Cells V) : Prop :=
  Engine.ViewRow (viewRows w tier table none none) k cells

theorem minSeqOf_mem {objs : List ObjectMeta} (h : objs ≠ []) :
    ∃ o ∈ objs, o.minSeq = minSeqOf objs := by
  have hne : (objs.map (·.minSeq)).min? ≠ none := by simpa using h
  obtain ⟨a, ha⟩ := Option.ne_none_iff_exists'.mp hne
  have hmem := List.min?_mem ha
  simpa [minSeqOf, ha] using hmem

theorem minSeqOf_le {objs : List ObjectMeta} {o : ObjectMeta} (ho : o ∈ objs) :
    minSeqOf objs ≤ o.minSeq :=
  List.min?_getD_le_of_mem (List.mem_map_of_mem ho)

end Tiering

end TimescaleLp
