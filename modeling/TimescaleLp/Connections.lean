import TimescaleLp.Names
import TimescaleLp.Resources

/-!
What the calls of the service wait for from one another: the schema lock of a
measurement, the lock of the DuckDB engine and a connection of the pool. Postgres,
DuckDB and the threads do their work without any of these, so a call that waits
for them is as good as running.
-/
namespace TimescaleLp.Connections

open Resources

inductive Resource
  | schemaLock (measurement : Str)
  | engineLock
  | connection
  deriving DecidableEq

/-- A lock is taken before a connection. -/
def rank : Resource → ℕ
  | .schemaLock _ => 0
  | .engineLock => 0
  | .connection => 1

/-- `ingest_pool_max` connections, and each lock once. -/
def capacity (poolMax : ℕ) : Resource → ℕ
  | .connection => poolMax
  | _ => 1

/-- A function that takes one connection for all it does. -/
def connected : Program Resource := .use .connection .done .done

/-- A function that takes the lock of the engine for all it does. -/
def locked : Program Resource := .use .engineLock .done .done

section Store

/-- `_create_or_load` -/
def createOrLoad : Program Resource := connected

/-- What `_ensure_schema` finds: a cached schema that is enough, or under the lock a
cached schema or none, and something to migrate or nothing. -/
inductive Found
  | enough
  | short (cached migrates : Bool)

/-- `_ensure_schema` -/
def ensureSchema (measurement : Str) : Found → Program Resource
  | .enough => .done
  | .short cached migrates =>
    let loaded := if cached then .done else createOrLoad
    .use (.schemaLock measurement) (loaded.append (if migrates then connected else .done)) .done

/-- `record` of the manifest -/
def record : Program Resource := connected

/-- `_write_measurement` -/
def writeMeasurement (writeThrough : Bool) (measurement : Str) (found : Found) : Program Resource :=
  (ensureSchema measurement found).append
    ((if writeThrough then record else .done).append connected)

def writeBatch (writeThrough : Bool) (byMeas : List (Str × Found)) : Program Resource :=
  Program.each (fun e => writeMeasurement writeThrough e.1 e.2) byMeas

/-- `delete_lp`; it deletes nothing for a filter on a tag without a column. -/
def deleteLp (cached known : Bool) : Program Resource :=
  (if cached then .done else createOrLoad).append (if known then connected else .done)

end Store

section Tiering

def ensureManifest : Program Resource := connected

def forget : Program Resource := connected

def objects : Program Resource := connected

def measurements : Program Resource := connected

def hypertables : Program Resource := connected

def eligibleChunks : Program Resource := connected

def dropChunk : Program Resource := connected

def registerViews : Program Resource := locked

def compact : Program Resource := locked

def exportHotRange : Program Resource := locked

/-- `view_specs`, with the tables it finds -/
def viewSpecs (includeHot includeCold : Bool) (tables : List Str) : Program Resource :=
  ((if includeHot then hypertables else .done).append
    (if includeCold then measurements else .done)).append
    (Program.each (fun _ => if includeCold then objects else .done) tables)

/-- One day of `compact_once`, with the staging objects it merges -/
def compactDay (keys : List Str) : Program Resource :=
  (compact.append record).append (Program.each (fun _ => forget) keys)

/-- `compact_once`, with the plan of each measurement -/
def compactOnce (given : Bool) (plans : List (List (List Str))) : Program Resource :=
  (ensureManifest.append (if given then .done else measurements)).append
    (Program.each (fun days => objects.append (Program.each compactDay days)) plans)

/-- One chunk of `evict_once`; one that is not covered is exported first. -/
def evictChunk (covered : Bool) : Program Resource :=
  (if covered then .done else exportHotRange.append record).append dropChunk

/-- `evict_once`, with the chunks of each table -/
def evictOnce (given : Bool) (tables : List (List Bool)) : Program Resource :=
  (ensureManifest.append (if given then .done else hypertables)).append
    (Program.each (fun chunks => eligibleChunks.append
      (if chunks = [] then .done else objects.append (Program.each evictChunk chunks))) tables)

def status : Program Resource := ensureManifest.append connected

end Tiering

/-- A call of the service with the branches that it takes. -/
inductive Call
  | write (writeThrough : Bool) (byMeas : List (Str × Found))
  | delete (cached known : Bool)
  | queryHot
  | queryTiered (includeHot includeCold : Bool) (tables : List Str)
  | tierRun (given : Bool) (plans : List (List (List Str))) (tables : List (List Bool))
  | tierStatus

section Order

variable {n : ℕ} {p q : Program Resource}

end Order

section Service

variable {ι : Type*} [Fintype ι] [DecidableEq ι] {poolMax : ℕ}

end Service

section Example

/-- The first call fails in the transaction that migrates, while the other one waits
for the lock. -/
def contended : List (Event Bool) :=
  [.run false, .run false, .run false, .run false, .fail false, .run false, .run false, .run true]

end Example

end TimescaleLp.Connections
