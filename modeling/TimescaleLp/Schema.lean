import TimescaleLp.Tiering

/-!
Field values, column types and the schema cache. A measurement is a hypertable
whose tag and field columns are added when a batch first needs them; a field
column is promoted when a batch holds a value its type cannot hold. Python's and
Postgres's conversions of floating-point numbers are parameters.
-/
namespace TimescaleLp

/-- Column types; `other` is any type not created by the service. -/
inductive PgType
  | boolean
  | bigint
  | doublePrecision
  | text
  | real
  | other (dtype : Str)
deriving DecidableEq

/-- The Python values a field can have. -/
inductive Value (F : Type)
  | bool (b : Bool)
  | int (n : ℤ)
  | float (x : F)
  | str (s : Str)
deriving DecidableEq

/-- Why a write raises. -/
inductive WriteError
  | valueError
  | overflowError
  | keyError
  | database
  | objectStore
deriving DecidableEq

/-- Conversions of doubles and of numeric texts, Python's first. -/
class Numerics (F : Type) where
  /-- the nearest double of an integer in range -/
  ofInt : ℤ → F
  /-- `int(x)` raises for NaN and the infinities -/
  toInt : F → Except WriteError ℤ
  /-- `bool(x)` -/
  truthy : F → Bool
  /-- `str(x)` -/
  text : F → Str
  /-- `float(s)` -/
  ofText : Str → Option F
  /-- `int(s)` -/
  intOfText : Str → Option ℤ
  /-- `x::bigint` -/
  pgToInt : F → Option ℤ
  /-- `x::text` -/
  pgText : F → Str
  /-- `s::double precision` -/
  pgOfText : Str → Option F
  /-- `s::bigint` -/
  pgIntOfText : Str → Option ℤ

/-- Decimal numeral of an integer. -/
def intText (n : ℤ) : Str :=
  if n < 0 then '-' :: Nat.toDigits 10 n.natAbs else Nat.toDigits 10 n.natAbs

def readDigits (s : Str) : Option ℕ :=
  if s ≠ [] ∧ s.all Char.isDigit then some (Nat.ofDigitChars 10 s 0) else none

def readInt : Str → Option ℤ
  | '-' :: s => (readDigits s).map fun n => -n
  | s => (readDigits s).map Int.ofNat

/-- Doubles without a fraction and plain numerals: enough to run the model on. -/
instance : Numerics ℤ where
  ofInt := id
  toInt := .ok
  truthy n := decide (n ≠ 0)
  text n := intText n ++ ".0".toList
  ofText := readInt
  intOfText := readInt
  pgToInt := some
  pgText := intText
  pgOfText := readInt
  pgIntOfText := readInt

structure TableSchema where
  measurement : Str
  table : Str
  tagCols : Dict Str Str
  fieldCols : Dict Str (Str × PgType)

/-- One ingest process with its stores. `catalog` has the tag and field columns
of the hypertables, `cache` is the process's schema cache. -/
structure Service (F : Type) extends World (Value F) where
  catalog : Dict Str (Dict Str PgType)
  cache : Dict Str TableSchema

namespace Schema

open Names

variable {F : Type}

def inferFieldType : Value F → PgType
  | .bool _ => .boolean
  | .int _ => .bigint
  | .float _ => .doublePrecision
  | .str _ => .text

/-- Position in the widening lattice; an unknown type counts as widest. -/
def typeRank : PgType → ℕ
  | .boolean => 1
  | .bigint => 2
  | .doublePrecision => 3
  | .text => 4
  | .real => 4
  | .other _ => 4

/-- The column type that can hold both the current type and the observed value. -/
def widenedType (current : PgType) (observed : Value F) : PgType :=
  if typeRank current < typeRank (inferFieldType observed) then inferFieldType observed
  else current

/-- `float(n)` raises when the nearest double is beyond the largest one. -/
def floatOfInt [Numerics F] (n : ℤ) : Except WriteError (Value F) :=
  if n.natAbs < 2 ^ 1024 - 2 ^ 970 then .ok (.float (Numerics.ofInt n)) else .error .overflowError

/-- `str(value)` -/
def valueText [Numerics F] : Value F → Str
  | .bool true => "True".toList
  | .bool false => "False".toList
  | .int n => intText n
  | .float x => Numerics.text x
  | .str s => s

/-- Convert a present value to the Python value a column type takes. -/
def coerceValue [Numerics F] (colType : PgType) (value : Value F) : Except WriteError (Value F) :=
  match colType, value with
  | .bigint, .bool b => .ok (.int (if b then 1 else 0))
  | .bigint, .int n => .ok (.int n)
  | .bigint, .float x => (Numerics.toInt x).map .int
  | .bigint, .str s => (Numerics.intOfText F s).elim (.error .valueError) (fun n => .ok (.int n))
  | .doublePrecision, .bool b | .real, .bool b => floatOfInt (if b then 1 else 0)
  | .doublePrecision, .int n | .real, .int n => floatOfInt n
  | .doublePrecision, .float x | .real, .float x => .ok (.float x)
  | .doublePrecision, .str s | .real, .str s =>
    (Numerics.ofText s).elim (.error .valueError) (fun x => .ok (.float x))
  | .boolean, .bool b => .ok (.bool b)
  | .boolean, .int n => .ok (.bool (decide (n ≠ 0)))
  | .boolean, .float x => .ok (.bool (Numerics.truthy x))
  | .boolean, .str s =>
    .ok (.bool (decide (s.map Char.toLower ∈ ["t".toList, "true".toList, "1".toList])))
  | .text, v | .other _, v => .ok (.str (valueText v))

/-- `_coerce`: a missing value stays missing. -/
def coerce [Numerics F] (value : Option (Value F)) (colType : PgType) :
    Except WriteError (Option (Value F)) :=
  match value with
  | none => .ok none
  | some v => (coerceValue colType v).map some

/-- The cast of `ALTER COLUMN ... TYPE ... USING`: `_alter_using` sends boolean
columns through `int`, since Postgres casts boolean to no other number. -/
def castValue [Numerics F] (fromType toType : PgType) (value : Value F) : Option (Value F) :=
  match toType, value with
  | .bigint, .bool b => if fromType = .boolean then some (.int (if b then 1 else 0)) else none
  | .bigint, .int n => some (.int n)
  | .bigint, .float x => (Numerics.pgToInt x).map .int
  | .bigint, .str s => (Numerics.pgIntOfText F s).map .int
  | .doublePrecision, .bool b =>
    if fromType = .boolean then some (.float (Numerics.ofInt (if b then 1 else 0))) else none
  | .doublePrecision, .int n => some (.float (Numerics.ofInt n))
  | .doublePrecision, .float x => some (.float x)
  | .doublePrecision, .str s => (Numerics.pgOfText s).map .float
  | .text, .bool b => some (.str (if b then "true".toList else "false".toList))
  | .text, .int n => some (.str (intText n))
  | .text, .float x => some (.str (Numerics.pgText x))
  | .text, .str s => some (.str s)
  | _, v => some v

/-- `col.startswith("t_")` in the columns read back from the database. -/
def introspectTags (columns : Dict Str PgType) : Dict Str Str :=
  columns.entries.foldl (fun d e => if "t_".toList <+: e.1 then d.set (e.1.drop 2) e.1 else d)
    Dict.empty

def introspectFields (columns : Dict Str PgType) : Dict Str (Str × PgType) :=
  columns.entries.foldl (fun d e => if "f_".toList <+: e.1 then d.set (e.1.drop 2) e else d)
    Dict.empty

/-- `CREATE TABLE IF NOT EXISTS`, then read the columns back. The name of the table is
taken to be free or its own. -/
def createOrLoad (s : Service F) (measurement : Str) : Service F × TableSchema :=
  let table := measurementTable measurement
  let columns := (s.catalog.get? table).getD Dict.empty
  ({ s with catalog := s.catalog.set table columns },
    ⟨measurement, table, introspectTags columns, introspectFields columns⟩)

/-- One statement of the migration transaction, with the change it makes to the
cached schema once it has run. -/
inductive Migration
  | addTag (t : Str)
  | addField (f : Str) (ty : PgType)
  | widen (f : Str) (col : Str) (fromType toType : PgType)
deriving DecidableEq

def needsWidening (cached : TableSchema) (f : Str) (v : Value F) : Bool :=
  match cached.fieldCols.get? f with
  | none => false
  | some (_, current) => widenedType current v ≠ current

/-- The test that lets a call return the cached schema without the lock. -/
def needsUpdate (cached : TableSchema) (tagNames : List Str) (fieldSamples : Dict Str (Value F)) :
    Bool :=
  tagNames.any (fun t => !cached.tagCols.contains t) ||
    fieldSamples.keys.any (fun f => !cached.fieldCols.contains f) ||
    fieldSamples.entries.any (fun e => needsWidening cached e.1 e.2)

/-- The statements a call issues: missing tags, missing fields, promotions. -/
def migrations (cached : TableSchema) (tagNames : List Str) (fieldSamples : Dict Str (Value F)) :
    List Migration :=
  (tagNames.filter (fun t => !cached.tagCols.contains t)).map .addTag ++
  (fieldSamples.entries.filter (fun e => !cached.fieldCols.contains e.1)).map
    (fun e => .addField e.1 (inferFieldType e.2)) ++
  fieldSamples.entries.filterMap (fun e =>
    match cached.fieldCols.get? e.1 with
    | none => none
    | some (col, current) =>
      if widenedType current e.2 = current then none
      else some (.widen e.1 col current (widenedType current e.2)))

/-- `ADD COLUMN IF NOT EXISTS` -/
def addColumn (s : Service F) (table col : Str) (ty : PgType) : Service F :=
  let columns := (s.catalog.get? table).getD Dict.empty
  if columns.contains (pgIdent col) then s
  else { s with catalog := s.catalog.set table (columns.set (pgIdent col) ty) }

variable [Numerics F]

/-- The cells of a row after a column is rewritten by a cast. -/
def castCells (col : Str) (fromType toType : PgType) (cells : Cells (Value F)) :
    Cells (Value F) :=
  fun c => if c = col then (cells c).bind (castValue fromType toType) else cells c

/-- `ALTER COLUMN ... TYPE ... USING ...` fails when a stored value has no cast. -/
def alterColumnType (s : Service F) (table col : Str) (fromType toType : PgType) :
    Option (Service F) :=
  let columns := (s.catalog.get? table).getD Dict.empty
  let castable := (s.hot table).values.all fun r =>
    ((r.cells (pgIdent col)).all fun v => (castValue fromType toType v).isSome)
  if castable then
    some { s with
      catalog := s.catalog.set table (columns.set (pgIdent col) toType)
      hot := Function.update s.hot table ((s.hot table).map fun _ r =>
        ⟨r.seq, castCells (pgIdent col) fromType toType r.cells⟩) }
  else none

/-- Run one statement and note it in the schema object. -/
def migrate (s : Service F) (schema : TableSchema) : Migration → Option (Service F × TableSchema)
  | .addTag t =>
    some (addColumn s schema.table (tagCol t) .text,
      { schema with tagCols := schema.tagCols.set t (tagCol t) })
  | .addField f ty =>
    some (addColumn s schema.table (fieldCol f) ty,
      { schema with fieldCols := schema.fieldCols.set f (fieldCol f, ty) })
  | .widen f col fromType toType =>
    (alterColumnType s schema.table col fromType toType).map fun s' =>
      (s', { schema with fieldCols := schema.fieldCols.set f (col, toType) })

/-- The transaction: `none` when a statement fails, with the schema object as
far as it had been updated by then. -/
def migrateAll (s : Service F) (schema : TableSchema) : List Migration →
    Option (Service F) × TableSchema
  | [] => (some s, schema)
  | m :: ms =>
    match migrate s schema m with
    | none => (none, schema)
    | some (s', schema') => migrateAll s' schema' ms

/-- The part of `_ensure_schema` under the measurement's lock. A rolled-back
transaction leaves the database alone, but a schema object that was already in
the cache keeps its updates. -/
def lockedUpdate (s : Service F) (measurement : Str) (cached : TableSchema)
    (tagNames : List Str) (fieldSamples : Dict Str (Value F)) : Service F × Option TableSchema :=
  match migrateAll s cached (migrations cached tagNames fieldSamples) with
  | (some s', schema) => ({ s' with cache := s'.cache.set measurement schema }, some schema)
  | (none, schema) =>
    if s.cache.contains measurement then
      ({ s with cache := s.cache.set measurement schema }, none)
    else (s, none)

def ensureSchema (s : Service F) (measurement : Str) (tagNames : List Str)
    (fieldSamples : Dict Str (Value F)) : Service F × Option TableSchema :=
  match s.cache.get? measurement with
  | some cached =>
    if needsUpdate cached tagNames fieldSamples then
      lockedUpdate s measurement cached tagNames fieldSamples
    else (s, some cached)
  | none =>
    let (s', loaded) := createOrLoad s measurement
    lockedUpdate s' measurement loaded tagNames fieldSamples

end Schema

end TimescaleLp
