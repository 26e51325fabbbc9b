import TimescaleLp.BatchCuts
import TimescaleLp.FieldTypes

/-!
A write of a measurement as a function of its sheet: the schema that the process
goes by and the cells of the hot rows, without their sequence numbers. The schema
step promotes the sheet, the transaction upserts the rows of the last points.
Both can be repeated, so a write that is made again after a part of it was done
ends where one write does.
-/
namespace TimescaleLp.Sheets

open Names Schema Store Naming Promotion Alters Columns Upserts BatchCuts Sequence Writes

variable {F : Type}

structure Sheet (F : Type) where
  schema : TableSchema
  rows : Rows Key Str (Value F)

/-- The sheet of a measurement in a state. -/
def sheetOf (s : Service F) (m : Str) : Sheet F where
  schema := schemaOf s m
  rows k := ((s.hot (measurementTable m)).get? k).map Stored.cells

/-- The columns that a batch of the points has. -/
def colsOf (schema : TableSchema) (points : List (Point F)) : List Str :=
  ((columnSources schema (tagNames points) (fieldSamples points).keys).getD []).map Prod.fst

section Functions
variable (digest : Str → ℕ) [Numerics F]

/-- What the batch has for a key: the cells of the last point of the key. -/
def cellsFor (schema : TableSchema) (points : List (Point F)) (k : Key) :
    Option (Cells (Value F)) :=
  (columnSources schema (tagNames points) (fieldSamples points).keys).bind fun sources =>
    (lastOf digest points k).bind fun p => (rowValues p sources).toOption.map cellsOf

namespace Sheet

/-- The statements that the points make necessary. -/
def statements (x : Sheet F) (points : List (Point F)) : List Migration :=
  migrations x.schema (tagNames points) (fieldSamples points)

/-- The schema step. -/
def promoted (x : Sheet F) (points : List (Point F)) : Sheet F where
  schema := noted x.schema (x.statements points)
  rows k := (x.rows k).map (recast (x.statements points))

/-- The columns of the batch in the rows of its keys. -/
def change (schema : TableSchema) (points : List (Point F)) : Change Key Str (Value F) := fun k =>
  (cellsFor digest schema points k).map fun cells c =>
    ((colsOf schema points).find? fun col => pgIdent col = c).map cells

/-- The transaction. -/
def upserted (x : Sheet F) (points : List (Point F)) : Sheet F where
  schema := x.schema
  rows := apply x.rows (change digest x.schema points)

def written (x : Sheet F) (points : List (Point F)) : Sheet F :=
  (x.promoted points).upserted digest points

end Sheet

/-- What a call that stops may leave of a sheet. -/
inductive Left (points : List (Point F)) (x : Sheet F) : Sheet F → Prop
  | untouched : Left points x x
  | promoted : Left points x (x.promoted points)
  | written : Left points x (x.written digest points)

end Functions

section Repeat

/-- The widening of a type that has been widened. -/
theorem widenedType_idem (ty : PgType) (v : Value F) :
    widenedType (widenedType ty v) v = widenedType ty v := by
  unfold widenedType
  by_cases hlt : typeRank ty < typeRank (inferFieldType v)
  · rw [if_pos hlt, if_neg (lt_irrefl _)]
  · rw [if_neg hlt, if_neg hlt]

theorem widenedType_inferFieldType (v : Value F) :
    widenedType (inferFieldType v) v = inferFieldType v := by
  rw [widenedType, if_neg (lt_irrefl _)]

/-- A schema that has noted the statements makes none necessary. -/
theorem migrations_noted (schema : TableSchema) (tagNames : List Str)
    (samples : Dict Str (Value F)) :
    migrations (noted schema (migrations schema tagNames samples)) tagNames samples = [] := by
  rw [List.eq_nil_iff_forall_not_mem]
  intro mg hmg
  cases mg with
  | addTag t =>
    obtain ⟨ht, hnew⟩ := (addTag_mem_migrations_iff t).mp hmg
    obtain ⟨col, hcol⟩ := (Dict.mem_keys_iff _ _).mp
      ((mem_tagCols_noted_iff schema tagNames samples t).mpr (Or.inr ht))
    simp [Dict.contains, hcol] at hnew
  | addField f ty =>
    obtain ⟨v, hv, hnew, -⟩ := (addField_mem_migrations_iff f ty).mp hmg
    rw [get?_noted_migrations, wantedEntry, hv] at hnew
    split at hnew <;> simp_all
  | widen f col fromType toType =>
    obtain ⟨v, hv, hget, hto, hne⟩ := (widen_mem_migrations_iff f col fromType toType).mp hmg
    rw [get?_noted_migrations, wantedEntry, hv] at hget
    cases hentry : schema.fieldCols.get? f with
    | none =>
      simp only [hentry, Option.some.injEq, Prod.mk.injEq] at hget
      rw [hto, ← hget.2, widenedType_inferFieldType] at hne
      exact hne rfl
    | some e =>
      simp only [hentry, Option.some.injEq, Prod.mk.injEq] at hget
      rw [hto, ← hget.2, widenedType_idem] at hne
      exact hne rfl

variable {digest : Str → ℕ} [Numerics F] {x y : Sheet F} {points : List (Point F)}

theorem promoted_of_statements (h : x.statements points = []) : x.promoted points = x := by
  unfold Sheet.promoted
  rw [h]
  have hrows : (fun k => (x.rows k).map (recast [])) = x.rows := by
    funext k
    exact Option.map_id'
  rw [hrows]
  rfl

theorem promoted_promoted : (x.promoted points).promoted points = x.promoted points :=
  promoted_of_statements (migrations_noted _ _ _)

/-- A write leaves nothing to promote. -/
theorem promoted_written : (x.written digest points).promoted points = x.written digest points :=
  promoted_of_statements (migrations_noted _ _ _)

theorem written_promoted :
    (x.promoted points).written digest points = x.written digest points := by
  rw [Sheet.written, promoted_promoted, Sheet.written]

theorem written_written :
    (x.written digest points).written digest points = x.written digest points := by
  rw [Sheet.written, promoted_written, Sheet.written, Sheet.upserted, Sheet.upserted, apply_apply]

/-- A write absorbs what an earlier call left of it. -/
theorem Left.written_eq (h : Left digest points x y) :
    y.written digest points = x.written digest points := by
  cases h with
  | untouched => rfl
  | promoted => exact written_promoted
  | written => exact written_written

theorem Left.schema_eq (h : Left digest points x y) :
    (y.promoted points).schema = (x.promoted points).schema := by
  cases h with
  | untouched => rfl
  | promoted => rw [promoted_promoted]
  | written => rw [promoted_written]; rfl

end Repeat

section Batch
variable (digest : Str → ℕ) [Numerics F] {schema : TableSchema} {points : List (Point F)}
  {b : Batch F} {sources : List (Str × Source)}

theorem colsOf_built (hb : Built digest schema points b sources) : colsOf schema points = b.cols := by
  rw [colsOf, hb.found, hb.cols, Option.getD_some]

theorem cellsFor_of_mem (hb : Built digest schema points b sources) {r : Row (Value F)}
    (hr : r ∈ b.records) : cellsFor digest schema points r.key = some r.cells := by
  obtain ⟨p, hlast, -, values, hvalues, hcells⟩ := hb.rows r hr
  rw [cellsFor, hb.found, Option.bind_some, hlast, Option.bind_some, hvalues, hcells]
  rfl

/-- A key that no point has. -/
theorem cellsFor_of_notMem (hb : Built digest schema points b sources) {k : Key}
    (hk : k ∉ b.records.map Row.key) : cellsFor digest schema points k = none := by
  have hlast : lastOf digest points k = none := by
    cases hlast : lastOf digest points k with
    | none => rfl
    | some p =>
      obtain ⟨hp, rfl⟩ := lastOf_mem digest hlast
      obtain ⟨r, hr, hkey⟩ := hb.keys p hp
      exact absurd (hkey ▸ List.mem_map_of_mem hr) hk
  rw [cellsFor, hlast]
  cases columnSources schema (tagNames points) (fieldSamples points).keys <;> rfl

/-- The transaction does to the rows of a table what it does to the sheet. -/
theorem commit_change (hb : Built digest schema points b sources)
    (hkeys : (b.records.map Row.key).Nodup) {t t' : Table (Value F)}
    (ht : Store.commit b t = some t') (k : Key) : (t'.get? k).map Stored.cells =
      apply (fun k => (t.get? k).map Stored.cells) (Sheet.change digest schema points) k := by
  rw [apply, Sheet.change]
  by_cases hk : k ∈ b.records.map Row.key
  · obtain ⟨r, hr, rfl⟩ := List.mem_map.mp hk
    rw [Batches.get?_commit_of_mem ht hkeys hr, cellsFor_of_mem digest hb hr, colsOf_built digest hb]
    simp only [Option.map_some, Batches.upserted, insertedCell, cell, Option.bind_map]
    rfl
  · rw [Batches.get?_commit_of_notMem ht hk, cellsFor_of_notMem digest hb hk]
    rfl

end Batch

/-- Nothing changes for other tables and their measurements. -/
structure Frame (tables : Set Str) (s s' : Service F) : Prop where
  schema : ∀ m, measurementTable m ∉ tables → schemaOf s' m = schemaOf s m
  rows : ∀ t, t ∉ tables → ∀ k, hotRows s'.toWorld (t, k) = hotRows s.toWorld (t, k)

namespace Frame

variable {tables tables' : Set Str} {s s' s'' : Service F}

theorem sheet (h : Frame tables s s') {m : Str} (hm : measurementTable m ∉ tables) :
    sheetOf s' m = sheetOf s m := by
  unfold sheetOf
  rw [h.schema m hm]
  exact congrArg _ (funext (h.rows _ hm))

theorem refl (tables : Set Str) (s : Service F) : Frame tables s s :=
  ⟨fun _ _ => rfl, fun _ _ _ => rfl⟩

theorem mono (h : Frame tables s s') (hsub : tables ⊆ tables') : Frame tables' s s' :=
  ⟨fun m hm => h.schema m (mt (@hsub _) hm), fun t ht => h.rows t (mt (@hsub _) ht)⟩

theorem trans (h : Frame tables s s') (h' : Frame tables s' s'') : Frame tables s s'' :=
  ⟨fun m hm => (h'.schema m hm).trans (h.schema m hm),
    fun t ht k => (h'.rows t ht k).trans (h.rows t ht k)⟩

end Frame

section State
variable (digest : Str → ℕ) [Numerics F]

variable {s s' : Service F} {m : Str} {points : List (Point F)} {b : Batch F}
  {schema : TableSchema} {sources : List (Str × Source)}

theorem sheetOf_prepared (h : Prepared digest s m points s' b schema sources) :
    sheetOf s' m = (sheetOf s m).promoted points := by
  have hrows : ∀ k, ((s'.hot (measurementTable m)).get? k).map Stored.cells =
      (((s.hot (measurementTable m)).get? k).map Stored.cells).map
        (recast (callMigrations s m (tagNames points) (fieldSamples points))) := by
    intro k
    rw [h.rows, Option.map_map, Option.map_map]
    simp only [Function.comp_def, if_true]
  unfold sheetOf Sheet.promoted
  rw [schemaOf_of_cached h.cached, h.noted]
  exact congrArg _ (funext hrows)

theorem frame_prepared (h : Prepared digest s m points s' b schema sources) (hpoints : points ≠ []) :
    Frame {measurementTable m} s s' := by
  obtain ⟨schema', s₁, hensure, -, hs', -⟩ := prepare_ok digest hpoints h.prepared
  obtain ⟨hcolumns, hcached⟩ := ensureSchema_some hensure
  have hschema : schema' = schema := (ensureSchema_ok hensure).1.trans h.noted.symm
  have htable : schema'.table = measurementTable m := hschema ▸ h.canonical.table
  refine ⟨fun m' hm' => ?_, fun t ht k => ?_⟩
  · rw [Set.mem_singleton_iff] at hm'
    have hne : m' ≠ m := fun heq => hm' (heq ▸ rfl)
    refine FieldTypes.schemaOf_congr ?_ ?_
    · have hsame := hcolumns (measurementTable m')
      rw [htable, if_neg hm'] at hsame
      rw [hs', ← hsame]
      rfl
    · rw [hs']
      exact (hcached m').trans (if_neg hne)
  · rw [Set.mem_singleton_iff] at ht
    rw [hotRows, h.rows, Option.map_map, hotRows]
    simp only [Function.comp_def, if_neg ht]

/-- What a call does that gets to its stores: it writes the sheet if it returns,
otherwise it has promoted it. -/
theorem sheet_ingest {h : History F} {on : Bool} {fault : Option Fault} (hs : Named h.service)
    (hpoints : points ≠ []) (hbuilt : (prepare digest h.service m points).2.isOk = true) :
    Frame {measurementTable m} h.service (ingest digest on fault h m points).service ∧
      sheetOf (ingest digest on fault h m points).service m =
        if (writeMeasurement digest on fault h.service m points).2.isOk then
          (sheetOf h.service m).written digest points
        else (sheetOf h.service m).promoted points := by
  rcases hprepare : prepare digest h.service m points with ⟨s', err | b⟩
  · rw [hprepare] at hbuilt
    contradiction
  · obtain ⟨schema, sources, hprepared⟩ := exists_prepared digest hs hpoints hprepare
    have hframe := frame_prepared digest hprepared hpoints
    have hsheet := sheetOf_prepared digest hprepared
    have hsame : ∀ c : Cold (Value F), Frame {measurementTable m} h.service { s' with cold := c } ∧
        sheetOf { s' with cold := c } m = (sheetOf h.service m).promoted points :=
      fun c => ⟨⟨hframe.schema, hframe.rows⟩, hsheet⟩
    have houtcome := outcome_storeBatch on fault s' b
    simp only [ingest, writeMeasurement, hprepare]
    generalize (storeBatch on fault s' b).1 = s'' at houtcome ⊢
    generalize (storeBatch on fault s' b).2 = res at houtcome ⊢
    cases houtcome with
    | unstaged => exact hsame s'.cold
    | unrecorded | uncommitted => exact hsame _
    | committed t _ ht =>
      have hok : (Except.ok b.records.length : Except WriteError ℕ).isOk = true := rfl
      rw [if_pos hok]
      refine ⟨⟨hframe.schema, fun t' ht' k => ?_⟩, ?_⟩
      · rw [← hframe.rows t' ht' k]
        rw [Set.mem_singleton_iff, ← hprepared.table] at ht'
        simp only [hotRows, Function.update_of_ne ht']
      · have hschema : (sheetOf s' m).schema = schema := schemaOf_of_cached hprepared.cached
        rw [Sheet.written, ← hsheet, Sheet.upserted, hschema]
        unfold sheetOf
        refine congrArg₂ Sheet.mk hschema (funext fun k => ?_)
        rw [← hprepared.table]
        simp only [Function.update_self]
        exact commit_change digest hprepared.built hprepared.drawn.keys ht k

end State

end TimescaleLp.Sheets
