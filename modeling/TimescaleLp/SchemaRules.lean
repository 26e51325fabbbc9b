import TimescaleLp.Promotion

/-!
Invariants of the schema step. A property of the columns of a table and one of
the cached schemas hold in every state, if reading a schema back from the
database and each statement that a call can issue keep them.
-/
namespace TimescaleLp.SchemaRules

open Names Schema Promotion

variable {F : Type} {Q : Str → Dict Str PgType → Prop} {R : Str → TableSchema → Prop}

/-- What holds of the columns of each table and of the cached schema of each
measurement. -/
structure SchemaInv (Q : Str → Dict Str PgType → Prop) (R : Str → TableSchema → Prop)
    (s : Service F) : Prop where
  catalog : ∀ table columns, s.catalog.get? table = some columns → Q table columns
  cache : ∀ m schema, s.cache.get? m = some schema → R m schema

/-- The columns of a table after a statement. -/
def migrated (columns : Dict Str PgType) : Migration → Dict Str PgType
  | .addTag t => columns.set (pgIdent (tagCol t)) .text
  | .addField f ty => columns.set (pgIdent (fieldCol f)) ty
  | .widen _ col _ toType => columns.set (pgIdent col) toType

/-- The properties of one measurement are kept by statements of a kind. -/
structure SchemaRule (Q : Str → Dict Str PgType → Prop) (R : Str → TableSchema → Prop)
    (P : Migration → Prop) (m : Str) : Prop where
  empty : Q (measurementTable m) Dict.empty
  load : ∀ columns, Q (measurementTable m) columns → R m ⟨m, measurementTable m,
    introspectTags columns, introspectFields columns⟩
  table : ∀ schema, R m schema → schema.table = measurementTable m
  columns : ∀ mg, P mg → ∀ columns, Q (measurementTable m) columns →
    Q (measurementTable m) (migrated columns mg)
  schema : ∀ mg, P mg → ∀ schema, R m schema → R m (noted schema [mg])

/-- Also all statements that calls issue are of the kind. -/
structure CallRule (F : Type) (Q : Str → Dict Str PgType → Prop) (R : Str → TableSchema → Prop)
    (P : Migration → Prop) : Prop where
  rule : ∀ m, SchemaRule Q R P m
  issued : ∀ m schema, R m schema → ∀ (tagNames : List Str) (samples : Dict Str (Value F)),
    ∀ mg ∈ migrations schema tagNames samples, P mg

namespace SchemaInv

variable {s s' : Service F}

theorem columns (h : SchemaInv Q R s) {table : Str} (hempty : Q table Dict.empty) :
    Q table ((s.catalog.get? table).getD Dict.empty) := by
  cases hget : s.catalog.get? table with
  | none => exact hempty
  | some columns => exact h.catalog table columns hget

theorem congr (h : SchemaInv Q R s) (hcatalog : s'.catalog = s.catalog)
    (hcache : s'.cache = s.cache) : SchemaInv Q R s' where
  catalog := hcatalog ▸ h.catalog
  cache := hcache ▸ h.cache

theorem setCatalog (h : SchemaInv Q R s) {table : Str} {columns : Dict Str PgType}
    (hcolumns : Q table columns) (hcatalog : s'.catalog = s.catalog.set table columns)
    (hcache : s'.cache = s.cache) : SchemaInv Q R s' where
  catalog := hcatalog ▸ Dict.forall_set h.catalog hcolumns
  cache := hcache ▸ h.cache

theorem setCache (h : SchemaInv Q R s) {m : Str} {schema : TableSchema} (hschema : R m schema)
    (hcatalog : s'.catalog = s.catalog) (hcache : s'.cache = s.cache.set m schema) :
    SchemaInv Q R s' where
  catalog := hcatalog ▸ h.catalog
  cache := hcache ▸ Dict.forall_set h.cache hschema

variable {P : Migration → Prop} {m : Str}

theorem createOrLoad (h : SchemaInv Q R s) (rule : SchemaRule Q R P m) :
    SchemaInv Q R (createOrLoad s m).1 ∧ R m (createOrLoad s m).2 :=
  ⟨h.setCatalog (h.columns rule.empty) rfl rfl, rule.load _ (h.columns rule.empty)⟩

theorem schemaOf (h : SchemaInv Q R s) (rule : SchemaRule Q R P m) : R m (schemaOf s m) := by
  cases hcached : s.cache.get? m with
  | some cached => exact schemaOf_of_cached hcached ▸ h.cache m cached hcached
  | none => exact schemaOf_of_none hcached ▸ (h.createOrLoad rule).2

theorem addColumn (h : SchemaInv Q R s) {table col : Str} {ty : PgType}
    (hcolumns : Q table
      (((s.catalog.get? table).getD Dict.empty).set (pgIdent col) ty)) :
    SchemaInv Q R (addColumn s table col ty) := by
  simp only [Schema.addColumn]
  split
  · exact h
  · exact h.setCatalog hcolumns rfl rfl

variable [Numerics F]

theorem migrate {schema schema' : TableSchema} {mg : Migration} (h : SchemaInv Q R s)
    (rule : SchemaRule Q R P m) (hschema : R m schema) (hP : P mg)
    (hmg : migrate s schema mg = some (s', schema')) : SchemaInv Q R s' ∧ R m schema' := by
  have hcolumns := rule.columns mg hP _ (h.columns rule.empty)
  rw [← rule.table schema hschema] at hcolumns
  refine ⟨?_, (migrate_ok hmg).1 ▸ rule.schema mg hP schema hschema⟩
  cases mg with
  | addTag t =>
    cases hmg
    exact h.addColumn hcolumns
  | addField f ty =>
    cases hmg
    exact h.addColumn hcolumns
  | widen f col fromType toType =>
    obtain ⟨s₁, hs₁, heq⟩ := Option.map_eq_some_iff.mp hmg
    cases heq
    simp only [alterColumnType] at hs₁
    split at hs₁
    · cases hs₁
      exact h.setCatalog hcolumns rfl rfl
    · contradiction

/-- Also the schema object of a transaction that fails keeps the property. -/
theorem migrateAll {schema : TableSchema} {ms : List Migration} (h : SchemaInv Q R s)
    (rule : SchemaRule Q R P m) (hschema : R m schema) (hP : ∀ mg ∈ ms, P mg) :
    (∀ s', (migrateAll s schema ms).1 = some s' → SchemaInv Q R s') ∧
      R m (migrateAll s schema ms).2 := by
  induction ms generalizing s schema with
  | nil => exact ⟨fun s' hs' => Option.some.inj hs' ▸ h, hschema⟩
  | cons mg ms ih =>
    rw [Schema.migrateAll]
    split
    · exact ⟨fun s' hs' => by contradiction, hschema⟩
    · rename_i s₁ schema₁ hmg
      obtain ⟨hs₁, hschema₁⟩ := h.migrate rule hschema (hP mg List.mem_cons_self) hmg
      exact ih hs₁ hschema₁ fun mg' hmg' => hP mg' (List.mem_cons_of_mem mg hmg')

theorem lockedUpdate {cached : TableSchema} {tagNames : List Str} {samples : Dict Str (Value F)}
    (h : SchemaInv Q R s) (rule : SchemaRule Q R P m) (hcached : R m cached)
    (hP : ∀ mg ∈ migrations cached tagNames samples, P mg) :
    SchemaInv Q R (lockedUpdate s m cached tagNames samples).1 ∧
      ∀ schema, (lockedUpdate s m cached tagNames samples).2 = some schema → R m schema := by
  obtain ⟨hs', hschema⟩ := h.migrateAll rule hcached hP
  rw [Schema.lockedUpdate]
  split
  · rename_i s' schema hall
    rw [hall] at hs' hschema
    refine ⟨(hs' s' rfl).setCache hschema rfl rfl, fun schema' heq => ?_⟩
    cases heq
    exact hschema
  · rename_i schema hall
    rw [hall] at hschema
    split
    · exact ⟨h.setCache hschema rfl rfl, fun _ heq => by contradiction⟩
    · exact ⟨h, fun _ heq => by contradiction⟩

/-- The schema step of a call, whether it succeeds or not. -/
theorem ensureSchema {tagNames : List Str} {samples : Dict Str (Value F)} (h : SchemaInv Q R s)
    (rule : SchemaRule Q R P m)
    (hP : ∀ cached, R m cached → ∀ mg ∈ migrations cached tagNames samples, P mg) :
    SchemaInv Q R (ensureSchema s m tagNames samples).1 ∧
      ∀ schema, (ensureSchema s m tagNames samples).2 = some schema → R m schema := by
  rw [Schema.ensureSchema]
  split
  · rename_i cached hcached
    have hschema := h.cache m cached hcached
    split
    · exact h.lockedUpdate rule hschema (hP cached hschema)
    · exact ⟨h, fun schema heq => Option.some.inj heq ▸ hschema⟩
  · obtain ⟨hloaded, hschema⟩ := h.createOrLoad rule
    exact hloaded.lockedUpdate rule hschema (hP _ hschema)

end SchemaInv

end TimescaleLp.SchemaRules
