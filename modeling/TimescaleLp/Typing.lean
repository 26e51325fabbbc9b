import TimescaleLp.Columns

/-!
One type for each field column. When the values of a field always have the type
of its column, the schema step promotes no column, new columns get that type,
and values go into their columns as they are.
-/
namespace TimescaleLp.Typing

open Names Schema Store Naming Promotion SchemaRules

variable {F : Type}

def ColumnsTyped (types : Str → PgType) (columns : Dict Str PgType) : Prop :=
  ∀ f ty, columns.get? (colOfField f) = some ty → ty = types (colOfField f)

def SchemaTyped (types : Str → PgType) (schema : TableSchema) : Prop :=
  ∀ f e, schema.fieldCols.get? f = some e → e.2 = types (colOfField f)

/-- Columns were made from names and those of fields have the types given for
them, in the database and in the cache. -/
abbrev Typed (types : Str → Str → PgType) (s : Service F) : Prop :=
  SchemaInv (fun table columns => ColumnsOk columns ∧ ColumnsTyped (types table) columns)
    (fun m schema => Canonical m schema ∧ SchemaTyped (types (measurementTable m)) schema) s

def SamplesTyped (types : Str → PgType) (samples : Dict Str (Value F)) : Prop :=
  ∀ f v, samples.get? f = some v → inferFieldType v = types (colOfField f)

/-- The values of the points have the types given for their columns. -/
def PointsTyped (types : Str → Str → PgType) (points : List (Point F)) : Prop :=
  ∀ p ∈ points, ∀ f v, p.fields.get? f = some v →
    inferFieldType v = types (measurementTable p.measurement) (colOfField f)

/-- Columns are added with the types given for them and are not promoted. -/
def Adds (types : Str → PgType) : Migration → Prop
  | .addTag _ => True
  | .addField f ty => ty = types (colOfField f)
  | .widen .. => False

theorem coerceValue_inferFieldType [Numerics F] (v : Value F) :
    coerceValue (inferFieldType v) v = .ok v := by
  cases v <;> rfl

section Samples

private theorem get?_foldl_keepWidest (es : List (Str × Value F)) (samples : Dict Str (Value F))
    {f : Str} {v : Value F} (h : (es.foldl keepWidest samples).get? f = some v) :
    samples.get? f = some v ∨ (f, v) ∈ es := by
  induction es generalizing samples with
  | nil => exact Or.inl h
  | cons e es ih =>
    have hset : (samples.set e.1 e.2).get? f = some v → samples.get? f = some v ∨ (f, v) = e := by
      rw [Dict.get?_set]
      split
      · rename_i hf
        intro heq
        exact Or.inr (Prod.ext hf (Option.some.inj heq).symm)
      · exact Or.inl
    have hkeep : (keepWidest samples e).get? f = some v →
        samples.get? f = some v ∨ (f, v) = e := by
      rw [keepWidest]
      split
      · exact hset
      · split
        · exact hset
        · exact Or.inl
    rcases ih _ h with hstart | hmem
    · exact (hkeep hstart).imp_right fun heq => List.mem_cons.mpr (Or.inl heq)
    · exact Or.inr (List.mem_cons_of_mem e hmem)

/-- A sample is a value of one of the points. -/
theorem exists_of_fieldSamples {points : List (Point F)} {f : Str} {v : Value F}
    (h : (fieldSamples points).get? f = some v) : ∃ p ∈ points, p.fields.get? f = some v := by
  rcases get?_foldl_keepWidest _ _ h with hempty | hmem
  · simp at hempty
  · obtain ⟨p, hp, he⟩ := List.mem_flatMap.mp hmem
    exact ⟨p, hp, (Dict.get?_eq_some_iff _ _ _).mpr he⟩

theorem samplesTyped_fieldSamples {types : Str → Str → PgType} {points : List (Point F)} {m : Str}
    (h : PointsTyped types points) (hm : ∀ p ∈ points, p.measurement = m) :
    SamplesTyped (types (measurementTable m)) (fieldSamples points) := by
  intro f v hget
  obtain ⟨p, hp, hfield⟩ := exists_of_fieldSamples hget
  rw [h p hp f v hfield, hm p hp]

end Samples

section Migrations

variable {types : Str → PgType} {schema : TableSchema} {samples : Dict Str (Value F)}

theorem adds_migrations (hschema : SchemaTyped types schema) (hsamples : SamplesTyped types samples)
    (tagNames : List Str) : ∀ mg ∈ migrations schema tagNames samples, Adds types mg := by
  have hentry : ∀ e ∈ samples.entries, inferFieldType e.2 = types (colOfField e.1) :=
    fun e he => hsamples e.1 e.2 ((Dict.get?_eq_some_iff _ _ _).mpr he)
  intro mg hmg
  simp only [migrations, List.mem_append, List.mem_map, List.mem_filterMap,
    List.mem_filter] at hmg
  rcases hmg with (⟨t, -, rfl⟩ | ⟨e, ⟨he, -⟩, rfl⟩) | ⟨e, he, hwiden⟩
  · trivial
  · exact hentry e he
  · split at hwiden
    · contradiction
    · rename_i col current hget
      have hsame : inferFieldType e.2 = current := (hentry e he).trans (hschema _ _ hget).symm
      simp [widenedType, hsame] at hwiden

theorem promotes_of_adds {mg : Migration} (h : Adds types mg) : promotes mg = false := by
  cases mg with
  | addTag t => rfl
  | addField f ty => rfl
  | widen f col fromType toType => exact h.elim

theorem schemaTyped_set (hschema : SchemaTyped types schema) (f : Str) (col : Str) :
    SchemaTyped types
      { schema with fieldCols := schema.fieldCols.set f (col, types (colOfField f)) } :=
  Dict.forall_set hschema rfl

/-- The schema object after the statements of a call. -/
theorem schemaTyped_noted {ms : List Migration} (hschema : SchemaTyped types schema)
    (hadds : ∀ mg ∈ ms, Adds types mg) : SchemaTyped types (noted schema ms) := by
  induction ms generalizing schema with
  | nil => exact hschema
  | cons mg ms ih =>
    have hrest := fun mg' hmg' => hadds mg' (List.mem_cons_of_mem mg hmg')
    have hmg := hadds mg List.mem_cons_self
    cases mg with
    | addTag t => exact ih hschema hrest
    | addField f ty =>
      cases hmg
      exact ih (schemaTyped_set hschema f _) hrest
    | widen f col fromType toType => exact hmg.elim

theorem columnsTyped_addTag {columns : Dict Str PgType} (h : ColumnsTyped types columns) (t : Str) :
    ColumnsTyped types (columns.set (colOfTag t) .text) := by
  intro f ty hget
  rw [Dict.get?_set_of_ne _ _ (colOfTag_ne_colOfField t f).symm] at hget
  exact h f ty hget

theorem columnsTyped_addField {columns : Dict Str PgType} (h : ColumnsTyped types columns)
    (f : Str) : ColumnsTyped types (columns.set (colOfField f) (types (colOfField f))) := by
  intro f' ty hget
  rw [Dict.get?_set] at hget
  split at hget
  · rename_i hf
    cases hget
    rw [hf]
  · exact h f' ty hget

/-- A schema read back from the database. -/
theorem schemaTyped_introspect {columns : Dict Str PgType} (hnamed : ColumnsOk columns)
    (h : ColumnsTyped types columns) (measurement table : Str) :
    SchemaTyped types ⟨measurement, table, introspectTags columns, introspectFields columns⟩ := by
  intro f e hget
  rcases get?_foldl_introspect _ id _ _ hget with hempty | ⟨e, he, hp, rfl, rfl⟩
  · simp at hempty
  · have hcol := (Dict.get?_eq_some_iff _ _ _).mpr he
    rcases hnamed e.1 e.2 hcol with ⟨t, ht⟩ | ⟨f, hf⟩
    · rw [ht] at hp
      exact absurd hp (not_prefix_colOfTag t)
    · have hdrop : colOfField (e.1.drop 2) = colOfField f := by
        rw [hf, colOfField, fieldCol_drop, colOfField, pgIdent, pgIdent, List.take_take, min_self]
      rw [hdrop]
      exact h f e.2 (hf ▸ hcol)

end Migrations

section Service

variable {types : Str → Str → PgType} {s : Service F}

theorem Typed.named (h : Typed types s) : Named s where
  catalog table columns hget := (h.catalog table columns hget).1
  cache m schema hget := (h.cache m schema hget).1

theorem fits_of_adds {types : Str → PgType} {mg : Migration} (h : Adds types mg) : Fits mg := by
  cases mg with
  | addTag t => trivial
  | addField f ty => trivial
  | widen f col fromType toType => exact h.elim

theorem typedRule (types : Str → Str → PgType) (m : Str) :
    SchemaRule (fun table columns => ColumnsOk columns ∧ ColumnsTyped (types table) columns)
      (fun m schema => Canonical m schema ∧ SchemaTyped (types (measurementTable m)) schema)
      (Adds (types (measurementTable m))) m where
  empty := ⟨(namedRule m).empty, by simp [ColumnsTyped]⟩
  load columns h := ⟨(namedRule m).load columns h.1, schemaTyped_introspect h.1 h.2 _ _⟩
  table schema h := h.1.table
  columns mg hadds columns h := by
    refine ⟨(namedRule m).columns mg (fits_of_adds hadds) columns h.1, ?_⟩
    cases mg with
    | addTag t => exact columnsTyped_addTag h.2 t
    | addField f ty =>
      cases hadds
      exact columnsTyped_addField h.2 f
    | widen f col fromType toType => exact hadds.elim
  schema mg hadds schema h := by
    refine ⟨(namedRule m).schema mg (fits_of_adds hadds) schema h.1, ?_⟩
    exact schemaTyped_noted h.2 (by simpa using hadds)

/-- The statements of a call whose values have the types of their columns. -/
theorem Typed.adds (h : Typed types s) {m : Str} {samples : Dict Str (Value F)}
    (hsamples : SamplesTyped (types (measurementTable m)) samples) (tagNames : List Str) :
    ∀ mg ∈ callMigrations s m tagNames samples, Adds (types (measurementTable m)) mg :=
  adds_migrations (SchemaInv.schemaOf h (typedRule types m)).2 hsamples tagNames

/-- The schema step of such a call. -/
theorem Typed.ensureSchema [Numerics F] (h : Typed types s) {m : Str} {tagNames : List Str}
    {samples : Dict Str (Value F)} (hsamples : SamplesTyped (types (measurementTable m)) samples) :
    Typed types (ensureSchema s m tagNames samples).1 ∧
      ∀ schema, (ensureSchema s m tagNames samples).2 = some schema →
        SchemaTyped (types (measurementTable m)) schema := by
  obtain ⟨hs, hschema⟩ := SchemaInv.ensureSchema h (typedRule types m) fun _ hcached =>
    adds_migrations hcached.2 hsamples tagNames
  exact ⟨hs, fun schema heq => (hschema schema heq).2⟩

end Service

end TimescaleLp.Typing
