import TimescaleLp.BigintRange
import TimescaleLp.ColumnClash
import TimescaleLp.FieldTypes

/-!
Types of what is stored. Where the names of a workload have columns of their own
and its integers are of 64 bits, no write goes wrong: each promotion finds a cast
for every stored value, each value is coerced to a value of the type of its column,
and so every field column holds values of its type.
-/
namespace TimescaleLp.TypeSafety

open Names Schema Store Naming Promotion Alters Widest Columns FieldTypes BigintRange

variable {F : Type}

/-- A value that a column of the type can hold. -/
def Holds (ty : PgType) (v : Value F) : Prop :=
  inferFieldType v = ty ∧ ∀ n, v = .int n → InBigint n

/-- What the rows have in field columns is of the types of the columns. -/
def Typed (columns : Dict Str PgType) (rows : Table (Value F)) : Prop :=
  ∀ k stored f v, rows.get? k = some stored → stored.cells (colOfField f) = some v →
    ∃ ty, columns.get? (colOfField f) = some ty ∧ Holds ty v

section Conversions

variable [Numerics F] {ty : PgType} {v w : Value F}

theorem inBigint_ite (b : Bool) : InBigint (if b then 1 else 0) := by
  unfold InBigint
  cases b <;> decide

/-- No double is beyond the largest one that is near an integer of 64 bits. -/
theorem floatOfInt_eq {n : ℤ} (hn : InBigint n) :
    floatOfInt n = .ok (.float (Numerics.ofInt n) : Value F) := by
  have hlarge : ∀ a, 63 < a → (2 : ℕ) ^ 63 < 2 ^ (a + 54) - 2 ^ a := by
    intro a ha
    have hlt : (2 : ℕ) ^ 63 < 2 ^ a := Nat.pow_lt_pow_right (by decide) ha
    rw [pow_add]
    omega
  obtain ⟨hlow, hhigh⟩ := hn
  have habs : n.natAbs ≤ 2 ^ 63 := by omega
  rw [floatOfInt, if_pos (habs.trans_lt (hlarge 970 (by decide)))]

/-- A promotion finds a cast for every value the column can hold. -/
theorem exists_cast (hv : Holds ty v) (hlt : typeRank ty < typeRank (inferFieldType w)) :
    ∃ v', castValue ty (inferFieldType w) v = some v' ∧ Holds (inferFieldType w) v' := by
  obtain ⟨rfl, -⟩ := hv
  cases v with
  | bool b =>
    cases w with
    | bool b' => exact absurd hlt (Nat.lt_irrefl _)
    | int n => exact ⟨_, rfl, rfl, fun n' h => Value.int.inj h ▸ inBigint_ite b⟩
    | float x => exact ⟨_, rfl, rfl, fun n' h => by contradiction⟩
    | str s => exact ⟨_, rfl, rfl, fun n' h => by contradiction⟩
  | int n =>
    cases w with
    | float x => exact ⟨_, rfl, rfl, fun n' h => by contradiction⟩
    | str s => exact ⟨_, rfl, rfl, fun n' h => by contradiction⟩
    | _ => simp [inferFieldType, typeRank] at hlt
  | float x =>
    cases w with
    | str s => exact ⟨_, rfl, rfl, fun n' h => by contradiction⟩
    | _ => simp [inferFieldType, typeRank] at hlt
  | str s => cases w <;> simp [inferFieldType, typeRank] at hlt

/-- A value is coerced to one that a column of its type or a higher one can hold. -/
theorem exists_coerceValue (hle : typeRank (inferFieldType v) ≤ typeRank (inferFieldType w))
    (hv : ∀ n, v = .int n → InBigint n) :
    ∃ v', coerceValue (inferFieldType w) v = .ok v' ∧ Holds (inferFieldType w) v' := by
  cases w with
  | bool b' =>
    cases v with
    | bool b => exact ⟨_, rfl, rfl, fun n' h => by contradiction⟩
    | _ => simp [inferFieldType, typeRank] at hle
  | int n' =>
    cases v with
    | bool b => exact ⟨_, rfl, rfl, fun n' h => Value.int.inj h ▸ inBigint_ite b⟩
    | int n => exact ⟨_, rfl, rfl, hv⟩
    | _ => simp [inferFieldType, typeRank] at hle
  | float x' =>
    cases v with
    | bool b => exact ⟨_, floatOfInt_eq (inBigint_ite b), rfl, fun n' h => by contradiction⟩
    | int n => exact ⟨_, floatOfInt_eq (hv n rfl), rfl, fun n' h => by contradiction⟩
    | float x => exact ⟨_, rfl, rfl, fun n' h => by contradiction⟩
    | str s => simp [inferFieldType, typeRank] at hle
  | str s' => exact ⟨_, rfl, rfl, fun n' h => by contradiction⟩

end Conversions

section Migrations

/-- A statement that finds its column with the type it promotes from. -/
def Ready (F : Type) (columns : Dict Str PgType) : Migration → Prop
  | .widen _ col fromType toType => ∃ (f : Str) (w : Value F), pgIdent col = colOfField f ∧
      columns.get? (pgIdent col) = some fromType ∧ toType = inferFieldType w ∧
      typeRank fromType < typeRank toType
  | _ => True

/-- A promotion is of a column that the statements before it do not touch. -/
def Apart (mg mg' : Migration) : Prop := promotes mg' = true → columnOf mg ≠ columnOf mg'

theorem get?_altered_of_ne (columns : Dict Str PgType) {mg : Migration} {c : Str}
    (hc : c ≠ columnOf mg) : (altered columns mg).get? c = columns.get? c := by
  cases mg with
  | addTag t =>
    rw [altered]
    split
    · rfl
    · exact Dict.get?_set_of_ne _ _ hc
  | addField f ty =>
    rw [altered]
    split
    · rfl
    · exact Dict.get?_set_of_ne _ _ hc
  | widen f col fromType toType => exact Dict.get?_set_of_ne _ _ hc

/-- A column that exists keeps its type, unless it is promoted. -/
theorem get?_altered_of_some {columns : Dict Str PgType} {mg : Migration} {c : Str} {ty : PgType}
    (hc : columns.get? c = some ty) (hkept : promotes mg = true → c ≠ columnOf mg) :
    (altered columns mg).get? c = some ty := by
  by_cases hne : c = columnOf mg
  · cases mg with
    | addTag t =>
      rw [altered, if_pos (by rw [Dict.contains, ← show c = colOfTag t from hne, hc]; rfl)]
      exact hc
    | addField f ty' =>
      rw [altered, if_pos (by rw [Dict.contains, ← show c = colOfField f from hne, hc]; rfl)]
      exact hc
    | widen f col fromType toType => exact absurd hne (hkept rfl)
  · rw [get?_altered_of_ne columns hne]
    exact hc

theorem Ready.altered {columns : Dict Str PgType} {mg mg' : Migration}
    (h : Ready F columns mg') (hapart : Apart mg mg') : Ready F (altered columns mg) mg' := by
  cases mg' with
  | addTag t => trivial
  | addField f ty => trivial
  | widen f col fromType toType =>
    obtain ⟨f', w, hcol, hget, hto, hlt⟩ := h
    refine ⟨f', w, hcol, ?_, hto, hlt⟩
    rw [get?_altered_of_ne columns (show pgIdent col ≠ columnOf mg from (hapart rfl).symm)]
    exact hget

variable {columns : Dict Str PgType} {rows : Table (Value F)}

/-- A new column has no values yet. -/
theorem Typed.add (h : Typed columns rows) {mg : Migration} (hadd : promotes mg = false) :
    Typed (altered columns mg) rows := by
  intro k stored f v hstored hv
  obtain ⟨ty, hty, hholds⟩ := h k stored f v hstored hv
  exact ⟨ty, get?_altered_of_some hty fun hpromotes => by rw [hadd] at hpromotes; contradiction,
    hholds⟩

variable [Numerics F] {f col : Str} {fromType toType : PgType}

/-- Every stored value of a column that is promoted has a cast. -/
theorem Typed.castable (h : Typed columns rows) (hready : Ready F columns (.widen f col fromType toType)) :
    (rows.values.all fun r => (r.cells (pgIdent col)).all fun v =>
      (castValue fromType toType v).isSome) = true := by
  obtain ⟨f', w, hcol, hget, rfl, hlt⟩ := hready
  rw [List.all_eq_true]
  intro r hr
  obtain ⟨k, hk⟩ := (Dict.mem_values_iff rows r).mp hr
  rw [Option.all_eq_true]
  intro v hv
  rw [hcol] at hv hget
  obtain ⟨ty, hty, hholds⟩ := h k r f' v hk hv
  cases hget.symm.trans hty
  obtain ⟨v', hcast, -⟩ := exists_cast hholds hlt
  rw [hcast]
  rfl

/-- What is stored in the column afterwards is of the new type. -/
theorem Typed.widen (h : Typed columns rows) (hready : Ready F columns (.widen f col fromType toType)) :
    Typed (columns.set (pgIdent col) toType)
      (rows.map fun _ r => ⟨r.seq, castCells (pgIdent col) fromType toType r.cells⟩) := by
  obtain ⟨f', w, hcol, hget, rfl, hlt⟩ := hready
  intro k stored f₁ v hstored hv
  rw [Dict.get?_map] at hstored
  obtain ⟨old, hold, rfl⟩ := Option.map_eq_some_iff.mp hstored
  replace hv : castCells (pgIdent col) fromType (inferFieldType w) old.cells (colOfField f₁) =
    some v := hv
  rw [castCells] at hv
  split at hv
  · rename_i hsame
    obtain ⟨v₀, hv₀, hcast⟩ := Option.bind_eq_some_iff.mp hv
    obtain ⟨ty, hty, hholds⟩ := h k old f₁ v₀ hold hv₀
    rw [hsame] at hty
    cases hget.symm.trans hty
    obtain ⟨v', hv', hholds'⟩ := exists_cast hholds hlt
    cases hv'.symm.trans hcast
    exact ⟨_, by rw [hsame, Dict.get?_set_self], hholds'⟩
  · rename_i hne
    obtain ⟨ty, hty, hholds⟩ := h k old f₁ v hold hv
    exact ⟨ty, by rw [Dict.get?_set_of_ne _ _ hne, hty], hholds⟩

variable {s : Service F} {schema : TableSchema} {mg : Migration}

theorem alterColumnType_eq {table : Str} (h : Typed (columnsOf s table) (s.hot table))
    (hready : Ready F (columnsOf s table) (.widen f col fromType toType)) :
    alterColumnType s table col fromType toType = some { s with
      catalog := s.catalog.set table ((columnsOf s table).set (pgIdent col) toType)
      hot := Function.update s.hot table ((s.hot table).map fun _ r =>
        ⟨r.seq, castCells (pgIdent col) fromType toType r.cells⟩) } := by
  have hcastable := h.castable hready
  simp only [alterColumnType]
  rw [if_pos hcastable]
  rfl

omit [Numerics F] in
theorem hot_addColumn (s : Service F) (table col : Str) (ty : PgType) :
    (addColumn s table col ty).hot = s.hot := by
  simp only [addColumn]
  split <;> rfl

/-- One statement succeeds and keeps the types. -/
theorem migrate_typed (h : Typed (columnsOf s schema.table) (s.hot schema.table))
    (hready : Ready F (columnsOf s schema.table) mg) :
    ∃ s' schema', migrate s schema mg = some (s', schema') ∧
      Typed (columnsOf s' schema.table) (s'.hot schema.table) := by
  cases mg with
  | addTag t =>
    refine ⟨_, _, rfl, ?_⟩
    rw [columnsOf_migrate (show migrate s schema (.addTag t) = some (_, _) from rfl), if_pos rfl,
      hot_addColumn]
    exact h.add rfl
  | addField f ty =>
    refine ⟨_, _, rfl, ?_⟩
    rw [columnsOf_migrate (show migrate s schema (.addField f ty) = some (_, _) from rfl), if_pos rfl,
      hot_addColumn]
    exact h.add rfl
  | widen f col fromType toType =>
    have halter := alterColumnType_eq h hready
    refine ⟨_, _, by rw [migrate, halter]; rfl, ?_⟩
    have hwiden := h.widen hready
    simp only [columnsOf, Dict.get?_set_self, Option.getD_some, Function.update_self]
    exact hwiden

/-- The transaction succeeds and keeps the types. -/
theorem migrateAll_typed {ms : List Migration}
    (h : Typed (columnsOf s schema.table) (s.hot schema.table))
    (hready : ∀ mg ∈ ms, Ready F (columnsOf s schema.table) mg) (hapart : ms.Pairwise Apart) :
    ∃ s' schema', migrateAll s schema ms = (some s', schema') ∧
      Typed (columnsOf s' schema.table) (s'.hot schema.table) := by
  induction ms generalizing s schema with
  | nil => exact ⟨s, schema, rfl, h⟩
  | cons mg ms ih =>
    obtain ⟨hfirst, hrest⟩ := List.pairwise_cons.mp hapart
    obtain ⟨s₁, schema₁, hmg, htyped⟩ := migrate_typed h (hready mg List.mem_cons_self)
    have htable : schema₁.table = schema.table := by rw [(migrate_ok hmg).1, noted_table]
    have hcolumns := columnsOf_migrate hmg schema.table
    rw [if_pos rfl] at hcolumns
    rw [← htable] at htyped hcolumns
    obtain ⟨s', schema', hall, htyped'⟩ := ih htyped
      (fun mg' hmg' => by
        rw [hcolumns, htable]
        exact (hready mg' (List.mem_cons_of_mem mg hmg')).altered (hfirst mg' hmg')) hrest
    refine ⟨s', schema', ?_, htable ▸ htyped'⟩
    rw [migrateAll, hmg]
    exact hall

end Migrations

section Call

variable {m : Str} {names : Set Str} {vs : Str → Set (Value F)} {s : Service F}
  {tagNames : List Str} {samples : Dict Str (Value F)}

/-- A promotion is of the column of a sampled field. -/
theorem widen_issued (htypes : Types m names vs s)
    (hnames : ∀ f v, samples.get? f = some v → f ∈ names) {f col : Str} {fromType toType : PgType}
    (hmg : .widen f col fromType toType ∈ callMigrations s m tagNames samples) :
    f ∈ names ∧ pgIdent col = colOfField f ∧
      (schemaOf s m).fieldCols.get? f = some (col, fromType) := by
  obtain ⟨v, hv, hget, -, -⟩ := (widen_mem_migrations_iff _ _ _ _).mp hmg
  have hcol : col = fieldCol f := (htypes.named.schemaOf m).fields f _ hget
  exact ⟨hnames f v hv, congrArg pgIdent hcol, hget⟩

theorem ready_issued (htypes : Types m names vs s)
    (hnames : ∀ f v, samples.get? f = some v → f ∈ names) :
    ∀ mg ∈ callMigrations s m tagNames samples,
      Ready F (columnsOf s (measurementTable m)) mg := by
  intro mg hmg
  cases mg with
  | addTag t => trivial
  | addField f ty => trivial
  | widen f col fromType toType =>
    obtain ⟨hf, hcol, hentry⟩ := widen_issued htypes hnames hmg
    obtain ⟨v, -, -, hto, hne⟩ := (widen_mem_migrations_iff _ _ _ _).mp hmg
    have hcolumn := htypes.columns f hf
    rw [hentry] at hcolumn
    rw [hto, widenedType] at hne
    split at hne
    · rename_i hlt
      refine ⟨f, v, hcol, hcol ▸ hcolumn, ?_, ?_⟩
      · rw [hto, widenedType, if_pos hlt]
      · rw [hto, widenedType, if_pos hlt]
        exact hlt
    · exact absurd rfl hne

theorem apart_issued (htypes : Types m names vs s)
    (hnames : ∀ f v, samples.get? f = some v → f ∈ names) (hinj : Set.InjOn colOfField names) :
    (callMigrations s m tagNames samples).Pairwise Apart := by
  have hissued : ∀ mg ∈ callMigrations s m tagNames samples, promotes mg = true →
      ∃ f col fromType toType, mg = .widen f col fromType toType ∧ f ∈ names ∧
        columnOf mg = colOfField f ∧ (schemaOf s m).fieldCols.get? f = some (col, fromType) := by
    intro mg hmg hpromotes
    cases mg with
    | addTag t => contradiction
    | addField f ty => contradiction
    | widen f col fromType toType =>
      obtain ⟨hf, hcol, hentry⟩ := widen_issued htypes hnames hmg
      exact ⟨f, col, fromType, toType, rfl, hf, hcol, hentry⟩
  rw [callMigrations, migrations] at hissued ⊢
  rw [List.pairwise_append]
  refine ⟨?_, ?_, ?_⟩
  · -- columns are added in any order
    refine List.pairwise_of_forall_mem_list fun mg _ mg' hmg' hpromotes => ?_
    rcases List.mem_append.mp hmg' with hmg' | hmg'
    · obtain ⟨t, -, rfl⟩ := List.mem_map.mp hmg'
      contradiction
    · obtain ⟨e, -, rfl⟩ := List.mem_map.mp hmg'
      contradiction
  · -- one promotion for each sampled field
    have hentries : samples.entries.Pairwise fun e e' => e.1 ≠ e'.1 :=
      List.pairwise_map.mp samples.nodup
    rw [List.pairwise_filterMap]
    refine hentries.imp_of_mem fun {e e'} he he' hne mg hmg mg' hmg' _ heq => hne ?_
    have hname : ∀ e ∈ samples.entries, ∀ col ty,
        (schemaOf s m).fieldCols.get? e.1 = some (col, ty) →
        e.1 ∈ names ∧ pgIdent col = colOfField e.1 := by
      intro e he col ty hget
      have hcol : col = fieldCol e.1 := (htypes.named.schemaOf m).fields e.1 _ hget
      exact ⟨hnames e.1 e.2 ((Dict.get?_eq_some_iff _ _ _).mpr he), congrArg pgIdent hcol⟩
    split at hmg
    · contradiction
    rename_i hget
    split at hmg
    · contradiction
    split at hmg'
    · contradiction
    rename_i hget'
    split at hmg'
    · contradiction
    cases hmg
    cases hmg'
    obtain ⟨hmem, hcol⟩ := hname e he _ _ hget
    obtain ⟨hmem', hcol'⟩ := hname e' he' _ _ hget'
    exact hinj hmem hmem' (hcol.symm.trans (heq.trans hcol'))
  · -- a field that is promoted is not added
    intro mg hmg mg' hmg' hpromotes heq
    obtain ⟨f, col, fromType, toType, -, hf, hcol, hentry⟩ :=
      hissued mg' (List.mem_append_right _ hmg') hpromotes
    rcases List.mem_append.mp hmg with hmg | hmg
    · obtain ⟨t, -, rfl⟩ := List.mem_map.mp hmg
      exact colOfTag_ne_colOfField t f (heq.trans hcol)
    · obtain ⟨e, he, rfl⟩ := List.mem_map.mp hmg
      obtain ⟨he, hnew⟩ := List.mem_filter.mp he
      have hsame : e.1 = f := hinj (hnames e.1 e.2 ((Dict.get?_eq_some_iff _ _ _).mpr he)) hf
        (heq.trans hcol)
      simp [Dict.contains, hsame, hentry] at hnew

variable [Numerics F]

/-- The schema step of a call succeeds and keeps the types. -/
theorem ensureSchema_typed (tagNames : List Str) (htypes : Types m names vs s)
    (hnames : ∀ f v, samples.get? f = some v → f ∈ names) (hinj : Set.InjOn colOfField names)
    (htyped : Typed (columnsOf s (measurementTable m)) (s.hot (measurementTable m))) :
    ∃ s' schema, ensureSchema s m tagNames samples = (s', some schema) ∧
      Typed (columnsOf s' (measurementTable m)) (s'.hot (measurementTable m)) := by
  have htable := (htypes.named.schemaOf m).table
  have hlocked : ∀ s₀ : Service F, columnsOf s₀ (measurementTable m) =
      columnsOf s (measurementTable m) → s₀.hot = s.hot →
      ∃ s' schema, lockedUpdate s₀ m (schemaOf s m) tagNames samples = (s', some schema) ∧
        Typed (columnsOf s' (measurementTable m)) (s'.hot (measurementTable m)) := by
    intro s₀ hcolumns hhot
    have hbefore : Typed (columnsOf s₀ (schemaOf s m).table) (s₀.hot (schemaOf s m).table) := by
      rwa [htable, hcolumns, hhot]
    have hready : ∀ mg ∈ callMigrations s m tagNames samples,
        Ready F (columnsOf s₀ (schemaOf s m).table) mg := by
      rw [htable, hcolumns]
      exact ready_issued htypes hnames
    obtain ⟨s', schema', hall, htyped'⟩ := migrateAll_typed hbefore hready
      (apart_issued htypes hnames hinj)
    rw [htable] at htyped'
    refine ⟨{ s' with cache := s'.cache.set m schema' }, schema', ?_, htyped'⟩
    rw [lockedUpdate, ← callMigrations, hall]
  rw [ensureSchema]
  cases hcached : s.cache.get? m with
  | none =>
    rw [schemaOf_of_none hcached] at hlocked
    exact hlocked (createOrLoad s m).1 (columnsOf_createOrLoad s m _) rfl
  | some cached =>
    rw [schemaOf_of_cached hcached] at hlocked
    simp only
    split
    · exact hlocked s rfl rfl
    · exact ⟨s, cached, rfl, htyped⟩

end Call

section Rows

variable [Numerics F] (digest : Str → ℕ) {sources : List (Str × Source)}

omit digest in
theorem exists_rowValues {p : Point F} (h : ∀ e ∈ sources, ∃ v, sourceValue p e.2 = .ok v) :
    ∃ values, rowValues p sources = .ok values := by
  induction sources with
  | nil => exact ⟨[], rfl⟩
  | cons e es ih =>
    obtain ⟨v, hv⟩ := h e List.mem_cons_self
    obtain ⟨vs, hvs⟩ := ih fun e' he' => h e' (List.mem_cons_of_mem e he')
    exact ⟨(e.1, v) :: vs, by rw [rowValues, hv, hvs]; rfl⟩

theorem exists_buildRows {points : List (Point F)} (n : ℕ)
    (h : ∀ p ∈ points, ∀ e ∈ sources, ∃ v, sourceValue p e.2 = .ok v) :
    ∃ n' rows, buildRows digest sources n points = (n', .ok rows) := by
  induction points generalizing n with
  | nil => exact ⟨n, [], rfl⟩
  | cons p ps ih =>
    obtain ⟨values, hvalues⟩ := exists_rowValues (h p List.mem_cons_self)
    obtain ⟨n', rows, hrows⟩ := ih (n + 1) fun q hq => h q (List.mem_cons_of_mem p hq)
    exact ⟨n', _ :: rows, by rw [buildRows, hvalues]; simp only [hrows]; rfl⟩

variable {m : Str} {schema : TableSchema} {points : List (Point F)}

/-- What the schema of a call gives for the fields of its points. -/
def Covers (schema : TableSchema) (points : List (Point F)) : Prop :=
  (∀ t ∈ tagNames points, ∃ col, schema.tagCols.get? t = some col) ∧
    ∀ f ∈ (fieldSamples points).keys, ∃ col, ∃ w : Value F,
      schema.fieldCols.get? f = some (col, inferFieldType w) ∧
      ∀ v ∈ valuesOf points f, typeRank (inferFieldType v) ≤ typeRank (inferFieldType w)

omit digest in
/-- A value of a point is coerced to one that its column can hold. -/
theorem exists_coerce (hcovers : Covers schema points)
    (hintegers : ∀ p ∈ points, ∀ f n, p.fields.get? f = some (.int n) → InBigint n)
    {p : Point F} (hp : p ∈ points) {f : Str} (hf : f ∈ (fieldSamples points).keys) {col : Str}
    {ty : PgType} (hentry : schema.fieldCols.get? f = some (col, ty)) :
    ∃ cell, coerce (p.fields.get? f) ty = .ok cell ∧ ∀ v, cell = some v → Holds ty v := by
  obtain ⟨col', w, hentry', hwide⟩ := hcovers.2 f hf
  cases hentry.symm.trans hentry'
  cases hget : p.fields.get? f with
  | none => exact ⟨none, rfl, fun v h => by contradiction⟩
  | some v =>
    obtain ⟨v', hcoerce, hholds⟩ := exists_coerceValue (hwide v ⟨p, hp, hget⟩)
      (fun n hn => hintegers p hp f n (hn ▸ hget))
    refine ⟨some v', ?_, fun v'' h => Option.some.inj h ▸ hholds⟩
    rw [coerce, hcoerce]
    rfl

omit [Numerics F] digest in
theorem exists_columnSources (hcovers : Covers schema points) :
    ∃ sources, columnSources schema (tagNames points) (fieldSamples points).keys =
      some sources := by
  obtain ⟨tags, htags⟩ := exists_mapM_iff.mpr fun t ht => by
    obtain ⟨col, hcol⟩ := hcovers.1 t ht
    exact ⟨_, show (schema.tagCols.get? t).map (fun col => (col, Source.tag t)) = _ by
      rw [hcol]; rfl⟩
  obtain ⟨fields, hfields⟩ := exists_mapM_iff.mpr fun f hf => by
    obtain ⟨col, w, hentry, -⟩ := hcovers.2 f hf
    exact ⟨_, show (schema.fieldCols.get? f).map (fun e => (e.1, Source.field f e.2)) = _ by
      rw [hentry]; rfl⟩
  refine ⟨tags ++ fields, ?_⟩
  simp only [columnSources, htags, hfields]
  rfl

/-- The batch of a call is built, and brings values of the types of their columns. -/
theorem buildBatch_typed (hschema : Canonical m schema) (hcovers : Covers schema points)
    (hintegers : ∀ p ∈ points, ∀ f n, p.fields.get? f = some (.int n) → InBigint n)
    (hclash : ¬ColumnClash.Clash points) (n : ℕ) :
    ∃ n' b, buildBatch digest schema points n = (n', .ok b) ∧ (b.cols.map pgIdent).Nodup ∧
      ∀ r ∈ b.records, ∀ f v, insertedCell b.cols r (colOfField f) = some (some v) →
        ∃ f' ty, f' ∈ (fieldSamples points).keys ∧ colOfField f' = colOfField f ∧
          schema.fieldCols.get? f' = some (fieldCol f', ty) ∧ Holds ty v := by
  obtain ⟨sources, hsources⟩ := exists_columnSources hcovers
  have hvalues : ∀ p ∈ points, ∀ e ∈ sources, ∃ v, sourceValue p e.2 = .ok v := by
    intro p hp e he
    rcases (mem_columnSources_iff hsources e).mp he with ⟨t, -, -, hsource⟩ | ⟨f, hf, ty, hentry, hsource⟩
    · exact ⟨_, by rw [hsource, sourceValue]⟩
    · obtain ⟨cell, hcell, -⟩ := exists_coerce hcovers hintegers hp hf hentry
      exact ⟨cell, by rw [hsource, sourceValue, hcell]⟩
  obtain ⟨n', rows, hrows⟩ := exists_buildRows digest n hvalues
  have hbuild : buildBatch digest schema points n =
      (n', .ok ⟨schema.table, sources.map Prod.fst, dedupRecords rows⟩) := by
    rw [buildBatch, hsources]
    simp only [hrows]
    rfl
  obtain ⟨sources', hbuilt⟩ := exists_built digest hbuild
  have hcols : (((⟨schema.table, sources.map Prod.fst, dedupRecords rows⟩ : Batch F).cols).map
      pgIdent).Nodup := by
    rw [ColumnClash.columnSources_fst hschema hsources]
    exact (ColumnClash.nodup_names_iff points).mpr hclash
  refine ⟨n', _, hbuild, hcols, fun r hr f v hinserted => ?_⟩
  obtain ⟨p, hlast, hrow⟩ := hbuilt.rows r hr
  have hp := (lastOf_mem digest hlast).1
  obtain ⟨col, hfind, -⟩ := Option.map_eq_some_iff.mp hinserted
  have hcol : pgIdent col = colOfField f := by simpa using List.find?_some hfind
  obtain ⟨e, he, hecol⟩ := List.mem_map.mp (hbuilt.cols ▸ List.mem_of_find?_eq_some hfind)
  rcases hbuilt.source digest hschema he with ⟨t, -, rfl⟩ | ⟨f', hf', ty, rfl⟩
  · exact absurd (show colOfTag t = colOfField f by rw [← hcol, ← hecol]; rfl)
      (colOfTag_ne_colOfField t f)
  · have hsame : colOfField f' = colOfField f := by rw [← hcol, ← hecol]; rfl
    obtain ⟨ty', cell, hentry, hcoerce, hcell⟩ :=
      hbuilt.insertedCell_field digest hschema hcols hp hrow hf'
    rw [hbuilt.pointCells_colOfField digest hschema hcols hp hf'] at hcoerce
    rw [hsame, hinserted] at hcell
    cases hcell
    obtain ⟨cell, hcell, hholds⟩ := exists_coerce hcovers hintegers hp hf' hentry
    cases hcoerce.symm.trans hcell
    exact ⟨f', ty', hf', hsame, hentry, hholds v rfl⟩

end Rows

section Write

variable [Numerics F] {digest : Str → ℕ} {on : Bool} {m : Str} {names : Set Str}
  {vs : Str → Set (Value F)} {s s' : Service F} {points : List (Point F)} {schema : TableSchema}

theorem covers_of_ensureSchema (htypes : Types m names vs s)
    (hensure : ensureSchema s m (tagNames points) (fieldSamples points) = (s', some schema)) :
    Covers schema points := by
  constructor
  · intro t ht
    have hmem := (mem_tagCols_noted_iff (schemaOf s m) (tagNames points) (fieldSamples points)
      t).mpr (Or.inr ht)
    rw [(ensureSchema_ok hensure).1]
    exact (Dict.mem_keys_iff _ _).mp hmem
  · intro f hf
    have hty : TypeFor ((wantedEntry (schemaOf s m) (fieldSamples points) f).map Prod.snd)
        (vs f ∪ valuesOf points f) := typeFor_wantedEntry (htypes.entries f)
    rw [← fieldCols_of_ensureSchema hensure] at hty
    obtain ⟨p, hp, hkey⟩ := (mem_fieldSamples_iff f).mp hf
    obtain ⟨v, hv⟩ := (Dict.mem_keys_iff _ _).mp hkey
    cases hentry : schema.fieldCols.get? f with
    | none =>
      rw [hentry] at hty
      have hmem : v ∈ vs f ∪ valuesOf points f := Or.inr ⟨p, hp, hv⟩
      rw [hty.empty rfl] at hmem
      exact absurd hmem (Set.notMem_empty v)
    | some e =>
      rw [hentry] at hty
      obtain ⟨⟨w, -, hw⟩, henough⟩ := hty.widest e.2 rfl
      exact ⟨e.1, w, by rw [hw], fun v hv => hw ▸ henough v (Or.inr hv)⟩

theorem covers_of_prepared (htypes : Types m names vs s) (hpoints : points ≠ [])
    {b : Batch F} {sources : List (Str × Source)}
    (h : Writes.Prepared digest s m points s' b schema sources) : Covers schema points := by
  obtain ⟨schema', s₁, hensure, -, hs', -⟩ := Sequence.prepare_ok digest hpoints h.prepared
  have hcached := h.cached
  rw [hs'] at hcached
  cases (ensureSchema_ok hensure).2.2.symm.trans hcached
  exact covers_of_ensureSchema htypes hensure

variable (digest on) in
/-- A call whose batch is built and whose columns differ is committed. -/
theorem writeOne_eq {b : Batch F} {n : ℕ} {s₁ : Service F}
    (hensure : ensureSchema s m (tagNames points) (fieldSamples points) = (s₁, some schema))
    (hbuild : buildBatch digest schema points s₁.nextSeq = (n, .ok b))
    (hcols : (b.cols.map pgIdent).Nodup) :
    ∃ t, Store.commit b (s₁.hot b.table) = some t ∧ writeOne digest on s (m, points) = some
      { s₁ with
        nextSeq := n
        cold := Sequence.written on s₁.cold b
        hot := Function.update s₁.hot b.table t } := by
  have hcommit : Store.commit b (s₁.hot b.table) =
      some (b.records.foldl (upsertRow b.cols) (s₁.hot b.table)) := by
    rw [Store.commit, if_pos hcols]
  refine ⟨_, hcommit, ?_⟩
  have hstore : storeBatch on none { s₁ with nextSeq := n } b = ({ s₁ with
      nextSeq := n
      cold := Sequence.written on s₁.cold b
      hot := Function.update s₁.hot b.table
        (b.records.foldl (upsertRow b.cols) (s₁.hot b.table)) }, .ok b.records.length) := by
    cases on <;> simp [storeBatch, writeThrough, Sequence.written, hcommit]
  simp only [writeOne, writeMeasurement, prepare, hensure, hbuild, hstore]

/-- What a call has done that was committed. -/
theorem exists_committed {g : Str × List (Point F)} (h : writeOne digest on s g = some s') :
    ∃ s₁ b t, prepare digest s g.1 g.2 = (s₁, .ok b) ∧ Store.commit b (s₁.hot b.table) = some t ∧
      s' = { s₁ with
        cold := Sequence.written on s₁.cold b
        hot := Function.update s₁.hot b.table t } := by
  rw [writeOne, writeMeasurement] at h
  rcases hprepare : prepare digest s g.1 g.2 with ⟨s₁, err | b⟩
  · simp [hprepare] at h
  · simp only [hprepare] at h
    have houtcome := Sequence.outcome_storeBatch on none s₁ b
    generalize storeBatch on none s₁ b = stored at h houtcome
    obtain ⟨s₂, res⟩ := stored
    cases houtcome with
    | committed t _ ht => exact ⟨s₁, b, t, rfl, ht, (Option.some.inj h).symm⟩
    | unstaged | unrecorded | uncommitted => contradiction

/-- What all tables hold is of the types of their columns. -/
def AllTyped (s : Service F) : Prop := ∀ table, Typed (columnsOf s table) (s.hot table)

variable (digest on) in
/-- A write succeeds and keeps the types. -/
theorem writeOne_typed (htypes : Types m names vs s) (hinj : Set.InjOn colOfField names)
    (hnames : ∀ f, (valuesOf points f).Nonempty → f ∈ names) (hpoints : points ≠ [])
    (hclash : ¬ColumnClash.Clash points)
    (hintegers : ∀ p ∈ points, ∀ f n, p.fields.get? f = some (.int n) → InBigint n)
    (htyped : AllTyped s) : ∃ s', writeOne digest on s (m, points) = some s' ∧ AllTyped s' := by
  have hsamples : ∀ f v, (fieldSamples points).get? f = some v → f ∈ names := by
    intro f v hv
    obtain ⟨p, hp, hget⟩ := Typing.exists_of_fieldSamples hv
    exact hnames f ⟨v, p, hp, hget⟩
  obtain ⟨s₁, schema, hensure, htyped₁⟩ := ensureSchema_typed (tagNames points) htypes
    hsamples hinj (htyped _)
  have hcanonical := (htypes.named.ensureSchema m (tagNames points) (fieldSamples points)).2 schema
    (by rw [hensure])
  obtain ⟨n, b, hbuild, hcols, hcells⟩ := buildBatch_typed digest hcanonical
    (covers_of_ensureSchema htypes hensure) hintegers hclash s₁.nextSeq
  obtain ⟨t, hcommit, hwrite⟩ := writeOne_eq digest on hensure hbuild hcols
  obtain ⟨sources, hbuilt⟩ := exists_built digest hbuild
  have htable : b.table = measurementTable m := hbuilt.table.trans hcanonical.table
  obtain ⟨hcolumns, hcached⟩ := ensureSchema_some hensure
  -- what a table holds before the commit
  have hold : AllTyped s₁ := by
    intro table
    by_cases heq : table = measurementTable m
    · rw [heq]
      exact htyped₁
    · have hne : table ≠ schema.table := fun h => heq (h.trans hcanonical.table)
      intro k stored f v hstored hv
      rw [(ensureSchema_ok hensure).2.1.rows table k] at hstored
      obtain ⟨old, hget, rfl⟩ := Option.map_eq_some_iff.mp hstored
      rw [hcolumns table, if_neg hne]
      exact htyped table k old f v hget (by rwa [if_neg hne] at hv)
  -- the column of a field of the points has the type of the schema
  have hcolumn : ∀ f ∈ (fieldSamples points).keys, ∀ col ty,
      schema.fieldCols.get? f = some (col, ty) →
      (columnsOf s₁ (measurementTable m)).get? (colOfField f) = some ty := by
    intro f hf col ty hentry
    obtain ⟨v, hv⟩ := (Dict.mem_keys_iff _ _).mp hf
    have hsame := (htypes.own hnames hinj hwrite).1.columns f (hsamples f v hv)
    generalize hs' : ({ s₁ with
      nextSeq := n
      cold := Sequence.written on s₁.cold b
      hot := Function.update s₁.hot b.table t } : Service F) = s' at hsame
    have hcache : s'.cache.get? m = some schema := by
      rw [← hs', hcached m, if_pos rfl]
    rw [schemaOf_of_cached hcache, hentry, ← hs'] at hsame
    exact hsame
  refine ⟨_, hwrite, fun table k stored f v hstored hv => ?_⟩
  rcases Sequence.get?_update_commit (Batches.buildBatch_drawn digest hpoints hbuild).keys hcommit
    hstored with ⟨r, hr, heq, hk, rfl⟩ | ⟨hprev, -⟩
  · replace hv : (insertedCell b.cols r (colOfField f)).getD
        (((s₁.hot table).get? k).bind fun o => o.cells (colOfField f)) = some v := hv
    cases hinserted : insertedCell b.cols r (colOfField f) with
    | none =>
      rw [hinserted, Option.getD_none] at hv
      obtain ⟨old, hget, hv⟩ := Option.bind_eq_some_iff.mp hv
      exact hold table k old f v hget hv
    | some cell =>
      rw [hinserted, Option.getD_some] at hv
      obtain ⟨f', ty, hf', hsame, hentry, hholds⟩ := hcells r hr f v (hv ▸ hinserted)
      refine ⟨ty, ?_, hholds⟩
      rw [heq, htable, ← hsame]
      exact hcolumn f' hf' _ ty hentry
  · exact hold table k stored f v hprev hv

end Write

section Workload

/-- A workload whose names have tables and columns of their own, and whose integers
are of 64 bits. -/
structure Sane (batches : List (List (Point F))) : Prop where
  tables : ∀ p ∈ batches.flatten, ∀ q ∈ batches.flatten,
    measurementTable p.measurement = measurementTable q.measurement →
      p.measurement = q.measurement
  tags : ∀ p ∈ batches.flatten, ∀ q ∈ batches.flatten, p.measurement = q.measurement →
    ∀ t ∈ p.tags.keys, ∀ t' ∈ q.tags.keys, colOfTag t = colOfTag t' → t = t'
  fields : ∀ p ∈ batches.flatten, ∀ q ∈ batches.flatten, p.measurement = q.measurement →
    ∀ f ∈ p.fields.keys, ∀ f' ∈ q.fields.keys, colOfField f = colOfField f' → f = f'
  integers : ∀ p ∈ batches.flatten, ∀ f n, p.fields.get? f = some (.int n) → InBigint n

variable [Numerics F] (digest : Str → ℕ) (on : Bool) {batches : List (List (Point F))}

/-- In every measurement of the workload the types are those of the values so far. -/
structure Safe (batches : List (List (Point F))) (s : Service F) : Prop where
  typed : AllTyped s
  types : ∀ p ∈ batches.flatten, ∃ vs,
    Types p.measurement {f | (seen p.measurement batches f).Nonempty} vs s ∧
      ∀ f, (vs f).Nonempty → (seen p.measurement batches f).Nonempty

omit [Numerics F] in
theorem Sane.clash (h : Sane batches) {m : Str} {points : List (Point F)}
    (hpoints : ∀ p ∈ points, p ∈ batches.flatten ∧ p.measurement = m) :
    ¬ColumnClash.Clash points := by
  rintro (⟨p, hp, q, hq, a, ha, b, hb, hne, halike⟩ | ⟨p, hp, q, hq, a, ha, b, hb, hne, halike⟩)
  · have hm := (hpoints p hp).2.trans (hpoints q hq).2.symm
    exact hne (h.tags p (hpoints p hp).1 q (hpoints q hq).1 hm a ha b hb
      ((ColumnClash.colOfTag_eq_iff a b).mpr halike))
  · have hm := (hpoints p hp).2.trans (hpoints q hq).2.symm
    exact hne (h.fields p (hpoints p hp).1 q (hpoints q hq).1 hm a ha b hb
      ((ColumnClash.colOfField_eq_iff a b).mpr halike))

omit [Numerics F] in
theorem Sane.injOn (h : Sane batches) (m : Str) :
    Set.InjOn colOfField {f | (seen m batches f).Nonempty} := by
  intro f hf f' hf' heq
  obtain ⟨v, points, hpoints, p, hp, hm, hget⟩ := hf
  obtain ⟨v', points', hpoints', p', hp', hm', hget'⟩ := hf'
  exact h.fields p (List.mem_flatten.mpr ⟨points, hpoints, hp⟩) p'
    (List.mem_flatten.mpr ⟨points', hpoints', hp'⟩) (hm.trans hm'.symm) f
    ((Dict.mem_keys_iff _ _).mpr ⟨v, hget⟩) f' ((Dict.mem_keys_iff _ _).mpr ⟨v', hget'⟩) heq

/-- The points that a batch of the workload has of one measurement. -/
structure Part (batches : List (List (Point F))) (g : Str × List (Point F)) : Prop where
  ne_nil : g.2 ≠ []
  mem : ∀ p ∈ g.2, p ∈ batches.flatten ∧ p.measurement = g.1

omit [Numerics F] in
theorem part_of_mem {g : Str × List (Point F)} (hg : g ∈ groupsOf batches) : Part batches g := by
  obtain ⟨points, hpoints, hg⟩ := List.mem_flatMap.mp hg
  refine ⟨Sequence.groups_ne_nil points g hg, fun p hp => ?_⟩
  obtain ⟨hp, hm⟩ := Sequence.mem_group hg p hp
  exact ⟨List.mem_flatten.mpr ⟨points, hpoints, hp⟩, hm⟩

section Parts

variable {g : Str × List (Point F)} {s s' : Service F}

omit [Numerics F] in
theorem Part.seen (h : Part batches g) {f : Str} {v : Value F} (hv : v ∈ valuesOf g.2 f) :
    v ∈ seen g.1 batches f := by
  obtain ⟨p, hp, hget⟩ := hv
  obtain ⟨hpb, hpm⟩ := h.mem p hp
  obtain ⟨points, hpoints, hp⟩ := List.mem_flatten.mp hpb
  exact ⟨points, hpoints, p, hp, hpm, hget⟩

omit [Numerics F] in
theorem Part.seen_of_sample (h : Part batches g) :
    ∀ f v, (fieldSamples g.2).get? f = some v → (FieldTypes.seen g.1 batches f).Nonempty := by
  intro f v hv
  obtain ⟨p, hp, hget⟩ := Typing.exists_of_fieldSamples hv
  exact ⟨v, h.seen ⟨p, hp, hget⟩⟩

omit [Numerics F] in
theorem Safe.exists_types (hs : Safe batches s) (h : Part batches g) :
    ∃ vs, Types g.1 {f | (FieldTypes.seen g.1 batches f).Nonempty} vs s ∧
      ∀ f, (vs f).Nonempty → (FieldTypes.seen g.1 batches f).Nonempty := by
  obtain ⟨p, hp⟩ := List.exists_mem_of_ne_nil _ h.ne_nil
  have htypes := hs.types p (h.mem p hp).1
  rwa [(h.mem p hp).2] at htypes

/-- One measurement of a batch of the workload. -/
theorem group_safe (hsane : Sane batches) (hs : Safe batches s) (hg : g ∈ groupsOf batches) :
    ∃ s', writeOne digest on s g = some s' ∧ Safe batches s' := by
  have hpart := part_of_mem hg
  obtain ⟨vs, htypes, -⟩ := hs.exists_types hpart
  obtain ⟨s', hwrite, htyped⟩ := writeOne_typed digest on htypes (hsane.injOn g.1)
    (fun f ⟨v, hv⟩ => ⟨v, hpart.seen hv⟩) hpart.ne_nil (hsane.clash hpart.mem)
    (fun q hq f n hget => hsane.integers q (hpart.mem q hq).1 f n hget) hs.typed
  refine ⟨s', hwrite, htyped, fun q hq => ?_⟩
  obtain ⟨vs', htypes', hvs'⟩ := hs.types q hq
  have hapart := apart_groupsOf (fun points' hpoints' p' hp' htable => hsane.tables p'
      (List.mem_flatten.mpr ⟨points', hpoints', hp'⟩) q hq htable) g hg
  refine ⟨_, htypes'.step hapart (hsane.injOn q.measurement) hwrite, fun f hf => ?_⟩
  rcases hf with ⟨v, hv | ⟨g', hg', hm, hv⟩⟩
  · exact hvs' f ⟨v, hv⟩
  · cases List.mem_singleton.mp hg'
    exact hm ▸ ⟨v, hpart.seen hv⟩

end Parts

omit [Numerics F] in
theorem safe_start (clock : ℕ) :
    Safe batches (Sequence.start clock : History F).service where
  typed table k stored f v hstored _ := by simp [Sequence.start] at hstored
  types p _ := ⟨fun _ => ∅, types_fresh (Writes.named_start clock) rfl rfl,
    fun f hf => absurd hf Set.not_nonempty_empty⟩

/-- A boolean column that becomes one of texts. -/
theorem mixedBatches_sane : Sane mixedBatches where
  tables p hp q hq _ := by
    obtain ⟨points, hpoints, hp⟩ := List.mem_flatten.mp hp
    obtain ⟨points', hpoints', hq⟩ := List.mem_flatten.mp hq
    exact (mem_mixedBatches points hpoints p hp).1.trans (mem_mixedBatches points' hpoints' q hq).1.symm
  tags p hp q hq _ t ht := by
    have hnone : ∀ p ∈ mixedBatches.flatten, p.tags.keys = [] := by
      simp [mixedBatches, valuePoint, Dict.keys, Dict.empty]
    rw [hnone p hp] at ht
    exact absurd ht List.not_mem_nil
  fields p hp q hq _ f hf f' hf' _ := by
    obtain ⟨points, hpoints, hp⟩ := List.mem_flatten.mp hp
    obtain ⟨points', hpoints', hq⟩ := List.mem_flatten.mp hq
    obtain ⟨v, hv⟩ := (Dict.mem_keys_iff _ _).mp hf
    obtain ⟨v', hv'⟩ := (Dict.mem_keys_iff _ _).mp hf'
    rw [(mem_mixedBatches points hpoints p hp).2 f v hv,
      (mem_mixedBatches points' hpoints' q hq).2 f' v' hv']
  integers p hp f n hget := by
    have hcases : p = valuePoint (.bool true) 0 ∨ p = valuePoint (.str ['a']) 1 ∨
        p = valuePoint (.int 1) 2 := by simpa [mixedBatches] using hp
    rcases hcases with rfl | rfl | rfl
    · cases congrArg Prod.snd (Dict.eq_of_get?_single hget)
    · cases congrArg Prod.snd (Dict.eq_of_get?_single hget)
    · cases congrArg Prod.snd (Dict.eq_of_get?_single hget)
      exact ⟨by decide, by decide⟩

end Workload

end TimescaleLp.TypeSafety
