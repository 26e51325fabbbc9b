import TimescaleLp.Store

/-!
What the schema step of a write call does to what is stored. It adds columns,
which no row has a value in yet, and rewrites the columns it promotes; it draws
no sequence number and does not touch cold. A transaction that fails changes
nothing in the database.
-/
namespace TimescaleLp.Promotion

open Names Schema

variable {F : Type} [Numerics F]

/-- The cells of a row after a list of statements. -/
def recast : List Migration → Cells (Value F) → Cells (Value F)
  | [], cells => cells
  | .widen _ col fromType toType :: ms, cells =>
    recast ms (castCells (pgIdent col) fromType toType cells)
  | _ :: ms, cells => recast ms cells

/-- The statement rewrites a column. -/
def promotes : Migration → Bool
  | .widen .. => true
  | _ => false

theorem recast_eq_self {ms : List Migration} (h : ∀ m ∈ ms, promotes m = false)
    (cells : Cells (Value F)) : recast ms cells = cells := by
  induction ms with
  | nil => rfl
  | cons m ms ih =>
    have hrest := ih fun m' hm' => h m' (List.mem_cons_of_mem m hm')
    cases m with
    | addTag t => exact hrest
    | addField f ty => exact hrest
    | widen f col fromType toType => exact absurd (h _ List.mem_cons_self) (by simp [promotes])

/-- NULL stays NULL. -/
theorem recast_none {ms : List Migration} {cells : Cells (Value F)} {c : Str} (h : cells c = none) :
    recast ms cells c = none := by
  induction ms generalizing cells with
  | nil => exact h
  | cons m ms ih =>
    cases m with
    | addTag t => exact ih h
    | addField f ty => exact ih h
    | widen f col fromType toType =>
      refine ih ?_
      rw [castCells]
      split
      · rw [h, Option.bind_none]
      · exact h

/-- The schema object after a list of statements. -/
def noted (schema : TableSchema) : List Migration → TableSchema
  | [] => schema
  | .addTag t :: ms => noted { schema with tagCols := schema.tagCols.set t (tagCol t) } ms
  | .addField f ty :: ms =>
    noted { schema with fieldCols := schema.fieldCols.set f (fieldCol f, ty) } ms
  | .widen f col _ toType :: ms =>
    noted { schema with fieldCols := schema.fieldCols.set f (col, toType) } ms

/-- One table has its cells rewritten, and that is all. -/
structure Recasts (s s' : Service F) (table : Str)
    (f : Cells (Value F) → Cells (Value F)) : Prop where
  nextSeq : s'.nextSeq = s.nextSeq
  cold : s'.cold = s.cold
  rows : ∀ t k, (s'.hot t).get? k = ((s.hot t).get? k).map fun r =>
    ⟨r.seq, if t = table then f r.cells else r.cells⟩

omit [Numerics F] in
theorem Recasts.refl_of_eq {s s' : Service F} (table : Str) (hseq : s'.nextSeq = s.nextSeq)
    (hcold : s'.cold = s.cold) (hhot : s'.hot = s.hot) : Recasts s s' table id where
  nextSeq := hseq
  cold := hcold
  rows t k := by simp [hhot]

omit [Numerics F] in
theorem Recasts.trans {s s' s'' : Service F} {table : Str} {f g : Cells (Value F) → Cells (Value F)}
    (h : Recasts s s' table f) (h' : Recasts s' s'' table g) :
    Recasts s s'' table (fun cells => g (f cells)) where
  nextSeq := h'.nextSeq.trans h.nextSeq
  cold := h'.cold.trans h.cold
  rows t k := by
    rw [h'.rows, h.rows, Option.map_map]
    congr 1
    funext r
    by_cases ht : t = table <;> simp [ht]

omit [Numerics F] in
theorem Recasts.seq {s s' : Service F} {table : Str} {f : Cells (Value F) → Cells (Value F)}
    (h : Recasts s s' table f) (t : Str) (k : Key) :
    ((s'.hot t).get? k).map Stored.seq = ((s.hot t).get? k).map Stored.seq := by
  rw [h.rows, Option.map_map]
  rfl

omit [Numerics F] in
theorem recasts_addColumn (s : Service F) (table col : Str) (ty : PgType) (t : Str) :
    Recasts s (addColumn s table col ty) t id := by
  simp only [addColumn]
  split
  · exact Recasts.refl_of_eq t rfl rfl rfl
  · exact Recasts.refl_of_eq t rfl rfl rfl

theorem recasts_alterColumnType {s s' : Service F} {table col : Str} {fromType toType : PgType}
    (h : alterColumnType s table col fromType toType = some s') :
    Recasts s s' table (castCells (pgIdent col) fromType toType) := by
  simp only [alterColumnType] at h
  split at h
  · cases h
    refine ⟨rfl, rfl, fun t k => ?_⟩
    by_cases ht : t = table
    · subst ht
      simp
    · simp [ht]
  · contradiction

/-- One statement of the migration. -/
theorem migrate_ok {s s' : Service F} {schema schema' : TableSchema} {m : Migration}
    (h : migrate s schema m = some (s', schema')) :
    schema' = noted schema [m] ∧ Recasts s s' schema.table (recast [m]) := by
  cases m with
  | addTag t =>
    cases h
    exact ⟨rfl, recasts_addColumn s _ _ _ _⟩
  | addField f ty =>
    cases h
    exact ⟨rfl, recasts_addColumn s _ _ _ _⟩
  | widen f col fromType toType =>
    obtain ⟨s₁, hs₁, heq⟩ := Option.map_eq_some_iff.mp h
    cases heq
    exact ⟨rfl, recasts_alterColumnType hs₁⟩

omit [Numerics F] in
theorem noted_cons (schema : TableSchema) (m : Migration) (ms : List Migration) :
    noted schema (m :: ms) = noted (noted schema [m]) ms := by
  cases m <;> rfl

omit [Numerics F] in
theorem noted_append (schema : TableSchema) (ms ms' : List Migration) :
    noted schema (ms ++ ms') = noted (noted schema ms) ms' := by
  induction ms generalizing schema with
  | nil => rfl
  | cons m ms ih => rw [List.cons_append, noted_cons, ih, ← noted_cons]

theorem recast_cons (m : Migration) (ms : List Migration) (cells : Cells (Value F)) :
    recast (m :: ms) cells = recast ms (recast [m] cells) := by
  cases m <;> rfl

omit [Numerics F] in
theorem noted_table (schema : TableSchema) (ms : List Migration) :
    (noted schema ms).table = schema.table := by
  induction ms generalizing schema with
  | nil => rfl
  | cons m ms ih =>
    rw [noted_cons, ih]
    cases m <;> rfl

theorem migrateAll_ok {s s' : Service F} {schema schema' : TableSchema} {ms : List Migration}
    (h : migrateAll s schema ms = (some s', schema')) :
    schema' = noted schema ms ∧ Recasts s s' schema.table (recast ms) := by
  induction ms generalizing s schema with
  | nil =>
    cases h
    exact ⟨rfl, Recasts.refl_of_eq _ rfl rfl rfl⟩
  | cons m ms ih =>
    rw [migrateAll] at h
    split at h
    · cases h
    · rename_i s₁ schema₁ hm
      obtain ⟨rfl, hrecast⟩ := migrate_ok hm
      obtain ⟨rfl, hrest⟩ := ih h
      rw [noted_table] at hrest
      refine ⟨(noted_cons schema m ms).symm, ?_⟩
      rw [show recast (m :: ms) = fun cells => recast ms (recast [m] cells) from
        funext fun cells => recast_cons m ms cells]
      exact hrecast.trans hrest

omit [Numerics F] in
/-- A call whose batch fits the cached schema has nothing to migrate. -/
theorem migrations_eq_nil {cached : TableSchema} {tagNames : List Str}
    {fieldSamples : Dict Str (Value F)} (h : needsUpdate cached tagNames fieldSamples = false) :
    migrations cached tagNames fieldSamples = [] := by
  simp only [needsUpdate, Bool.or_eq_false_iff, List.any_eq_false, Bool.not_eq_true',
    Bool.not_eq_false] at h
  obtain ⟨⟨htags, hfields⟩, hwiden⟩ := h
  have htags' : tagNames.filter (fun t => !cached.tagCols.contains t) = [] := by
    simpa [List.filter_eq_nil_iff] using htags
  have hfields' : fieldSamples.entries.filter (fun e => !cached.fieldCols.contains e.1) = [] := by
    rw [List.filter_eq_nil_iff]
    intro e he
    simpa using hfields e.1 (List.mem_map_of_mem he)
  simp only [migrations, htags', hfields', List.map_nil, List.nil_append,
    List.filterMap_eq_nil_iff]
  intro e he
  have hno := hwiden e he
  simp only [needsWidening] at hno
  split
  · rfl
  · rename_i col current hget
    simp only [hget, decide_eq_true_eq, not_not] at hno
    rw [if_pos hno]

/-- The schema a call starts from. -/
def schemaOf (s : Service F) (measurement : Str) : TableSchema :=
  match s.cache.get? measurement with
  | some cached => cached
  | none => (createOrLoad s measurement).2

omit [Numerics F] in
theorem schemaOf_of_cached {s : Service F} {measurement : Str} {cached : TableSchema}
    (h : s.cache.get? measurement = some cached) : schemaOf s measurement = cached := by
  rw [schemaOf, h]

omit [Numerics F] in
theorem schemaOf_of_none {s : Service F} {measurement : Str}
    (h : s.cache.get? measurement = none) :
    schemaOf s measurement = (createOrLoad s measurement).2 := by
  rw [schemaOf, h]

/-- The statements a call issues. -/
def callMigrations (s : Service F) (measurement : Str) (tagNames : List Str)
    (fieldSamples : Dict Str (Value F)) : List Migration :=
  migrations (schemaOf s measurement) tagNames fieldSamples

section EnsureSchema

variable {s s' : Service F} {measurement : Str} {tagNames : List Str}
  {fieldSamples : Dict Str (Value F)}

private theorem lockedUpdate_ok {cached schema : TableSchema}
    (h : lockedUpdate s measurement cached tagNames fieldSamples = (s', some schema)) :
    schema = noted cached (migrations cached tagNames fieldSamples) ∧
      Recasts s s' cached.table (recast (migrations cached tagNames fieldSamples)) ∧
      s'.cache.get? measurement = some schema := by
  simp only [lockedUpdate] at h
  split at h
  · rename_i s₁ schema₁ hall
    cases h
    obtain ⟨hnoted, hrecast⟩ := migrateAll_ok hall
    exact ⟨hnoted, ⟨hrecast.nextSeq, hrecast.cold, hrecast.rows⟩, Dict.get?_set_self _ _ _⟩
  · split at h <;> cases h

private theorem lockedUpdate_none {cached : TableSchema} (table : Str)
    (h : lockedUpdate s measurement cached tagNames fieldSamples = (s', none)) :
    Recasts s s' table id := by
  simp only [lockedUpdate] at h
  split at h
  · cases h
  · split at h <;> cases h
    · exact Recasts.refl_of_eq table rfl rfl rfl
    · exact Recasts.refl_of_eq table rfl rfl rfl

/-- What a schema step that succeeds has done. -/
theorem ensureSchema_ok {schema : TableSchema}
    (h : ensureSchema s measurement tagNames fieldSamples = (s', some schema)) :
    schema = noted (schemaOf s measurement)
        (callMigrations s measurement tagNames fieldSamples) ∧
      Recasts s s' schema.table
        (recast (callMigrations s measurement tagNames fieldSamples)) ∧
      s'.cache.get? measurement = some schema := by
  simp only [ensureSchema] at h
  split at h
  · rename_i cached hcached
    rw [callMigrations, schemaOf_of_cached hcached]
    split at h
    · obtain ⟨hnoted, hrecast, hcache⟩ := lockedUpdate_ok h
      have htable : schema.table = cached.table := by rw [hnoted, noted_table]
      exact ⟨hnoted, htable ▸ hrecast, hcache⟩
    · rename_i hupdate
      cases h
      rw [migrations_eq_nil (by simpa using hupdate)]
      exact ⟨rfl, Recasts.refl_of_eq _ rfl rfl rfl, hcached⟩
  · rename_i hcached
    rw [callMigrations, schemaOf_of_none hcached]
    obtain ⟨hnoted, hrecast, hcache⟩ := lockedUpdate_ok h
    have htable : schema.table = (createOrLoad s measurement).2.table := by
      rw [hnoted, noted_table]
    exact ⟨hnoted, htable ▸ ⟨hrecast.nextSeq, hrecast.cold, hrecast.rows⟩, hcache⟩

/-- A schema step that fails leaves the stores as they were. -/
theorem ensureSchema_none (table : Str)
    (h : ensureSchema s measurement tagNames fieldSamples = (s', none)) :
    Recasts s s' table id := by
  simp only [ensureSchema] at h
  split at h
  · split at h
    · exact lockedUpdate_none table h
    · cases h
  · have hrecast := lockedUpdate_none table h
    exact ⟨hrecast.nextSeq, hrecast.cold, hrecast.rows⟩

end EnsureSchema

end TimescaleLp.Promotion
