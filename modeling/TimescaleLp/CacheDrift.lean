import TimescaleLp.Alters
import TimescaleLp.Runs

/-!
The schema cache against the database, over calls and restarts. The cache knows
fields by their names and the database by their columns, and several names can
share a column, also across measurements of one table. A call keeps the two in
step exactly if all names of a column are to have one type after it.
-/
namespace TimescaleLp

/-- A database to start on: its identifiers have been cut to 63 bytes. -/
structure Database (F : Type) where
  world : World (Value F)
  catalog : Dict Str (Dict Str PgType)
  idents : ∀ table columns, catalog.get? table = some columns →
    ∀ c ty, columns.get? c = some ty → Names.pgIdent c = c

namespace CacheDrift

open Names Schema Promotion SchemaRules Naming Alters

variable {F : Type}

def connect (d : Database F) : Service F where
  toWorld := d.world
  catalog := d.catalog
  cache := Dict.empty

/-- A schema step that succeeds, or a restart of the process. -/
inductive Event (F : Type)
  | ensure (measurement : Str) (tagNames : List Str) (samples : Dict Str (Value F))
  | restart

def step [Numerics F] (s : Service F) : Event F → Option (Service F)
  | .ensure measurement tagNames samples =>
    match ensureSchema s measurement tagNames samples with
    | (s', some _) => some s'
    | (_, none) => none
  | .restart => some { s with cache := Dict.empty }

/-- The columns listed for fields have the types listed. -/
def FieldsMatch (schema : TableSchema) (columns : Dict Str PgType) : Prop :=
  ∀ f col ty, schema.fieldCols.get? f = some (col, ty) → columns.get? (pgIdent col) = some ty

/-- Every cached entry has the type its column has in the database. -/
def Matches (s : Service F) : Prop :=
  ∀ m schema, s.cache.get? m = some schema → FieldsMatch schema (columnsOf s schema.table)

/-- The statement puts a column down in the widening order. -/
def Lowers (columns : Dict Str PgType) : Migration → Prop
  | .widen _ col _ toType =>
    ∃ ty, columns.get? (pgIdent col) = some ty ∧ typeRank toType < typeRank ty
  | _ => False

/-- No statement of the call lowers the type of a column. -/
def RaisesOnly (s : Service F) : Event F → Prop
  | .ensure m tagNames samples => ∀ before mg after,
      callMigrations s m tagNames samples = before ++ mg :: after →
        ¬Lowers (before.foldl altered (columnsOf s (schemaOf s m).table)) mg
  | .restart => True

/-- After a call of the measurement, a name in some cached schema of the table is
to have the column with the type. -/
inductive Wants (s : Service F) (m : Str) (samples : Dict Str (Value F)) (c : Str) (ty : PgType) :
    Prop
  | own {f col} (hentry : wantedEntry (schemaOf s m) samples f = some (col, ty))
      (hcol : pgIdent col = c) : Wants s m samples c ty
  | other {m' schema f col} (hm : m' ≠ m) (hcached : s.cache.get? m' = some schema)
      (htable : schema.table = (schemaOf s m).table)
      (hentry : schema.fieldCols.get? f = some (col, ty)) (hcol : pgIdent col = c) :
      Wants s m samples c ty

/-- Before the call a name has the column: in the schema the call starts from, or
in that of another measurement of the table. -/
def Known (s : Service F) (m : Str) (c : Str) : Prop :=
  (∃ f col ty, (schemaOf s m).fieldCols.get? f = some (col, ty) ∧ pgIdent col = c) ∨
    ∃ m' schema f col ty, m' ≠ m ∧ s.cache.get? m' = some schema ∧
      schema.table = (schemaOf s m).table ∧ schema.fieldCols.get? f = some (col, ty) ∧
      pgIdent col = c

/-- All names of a column are to have one type, and a new field whose column
exists under no name has a sample of the column's type. -/
structure OneType (s : Service F) (m : Str) (samples : Dict Str (Value F)) : Prop where
  agree : ∀ c ty ty', Wants s m samples c ty → Wants s m samples c ty' → ty = ty'
  found : ∀ f v ty, samples.get? f = some v → (schemaOf s m).fieldCols.get? f = none →
    (columnsOf s (schemaOf s m).table).get? (colOfField f) = some ty →
      ¬Known s m (colOfField f) → ty = inferFieldType v

def InStep (s : Service F) : Event F → Prop
  | .ensure m _ samples => OneType s m samples
  | .restart => True

section Inv

def Idents (columns : Dict Str PgType) : Prop := ∀ c ty, columns.get? c = some ty → pgIdent c = c

def FieldColumns (m : Str) (schema : TableSchema) : Prop :=
  schema.table = measurementTable m ∧
    ∀ f e, schema.fieldCols.get? f = some e → "f_".toList <+: e.1

/-- Columns are stored under their identifiers, those listed for fields start
with `f_`. -/
abbrev Inv (s : Service F) : Prop := SchemaInv (fun _ => Idents) FieldColumns s

theorem idents_set {columns : Dict Str PgType} (h : Idents columns) (c : Str) (ty : PgType) :
    Idents (columns.set (pgIdent c) ty) :=
  Dict.forall_set h (pgIdent_pgIdent c)

theorem fieldColumns_set {m : Str} {schema : TableSchema} (h : FieldColumns m schema) (f : Str)
    {e : Str × PgType} (he : "f_".toList <+: e.1) :
    FieldColumns m { schema with fieldCols := schema.fieldCols.set f e } :=
  ⟨h.1, Dict.forall_set h.2 he⟩

def WidensField : Migration → Prop
  | .widen _ col _ _ => "f_".toList <+: col
  | _ => True

theorem identRule (m : Str) : SchemaRule (fun _ => Idents) FieldColumns WidensField m where
  empty := by simp [Idents]
  load columns h := by
    refine ⟨rfl, fun f e hget => ?_⟩
    rcases get?_foldl_introspect _ id _ _ hget with hempty | ⟨e', he, hp, -, rfl⟩
    · simp at hempty
    · exact hp
  table schema h := h.1
  columns mg hmg columns h := by
    cases mg <;> exact idents_set h _ _
  schema mg hmg schema h := by
    cases mg with
    | addTag t => exact ⟨h.1, h.2⟩
    | addField f ty => exact fieldColumns_set h f (List.prefix_append _ _)
    | widen f col fromType toType => exact fieldColumns_set h f hmg

theorem widensField_migrations {m : Str} {schema : TableSchema} (h : FieldColumns m schema)
    (tagNames : List Str) (samples : Dict Str (Value F)) :
    ∀ mg ∈ migrations schema tagNames samples, WidensField mg := by
  intro mg hmg
  cases mg with
  | addTag t => trivial
  | addField f ty => trivial
  | widen f col fromType toType =>
    obtain ⟨v, -, hget, -⟩ := (widen_mem_migrations_iff _ _ _ _).mp hmg
    exact h.2 f _ hget

theorem step_inv [Numerics F] {s t : Service F} {e : Event F} (hs : Inv s)
    (h : step s e = some t) : Inv t := by
  cases e with
  | ensure m tagNames samples =>
    simp only [step] at h
    split at h
    · rename_i s' schema heq
      have hinv := (SchemaInv.ensureSchema hs (identRule m) fun cached hcached =>
        widensField_migrations hcached tagNames samples).1
      rw [heq] at hinv
      exact Option.some.inj h ▸ hinv
    · contradiction
  | restart => exact Option.some.inj h ▸ ⟨hs.catalog, by simp⟩

end Inv

section Columns

variable {s : Service F} {m : Str} {tagNames : List Str} {samples : Dict Str (Value F)}

/-- A schema read back from the database matches it. -/
theorem fieldsMatch_schemaOf (hs : Inv s) (hmatch : Matches s) (m : Str) :
    FieldsMatch (schemaOf s m) (columnsOf s (schemaOf s m).table) := by
  cases hcached : s.cache.get? m with
  | some cached =>
    rw [schemaOf_of_cached hcached]
    exact hmatch m cached hcached
  | none =>
    rw [schemaOf_of_none hcached]
    intro f col ty hget
    rcases get?_foldl_introspect _ id _ _ hget with hempty | ⟨e, he, -, -, rfl⟩
    · simp at hempty
    · have hcol : (columnsOf s (measurementTable m)).get? col = some ty :=
        (Dict.get?_eq_some_iff _ _ _).mpr he
      have hident : pgIdent col = col := SchemaInv.columns hs (identRule m).empty col ty hcol
      rw [hident]
      exact hcol

/-- Columns of fields are not those of tags. -/
theorem pgIdent_ne_colOfTag {col : Str} (h : "f_".toList <+: col) (t : Str) :
    pgIdent col ≠ colOfTag t := by
  intro heq
  refine not_prefix_colOfTag t (heq ▸ ?_)
  exact List.prefix_take_iff.mpr ⟨h, by decide⟩

theorem Wants.isField (hs : Inv s) {c : Str} {ty : PgType} (h : Wants s m samples c ty) :
    ∀ t, c ≠ colOfTag t := by
  have hschema : FieldColumns m (schemaOf s m) := hs.schemaOf (identRule m)
  cases h with
  | @own f col hentry hcol =>
    refine fun t => hcol ▸ pgIdent_ne_colOfTag ?_ t
    unfold wantedEntry at hentry
    split at hentry
    · rename_i hget _
      cases hentry
      exact hschema.2 f _ hget
    · rename_i hget _
      cases hentry
      exact hschema.2 f _ hget
    · cases hentry
      exact List.prefix_append _ _
    · contradiction
  | other hm hcached htable hentry hcol =>
    exact fun t => hcol ▸ pgIdent_ne_colOfTag ((hs.cache _ _ hcached).2 _ _ hentry) t

/-- A statement of the call is what its field wants. -/
theorem wants_of_record {mg : Migration} (hmg : mg ∈ migrations (schemaOf s m) tagNames samples)
    {f col : Str} {ty : PgType} (h : recordOf mg = some (f, (col, ty))) :
    Wants s m samples (pgIdent col) ty :=
  .own (wantedEntry_of_record hmg h) rfl

/-- A column that no statement widens keeps the type its names want. -/
theorem wants_of_known (hs : Inv s) (hmatch : Matches s) {c : Str} {ty : PgType}
    (hget : (columnsOf s (schemaOf s m).table).get? c = some ty) (hknown : Known s m c)
    (hno : ¬Widens (migrations (schemaOf s m) tagNames samples) c) : Wants s m samples c ty := by
  rcases hknown with ⟨f, col, current, hentry, hcol⟩ |
    ⟨m', schema, f, col, current, hm, hcached, htable, hentry, hcol⟩
  · have hcurrent := fieldsMatch_schemaOf hs hmatch m f col current hentry
    rw [hcol, hget] at hcurrent
    cases hcurrent
    refine .own (f := f) ?_ hcol
    unfold wantedEntry
    cases hv : samples.get? f with
    | none => rw [hentry]
    | some v =>
      rw [hentry]
      by_contra hne
      have hwidens : widenedType ty v ≠ ty := fun heq => hne (by simp [heq])
      exact hno ⟨f, col, ty, _, (widen_mem_migrations_iff _ _ _ _).mpr
        ⟨v, hv, hentry, rfl, hwidens⟩, hcol⟩
  · have hcurrent := hmatch m' schema hcached f col current hentry
    rw [htable, hcol, hget] at hcurrent
    cases hcurrent
    exact .other hm hcached htable hentry hcol

/-- The columns of a name that a call or the cache lists before it. -/
theorem Wants.known_or_new {c : Str} {ty : PgType} (h : Wants s m samples c ty) :
    Known s m c ∨ ∃ f v, samples.get? f = some v ∧ (schemaOf s m).fieldCols.get? f = none ∧
      colOfField f = c ∧ ty = inferFieldType v := by
  cases h with
  | @own f col hentry hcol =>
    unfold wantedEntry at hentry
    split at hentry
    · rename_i col' current v hget hv
      cases hentry
      exact Or.inl (Or.inl ⟨f, _, _, hget, hcol⟩)
    · rename_i e hget hv
      cases hentry
      exact Or.inl (Or.inl ⟨f, _, _, hget, hcol⟩)
    · rename_i v hget hv
      cases hentry
      exact Or.inr ⟨f, v, hv, hget, hcol, rfl⟩
    · contradiction
  | @other m' schema f col hm hcached htable hentry hcol =>
    exact Or.inl (Or.inr ⟨m', schema, f, col, ty, hm, hcached, htable, hentry, hcol⟩)

/-- A column that has a name exists. -/
theorem exists_of_known (hs : Inv s) (hmatch : Matches s) {c : Str} (h : Known s m c) :
    ∃ ty, (columnsOf s (schemaOf s m).table).get? c = some ty := by
  rcases h with ⟨f, col, ty, hentry, rfl⟩ | ⟨m', schema, f, col, ty, -, hcached, htable, hentry, rfl⟩
  · exact ⟨ty, fieldsMatch_schemaOf hs hmatch m f col ty hentry⟩
  · exact ⟨ty, htable ▸ hmatch m' schema hcached f col ty hentry⟩

/-- The columns after the statements have the types wanted for them exactly if
each is wanted with one type. -/
theorem wanted_iff_oneType (hs : Inv s) (hmatch : Matches s) :
    (∀ c ty, Wants s m samples c ty →
      ((migrations (schemaOf s m) tagNames samples).foldl altered
        (columnsOf s (schemaOf s m).table)).get? c = some ty) ↔ OneType s m samples := by
  constructor
  · intro h
    refine ⟨fun c ty ty' hty hty' => ?_, fun f v ty hv hnew hget hunknown => ?_⟩
    · exact Option.some.inj ((h c ty hty).symm.trans (h c ty' hty'))
    · have hwants : Wants s m samples (colOfField f) (inferFieldType v) :=
        .own (f := f) (by simp only [wantedEntry, hnew, hv]) rfl
      have hfate := fate (hwants.isField hs) (columnsOf s (schemaOf s m).table)
        (migrations (schemaOf s m) tagNames samples)
      rw [h _ _ hwants] at hfate
      cases hfate with
      | widened hmg hcol =>
        obtain ⟨-, -, hentry, -⟩ := (widen_mem_migrations_iff _ _ _ _).mp hmg
        exact absurd (Or.inl ⟨_, _, _, hentry, hcol⟩) hunknown
      | kept hno hkept => exact Option.some.inj (hget.symm.trans hkept)
      | added hno hnone => exact absurd (hget.symm.trans hnone) (by simp)
  · intro h c ty hty
    have hfate := fate (hty.isField hs) (columnsOf s (schemaOf s m).table)
      (migrations (schemaOf s m) tagNames samples)
    generalize ((migrations (schemaOf s m) tagNames samples).foldl altered
      (columnsOf s (schemaOf s m).table)).get? c = result at hfate ⊢
    cases hfate with
    | widened hmg hcol =>
      exact congrArg some (h.agree c _ _ (hcol ▸ wants_of_record hmg rfl) hty)
    | @kept current hno hget =>
      by_cases hknown : Known s m c
      · exact congrArg some (h.agree c _ _ (wants_of_known hs hmatch hget hknown hno) hty)
      · obtain ⟨f, v, hv, hnew, rfl, rfl⟩ := hty.known_or_new.resolve_left hknown
        exact congrArg some (h.found f v current hv hnew hget hknown)
    | added hno hnone hmg hcol =>
      exact congrArg some (h.agree c _ _ (hcol ▸ wants_of_record hmg rfl) hty)
    | absent hno hnone hother =>
      rcases hty.known_or_new with hknown | ⟨f, v, hv, hnew, rfl, rfl⟩
      · obtain ⟨ty', hget⟩ := exists_of_known hs hmatch hknown
        exact absurd (hget.symm.trans hnone) (by simp)
      · exact absurd rfl (hother f _ ((addField_mem_migrations_iff _ _).mpr ⟨v, hv, hnew, rfl⟩))

end Columns

section Step

variable [Numerics F] {s s' : Service F} {m : Str} {tagNames : List Str}
  {samples : Dict Str (Value F)} {schema : TableSchema}

/-- The cache after a call is in step if the columns are as wanted. -/
theorem matches_iff_wanted (hmatch : Matches s)
    (h : ensureSchema s m tagNames samples = (s', some schema)) :
    Matches s' ↔ ∀ c ty, Wants s m samples c ty →
      ((migrations (schemaOf s m) tagNames samples).foldl altered
        (columnsOf s (schemaOf s m).table)).get? c = some ty := by
  obtain ⟨hcolumns, hcache⟩ := ensureSchema_some h
  have hschema := (ensureSchema_ok h).1
  have htable : schema.table = (schemaOf s m).table := by rw [hschema, noted_table]
  have hentry : ∀ f, schema.fieldCols.get? f = wantedEntry (schemaOf s m) samples f := by
    intro f
    rw [hschema, callMigrations, get?_noted_migrations]
  have hnew : columnsOf s' (schemaOf s m).table =
      (migrations (schemaOf s m) tagNames samples).foldl altered
        (columnsOf s (schemaOf s m).table) := by
    rw [hcolumns, if_pos htable.symm, callMigrations]
  rw [← hnew]
  constructor
  · intro hmatch' c ty hwants
    cases hwants with
    | @own f col hwanted hcol =>
      have hget := hmatch' m schema (by rw [hcache, if_pos rfl]) f col ty (by rw [hentry, hwanted])
      rwa [htable, hcol] at hget
    | other hm hcached hother hwanted hcol =>
      have hget := hmatch' _ _ (by rw [hcache, if_neg hm, hcached]) _ _ _ hwanted
      rwa [hother, hcol] at hget
  · intro hwanted m' schema' hcached f col ty hf
    rw [hcache] at hcached
    split at hcached
    · cases hcached
      rw [htable]
      exact hwanted _ _ (.own (by rw [← hentry, hf]) rfl)
    · rename_i hm
      by_cases hother : schema'.table = (schemaOf s m).table
      · rw [hother]
        exact hwanted _ _ (.other hm hcached hother hf rfl)
      · rw [hcolumns, if_neg (htable ▸ hother)]
        exact hmatch m' schema' hcached f col ty hf

theorem step_matches_iff {t : Service F} {e : Event F} (hs : Inv s) (hmatch : Matches s)
    (h : step s e = some t) : Matches t ↔ InStep s e := by
  cases e with
  | ensure m tagNames samples =>
    simp only [step] at h
    split at h
    · rename_i s' schema heq
      cases h
      exact (matches_iff_wanted hmatch heq).trans (wanted_iff_oneType hs hmatch)
    · contradiction
  | restart =>
    cases h
    exact iff_of_true (fun m schema hcached => by simp at hcached) trivial

omit [Numerics F] in
/-- When all names of a column want one type, promotions only raise. -/
theorem raisesOnly_of_inStep {e : Event F} (hs : Inv s) (hmatch : Matches s) (h : InStep s e) :
    RaisesOnly s e := by
  cases e with
  | restart => trivial
  | ensure m tagNames samples =>
    intro before mg after hsplit hlowers
    have hmem : ∀ mg' ∈ before ++ [mg], mg' ∈ migrations (schemaOf s m) tagNames samples := by
      intro mg' hmg'
      rw [← callMigrations, hsplit]
      rcases List.mem_append.mp hmg' with hmg' | hmg'
      · exact List.mem_append_left _ hmg'
      · rw [List.mem_singleton.mp hmg']
        exact List.mem_append_right _ List.mem_cons_self
    cases mg with
    | addTag t => exact hlowers
    | addField f ty => exact hlowers
    | widen f col fromType toType =>
      obtain ⟨ty, hget, hlt⟩ := hlowers
      have hmg := hmem _ (List.mem_append_right _ List.mem_cons_self)
      have hwants : Wants s m samples (pgIdent col) toType := wants_of_record hmg rfl
      obtain ⟨v, hv, hentry, rfl, hne⟩ := (widen_mem_migrations_iff _ _ _ _).mp hmg
      have hcurrent := fieldsMatch_schemaOf hs hmatch m f col fromType hentry
      have hfate := fate (hwants.isField hs) (columnsOf s (schemaOf s m).table) before
      rw [hget] at hfate
      cases hfate with
      | widened hmg' hcol =>
        have hsame := h.agree _ _ _ (hcol ▸ wants_of_record
          (hmem _ (List.mem_append_left _ hmg')) rfl) hwants
        rw [hsame] at hlt
        exact lt_irrefl _ hlt
      | kept hno hkept =>
        cases hcurrent.symm.trans hkept
        unfold widenedType at hlt hne
        split at hlt
        · omega
        · exact lt_irrefl _ hlt
      | added hno hnone => exact absurd (hcurrent.symm.trans hnone) (by simp)

end Step

section Run

variable [Numerics F]

/-- The cache agrees with the database throughout a run and no promotion of the
run lowers a type, exactly if every call leaves its columns with one type each. -/
theorem always_matches_iff (d : Database F) (es : List (Event F)) :
    Runs.Always step Matches (connect d) es ∧ Runs.Along step RaisesOnly (connect d) es ↔
      Runs.Along step InStep (connect d) es := by
  have hs : Inv (connect d) := ⟨d.idents, by simp [connect]⟩
  have hmatch : Matches (connect d) := fun m schema hcached => by simp [connect] at hcached
  have halways : Runs.Always step Matches (connect d) es ↔
      Runs.Along step InStep (connect d) es :=
    Runs.always_iff_along (I := Inv) (fun _ _ _ => step_inv)
      (fun _ _ _ hs hmatch h => step_matches_iff hs hmatch h) hs hmatch
  rw [halways, and_iff_left_iff_imp]
  refine fun h => h.of_invariant (I := fun s => Inv s ∧ Matches s) ?_ ?_ ⟨hs, hmatch⟩
  · exact fun s e t hs hG hst => ⟨step_inv hs.1 hst, (step_matches_iff hs.1 hs.2 hst).mpr hG⟩
  · exact fun s e hs => raisesOnly_of_inStep hs.1 hs.2

end Run

def emptyDatabase : Database ℤ where
  world := ⟨1, fun _ => Dict.empty, ColdStore.empty⟩
  catalog := Dict.empty
  idents table columns h := by simp at h

/-- One value for a field whose name is not in sanitized form. -/
def oneField (v : Value ℤ) : Event ℤ :=
  .ensure "cpu".toList [] (Dict.single "a-b".toList v)

/-- After a restart the column of the field is known by its sanitized name only. -/
def restarted : List (Event ℤ) := [oneField (.str "x".toList), .restart, oneField (.int 1)]

theorem restarted_drifts : (¬∀ es : List (Event ℤ),
      Runs.Always step Matches (connect emptyDatabase) es) ∧
    ¬∀ es : List (Event ℤ), Runs.Along step RaisesOnly (connect emptyDatabase) es := by
  have hrun : (Runs.exec step (connect emptyDatabase) restarted).any (fun s =>
      decide ((s.cache.get? "cpu".toList).map (·.table) = some "cpu".toList) &&
      decide ((s.cache.get? "cpu".toList).bind (·.fieldCols.get? "a-b".toList) =
        some ("f_a_b".toList, .bigint)) &&
      decide ((columnsOf s "cpu".toList).get? "f_a_b".toList = some .text) &&
      (step s (oneField (.float 1))).isSome &&
      decide (callMigrations s "cpu".toList [] (Dict.single "a-b".toList (.float (1 : ℤ))) =
        [.widen "a-b".toList "f_a_b".toList .bigint .doublePrecision])) = true := by
    decide +kernel
  obtain ⟨s, hs, htest⟩ := (Option.any_eq_true _ _).mp hrun
  simp only [Bool.and_eq_true, decide_eq_true_eq, Option.isSome_iff_exists] at htest
  obtain ⟨⟨⟨⟨htable, hfield⟩, hcolumn⟩, t, ht⟩, hissued⟩ := htest
  obtain ⟨schema, hcached, htable⟩ := Option.map_eq_some_iff.mp htable
  rw [hcached, Option.bind_some] at hfield
  refine ⟨fun h => ?_, fun h => ?_⟩
  · have hmatch := (h restarted).last hs _ schema hcached _ _ _ hfield
    rw [htable] at hmatch
    exact absurd (hcolumn.symm.trans hmatch) (by decide)
  · have hraises := (h (restarted ++ [oneField (.float 1)])).last hs ht
    refine hraises [] _ [] hissued ⟨.text, ?_, by decide⟩
    rw [schemaOf_of_cached hcached, htable]
    exact hcolumn

end CacheDrift

end TimescaleLp
