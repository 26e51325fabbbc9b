import TimescaleLp.Alters
import TimescaleLp.Schedule

/-!
A migration that fails. The statements run in one transaction, and each notes
what it did in the cached schema as soon as it has run. The rollback takes the
database back, not the schema, so the cache lists what the statements before the
failure were to do.
-/
namespace TimescaleLp.Rollback

open Names Schema Promotion Naming Alters

variable {F : Type}

/-- A call on a cached measurement whose statement `k` fails, the commit counting
as the last one. The schema object is that in the cache. -/
def failAt [Numerics F] (s : Service F) (m : Str) (tagNames : List Str)
    (samples : Dict Str (Value F)) (k : ℕ) : Option (Service F) :=
  (s.cache.get? m).bind fun cached =>
    if migrations cached tagNames samples ≠ [] ∧
        k ≤ (migrations cached tagNames samples).length then
      match migrateAll s cached ((migrations cached tagNames samples).take k) with
      | (some _, schema) => some { s with cache := s.cache.set m schema }
      | (none, _) => none
    else none

/-- The database has what the statement asks for. -/
def InPlace (columns : Dict Str PgType) : Migration → Prop
  | .addTag t => columns.contains (colOfTag t) = true
  | .addField f ty => columns.get? (colOfField f) = some ty
  | .widen _ col _ toType => columns.get? (pgIdent col) = some toType

instance (columns : Dict Str PgType) : (mg : Migration) → Decidable (InPlace columns mg)
  | .addTag _ | .addField _ _ | .widen _ _ _ _ => inferInstanceAs (Decidable (_ = _))

/-- The database has the columns that the schema lists, with the types it lists. -/
structure Recorded (schema : TableSchema) (columns : Dict Str PgType) : Prop where
  tags : ∀ t col, schema.tagCols.get? t = some col → columns.contains (pgIdent col) = true
  fields : ∀ f col ty, schema.fieldCols.get? f = some (col, ty) →
    columns.get? (pgIdent col) = some ty

/-- The cached schema is recorded, and a call with the same names issues again
what the database lacks. -/
def Sound (s : Service F) (m : Str) (tagNames : List Str) (samples : Dict Str (Value F))
    (issued : List Migration) : Prop :=
  ∀ schema, s.cache.get? m = some schema →
    Recorded schema (columnsOf s schema.table) ∧
      ∀ mg ∈ issued, ¬InPlace (columnsOf s schema.table) mg →
        mg ∈ migrations schema tagNames samples

/-- What ran asked for what the database has, and the rest of the schema was
recorded before. -/
structure Harmless (columns : Dict Str PgType) (cached : TableSchema) (ran : List Migration) :
    Prop where
  inPlace : ∀ mg ∈ ran, InPlace columns mg
  tags : ∀ t col, cached.tagCols.get? t = some col → columns.contains (pgIdent col) = true
  fields : ∀ f col ty, cached.fieldCols.get? f = some (col, ty) →
    (∀ col' a b, .widen f col' a b ∉ ran) → columns.get? (pgIdent col) = some ty

section Noted

variable {cached : TableSchema} {tagNames : List Str} {samples : Dict Str (Value F)}
  {ran : List Migration} {columns : Dict Str PgType}

/-- The entry of a cached field that has not been promoted. -/
theorem get?_noted_of_cached (hran : ∀ mg ∈ ran, mg ∈ migrations cached tagNames samples)
    {f : Str} {e : Str × PgType} (hcached : cached.fieldCols.get? f = some e)
    (hno : ∀ col a b, .widen f col a b ∉ ran) :
    (noted cached ran).fieldCols.get? f = some e := by
  rw [get?_noted_of_forall_ne, hcached]
  intro mg hmg e' he'
  cases mg with
  | addTag t => contradiction
  | addField f' ty =>
    cases he'
    obtain ⟨-, -, hnew, -⟩ := (addField_mem_migrations_iff _ _).mp (hran _ hmg)
    exact absurd (hcached.symm.trans hnew) (by simp)
  | widen f' col a b =>
    cases he'
    exact hno col a b hmg

theorem recorded_noted_iff (hran : ∀ mg ∈ ran, mg ∈ migrations cached tagNames samples) :
    Recorded (noted cached ran) columns ↔ Harmless columns cached ran := by
  constructor
  · intro h
    refine ⟨fun mg hmg => ?_, fun t col ht => ?_, fun f col ty hf hno => ?_⟩
    · cases mg with
      | addTag t => exact h.tags t (tagCol t) (by rw [get?_noted_tagCols, if_pos hmg])
      | addField f ty => exact h.fields f _ ty (get?_noted_of_record hran hmg rfl)
      | widen f col a b => exact h.fields f col b (get?_noted_of_record hran hmg rfl)
    · refine h.tags t col ?_
      rw [get?_noted_tagCols, if_neg, ht]
      intro hmg
      have hnew := ((addTag_mem_migrations_iff _).mp (hran _ hmg)).2
      rw [Dict.contains, ht] at hnew
      contradiction
    · exact h.fields f col ty (get?_noted_of_cached hran hf hno)
  · intro h
    refine ⟨fun t col ht => ?_, fun f col ty hf => ?_⟩
    · rw [get?_noted_tagCols] at ht
      split at ht
      · rename_i hmg
        cases ht
        exact h.inPlace _ hmg
      · exact h.tags t col ht
    · by_cases hrecord : ∃ mg ∈ ran, ∃ e, recordOf mg = some (f, e)
      · obtain ⟨mg, hmg, e, he⟩ := hrecord
        cases (get?_noted_of_record hran hmg he).symm.trans hf
        have hplace := h.inPlace mg hmg
        cases mg with
        | addTag t => contradiction
        | addField f' ty' =>
          cases he
          exact hplace
        | widen f' col' a b =>
          cases he
          exact hplace
      · push Not at hrecord
        rw [get?_noted_of_forall_ne hrecord] at hf
        exact h.fields f col ty hf fun col' a b hmg => hrecord _ hmg _ rfl

/-- A statement that has not run is issued again. -/
theorem mem_migrations_noted (hran : ∀ mg ∈ ran, mg ∈ migrations cached tagNames samples)
    {mg : Migration} (hmg : mg ∈ migrations cached tagNames samples) (hnot : mg ∉ ran) :
    mg ∈ migrations (noted cached ran) tagNames samples := by
  have hsame : ∀ f e, recordOf mg = some (f, e) →
      (noted cached ran).fieldCols.get? f = cached.fieldCols.get? f := by
    intro f e he
    refine get?_noted_of_forall_ne fun mg' hmg' e' he' => hnot ?_
    exact record_inj hmg (hran mg' hmg') he he' ▸ hmg'
  cases mg with
  | addTag t =>
    obtain ⟨ht, hnew⟩ := (addTag_mem_migrations_iff _).mp hmg
    refine (addTag_mem_migrations_iff _).mpr ⟨ht, ?_⟩
    rw [Dict.contains, get?_noted_tagCols, if_neg hnot]
    exact hnew
  | addField f ty =>
    obtain ⟨v, hv, hnew, hty⟩ := (addField_mem_migrations_iff _ _).mp hmg
    exact (addField_mem_migrations_iff _ _).mpr ⟨v, hv, (hsame f _ rfl).trans hnew, hty⟩
  | widen f col a b =>
    obtain ⟨v, hv, hget, hb, hne⟩ := (widen_mem_migrations_iff _ _ _ _).mp hmg
    exact (widen_mem_migrations_iff _ _ _ _).mpr ⟨v, hv, (hsame f _ rfl).trans hget, hb, hne⟩

end Noted

section Fail

variable [Numerics F] {s s' : Service F} {m : Str} {tagNames : List Str}
  {samples : Dict Str (Value F)} {k : ℕ}

/-- What a failed call leaves. -/
theorem failAt_some (h : failAt s m tagNames samples k = some s') :
    ∃ cached, s.cache.get? m = some cached ∧
      callMigrations s m tagNames samples = migrations cached tagNames samples ∧
      (∀ table, columnsOf s' table = columnsOf s table) ∧
      s'.cache.get? m = some (noted cached ((migrations cached tagNames samples).take k)) := by
  obtain ⟨cached, hcached, h⟩ := Option.bind_eq_some_iff.mp h
  refine ⟨cached, hcached, by rw [callMigrations, schemaOf_of_cached hcached], ?_⟩
  split at h
  · split at h
    · rename_i s₁ schema hall
      cases h
      exact ⟨fun _ => rfl, by rw [Dict.get?_set_self, (migrateAll_ok hall).1]⟩
    · contradiction
  · contradiction

/-- After a call that fails at statement `k` the cached schema is recorded in the
database, and the rest is retried, exactly if the statements before asked for
what is there and the schema was recorded but for what they widened. -/
theorem sound_iff (h : failAt s m tagNames samples k = some s') :
    Sound s' m tagNames samples (callMigrations s m tagNames samples) ↔
      Harmless (columnsOf s (schemaOf s m).table) (schemaOf s m)
        ((callMigrations s m tagNames samples).take k) := by
  obtain ⟨cached, hcached, hissued, hcolumns, hcache⟩ := failAt_some h
  have hran : ∀ mg ∈ (migrations cached tagNames samples).take k,
      mg ∈ migrations cached tagNames samples := fun mg => List.mem_of_mem_take
  rw [hissued, schemaOf_of_cached hcached, ← recorded_noted_iff hran]
  constructor
  · intro hsound
    have hrecorded := (hsound _ hcache).1
    rwa [noted_table, hcolumns] at hrecorded
  · intro hrecorded schema hschema
    cases hcache.symm.trans hschema
    rw [noted_table, hcolumns]
    refine ⟨hrecorded, fun mg hmg hnot => mem_migrations_noted hran hmg fun hrun => hnot ?_⟩
    exact ((recorded_noted_iff hran).mp hrecorded).inPlace mg hrun

/-- When the cache was recorded before the call, only what has run matters. -/
theorem harmless_iff_of_recorded {columns : Dict Str PgType} {cached : TableSchema}
    {ran : List Migration} (h : Recorded cached columns) :
    Harmless columns cached ran ↔ ∀ mg ∈ ran, InPlace columns mg :=
  ⟨fun hran => hran.inPlace, fun hran => ⟨hran, h.tags, fun f col ty hf _ => h.fields f col ty hf⟩⟩

/-- Where a migration gets stuck by itself. -/
theorem exists_stuck {schema schema' : TableSchema} {ms : List Migration}
    (h : migrateAll s schema ms = (none, schema')) :
    ms ≠ [] ∧ ∃ k ≤ ms.length, ∃ s₁, migrateAll s schema (ms.take k) = (some s₁, schema') := by
  induction ms generalizing s schema with
  | nil => cases h
  | cons mg ms ih =>
    refine ⟨by simp, ?_⟩
    cases hmg : migrate s schema mg with
    | none =>
      simp only [migrateAll, hmg] at h
      cases h
      exact ⟨0, Nat.zero_le _, s, rfl⟩
    | some result =>
      simp only [migrateAll, hmg] at h
      obtain ⟨-, k, hk, s₁, hrest⟩ := ih h
      refine ⟨k + 1, Nat.succ_le_succ hk, s₁, ?_⟩
      simp only [List.take_succ_cons, migrateAll, hmg]
      exact hrest

/-- A call that raises because a stored value has no cast fails at that statement. -/
theorem exists_failAt_of_none {cached : TableSchema} (hcached : s.cache.get? m = some cached)
    (h : ensureSchema s m tagNames samples = (s', none)) :
    ∃ k, failAt s m tagNames samples k = some s' := by
  simp only [ensureSchema, hcached] at h
  split at h
  · simp only [lockedUpdate] at h
    split at h
    · cases h
    · rename_i schema hall
      obtain ⟨hne, k, hk, s₁, hstuck⟩ := exists_stuck hall
      have hcontains : s.cache.contains m = true := by rw [Dict.contains, hcached, Option.isSome_some]
      rw [if_pos hcontains] at h
      cases h
      refine ⟨k, ?_⟩
      rw [failAt, hcached, Option.bind_some, if_pos ⟨hne, hk⟩, hstuck]
  · cases h

end Fail

/-- A cached measurement with one column. -/
def oneColumn : Service ℤ where
  nextSeq := 1
  hot := fun _ => Dict.empty
  cold := ColdStore.empty
  catalog := Dict.single "cpu".toList (Dict.single "f_a".toList .bigint)
  cache := Dict.single "cpu".toList Schedule.cpuSchema

def newField : Dict Str (Value ℤ) := Dict.single "b".toList (.int 1)

/-- Another process has added the second column. -/
def twoColumns : Service ℤ :=
  { oneColumn with
    catalog := Dict.single "cpu".toList ((Dict.single "f_a".toList .bigint).set "f_b".toList .bigint) }

def newFields : Dict Str (Value ℤ) := newField.set "c".toList (.int 2)

/-- The first statement finds its column, and the second one fails. -/
theorem presentColumn_sound : ∃ s', failAt twoColumns "cpu".toList [] newFields 1 = some s' ∧
    Sound s' "cpu".toList [] newFields (callMigrations twoColumns "cpu".toList [] newFields) := by
  obtain ⟨s', hs'⟩ := Option.isSome_iff_exists.mp
    (by decide +kernel : (failAt twoColumns "cpu".toList [] newFields 1).isSome = true)
  have hschema : schemaOf twoColumns "cpu".toList = Schedule.cpuSchema := rfl
  refine ⟨s', hs', (sound_iff hs').mpr ⟨by decide +kernel, fun t col ht => ?_,
    fun f col ty hf _ => ?_⟩⟩
  · rw [hschema] at ht
    contradiction
  · rw [hschema] at hf ⊢
    cases Dict.eq_of_get?_single hf
    decide +kernel

/-- The commit fails, and the cache lists a column that the database lacks. -/
theorem failedCommit_unsound : ¬∀ s', failAt oneColumn "cpu".toList [] newField 1 = some s' →
    Sound s' "cpu".toList [] newField (callMigrations oneColumn "cpu".toList [] newField) := by
  intro h
  have hrun : (failAt oneColumn "cpu".toList [] newField 1).any (fun s =>
      (s.cache.get? "cpu".toList).any fun schema =>
        decide (schema.fieldCols.get? "b".toList = some ("f_b".toList, .bigint)) &&
        decide ((columnsOf s schema.table).get? (pgIdent "f_b".toList) = none)) = true := by
    decide +kernel
  obtain ⟨s', hs', htest⟩ := (Option.any_eq_true _ _).mp hrun
  obtain ⟨schema, hschema, htest⟩ := (Option.any_eq_true _ _).mp htest
  simp only [Bool.and_eq_true, decide_eq_true_eq] at htest
  have hrecorded := (h s' hs' schema hschema).1.fields _ _ _ htest.1
  rw [htest.2] at hrecorded
  contradiction

end TimescaleLp.Rollback
