import TimescaleLp.Runs
import TimescaleLp.Typing
import TimescaleLp.Widest
import TimescaleLp.Writes

/-!
Batches written one after another to a new table. The cache and the database
give each field column the highest type of the values seen for the field, so the
order of the points and the batch they come in do not matter, and no value is
coerced to a type that cannot hold it.
-/
namespace TimescaleLp.FieldTypes

open Names Schema Store Naming Promotion Alters Widest

variable {F : Type}

section Steps
variable (digest : Str → ℕ) [Numerics F] (on : Bool)

/-- A batch that is written without a failure. -/
def write (s : Service F) (points : List (Point F)) : Option (Service F) :=
  match writeBatch digest on (fun _ => none) s points with
  | (s', .ok _) => some s'
  | (_, .error _) => none

/-- One measurement of such a batch. -/
def writeOne (s : Service F) (call : Str × List (Point F)) : Option (Service F) :=
  match writeMeasurement digest on none s call.1 call.2 with
  | (s', .ok _) => some s'
  | (_, .error _) => none

/-- The measurements of the batches, in the order in which they are written. -/
def groupsOf (batches : List (List (Point F))) : List (Str × List (Point F)) :=
  batches.flatMap fun points => (byMeasurement points).entries

theorem write_eq_exec (s : Service F) (points : List (Point F)) :
    write digest on s points = Runs.exec (writeOne digest on) s (byMeasurement points).entries := by
  unfold write writeBatch
  generalize (byMeasurement points).entries = groups
  induction groups generalizing s with
  | nil => rfl
  | cons g groups ih =>
    rw [writeGroups, Runs.exec, writeOne]
    generalize writeMeasurement digest on none s g.1 g.2 = r
    obtain ⟨s₁, res⟩ := r
    cases res with
    | error e => rfl
    | ok n =>
      rw [Option.bind_some, ← ih]
      simp only
      generalize writeGroups digest on (fun _ => none) s₁ groups = r
      obtain ⟨s₂, res⟩ := r
      cases res with
      | error e => rfl
      | ok n => rfl

theorem exec_write (s : Service F) (batches : List (List (Point F))) :
    Runs.exec (write digest on) s batches = Runs.exec (writeOne digest on) s (groupsOf batches) := by
  have hwrite : write digest on = fun (s : Service F) points =>
      Runs.exec (writeOne digest on) s (byMeasurement points).entries :=
    funext fun s => funext (write_eq_exec digest on s)
  rw [hwrite, Runs.exec_flatMap]
  rfl

variable {digest on}

/-- What a write without a failure does to columns and cache is its schema step. -/
theorem writeOne_some {s s' : Service F} {m : Str} {points : List (Point F)}
    (h : writeOne digest on s (m, points) = some s') :
    ∃ t schema, ensureSchema s m (tagNames points) (fieldSamples points) = (t, some schema) ∧
      s'.catalog = t.catalog ∧ s'.cache = t.cache := by
  unfold writeOne writeMeasurement prepare at h
  generalize ensureSchema s m (tagNames points) (fieldSamples points) = ensured at h ⊢
  obtain ⟨t, schema⟩ := ensured
  cases schema with
  | none => contradiction
  | some schema =>
    refine ⟨t, schema, rfl, ?_⟩
    simp only at h
    generalize buildBatch digest schema points t.nextSeq = built at h
    obtain ⟨n, b⟩ := built
    cases b with
    | error e => contradiction
    | ok b =>
      have houtcome := Sequence.outcome_storeBatch on none { t with nextSeq := n } b
      simp only at h
      generalize storeBatch on none { t with nextSeq := n } b = stored at h houtcome
      obtain ⟨s₁, res⟩ := stored
      cases res with
      | error e => contradiction
      | ok n' =>
        cases Option.some.inj h
        cases houtcome with
        | committed => exact ⟨rfl, rfl⟩

end Steps

/-- The database gives the column of a field the type that the schema object gets,
if both had the same type before and no other field of the batch has the column. -/
theorem column_eq_wantedEntry {cached : TableSchema} {tagNames : List Str}
    {samples : Dict Str (Value F)} {columns : Dict Str PgType} {f : Str}
    (hnames : ∀ f' e, cached.fieldCols.get? f' = some e → e.1 = fieldCol f')
    (hown : ∀ f' v, samples.get? f' = some v → colOfField f' = colOfField f → f' = f)
    (hsame : columns.get? (colOfField f) = (cached.fieldCols.get? f).map Prod.snd) :
    ((migrations cached tagNames samples).foldl altered columns).get? (colOfField f) =
      (wantedEntry cached samples f).map Prod.snd := by
  have hfate := fate (fun t h => colOfTag_ne_colOfField t f h.symm) columns
    (migrations cached tagNames samples)
  generalize ((migrations cached tagNames samples).foldl altered columns).get? (colOfField f) = ty
    at hfate ⊢
  cases hfate with
  | @widened f' col fromType toType hmg hcol =>
    obtain ⟨v, hv, hget, hto, _⟩ := (widen_mem_migrations_iff _ _ _ _).mp hmg
    have hf : f' = f := by
      refine hown f' v hv ?_
      have hname : col = fieldCol f' := hnames f' _ hget
      rw [hname] at hcol
      exact hcol
    rw [hf] at hmg
    rw [wantedEntry_of_record hmg rfl]
    rfl
  | @kept ty hno hget =>
    rw [hget] at hsame
    obtain ⟨e, he, hty⟩ := Option.map_eq_some_iff.mp hsame.symm
    unfold wantedEntry
    rw [he]
    cases hv : samples.get? f with
    | none => exact congrArg some hty.symm
    | some v =>
      have hfits : widenedType e.2 v = e.2 := by
        by_contra hne
        exact hno ⟨f, e.1, e.2, _, (widen_mem_migrations_iff _ _ _ _).mpr ⟨v, hv, he, rfl, hne⟩,
          congrArg pgIdent (hnames f e he)⟩
      exact congrArg some (hty.symm.trans hfits.symm)
  | @added f' ty hno hget hmg hcol =>
    obtain ⟨v, hv, _, _⟩ := (addField_mem_migrations_iff _ _).mp hmg
    rw [hown f' v hv hcol] at hmg
    rw [wantedEntry_of_record hmg rfl]
    rfl
  | absent hno hget hnone =>
    rw [hget] at hsame
    have hentry : cached.fieldCols.get? f = none := Option.map_eq_none_iff.mp hsame.symm
    unfold wantedEntry
    rw [hentry]
    cases hv : samples.get? f with
    | none => rfl
    | some v =>
      exact absurd rfl (hnone f _ ((addField_mem_migrations_iff _ _).mpr ⟨v, hv, hentry, rfl⟩))

/-- The types of a measurement's field columns, where `vs` are the values written
so far and `names` the fields that are written at all. -/
structure Types (m : Str) (names : Set Str) (vs : Str → Set (Value F)) (s : Service F) : Prop where
  named : Named s
  entries : ∀ f, TypeFor (((schemaOf s m).fieldCols.get? f).map Prod.snd) (vs f)
  columns : ∀ f ∈ names, (columnsOf s (measurementTable m)).get? (colOfField f) =
    ((schemaOf s m).fieldCols.get? f).map Prod.snd

section Invariant
variable [Numerics F] {digest : Str → ℕ} {on : Bool} {m : Str} {names : Set Str}
  {vs : Str → Set (Value F)} {s s' : Service F} {points : List (Point F)}

omit [Numerics F] in
/-- Columns and cache are all that the types depend on. -/
theorem schemaOf_congr (hcatalog : columnsOf s' (measurementTable m) = columnsOf s (measurementTable m))
    (hcache : s'.cache.get? m = s.cache.get? m) : schemaOf s' m = schemaOf s m := by
  unfold schemaOf
  rw [hcache]
  cases s.cache.get? m with
  | some cached => rfl
  | none =>
    unfold columnsOf at hcatalog
    simp only [createOrLoad, hcatalog]

/-- The named columns after a write. -/
theorem named_writeOne (h : Named s) (hstep : writeOne digest on s (m, points) = some s') :
    Named s' := by
  obtain ⟨t, schema, hensure, hcatalog, hcache⟩ := writeOne_some hstep
  have ht := (h.ensureSchema m (tagNames points) (fieldSamples points)).1
  rw [hensure] at ht
  exact ht.congr hcatalog hcache

/-- Writing to another table. -/
theorem Types.other {m' : Str} (h : Types m names vs s) (hne : m' ≠ m)
    (htable : measurementTable m' ≠ measurementTable m)
    (hstep : writeOne digest on s (m', points) = some s') : Types m names vs s' := by
  have hnamed := named_writeOne h.named hstep
  obtain ⟨t, schema, hensure, hcatalog, hcache⟩ := writeOne_some hstep
  obtain ⟨hcolumns, hcached⟩ := ensureSchema_some hensure
  have hcanonical := (h.named.ensureSchema m' (tagNames points) (fieldSamples points)).2 schema
    (by rw [hensure])
  have hcol : columnsOf s' (measurementTable m) = columnsOf s (measurementTable m) := by
    have hsame := hcolumns (measurementTable m)
    rw [hcanonical.table, if_neg htable.symm] at hsame
    rw [← hsame]
    unfold columnsOf
    rw [hcatalog]
  have hschema : schemaOf s' m = schemaOf s m := by
    refine schemaOf_congr hcol ?_
    rw [hcache, hcached, if_neg hne.symm]
  exact ⟨hnamed, fun f => hschema ▸ h.entries f, fun f hf => by rw [hcol, hschema, h.columns f hf]⟩

/-- Writing to the table. -/
theorem Types.own (h : Types m names vs s) (hnames : ∀ f, (valuesOf points f).Nonempty → f ∈ names)
    (hinj : Set.InjOn colOfField names) (hstep : writeOne digest on s (m, points) = some s') :
    Types m names (fun f => vs f ∪ valuesOf points f) s' ∧ s'.cache.get? m ≠ none := by
  have hnamed := named_writeOne h.named hstep
  obtain ⟨t, schema, hensure, hcatalog, hcache⟩ := writeOne_some hstep
  obtain ⟨hcolumns, hcached⟩ := ensureSchema_some hensure
  have hcanonical := (h.named.ensureSchema m (tagNames points) (fieldSamples points)).2 schema
    (by rw [hensure])
  have hget : s'.cache.get? m = some schema := by
    rw [hcache, hcached, if_pos rfl]
  have hschema : schemaOf s' m = schema := schemaOf_of_cached hget
  have hentry : ∀ f, schema.fieldCols.get? f =
      wantedEntry (schemaOf s m) (fieldSamples points) f := fieldCols_of_ensureSchema hensure
  refine ⟨⟨hnamed, ?_, ?_⟩, by simp [hget]⟩
  · intro f
    rw [hschema, hentry]
    exact typeFor_wantedEntry (h.entries f)
  · intro f hf
    have hcol := hcolumns (measurementTable m)
    rw [hcanonical.table, if_pos rfl] at hcol
    have hsame : columnsOf s' (measurementTable m) = columnsOf t (measurementTable m) := by
      unfold columnsOf
      rw [hcatalog]
    rw [hschema, hentry, hsame, hcol]
    refine column_eq_wantedEntry (h.named.schemaOf m).fields ?_ (h.columns f hf)
    intro f' v hv hcolumn
    obtain ⟨p, hp, hfield⟩ := Typing.exists_of_fieldSamples hv
    exact hinj (hnames f' ⟨v, p, hp, hfield⟩) hf hcolumn

end Invariant

/-- The values that batches have for a field of a measurement. -/
def seen (m : Str) (batches : List (List (Point F))) (f : Str) : Set (Value F) :=
  {v | ∃ points ∈ batches, ∃ p ∈ points, p.measurement = m ∧ p.fields.get? f = some v}

/-- The values in the groups of a measurement. -/
def seenIn (m : Str) (groups : List (Str × List (Point F))) (f : Str) : Set (Value F) :=
  {v | ∃ g ∈ groups, g.1 = m ∧ v ∈ valuesOf g.2 f}

theorem seenIn_groupsOf (m : Str) (batches : List (List (Point F))) (f : Str) :
    seenIn m (groupsOf batches) f = seen m batches f := by
  ext v
  constructor
  · intro ⟨g, hg, hm, p, hp, hget⟩
    obtain ⟨points, hpoints, hg⟩ := List.mem_flatMap.mp hg
    have hgroup := Sequence.mem_group hg p hp
    exact ⟨points, hpoints, p, hgroup.1, hgroup.2.trans hm, hget⟩
  · intro ⟨points, hpoints, p, hp, hm, hget⟩
    obtain ⟨g, hg, hpg⟩ := Dict.exists_group (·.measurement) points p hp
    exact ⟨_, List.mem_flatMap.mpr ⟨points, hpoints, hg⟩, hm, p, hpg, hget⟩

/-- A coercion to a lower type: a float to an integer, a string to a number, or
either to a boolean. -/
def Demotes : PgType → Value F → Prop
  | .bigint, .float _ => True
  | .bigint, .str _ => True
  | .doublePrecision, .str _ => True
  | .real, .str _ => True
  | .boolean, .int _ => True
  | .boolean, .float _ => True
  | .boolean, .str _ => True
  | _, _ => False

theorem not_demotes {ty : PgType} {v w : Value F} (hw : inferFieldType w = ty)
    (hle : typeRank (inferFieldType v) ≤ typeRank ty) : ¬Demotes ty v := by
  rw [← hw] at hle ⊢
  cases w <;> cases v <;> first | exact id | (simp [inferFieldType, typeRank] at hle)

section Run
variable [Numerics F] {digest : Str → ℕ} {on : Bool} {m : Str} {names : Set Str}
  {vs : Str → Set (Value F)} {s s' : Service F} {groups : List (Str × List (Point F))}

/-- No other measurement is written to the table, and the fields that are written
have names in the set. -/
def Apart (m : Str) (names : Set Str) (g : Str × List (Point F)) : Prop :=
  (g.1 ≠ m → measurementTable g.1 ≠ measurementTable m) ∧
    (g.1 = m → ∀ f, (valuesOf g.2 f).Nonempty → f ∈ names)

theorem Types.step {g : Str × List (Point F)} (h : Types m names vs s) (hg : Apart m names g)
    (hinj : Set.InjOn colOfField names) (hstep : writeOne digest on s g = some s') :
    Types m names (fun f => vs f ∪ seenIn m [g] f) s' := by
  by_cases hm : g.1 = m
  · have hseen : ∀ f, seenIn m [g] f = valuesOf g.2 f := by
      intro f
      simp [seenIn, hm]
    simp only [hseen]
    have hstep' : writeOne digest on s (m, g.2) = some s' := hm ▸ hstep
    exact (h.own (hg.2 hm) hinj hstep').1
  · have hseen : ∀ f, seenIn m [g] f = ∅ := by
      intro f
      simp [seenIn, hm]
    simp only [hseen, Set.union_empty]
    exact h.other hm (hg.1 hm) hstep

/-- The types after the groups of some batches. -/
theorem Types.run (h : Types m names vs s) (hgroups : ∀ g ∈ groups, Apart m names g)
    (hinj : Set.InjOn colOfField names)
    (hrun : Runs.exec (writeOne digest on) s groups = some s') :
    Types m names (fun f => vs f ∪ seenIn m groups f) s' := by
  induction groups generalizing s vs with
  | nil =>
    have hseen : ∀ f, seenIn m ([] : List (Str × List (Point F))) f = ∅ := by
      intro f
      simp [seenIn]
    simp only [hseen, Set.union_empty]
    exact Option.some.inj hrun ▸ h
  | cons g groups ih =>
    obtain ⟨t, ht, hrun⟩ := Runs.exec_cons hrun
    have hnext := ih (h.step (hgroups g List.mem_cons_self) hinj ht)
      (fun g' hg' => hgroups g' (List.mem_cons_of_mem g hg')) hrun
    have hseen : ∀ f, vs f ∪ seenIn m (g :: groups) f =
        vs f ∪ seenIn m [g] f ∪ seenIn m groups f := by
      intro f
      rw [Set.union_assoc]
      congr 1
      ext v
      simp [seenIn]
    simp only [hseen]
    exact hnext

/-- A measurement that was written is cached. -/
theorem cached_of_run (hrun : Runs.exec (writeOne digest on) s groups = some s')
    (h : s.cache.get? m ≠ none ∨ ∃ g ∈ groups, g.1 = m) : s'.cache.get? m ≠ none := by
  induction groups generalizing s with
  | nil =>
    rcases h with h | ⟨g, hg, _⟩
    · exact Option.some.inj hrun ▸ h
    · exact absurd hg List.not_mem_nil
  | cons g groups ih =>
    obtain ⟨t, ht, hrun⟩ := Runs.exec_cons hrun
    refine ih hrun ?_
    obtain ⟨t', schema, hensure, _, hcache⟩ := writeOne_some ht
    have hcached := (ensureSchema_some hensure).2 m
    by_cases hm : m = g.1
    · rw [if_pos hm] at hcached
      exact Or.inl (by simp [hcache, hcached])
    · rw [if_neg hm] at hcached
      rcases h with h | ⟨g', hg', hm'⟩
      · exact Or.inl (by rwa [hcache, hcached])
      · rcases List.mem_cons.mp hg' with rfl | hg'
        · exact absurd hm'.symm hm
        · exact Or.inr ⟨g', hg', hm'⟩

omit [Numerics F] in
theorem types_fresh (hnamed : Named s) (hcache : s.cache.get? m = none)
    (hcatalog : s.catalog.get? (measurementTable m) = none) :
    Types m names (fun _ => (∅ : Set (Value F))) s := by
  have hcolumns : columnsOf s (measurementTable m) = Dict.empty := by
    unfold columnsOf
    rw [hcatalog]
    rfl
  have hfields : ∀ f, (schemaOf s m).fieldCols.get? f = none := by
    intro f
    rw [schemaOf_of_none hcache]
    simp only [createOrLoad, hcatalog]
    rfl
  refine ⟨hnamed, fun f => ?_, fun f _ => ?_⟩
  · rw [hfields]
    exact typeFor_none
  · rw [hcolumns, hfields]
    rfl

omit [Numerics F] in
theorem Types.isWidest (h : Types m names vs s) {schema : TableSchema}
    (hschema : s.cache.get? m = some schema) {f : Str} {e : Str × PgType}
    (he : schema.fieldCols.get? f = some e) : IsWidest e.2 (vs f) := by
  have hentries := h.entries f
  rw [schemaOf_of_cached hschema, he] at hentries
  exact hentries.widest _ rfl

omit [Numerics F] in
/-- A field with values has a column of their type, in the cache and in the database. -/
theorem Types.exists_column (h : Types m names vs s) (hcached : s.cache.get? m ≠ none) {f : Str}
    (hf : f ∈ names) (hvs : (vs f).Nonempty) :
    ∃ ty schema, IsWidest ty (vs f) ∧ s.cache.get? m = some schema ∧
      schema.fieldCols.get? f = some (fieldCol f, ty) ∧
      (columnsOf s (measurementTable m)).get? (colOfField f) = some ty := by
  obtain ⟨schema, hschema⟩ := Option.ne_none_iff_exists'.mp hcached
  have hentries := h.entries f
  have hcolumn := h.columns f hf
  rw [schemaOf_of_cached hschema] at hentries hcolumn
  cases hentry : schema.fieldCols.get? f with
  | none =>
    rw [hentry] at hentries
    rw [hentries.empty rfl] at hvs
    exact absurd hvs Set.not_nonempty_empty
  | some e =>
    rw [hentry] at hcolumn
    have hname := (h.named.cache m schema hschema).fields f e hentry
    exact ⟨e.2, schema, h.isWidest hschema hentry, hschema, hname ▸ hentry, hcolumn⟩

/-- The values of a group go into columns of their type or a higher one. -/
def Keeps (m : Str) (t : Service F) (g : Str × List (Point F)) : Prop :=
  g.1 = m → ∀ t' schema, ensureSchema t m (tagNames g.2) (fieldSamples g.2) = (t', some schema) →
    ∀ p ∈ g.2, ∀ f v e, p.fields.get? f = some v → schema.fieldCols.get? f = some e →
      ¬Demotes e.2 v

theorem Types.keeps (h : Types m names vs s) (g : Str × List (Point F)) : Keeps m s g := by
  intro _ t' schema hensure p hp f v e hv he
  rw [fieldCols_of_ensureSchema hensure] at he
  have hty : TypeFor ((wantedEntry (schemaOf s m) (fieldSamples g.2) f).map Prod.snd)
      (vs f ∪ valuesOf g.2 f) := typeFor_wantedEntry (h.entries f)
  rw [he] at hty
  obtain ⟨w, _, hw⟩ := (hty.widest _ rfl).needed
  exact not_demotes hw (typeRank_le_of_wantedEntry ⟨p, hp, hv⟩ he)

end Run

/-- The fast path is taken exactly when the locked one would issue no statement. -/
theorem needsUpdate_eq_false_iff (cached : TableSchema) (tagNames : List Str)
    (samples : Dict Str (Value F)) :
    needsUpdate cached tagNames samples = false ↔ migrations cached tagNames samples = [] := by
  constructor
  · exact migrations_eq_nil
  intro hnil
  have hnone : ∀ mg, mg ∉ migrations cached tagNames samples := by
    rw [hnil]
    exact fun mg => List.not_mem_nil
  by_contra hupdate
  simp only [needsUpdate, Bool.not_eq_false, Bool.or_eq_true, List.any_eq_true,
    Bool.not_eq_true'] at hupdate
  rcases hupdate with (⟨t, ht, hnew⟩ | ⟨f, hf, hnew⟩) | ⟨⟨f, v⟩, he, hwiden⟩
  · exact hnone _ ((addTag_mem_migrations_iff t).mpr ⟨ht, hnew⟩)
  · obtain ⟨v, hv⟩ := (Dict.mem_keys_iff samples f).mp hf
    have hentry : cached.fieldCols.get? f = none := by simpa [Dict.contains] using hnew
    exact hnone _ ((addField_mem_migrations_iff f _).mpr ⟨v, hv, hentry, rfl⟩)
  · have hv := (Dict.get?_eq_some_iff samples f v).mpr he
    unfold needsWidening at hwiden
    cases hentry : cached.fieldCols.get? f with
    | none =>
      rw [hentry] at hwiden
      contradiction
    | some e =>
      rw [hentry] at hwiden
      exact hnone _ ((widen_mem_migrations_iff f e.1 e.2 _).mpr
        ⟨v, hv, hentry, rfl, of_decide_eq_true hwiden⟩)

section Fresh
variable [Numerics F] {digest : Str → ℕ} {on : Bool} {m : Str} {s s' : Service F}
  {batches : List (List (Point F))}

omit [Numerics F] in
theorem apart_groupsOf (htables : ∀ points ∈ batches, ∀ p ∈ points,
      measurementTable p.measurement = measurementTable m → p.measurement = m) :
    ∀ g ∈ groupsOf batches, Apart m {f | (seen m batches f).Nonempty} g := by
  intro g hg
  obtain ⟨points, hpoints, hmem⟩ := List.mem_flatMap.mp hg
  constructor
  · intro hm htable
    obtain ⟨p, hp⟩ := List.exists_mem_of_ne_nil _ (Sequence.groups_ne_nil points g hmem)
    obtain ⟨hp, hpm⟩ := Sequence.mem_group hmem p hp
    exact hm (hpm ▸ htables points hpoints p hp (hpm.symm ▸ htable))
  · intro hm f ⟨v, hv⟩
    refine ⟨v, ?_⟩
    rw [← seenIn_groupsOf]
    exact ⟨g, hg, hm, hv⟩

/-- Batches written to a new table: cache and database give a field the highest
type of all its values so far, the fast path misses no statement, and no value is
coerced to a lower type on the way. -/
theorem types_of_batches (hnamed : Named s) (hcache : s.cache.get? m = none)
    (hcatalog : s.catalog.get? (measurementTable m) = none)
    (htables : ∀ points ∈ batches, ∀ p ∈ points,
      measurementTable p.measurement = measurementTable m → p.measurement = m)
    (hfields : Set.InjOn colOfField {f | (seen m batches f).Nonempty})
    (hrun : Runs.exec (write digest on) s batches = some s') :
    (∀ f, (seen m batches f).Nonempty → ∃ ty schema, IsWidest ty (seen m batches f) ∧
      s'.cache.get? m = some schema ∧ schema.fieldCols.get? f = some (fieldCol f, ty) ∧
      (columnsOf s' (measurementTable m)).get? (colOfField f) = some ty) ∧
    (∀ schema, s'.cache.get? m = some schema →
      (∀ f e, schema.fieldCols.get? f = some e → IsWidest e.2 (seen m batches f)) ∧
      ∀ points : List (Point F),
        needsUpdate schema (tagNames points) (fieldSamples points) = false ↔
          migrations schema (tagNames points) (fieldSamples points) = []) ∧
    Runs.Along (writeOne digest on) (Keeps m) s (groupsOf batches) := by
  have hapart := apart_groupsOf htables
  have hexec := hrun
  rw [exec_write] at hexec
  have hfresh : Types m {f | (seen m batches f).Nonempty} (fun _ => ∅) s :=
    types_fresh hnamed hcache hcatalog
  have htypes := hfresh.run hapart hfields hexec
  simp only [Set.empty_union, seenIn_groupsOf] at htypes
  refine ⟨?_, ?_, ?_⟩
  · intro f hf
    have hcached : s'.cache.get? m ≠ none := by
      refine cached_of_run hexec (Or.inr ?_)
      obtain ⟨v, hv⟩ := hf
      rw [← seenIn_groupsOf] at hv
      obtain ⟨g, hg, hm, _⟩ := hv
      exact ⟨g, hg, hm⟩
    exact htypes.exists_column hcached hf hf
  · intro schema hschema
    exact ⟨fun f e he => htypes.isWidest hschema he,
      fun points => needsUpdate_eq_false_iff schema _ _⟩
  · refine Runs.Along.of_invariant
      (I := fun t => ∃ vs, Types m {f | (seen m batches f).Nonempty} vs t)
      (G := fun _ g => Apart m {f | (seen m batches f).Nonempty} g) ?_ ?_ ⟨_, hfresh⟩
      (Runs.along_of_forall (fun g hg _ => hapart g hg) s)
    · intro t g t' ⟨vs, ht⟩ hg hstep
      exact ⟨_, ht.step hg hfields hstep⟩
    · intro t g ⟨vs, ht⟩ _
      exact ht.keeps g

end Fresh

def valuePoint (v : Value ℤ) (time : Time) : Point ℤ :=
  ⟨['m'], Dict.empty, Dict.single ['v'] v, time⟩

/-- A boolean, then a string and an integer. -/
def mixedBatches : List (List (Point ℤ)) :=
  [[valuePoint (.bool true) 0], [valuePoint (.str ['a']) 1, valuePoint (.int 1) 2]]

theorem mem_mixedBatches : ∀ points ∈ mixedBatches, ∀ p ∈ points,
    p.measurement = ['m'] ∧ ∀ f v, p.fields.get? f = some v → f = ['v'] := by
  intro points hpoints p hp
  have hp' : ∃ v time, p = valuePoint v time := by
    simp only [mixedBatches, List.mem_cons, List.not_mem_nil, or_false] at hpoints
    rcases hpoints with rfl | rfl
    · exact ⟨_, _, List.mem_singleton.mp hp⟩
    · simp only [List.mem_cons, List.not_mem_nil, or_false] at hp
      rcases hp with rfl | rfl
      · exact ⟨_, _, rfl⟩
      · exact ⟨_, _, rfl⟩
  obtain ⟨v, time, rfl⟩ := hp'
  exact ⟨rfl, fun f w hget => congrArg Prod.fst (Dict.eq_of_get?_single hget)⟩

theorem types_of_batches_mixed : ∃ s',
    Runs.exec (write (fun _ => 0) true) (Sequence.start 1).service mixedBatches = some s' ∧
      ∀ f, (seen ['m'] mixedBatches f).Nonempty → ∃ ty schema,
        IsWidest ty (seen ['m'] mixedBatches f) ∧ s'.cache.get? ['m'] = some schema ∧
          schema.fieldCols.get? f = some (fieldCol f, ty) ∧
          (columnsOf s' (measurementTable ['m'])).get? (colOfField f) = some ty := by
  have hrun : (Runs.exec (write (fun _ => 0) true) (Sequence.start 1).service
      mixedBatches).isSome = true := by decide +kernel
  obtain ⟨s', hs'⟩ := Option.isSome_iff_exists.mp hrun
  have hname : ∀ f, (seen ['m'] mixedBatches f).Nonempty → f = ['v'] := by
    intro f ⟨v, points, hpoints, p, hp, _, hget⟩
    exact (mem_mixedBatches points hpoints p hp).2 f v hget
  refine ⟨s', hs', (types_of_batches (Writes.named_start 1) rfl rfl ?_ ?_ hs').1⟩
  · intro points hpoints p hp _
    exact (mem_mixedBatches points hpoints p hp).1
  · intro f hf f' hf' _
    exact (hname f hf).trans (hname f' hf').symm

end TimescaleLp.FieldTypes
