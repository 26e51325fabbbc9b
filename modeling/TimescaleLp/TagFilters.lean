import TimescaleLp.Deletion
import TimescaleLp.FieldTypes
import Mathlib.Data.Set.Card

/-!
Deletes with tag filters after a run of writes and restarts. A filter finds its
column by the name of the tag. A process that has written the tag knows it by the
name that the points have, one that has read the columns back by what the
database keeps of the name. A filter that is not found deletes nothing, so a
delete is exact if every filter is found or no row is to be deleted.
-/
namespace TimescaleLp.TagFilters

open Names Schema Store Naming Promotion Alters Columns

variable {F : Type}

/-- A batch that is written without a failure, or a restart of the process. -/
inductive Event (F : Type)
  | write (points : List (Point F))
  | restart (clock : ℕ)

def step (digest : Str → ℕ) [Numerics F] (on : Bool) (s : Service F) :
    Event F → Option (Service F)
  | .write points => FieldTypes.write digest on s points
  | .restart clock => some { s with nextSeq := clock, cache := Dict.empty }

/-- The rows that a delete is to remove. -/
def Matches (filters : Dict Str Str) (start stop : Option Time) (k : Key)
    (cells : Cells (Value F)) : Prop :=
  (∀ t, start = some t → t ≤ k.time) ∧ (∀ t, stop = some t → k.time < t) ∧
    ∀ tag v, filters.get? tag = some v → cells (colOfTag tag) = some (.str v)

/-- The delete removes the rows that match, and no others, and counts them. -/
structure Exact (s : Service F) (m : Str) (filters : Dict Str Str) (start stop : Option Time)
    (s' : Service F) (n : ℕ) : Prop where
  rows : ∀ k stored, (s'.hot (measurementTable m)).get? k = some stored ↔
    (s.hot (measurementTable m)).get? k = some stored ∧
      ¬Matches filters start stop k stored.cells
  others : ∀ table, table ≠ measurementTable m → s'.hot table = s.hot table
  count : n = {k | ∃ stored, (s.hot (measurementTable m)).get? k = some stored ∧
    Matches filters start stop k stored.cells}.ncard

/-- No row of the measurement matches. -/
def NoneMatches (s : Service F) (m : Str) (filters : Dict Str Str) (start stop : Option Time) :
    Prop :=
  ∀ k stored, (s.hot (measurementTable m)).get? k = some stored →
    ¬Matches filters start stop k stored.cells

/-- The database keeps the name as it is: it is sanitized, and not cut. -/
def Kept (t : Str) : Prop := (safeIdent t).take 61 = t

/-- The names of the tags of a measurement: those written to its table, and those
in the schema of the process, if it has one. -/
structure Vocabulary where
  stored : Set Str
  listed : Option (Set Str)

namespace Vocabulary

/-- The names that a delete finds. -/
def found (n : Vocabulary) : Set Str := n.listed.getD {t | t ∈ n.stored ∧ Kept t}

/-- The points of one measurement are written. -/
def write (m : Str) (n : Vocabulary) (g : Str × List (Point F)) : Vocabulary where
  stored := if measurementTable g.1 = measurementTable m then n.stored ∪ {t | t ∈ tagNames g.2}
    else n.stored
  listed := if g.1 = m then some (n.found ∪ {t | t ∈ tagNames g.2}) else n.listed

def event (m : Str) (n : Vocabulary) : Event F → Vocabulary
  | .write points => (byMeasurement points).entries.foldl (write m) n
  | .restart _ => { n with listed := none }

/-- The names after some events. -/
def after (m : Str) (es : List (Event F)) : Vocabulary := es.foldl (event m) ⟨∅, none⟩

end Vocabulary

/-- The tag names used in the writes. -/
def tagsOf (es : List (Event F)) : Set Str :=
  {t | ∃ points, .write points ∈ es ∧ ∃ p ∈ points, t ∈ p.tags.keys}

section Delete

variable {s : Service F} {m : Str} {filters : Dict Str Str} {start stop : Option Time}

theorem textEq_iff {v : Str} {x : Option (Value F)} : textEq v x = true ↔ x = some (.str v) := by
  unfold textEq
  split <;> simp_all

theorem length_sub_filter {κ β : Type} (d : Dict κ β) (p : κ → β → Bool) :
    d.entries.length - (d.filter fun k v => !p k v).entries.length =
      (d.filter p).entries.length := by
  have hsplit := List.length_eq_length_filter_add (l := d.entries) fun e => p e.1 e.2
  simp only [Dict.filter]
  omega

/-- The entries that pass a test are as many as their keys. -/
theorem ncard_filter {κ β : Type} [DecidableEq κ] (d : Dict κ β) (p : κ → β → Bool) :
    {k | ∃ v, d.get? k = some v ∧ p k v = true}.ncard = (d.filter p).entries.length := by
  have hkeys : {k | ∃ v, d.get? k = some v ∧ p k v = true} = ((d.filter p).keys.toFinset : Set κ) := by
    ext k
    simp [Dict.mem_keys_iff, Option.filter_eq_some_iff]
  have hnodup : (d.filter p).keys.Nodup := (d.filter p).nodup
  rw [hkeys, Set.ncard_coe_finset, List.toFinset_card_of_nodup hnodup, Dict.keys, List.length_map]

/-- The filters are found if the schema lists their tags. -/
theorem exists_filterColumns_iff (schema : TableSchema) (filters : Dict Str Str) :
    (∃ columns, filterColumns schema filters.entries = some columns) ↔
      ∀ t ∈ filters.keys, t ∈ schema.tagCols.keys := by
  rw [filterColumns, exists_mapM_iff]
  simp only [Dict.mem_keys_iff, Option.map_eq_some_iff]
  constructor
  · intro h t ⟨v, hv⟩
    obtain ⟨y, col, hcol, -⟩ := h (t, v) ((Dict.get?_eq_some_iff _ _ _).mp hv)
    exact ⟨col, hcol⟩
  · intro h e he
    obtain ⟨col, hcol⟩ := h e.1 ⟨e.2, (Dict.get?_eq_some_iff _ _ _).mpr he⟩
    exact ⟨_, col, hcol, rfl⟩

/-- The WHERE clause tests what is asked for. -/
theorem deleteMatches_iff {schema : TableSchema} {columns : List (Str × Str)}
    (hcanonical : Canonical m schema) (h : filterColumns schema filters.entries = some columns)
    (k : Key) (cells : Cells (Value F)) :
    deleteMatches columns start stop k cells = true ↔ Matches filters start stop k cells := by
  have hcolumns : (∀ e ∈ columns, textEq e.2 (cells e.1) = true) ↔
      ∀ tag v, filters.get? tag = some v → cells (colOfTag tag) = some (.str v) := by
    constructor
    · intro hall tag v hv
      have hentry := (Dict.get?_eq_some_iff _ _ _).mp hv
      obtain ⟨e, he⟩ := exists_of_mapM h _ hentry
      obtain ⟨col, hcol, rfl⟩ := Option.map_eq_some_iff.mp he
      have htest := textEq_iff.mp (hall _ ((mem_of_mapM h _).mpr ⟨_, hentry, he⟩))
      rwa [hcanonical.tags tag col hcol] at htest
    · intro hall e he
      obtain ⟨f, hf, hcolumn⟩ := (mem_of_mapM h e).mp he
      obtain ⟨col, hcol, rfl⟩ := Option.map_eq_some_iff.mp hcolumn
      rw [textEq_iff, hcanonical.tags f.1 col hcol]
      exact hall f.1 f.2 ((Dict.get?_eq_some_iff _ _ _).mpr hf)
  rw [deleteMatches, Bool.and_eq_true, Bool.and_eq_true, List.all_eq_true, hcolumns, and_assoc]
  cases start <;> cases stop <;> simp [Matches]

theorem deleteSchema_eq (s : Service F) (m : Str) : (deleteSchema s m).2 = schemaOf s m := by
  unfold deleteSchema schemaOf
  cases s.cache.get? m with
  | some schema => rfl
  | none => rfl

/-- A delete whose filters are not all found. -/
theorem deleteLp_unfound (h : ¬∀ t ∈ filters.keys, t ∈ (schemaOf s m).tagCols.keys) :
    (deleteLp s m filters.entries start stop).1.hot = s.hot ∧
      (deleteLp s m filters.entries start stop).2 = 0 := by
  rw [← deleteSchema_eq, ← exists_filterColumns_iff] at h
  have hnone : filterColumns (deleteSchema s m).2 filters.entries = none := by
    rw [Option.eq_none_iff_forall_ne_some]
    exact fun columns hcolumns => h ⟨columns, hcolumns⟩
  have hworld := Sequence.deleteLp_toWorld s m filters.entries start stop
  rw [hnone] at hworld
  refine ⟨congrArg World.hot hworld, ?_⟩
  rw [deleteLp]
  generalize deleteSchema s m = loaded at hnone
  obtain ⟨s', schema⟩ := loaded
  simp only at hnone
  simp only [hnone]

theorem exact_of_found (hs : Named s) (h : ∀ t ∈ filters.keys, t ∈ (schemaOf s m).tagCols.keys) :
    Exact s m filters start stop (deleteLp s m filters.entries start stop).1
      (deleteLp s m filters.entries start stop).2 := by
  obtain ⟨columns, hcolumns⟩ := (exists_filterColumns_iff _ _).mpr h
  have hcanonical := hs.schemaOf m
  have hmatch : ∀ k (cells : Cells (Value F)),
      deleteMatches columns start stop k cells = true ↔ Matches filters start stop k cells :=
    deleteMatches_iff hcanonical hcolumns
  rw [← deleteSchema_eq] at hcolumns hcanonical
  have hworld := Sequence.deleteLp_toWorld s m filters.entries start stop
  have hschema := Sequence.deleteSchema_toWorld s m
  rw [hcolumns] at hworld
  have hhot : (deleteLp s m filters.entries start stop).1.hot = Function.update s.hot
      (measurementTable m) ((s.hot (measurementTable m)).filter
        fun k r => !deleteMatches columns start stop k r.cells) := by
    rw [← hcanonical.table]
    exact congrArg World.hot hworld
  refine ⟨fun k stored => ?_, fun table htable => ?_, ?_⟩
  · rw [hhot, Function.update_self, Dict.get?_filter, Option.filter_eq_some_iff, ← hmatch,
      Bool.not_eq_true', Bool.not_eq_true]
  · rw [hhot, Function.update_of_ne htable]
  · have hcount : (deleteLp s m filters.entries start stop).2 =
        (s.hot (measurementTable m)).entries.length - ((s.hot (measurementTable m)).filter
          fun k r => !deleteMatches columns start stop k r.cells).entries.length := by
      rw [← hcanonical.table, ← congrArg World.hot hschema, deleteLp]
      generalize deleteSchema s m = loaded at hcolumns
      obtain ⟨s', schema⟩ := loaded
      simp only at hcolumns
      simp only [hcolumns]
    rw [hcount, length_sub_filter, ← ncard_filter]
    simp only [hmatch]

/-- A delete is exact if all filters are found or there is nothing to delete. -/
theorem exact_iff_found (hs : Named s) :
    Exact s m filters start stop (deleteLp s m filters.entries start stop).1
        (deleteLp s m filters.entries start stop).2 ↔
      (∀ t ∈ filters.keys, t ∈ (schemaOf s m).tagCols.keys) ∨
        NoneMatches s m filters start stop := by
  by_cases hfound : ∀ t ∈ filters.keys, t ∈ (schemaOf s m).tagCols.keys
  · exact iff_of_true (exact_of_found hs hfound) (Or.inl hfound)
  · obtain ⟨hhot, hcount⟩ : (deleteLp s m filters.entries start stop).1.hot = s.hot ∧
        (deleteLp s m filters.entries start stop).2 = 0 := deleteLp_unfound hfound
    rw [or_iff_right hfound]
    constructor
    · intro h k stored hstored
      exact ((h.rows k stored).mp (hhot ▸ hstored)).2
    · intro h
      refine ⟨fun k stored => ?_, fun table _ => by rw [hhot], ?_⟩
      · rw [hhot]
        exact (and_iff_left_of_imp (h k stored)).symm
      · have hempty : {k | ∃ stored, (s.hot (measurementTable m)).get? k = some stored ∧
            Matches filters start stop k stored.cells} = ∅ := by
          rw [Set.eq_empty_iff_forall_notMem]
          intro k ⟨stored, hstored, hmatches⟩
          exact h k stored hstored hmatches
        rw [hcount, hempty, Set.ncard_empty]

end Delete

section Names

/-- The names by which a schema that is read back lists tags. -/
theorem mem_introspectTags_iff {columns : Dict Str PgType} (h : ColumnsOk columns) (t : Str) :
    t ∈ (introspectTags columns).keys ↔ colOfTag t ∈ columns.keys ∧ Kept t := by
  constructor
  · intro ht
    obtain ⟨col, hcol⟩ := (Dict.mem_keys_iff _ _).mp ht
    rcases get?_foldl_introspect _ Prod.fst _ _ hcol with hempty | ⟨e, he, hprefix, hname, -⟩
    · simp at hempty
    · have hget : columns.get? e.1 = some e.2 := (Dict.get?_eq_some_iff _ _ _).mpr he
      rcases h e.1 e.2 hget with ⟨t', ht'⟩ | ⟨f, hf⟩
      · have hcolumn : colOfTag t = e.1 := by
          rw [ht', hname, ht', colOfTag, tagCol_drop, colOfTag, pgIdent_pgIdent]
        refine ⟨hcolumn ▸ List.mem_map_of_mem he, ?_⟩
        rw [← hcolumn] at hname
        exact hname.symm
      · exact absurd (hf ▸ hprefix) (not_prefix_colOfField f)
  · intro h
    obtain ⟨hcolumn, hkept⟩ := h
    obtain ⟨ty, hty⟩ := (Dict.mem_keys_iff _ _).mp hcolumn
    refine (Dict.mem_keys_iff _ _).mpr (exists_get?_foldl_introspect _ Prod.fst _ _ (Or.inr ?_))
    refine ⟨(colOfTag t, ty), (Dict.get?_eq_some_iff _ _ _).mp hty, ?_, hkept.symm⟩
    exact ⟨((safeIdent t).take 61), rfl⟩

/-- The vocabulary of the measurement is that of the state, as far as the names
of a set go. -/
structure Knows (names : Set Str) (m : Str) (n : Vocabulary) (s : Service F) : Prop where
  named : Named s
  backed : ∀ m' schema, s.cache.get? m' = some schema → ∀ t ∈ schema.tagCols.keys,
    colOfTag t ∈ (columnsOf s (measurementTable m')).keys
  columns : ∀ t ∈ names, colOfTag t ∈ (columnsOf s (measurementTable m)).keys ↔ t ∈ n.stored
  listed : ∀ schema, s.cache.get? m = some schema →
    ∃ ts, n.listed = some ts ∧ ∀ t ∈ names, t ∈ schema.tagCols.keys ↔ t ∈ ts
  unlisted : s.cache.get? m = none → n.listed = none

variable {names : Set Str} {m : Str} {n : Vocabulary} {s s' : Service F}

theorem tagCols_schemaOf_of_none (hcached : s.cache.get? m = none) :
    (schemaOf s m).tagCols = introspectTags (columnsOf s (measurementTable m)) := by
  rw [schemaOf_of_none hcached]
  rfl

theorem columnsOk_columnsOf (h : Named s) (m : Str) :
    ColumnsOk (columnsOf s (measurementTable m)) :=
  SchemaRules.SchemaInv.columns h (namedRule m).empty

theorem Knows.mem_found_iff (h : Knows names m n s) {t : Str} (ht : t ∈ names) :
    t ∈ (schemaOf s m).tagCols.keys ↔ t ∈ n.found := by
  unfold Vocabulary.found
  cases hcached : s.cache.get? m with
  | some schema =>
    obtain ⟨ts, hts, hmem⟩ := h.listed schema hcached
    rw [schemaOf_of_cached hcached, hts]
    exact hmem t ht
  | none =>
    rw [tagCols_schemaOf_of_none hcached, h.unlisted hcached,
      mem_introspectTags_iff (columnsOk_columnsOf h.named m), h.columns t ht]
    exact Iff.rfl

/-- A tag that a schema lists has its column. -/
theorem Knows.column_of_schemaOf (h : Knows names m n s) (m' : Str) {t : Str}
    (ht : t ∈ (schemaOf s m').tagCols.keys) :
    colOfTag t ∈ (columnsOf s (measurementTable m')).keys := by
  cases hcached : s.cache.get? m' with
  | some schema =>
    rw [schemaOf_of_cached hcached] at ht
    exact h.backed m' schema hcached t ht
  | none =>
    rw [tagCols_schemaOf_of_none hcached] at ht
    exact ((mem_introspectTags_iff (columnsOk_columnsOf h.named m') t).mp ht).1

end Names

section Write

variable {digest : Str → ℕ} [Numerics F] {on : Bool} {names : Set Str} {m : Str} {n : Vocabulary}
  {s s' : Service F} {g : Str × List (Point F)}

/-- What a write does to the names: the points' tags have columns in the table,
and are in the schema. -/
structure Adds (s s' : Service F) (g : Str × List (Point F)) : Prop where
  columns : ∀ t, colOfTag t ∈ (columnsOf s' (measurementTable g.1)).keys ↔
    colOfTag t ∈ (columnsOf s (measurementTable g.1)).keys ∨
      ∃ t' ∈ tagNames g.2, colOfTag t = colOfTag t'
  others : ∀ table, table ≠ measurementTable g.1 → columnsOf s' table = columnsOf s table
  cached : ∃ schema, s'.cache.get? g.1 = some schema ∧ ∀ t, t ∈ schema.tagCols.keys ↔
    t ∈ (schemaOf s g.1).tagCols.keys ∨ t ∈ tagNames g.2
  kept : ∀ m', m' ≠ g.1 → s'.cache.get? m' = s.cache.get? m'

theorem Knows.adds (h : Knows names m n s) (hstep : FieldTypes.writeOne digest on s g = some s') :
    Adds s s' g := by
  obtain ⟨m', points⟩ := g
  obtain ⟨t₁, schema, hensure, hcatalog, hcache⟩ := FieldTypes.writeOne_some hstep
  obtain ⟨hcolumns, hcached⟩ := ensureSchema_some hensure
  have hschema := (ensureSchema_ok hensure).1
  have htable : schema.table = measurementTable m' := by
    refine ((h.named.ensureSchema m' (tagNames points) (fieldSamples points)).2 schema ?_).table
    rw [hensure]
  have hafter : ∀ table, columnsOf s' table = if table = measurementTable m' then
      (callMigrations s m' (tagNames points) (fieldSamples points)).foldl altered
        (columnsOf s table)
      else columnsOf s table := by
    intro table
    rw [← htable, ← hcolumns table]
    unfold columnsOf
    rw [hcatalog]
  refine ⟨fun t => ?_, fun table hne => by rw [hafter, if_neg hne], ⟨schema, ?_, fun t => ?_⟩,
    fun m'' hne => by rw [hcache, hcached, if_neg hne]⟩
  · rw [hafter, if_pos rfl, mem_keys_foldl_altered]
    constructor
    · intro hor
      refine hor.imp_right fun ⟨mg, hmg, heq⟩ => ?_
      have hfits := fits_migrations (h.named.schemaOf m') (tagNames points) (fieldSamples points)
        mg hmg
      cases mg with
      | addTag t' => exact ⟨t', ((addTag_mem_migrations_iff t').mp hmg).1, heq⟩
      | addField f ty => exact absurd heq (colOfTag_ne_colOfField t f)
      | widen f col fromType toType =>
        cases hfits
        exact absurd heq (colOfTag_ne_colOfField t f)
    · intro hor
      rcases hor with hold | ⟨t', ht', heq⟩
      · exact Or.inl hold
      · by_cases hlisted : t' ∈ (schemaOf s m').tagCols.keys
        · exact Or.inl (heq ▸ h.column_of_schemaOf m' hlisted)
        · refine Or.inr ⟨.addTag t', (addTag_mem_migrations_iff t').mpr ⟨ht', ?_⟩, heq⟩
          rw [Dict.mem_keys_iff, ← Option.isSome_iff_exists] at hlisted
          exact Bool.eq_false_iff.mpr hlisted
  · rw [hcache, hcached, if_pos rfl]
  · rw [hschema]
    exact mem_tagCols_noted_iff _ _ _ t

theorem Knows.write (h : Knows names m n s) (hnames : ∀ t ∈ tagNames g.2, t ∈ names)
    (hinj : Set.InjOn colOfTag names) (hstep : FieldTypes.writeOne digest on s g = some s') :
    Knows names m (n.write m g) s' := by
  have hadds := h.adds hstep
  have hnamed : Named s' := FieldTypes.named_writeOne h.named hstep
  obtain ⟨schema, hschema, hlists⟩ := hadds.cached
  have hgrow : ∀ table c, (∃ t, c = colOfTag t) → c ∈ (columnsOf s table).keys →
      c ∈ (columnsOf s' table).keys := by
    intro table c ⟨t, ht⟩ hc
    by_cases htable : table = measurementTable g.1
    · rw [htable, ht] at hc ⊢
      exact (hadds.columns t).mpr (Or.inl hc)
    · rwa [hadds.others table htable]
  refine ⟨hnamed, ?_, ?_, ?_, ?_⟩
  · intro m' schema' hcached t ht
    by_cases hm : m' = g.1
    · subst hm
      cases hschema.symm.trans hcached
      refine (hadds.columns t).mpr (((hlists t).mp ht).imp (h.column_of_schemaOf g.1) fun hnew => ?_)
      exact ⟨t, hnew, rfl⟩
    · rw [hadds.kept m' hm] at hcached
      exact hgrow _ _ ⟨t, rfl⟩ (h.backed m' schema' hcached t ht)
  · intro t ht
    unfold Vocabulary.write
    by_cases htable : measurementTable g.1 = measurementTable m
    · rw [if_pos htable, ← htable, hadds.columns, htable, h.columns t ht]
      refine or_congr_right ⟨fun ⟨t', ht', heq⟩ => ?_, fun hnew => ⟨t, hnew, rfl⟩⟩
      exact hinj ht (hnames t' ht') heq ▸ ht'
    · rw [if_neg htable, hadds.others _ (Ne.symm htable)]
      exact h.columns t ht
  · intro schema' hcached
    unfold Vocabulary.write
    by_cases hm : g.1 = m
    · subst hm
      cases hschema.symm.trans hcached
      refine ⟨_, if_pos rfl, fun t ht => ?_⟩
      rw [hlists, h.mem_found_iff ht]
      rfl
    · rw [hadds.kept m (Ne.symm hm)] at hcached
      simp only [if_neg hm]
      exact h.listed schema' hcached
  · intro hcached
    have hm : g.1 ≠ m := by
      intro hm
      rw [hm, hcached] at hschema
      contradiction
    rw [hadds.kept m hm.symm] at hcached
    simp only [Vocabulary.write, if_neg hm]
    exact h.unlisted hcached

theorem Knows.groups {groups : List (Str × List (Point F))} (h : Knows names m n s)
    (hnames : ∀ g ∈ groups, ∀ t ∈ tagNames g.2, t ∈ names) (hinj : Set.InjOn colOfTag names)
    (hrun : Runs.exec (FieldTypes.writeOne digest on) s groups = some s') :
    Knows names m (groups.foldl (Vocabulary.write m) n) s' := by
  induction groups generalizing s n with
  | nil => exact Option.some.inj hrun ▸ h
  | cons g groups ih =>
    obtain ⟨t, ht, hrun⟩ := Runs.exec_cons hrun
    exact ih (h.write (hnames g List.mem_cons_self) hinj ht)
      (fun g' hg' => hnames g' (List.mem_cons_of_mem g hg')) hrun

omit [Numerics F] in
theorem Knows.restart (h : Knows names m n s) (clock : ℕ) :
    Knows names m { n with listed := none } { s with nextSeq := clock, cache := Dict.empty } where
  named := ⟨h.named.catalog, by simp⟩
  backed := by simp
  columns := h.columns
  listed := by simp
  unlisted _ := rfl

theorem Knows.run {es : List (Event F)} (h : Knows names m n s) (hnames : tagsOf es ⊆ names)
    (hinj : Set.InjOn colOfTag names) (hrun : Runs.exec (step digest on) s es = some s') :
    Knows names m (es.foldl (Vocabulary.event m) n) s' := by
  induction es generalizing s n with
  | nil => exact Option.some.inj hrun ▸ h
  | cons e es ih =>
    obtain ⟨t, ht, hrun⟩ := Runs.exec_cons hrun
    refine ih ?_ (fun t ⟨points, hpoints, hp⟩ => ?_) hrun
    · cases e with
      | write points =>
        simp only [step, FieldTypes.write_eq_exec] at ht
        refine h.groups (fun g hg t hgt => ?_) hinj ht
        obtain ⟨p, hp, hpt⟩ := (mem_tagNames_iff t).mp hgt
        exact hnames ⟨points, List.mem_cons_self, p, (Sequence.mem_group hg p hp).1, hpt⟩
      | restart clock => exact Option.some.inj ht ▸ h.restart clock
    · exact hnames ⟨points, List.mem_cons_of_mem e hpoints, hp⟩

/-- The names that a run leaves. -/
theorem knows_of_run {clock : ℕ} {es : List (Event F)}
    (hrun : Runs.exec (step digest on) (Sequence.start clock : History F).service es = some s)
    (htags : Set.InjOn colOfTag (tagsOf es)) (m : Str) :
    Knows (tagsOf es) m (Vocabulary.after m es) s := by
  have hfresh : Knows (tagsOf es) m ⟨∅, none⟩ (Sequence.start clock : History F).service := by
    refine ⟨Writes.named_start clock, ?_, ?_, ?_, fun _ => rfl⟩
    · simp [Sequence.start]
    · exact fun t _ => iff_of_false List.not_mem_nil (Set.notMem_empty t)
    · simp [Sequence.start]
  exact hfresh.run subset_rfl htags hrun

end Write

/-- After every run of writes and restarts, a delete is exact if and only if it
finds all its filters or no row matches. -/
theorem exact_iff (digest : Str → ℕ) [Numerics F] (on : Bool) (clock : ℕ) {es : List (Event F)}
    {s : Service F}
    (hrun : Runs.exec (step digest on) (Sequence.start clock : History F).service es = some s)
    (htags : Set.InjOn colOfTag (tagsOf es)) (m : Str) {filters : Dict Str Str}
    (hfilters : ∀ t ∈ filters.keys, t ∈ tagsOf es) (start stop : Option Time) :
    Exact s m filters start stop (deleteLp s m filters.entries start stop).1
        (deleteLp s m filters.entries start stop).2 ↔
      (∀ t ∈ filters.keys, t ∈ (Vocabulary.after m es).found) ∨
        NoneMatches s m filters start stop := by
  have hknows := knows_of_run hrun htags m
  rw [exact_iff_found hknows.named]
  refine or_congr_left (forall₂_congr fun t ht => ?_)
  exact hknows.mem_found_iff (hfilters t ht)

section Examples

open Deletion

/-- The process that wrote the tag is gone. -/
def restarted : List (Event ℤ) := [.write [hostPoint "Host" "a" 0], .restart 5]

/-- The next process has written the tag as well. -/
def written : List (Event ℤ) := restarted ++ [.write [hostPoint "Host" "b" 1]]

def hostFilter : Dict Str Str := Dict.single "Host".toList "a".toList

theorem mem_tagsOf_iff (es : List (Event ℤ)) (hsome : .write [hostPoint "Host" "a" 0] ∈ es)
    (hall : ∀ points, .write points ∈ es → ∃ host time, points = [hostPoint "Host" host time])
    (t : Str) : t ∈ tagsOf es ↔ t = "Host".toList := by
  constructor
  · intro ⟨points, hpoints, p, hp, ht⟩
    obtain ⟨host, time, rfl⟩ := hall points hpoints
    rw [List.mem_singleton.mp hp] at ht
    exact List.mem_singleton.mp ht
  · intro ht
    exact ⟨_, hsome, _, List.mem_singleton_self _, ht ▸ List.mem_singleton_self _⟩

theorem exact_iff_written : ∃ s,
    Runs.exec (step codeSum true) (Sequence.start 1 : History ℤ).service written = some s ∧
      Exact s "cpu".toList hostFilter none none
        (deleteLp s "cpu".toList hostFilter.entries none none).1
        (deleteLp s "cpu".toList hostFilter.entries none none).2 := by
  have hrun : (Runs.exec (step codeSum true) (Sequence.start 1 : History ℤ).service
      written).isSome = true := by
    decide +kernel
  obtain ⟨s, hs⟩ := Option.isSome_iff_exists.mp hrun
  have hmem := mem_tagsOf_iff written List.mem_cons_self fun points hpoints => by
    simp only [written, restarted, List.cons_append, List.nil_append, List.mem_cons,
      Event.write.injEq, reduceCtorEq, List.not_mem_nil, or_false, false_or] at hpoints
    rcases hpoints with rfl | rfl
    · exact ⟨_, _, rfl⟩
    · exact ⟨_, _, rfl⟩
  refine ⟨s, hs, (exact_iff codeSum true 1 hs ?_ "cpu".toList ?_ none none).mpr (Or.inl ?_)⟩
  · intro t ht t' ht' _
    exact ((hmem t).mp ht).trans ((hmem t').mp ht').symm
  · intro t ht
    exact (hmem t).mpr (List.mem_singleton.mp ht)
  · intro t ht
    rw [List.mem_singleton.mp ht]
    exact Or.inr (by decide +kernel)

/-- After a restart the filter is not found, and the row it names stays. -/
theorem restarted_inexact : ¬∀ (es : List (Event ℤ)) (s : Service ℤ),
    Runs.exec (step codeSum true) (Sequence.start 1 : History ℤ).service es = some s →
    Set.InjOn colOfTag (tagsOf es) →
    ∀ (m : Str) (filters : Dict Str Str), (∀ t ∈ filters.keys, t ∈ tagsOf es) →
    ∀ start stop : Option Time, Exact s m filters start stop
      (deleteLp s m filters.entries start stop).1 (deleteLp s m filters.entries start stop).2 := by
  intro hall
  have htest : (Runs.exec (step codeSum true) (Sequence.start 1 : History ℤ).service restarted).any
      (fun s => decide ("Host".toList ∉ (schemaOf s "cpu".toList).tagCols.keys) &&
        ((s.hot (measurementTable "cpu".toList)).get?
          (pointKey codeSum (hostPoint "Host" "a" 0))).any fun stored =>
            decide (stored.cells (colOfTag "Host".toList) = some (.str "a".toList))) = true := by
    decide +kernel
  obtain ⟨s, hs, htest⟩ := (Option.any_eq_true _ _).mp htest
  simp only [Bool.and_eq_true, decide_eq_true_eq] at htest
  obtain ⟨hunlisted, hrow⟩ := htest
  obtain ⟨stored, hstored, hcell⟩ := (Option.any_eq_true _ _).mp hrow
  have hmem := mem_tagsOf_iff restarted List.mem_cons_self fun points hpoints => by
    simp only [restarted, List.mem_cons, Event.write.injEq, reduceCtorEq, List.not_mem_nil,
      or_false] at hpoints
    exact ⟨_, _, hpoints⟩
  have hinj : Set.InjOn colOfTag (tagsOf restarted) := fun t ht t' ht' _ =>
    ((hmem t).mp ht).trans ((hmem t').mp ht').symm
  have hexact := hall restarted s hs hinj "cpu".toList hostFilter
    (fun t ht => (hmem t).mpr (List.mem_singleton.mp ht)) none none
  have hnamed : Named s := (knows_of_run hs hinj "cpu".toList).named
  rcases (exact_iff_found hnamed).mp hexact with hfound | hnone
  · exact hunlisted (hfound _ (List.mem_singleton_self _))
  · refine hnone _ stored hstored ⟨by simp, by simp, fun tag v hget => ?_⟩
    obtain ⟨rfl, rfl⟩ := Prod.mk.inj (Dict.eq_of_get?_single hget)
    exact of_decide_eq_true hcell

end Examples

end TimescaleLp.TagFilters
