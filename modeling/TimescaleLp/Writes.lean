import TimescaleLp.Sequence
import TimescaleLp.Columns

/-!
What a write call does, seen from its points. The schema step may rewrite stored
columns of the table; the batch has one row for each key of the points, made
from the last point of the key; the commit upserts the rows of the batch.
-/
namespace TimescaleLp.Writes

open Names Schema Store Naming Columns Promotion Sequence

variable {F : Type}

section Prepare

variable (digest : Str → ℕ) [Numerics F] {s s' : Service F} {measurement : Str}
  {points : List (Point F)}

/-- A batch that is ready to be stored, and the state it is ready in. -/
structure Prepared (s : Service F) (measurement : Str) (points : List (Point F)) (s' : Service F)
    (b : Batch F) (schema : TableSchema) (sources : List (Str × Source)) : Prop where
  prepared : prepare digest s measurement points = (s', .ok b)
  canonical : Canonical measurement schema
  built : Built digest schema points b sources
  table : b.table = measurementTable measurement
  noted : schema = noted (schemaOf s measurement)
    (callMigrations s measurement (tagNames points) (fieldSamples points))
  cached : s'.cache.get? measurement = some schema
  drawn : b.Drawn s.nextSeq s'.nextSeq
  cold : s'.cold = s.cold
  rows : ∀ t k, (s'.hot t).get? k = ((s.hot t).get? k).map fun r => ⟨r.seq,
    if t = measurementTable measurement then
      recast (callMigrations s measurement (tagNames points) (fieldSamples points)) r.cells
    else r.cells⟩

theorem exists_prepared {b : Batch F} (hs : Named s) (hpoints : points ≠ [])
    (h : prepare digest s measurement points = (s', .ok b)) :
    ∃ schema sources, Prepared digest s measurement points s' b schema sources := by
  obtain ⟨schema, s₁, hensure, hbuild, hs', hdrawn⟩ := prepare_ok digest hpoints h
  obtain ⟨hnoted, hrecasts, hcache⟩ := ensureSchema_ok hensure
  have hcanonical : Canonical measurement schema := by
    have hall := (hs.ensureSchema measurement (tagNames points) (fieldSamples points)).2 schema
    rw [hensure] at hall
    exact hall rfl
  obtain ⟨sources, hbuilt⟩ := exists_built digest hbuild
  refine ⟨schema, sources, h, hcanonical, hbuilt, hbuilt.table.trans hcanonical.table, hnoted, ?_,
    hdrawn, ?_, ?_⟩
  · rw [hs']
    exact hcache
  · rw [hs']
    exact hrecasts.cold
  · intro t k
    rw [hs', ← hcanonical.table]
    exact hrecasts.rows t k

/-- A call that fails before it stores anything may have promoted columns. -/
theorem rows_prepare {res : Except WriteError (Batch F)} (hs : Named s)
    (h : prepare digest s measurement points = (s', res)) :
    ∃ f : Cells (Value F) → Cells (Value F),
      (f = id ∨ f = recast (callMigrations s measurement (tagNames points) (fieldSamples points))) ∧
      ∀ t k, (s'.hot t).get? k = ((s.hot t).get? k).map fun r =>
        ⟨r.seq, if t = measurementTable measurement then f r.cells else r.cells⟩ := by
  rw [prepare] at h
  rcases hensure : ensureSchema s measurement (tagNames points) (fieldSamples points) with
    ⟨s₁, _ | schema⟩
  · simp only [hensure, Prod.mk.injEq] at h
    obtain ⟨rfl, -⟩ := h
    exact ⟨id, Or.inl rfl, (ensureSchema_none _ hensure).rows⟩
  · simp only [hensure, Prod.mk.injEq] at h
    obtain ⟨rfl, -⟩ := h
    have hall := (hs.ensureSchema measurement (tagNames points) (fieldSamples points)).2 schema
    rw [hensure] at hall
    refine ⟨_, Or.inr rfl, ?_⟩
    rw [← (hall rfl).table]
    exact (ensureSchema_ok hensure).2.1.rows

/-- Promotions leave tags alone. -/
theorem colOfTag_of_recast (hs : Named s) {f : Cells (Value F) → Cells (Value F)}
    (hf : f = id ∨
      f = recast (callMigrations s measurement (tagNames points) (fieldSamples points)))
    (cells : Cells (Value F)) (t : Str) : f cells (colOfTag t) = cells (colOfTag t) := by
  rcases hf with rfl | rfl
  · rfl
  · exact recast_colOfTag hs measurement _ _ cells t

end Prepare

section Kept

open SchemaRules

variable (digest : Str → ℕ) {Q : Str → Dict Str PgType → Prop} {R : Str → TableSchema → Prop}
  {P : Migration → Prop} {s : Service F}

theorem kept_start (clock : ℕ) : SchemaInv Q R (start clock : History F).service where
  catalog := by simp [start]
  cache := by simp [start]

theorem kept_storeBatch (hs : SchemaInv Q R s) (on : Bool) (fault : Option Fault) (b : Batch F) :
    SchemaInv Q R (storeBatch on fault s b).1 := by
  have houtcome := outcome_storeBatch on fault s b
  generalize (storeBatch on fault s b).1 = s' at houtcome
  generalize (storeBatch on fault s b).2 = res at houtcome
  cases houtcome with
  | unstaged => exact hs
  | unrecorded | uncommitted | committed => exact hs.congr rfl rfl

theorem kept_deleteSchema {measurement : Str} (rule : SchemaRule Q R P measurement)
    (hs : SchemaInv Q R s) : SchemaInv Q R (deleteSchema s measurement).1 ∧
      R measurement (deleteSchema s measurement).2 := by
  rw [deleteSchema]
  split
  · rename_i schema hschema
    exact ⟨hs, hs.cache measurement schema hschema⟩
  · obtain ⟨hloaded, hschema⟩ := hs.createOrLoad rule
    exact ⟨hloaded.setCache hschema rfl rfl, hschema⟩

theorem kept_deleteLp {measurement : Str} (rule : SchemaRule Q R P measurement)
    (hs : SchemaInv Q R s) (tagFilters : List (Str × Str)) (start stop : Option Time) :
    SchemaInv Q R (deleteLp s measurement tagFilters start stop).1 := by
  have hschema := (kept_deleteSchema rule hs).1
  rw [deleteLp]
  generalize deleteSchema s measurement = loaded at hschema
  obtain ⟨s', schema⟩ := loaded
  cases hcolumns : filterColumns schema tagFilters with
  | none => simpa [hcolumns] using hschema
  | some columns =>
    simp only [hcolumns]
    exact hschema.congr rfl rfl

variable [Numerics F]

theorem kept_prepare {s' : Service F} {measurement : Str} {points : List (Point F)}
    {res : Except WriteError (Batch F)} (rule : CallRule F Q R P) (hs : SchemaInv Q R s)
    (h : prepare digest s measurement points = (s', res)) : SchemaInv Q R s' := by
  have hensure := (hs.ensureSchema (rule.rule measurement) fun cached hcached =>
    rule.issued measurement cached hcached (tagNames points) (fieldSamples points)).1
  rw [prepare] at h
  rcases hresult : ensureSchema s measurement (tagNames points) (fieldSamples points) with
    ⟨s₁, _ | schema⟩ <;>
  · rw [hresult] at hensure
    simp only [hresult, Prod.mk.injEq] at h
    obtain ⟨rfl, -⟩ := h
    exact hensure.congr rfl rfl

theorem kept_ingest {h : History F} (rule : CallRule F Q R P) (hs : SchemaInv Q R h.service)
    (on : Bool) (fault : Option Fault) (measurement : Str) (points : List (Point F)) :
    SchemaInv Q R (ingest digest on fault h measurement points).service := by
  simp only [ingest, writeMeasurement]
  rcases hprepare : prepare digest h.service measurement points with ⟨s', err | b⟩
  · exact kept_prepare digest rule hs hprepare
  · exact kept_storeBatch (kept_prepare digest rule hs hprepare) on fault b

/-- No call, also none that fails, breaks what its statements keep. -/
theorem kept_step {h h' : History F} {call : Call F} (rule : CallRule F Q R P)
    (hs : SchemaInv Q R h.service) (hstep : step digest h call = some h') :
    SchemaInv Q R h'.service := by
  cases call with
  | write on fault points =>
    rw [step_write] at hstep
    cases hstep
    exact ingestGroups_invariant digest (I := fun h => SchemaInv Q R h.service)
      (fun h m points _ hI _ => kept_ingest digest rule hI on (fault m) m points)
      (groups_ne_nil points) hs (eachGroup_true digest h _)
  | delete measurement tagFilters start stop =>
    cases hstep
    exact kept_deleteLp (rule.rule measurement) hs tagFilters start stop
  | compact measurement =>
    cases hstep
    exact hs.congr rfl rfl
  | evict eligible =>
    cases hstep
    exact hs.congr rfl rfl

end Kept

section Named

variable (digest : Str → ℕ)

theorem named_start (clock : ℕ) : Named (start clock : History F).service := kept_start clock

theorem named_deleteSchema {s : Service F} (hs : Named s) (measurement : Str) :
    Named (deleteSchema s measurement).1 ∧ Canonical measurement (deleteSchema s measurement).2 :=
  kept_deleteSchema (namedRule measurement) hs

theorem named_deleteLp {s : Service F} (hs : Named s) (measurement : Str)
    (tagFilters : List (Str × Str)) (start stop : Option Time) :
    Named (deleteLp s measurement tagFilters start stop).1 :=
  kept_deleteLp (namedRule measurement) hs tagFilters start stop

variable [Numerics F]

theorem named_ingest {h : History F} (hs : Named h.service) (on : Bool) (fault : Option Fault)
    (measurement : Str) (points : List (Point F)) :
    Named (ingest digest on fault h measurement points).service :=
  kept_ingest digest namedCall hs on fault measurement points

theorem named_step {h h' : History F} {call : Call F} (hs : Named h.service)
    (hstep : step digest h call = some h') : Named h'.service :=
  kept_step digest namedCall hs hstep

end Named

section Ingest

variable (digest : Str → ℕ) [Numerics F] {h : History F} {on : Bool} {fault : Option Fault}
  {measurement : Str} {points : List (Point F)}

/-- A call that returns has committed its batch. -/
theorem ingest_ok (hs : Named h.service) (hpoints : points ≠ [])
    (hok : (writeMeasurement digest on fault h.service measurement points).2.isOk = true) :
    ∃ s' b schema sources t, Prepared digest h.service measurement points s' b schema sources ∧
      passes on fault = on ∧ Store.commit b (s'.hot b.table) = some t ∧
      ingest digest on fault h measurement points = ⟨{ s' with
        cold := written on s'.cold b
        hot := Function.update s'.hot b.table t }, h.recorded ++ if on then [b] else []⟩ := by
  rw [writeMeasurement] at hok
  rcases hprepare : prepare digest h.service measurement points with ⟨s', err | b⟩
  · simp [hprepare, Except.isOk, Except.toBool] at hok
  · simp only [hprepare] at hok
    obtain ⟨schema, sources, hprepared⟩ := exists_prepared digest hs hpoints hprepare
    have hingest : ingest digest on fault h measurement points =
        ⟨(storeBatch on fault s' b).1, h.recorded ++ if passes on fault then [b] else []⟩ := by
      simp [ingest, writeMeasurement, recordedBy, hprepare]
    have houtcome := outcome_storeBatch on fault s' b
    rw [hingest]
    generalize (storeBatch on fault s' b).1 = s'' at houtcome
    generalize (storeBatch on fault s' b).2 = res at houtcome hok
    cases houtcome with
    | unstaged | unrecorded | uncommitted => contradiction
    | committed t hpasses ht =>
      refine ⟨s', b, schema, sources, t, hprepared, hpasses, ht, ?_⟩
      rw [hpasses]

/-- Where a hot row comes from that is there after a call. -/
theorem get?_hot_ingest (hs : Named h.service) (hpoints : points ≠ []) {table : Str} {k : Key}
    {stored : Stored (Value F)}
    (hstored : ((ingest digest on fault h measurement points).service.hot table).get? k =
      some stored) :
    (∃ s' b schema sources r, Prepared digest h.service measurement points s' b schema sources ∧
      (writeMeasurement digest on fault h.service measurement points).2.isOk = true ∧
      (b.cols.map pgIdent).Nodup ∧ r ∈ b.records ∧ table = measurementTable measurement ∧
      r.key = k ∧ stored = Batches.upserted b.cols ((s'.hot table).get? k) r) ∨
    ∃ old f, (h.service.hot table).get? k = some old ∧
      (f = id ∨ f = recast (callMigrations h.service measurement (tagNames points)
        (fieldSamples points))) ∧
      stored = ⟨old.seq, if table = measurementTable measurement then f old.cells else old.cells⟩ := by
  have hkept : ∀ {s' : Service F} {res : Except WriteError (Batch F)},
      prepare digest h.service measurement points = (s', res) →
      (s'.hot table).get? k = some stored → ∃ old f, (h.service.hot table).get? k = some old ∧
        (f = id ∨ f = recast (callMigrations h.service measurement (tagNames points)
          (fieldSamples points))) ∧
        stored = ⟨old.seq,
          if table = measurementTable measurement then f old.cells else old.cells⟩ := by
    intro s' res hprepare hget
    obtain ⟨f, hf, hrows⟩ := rows_prepare digest hs hprepare
    rw [hrows, Option.map_eq_some_iff] at hget
    obtain ⟨old, hold, heq⟩ := hget
    exact ⟨old, f, hold, hf, heq.symm⟩
  simp only [ingest, writeMeasurement] at hstored
  rcases hprepare : prepare digest h.service measurement points with ⟨s', err | b⟩
  · simp only [hprepare] at hstored
    exact Or.inr (hkept hprepare hstored)
  · simp only [hprepare] at hstored
    have houtcome := outcome_storeBatch on fault s' b
    simp only [writeMeasurement, hprepare]
    generalize (storeBatch on fault s' b).1 = s'' at houtcome hstored
    generalize (storeBatch on fault s' b).2 = res at houtcome
    cases houtcome with
    | unstaged | unrecorded | uncommitted => exact Or.inr (hkept hprepare hstored)
    | committed t hpasses ht =>
      obtain ⟨schema, sources, hprepared⟩ := exists_prepared digest hs hpoints hprepare
      rcases get?_update_commit hprepared.drawn.keys ht hstored with
        ⟨r, hr, htable, hk, heq⟩ | ⟨hold, -⟩
      · exact Or.inl ⟨s', b, schema, sources, r, hprepared, rfl, Batches.commit_cols_nodup ht, hr,
          htable.trans hprepared.table, hk, heq⟩
      · exact Or.inr (hkept hprepare hold)

/-- What a call records, it has prepared. -/
theorem mem_recordedBy {s : Service F} {b : Batch F} (hs : Named s) (hpoints : points ≠ [])
    (hb : b ∈ recordedBy digest s on fault measurement points) :
    ∃ s' schema sources, prepare digest s measurement points = (s', .ok b) ∧
      Prepared digest s measurement points s' b schema sources ∧ passes on fault = true := by
  rw [recordedBy] at hb
  rcases hprepare : prepare digest s measurement points with ⟨s', err | b'⟩
  · simp [hprepare] at hb
  · simp only [hprepare] at hb
    split at hb
    · rename_i hpasses
      cases List.mem_singleton.mp hb
      obtain ⟨schema, sources, hprepared⟩ := exists_prepared digest hs hpoints hprepare
      exact ⟨s', schema, sources, rfl, hprepared, hpasses⟩
    · contradiction

theorem recordedBy_eq (s : Service F) (on : Bool) (fault : Option Fault) (measurement : Str)
    (points : List (Point F)) : recordedBy digest s on fault measurement points = [] ∨
      ∃ b, recordedBy digest s on fault measurement points = [b] := by
  rw [recordedBy]
  split
  · split
    · exact Or.inr ⟨_, rfl⟩
    · exact Or.inl rfl
  · exact Or.inl rfl

/-- A write leaves the exported objects alone. -/
theorem exported_ingest (hinv : Inv h.service.toWorld h.recorded) (hpoints : points ≠ []) :
    ∀ k ∈ exportKeys,
      (ingest digest on fault h measurement points).service.cold.files k =
        h.service.cold.files k ∧
      (ingest digest on fault h measurement points).service.cold.manifest.get? k =
        h.service.cold.manifest.get? k := by
  intro k hk
  simp only [ingest, writeMeasurement]
  rcases hprepare : prepare digest h.service measurement points with ⟨s', err | b⟩
  · simp only [(prepare_frame digest hprepare).1, and_self]
  · obtain ⟨-, -, -, -, -, hdrawn⟩ := prepare_ok digest hpoints hprepare
    have hout := hinv.outside hdrawn
    have houtcome := outcome_storeBatch on fault s' b
    rw [← (prepare_frame digest hprepare).1]
    generalize (storeBatch on fault s' b).1 = s'' at houtcome
    generalize (storeBatch on fault s' b).2 = res at houtcome
    cases houtcome with
    | unstaged => exact ⟨rfl, rfl⟩
    | unrecorded => exact stage_foreign _ hout k hk
    | uncommitted | committed => exact written_foreign on _ hout k hk

end Ingest

end TimescaleLp.Writes
