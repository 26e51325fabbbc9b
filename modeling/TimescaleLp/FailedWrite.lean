import TimescaleLp.Writes
import TimescaleLp.Reads

/-!
Write calls that fail after their staging object was recorded. The rows of the
object carry the newest numbers of their keys, so that reads of both tiers return
them from then on, although the call has raised. Only a call that repeats what
reads returned already leaves no trace.
-/
namespace TimescaleLp.FailedWrite

open Names ColdStore Tiering Schedule Schema Store Naming Columns Promotion Sequence Writes Reads

variable {F : Type} {table : Str} {k : Key} {cells : Cells (Value F)}

/-- Hot and the exports have only rows of the key that are older. -/
structure Older (w : World (Value F)) (table : Str) (k : Key) (n : ℕ) : Prop where
  hot : ∀ stored, (w.hot table).get? k = some stored → stored.seq < n
  exported : ∀ s ∈ heldIn w.cold table (fun k _ => k ∈ exportKeys), s.key = k → s.seq < n

/-- The newest recorded row of the key has the cells, and is newer than all other
rows of the key. -/
def Settled (table : Str) (k : Key) (cells : Cells (Value F)) (h : History F) : Prop :=
  ∃ r, Newest (rowsOf h.recorded table) k r ∧ r.cells = cells ∧
    Older h.service.toWorld table k r.seq

theorem Settled.read_all {h : History F} (hs : Settled table k cells h)
    (hinv : Inv h.service.toWorld h.recorded) (cells' : Cells (Value F)) :
    Read h.service.toWorld .all table k cells' ↔ cells' = cells := by
  obtain ⟨r, hr, rfl, holder⟩ := hs
  obtain rfl : r.key = k := hr.2.1
  exact read_all_iff hinv ⟨hr, holder.exported⟩ (fun stored hstored =>
    Or.inl (holder.hot stored hstored)) cells'

section Evict

variable {w : World (Value F)} {recorded : List (Batch F)} {n : ℕ}

theorem Older.evictChunk (h : Older w table k n) (hinv : Inv w recorded) {other : Str}
    {intervals : List (Time × Time)} {chunk : Time × Time} :
    Older (Tiering.evictChunk other intervals w chunk) table k n where
  hot stored hstored := h.hot stored (get?_hot_evictChunk hstored)
  exported s hs hkey := by
    rcases hinv.exported_evictChunk hs with hold | ⟨hhot, -⟩
    · exact h.exported s hold hkey
    · exact h.hot s.stored (hkey ▸ hhot)

theorem Older.evictTable (h : Older w table k n) (hinv : Inv w recorded) (other : Str)
    (chunks : List (Time × Time)) : Older (Tiering.evictTable w other chunks) table k n := by
  rw [Tiering.evictTable]
  generalize coverage w.cold other = intervals
  induction chunks generalizing w with
  | nil => exact h
  | cons chunk chunks ih => exact ih (h.evictChunk hinv) hinv.evictChunk

theorem Older.evictTables (h : Older w table k n) (hinv : Inv w recorded)
    (eligible : List (Str × List (Time × Time))) :
    Older (eligible.foldl (fun w e => Tiering.evictTable w e.1 e.2) w) table k n := by
  induction eligible generalizing w with
  | nil => exact h
  | cons e eligible ih => exact ih (h.evictTable hinv e.1 e.2) (hinv.evictTable e.1 e.2)

end Evict

section Step

variable (digest : Str → ℕ) [Numerics F]

/-- The points of a measurement do not have the key in the table, or they fail. -/
def Unwritten (table : Str) (k : Key) (on : Bool) (fault : Option Fault) (h : History F)
    (measurement : Str) (points : List (Point F)) : Prop :=
  measurementTable measurement = table → (∀ p ∈ points, pointKey digest p ≠ k) ∨
    (writeMeasurement digest on fault h.service measurement points).2.isOk = false

/-- A row of the key that is recorded has the cells. -/
def Repeated (table : Str) (k : Key) (cells : Cells (Value F)) (on : Bool) (fault : Option Fault)
    (h : History F) (measurement : Str) (points : List (Point F)) : Prop :=
  ∀ b ∈ recordedBy digest h.service on fault measurement points, b.table = table →
    ∀ r ∈ b.records, r.key = k → r.cells = cells

/-- No write of the key succeeds, and none that fails brings another row. -/
def Quiet (table : Str) (k : Key) (cells : Cells (Value F)) (h : History F) : Call F → Prop
  | .write on fault points =>
    EachGroup digest (fun h m points => Unwritten digest table k on (fault m) h m points ∧
      Repeated digest table k cells on (fault m) h m points) on fault h (byMeasurement points).entries
  | _ => True

variable {h : History F} {measurement : Str} {points : List (Point F)} {on : Bool}
  {fault : Option Fault}

/-- A call that does not write the key leaves a hot row with the number it had. -/
theorem hot_ingest (hnamed : Named h.service) (hpoints : points ≠ [])
    (hspares : Unwritten digest table k on fault h measurement points)
    {stored : Stored (Value F)} (hstored : ((ingest digest on fault h measurement
      points).service.hot table).get? k = some stored) :
    ∃ old, (h.service.hot table).get? k = some old ∧ old.seq = stored.seq := by
  rcases get?_hot_ingest digest hnamed hpoints hstored with
    ⟨s', b, schema, sources, r, hprepared, hok, -, hr, htable, hkey, -⟩ | ⟨old, f, hold, -, rfl⟩
  · rcases hspares htable.symm with havoid | hfail
    · obtain ⟨p, hlast, -⟩ := hprepared.built.rows r hr
      obtain ⟨hp, hpk⟩ := lastOf_mem digest hlast
      exact absurd (hpk.trans hkey) (havoid p hp)
    · rw [hok] at hfail
      contradiction
  · exact ⟨old, hold, rfl⟩

/-- A row that is recorded by a call that fails is the newest of its key. -/
theorem settled_of_recorded (hinv : Inv h.service.toWorld h.recorded) (hnamed : Named h.service)
    (hpoints : points ≠ [])
    (hspares : Unwritten digest table k on fault h measurement points) {b : Batch F}
    (hb : b ∈ recordedBy digest h.service on fault measurement points)
    (htable : b.table = table) {r : Row (Value F)} (hr : r ∈ b.records) (hkey : r.key = k) :
    Settled table k r.cells (ingest digest on fault h measurement points) := by
  obtain ⟨s', schema, sources, -, hprepared, -⟩ := mem_recordedBy digest hnamed hpoints hb
  have hlow := (hprepared.drawn.seqs r hr).1
  refine ⟨r, ⟨⟨b, List.mem_append_right _ hb, htable, hr⟩, hkey, ?_⟩, rfl, ?_, ?_⟩
  · rintro x ⟨b', hb', -, hx⟩ hxk
    rcases List.mem_append.mp hb' with hb' | hb'
    · exact ((hinv.seqs b' hb' x hx).2.trans_le hlow).le
    · rcases recordedBy_eq digest h.service on fault measurement points with
        heq | ⟨b₀, heq⟩
      · simp [heq] at hb'
      · rw [heq, List.mem_singleton] at hb hb'
        subst hb hb'
        exact (List.inj_on_of_nodup_map hprepared.drawn.keys hx hr (hxk.trans hkey.symm)) ▸ le_rfl
  · intro stored hstored
    obtain ⟨old, hold, heq⟩ := hot_ingest digest hnamed hpoints hspares hstored
    exact heq ▸ (hinv.hot table k old hold).trans_le hlow
  · intro x hx _
    rw [heldIn_foreign_congr (exported_ingest digest hinv hpoints)] at hx
    exact (hinv.exported table x hx).1.trans_le hlow

theorem settled_ingest (hs : Settled table k cells h) (hinv : Inv h.service.toWorld h.recorded)
    (hnamed : Named h.service) (hpoints : points ≠ [])
    (hspares : Unwritten digest table k on fault h measurement points)
    (hrepeated : Repeated digest table k cells on fault h measurement points) :
    Settled table k cells (ingest digest on fault h measurement points) := by
  by_cases hnone : ∀ b ∈ recordedBy digest h.service on fault measurement points,
      b.table = table → ∀ r ∈ b.records, r.key ≠ k
  · obtain ⟨r, hr, rfl, holder⟩ := hs
    refine ⟨r, ⟨?_, hr.2.1, ?_⟩, rfl, ?_, ?_⟩
    · obtain ⟨b, hb, hm, hmem⟩ := hr.1
      exact ⟨b, List.mem_append_left _ hb, hm, hmem⟩
    · rintro x ⟨b, hb, hm, hx⟩ hkey
      rcases List.mem_append.mp hb with hb | hb
      · exact hr.2.2 x ⟨b, hb, hm, hx⟩ hkey
      · exact absurd hkey (hnone b hb hm x hx)
    · intro stored hstored
      obtain ⟨old, hold, heq⟩ := hot_ingest digest hnamed hpoints hspares hstored
      exact heq ▸ holder.hot old hold
    · intro x hx
      rw [heldIn_foreign_congr (exported_ingest digest hinv hpoints)] at hx
      exact holder.exported x hx
  · -- the call records a row of the key, and it has the same cells
    push Not at hnone
    obtain ⟨b, hb, htable, r, hr, hkey⟩ := hnone
    rw [← hrepeated b hb htable r hr hkey]
    exact settled_of_recorded digest hinv hnamed hpoints hspares hb htable hr hkey

/-- What holds while a key is settled. -/
structure SettledInv (table : Str) (k : Key) (cells : Cells (Value F)) (h : History F) : Prop where
  inv : Inv h.service.toWorld h.recorded
  named : Named h.service
  settled : Settled table k cells h

theorem settledInv_step {h' : History F} {call : Call F} (hI : SettledInv table k cells h)
    (hquiet : Quiet digest table k cells h call) (hstep : step digest h call = some h') :
    SettledInv table k cells h' := by
  have hinv := step_inv digest hI.inv hstep
  have hnamed := named_step digest hI.named hstep
  obtain ⟨r, hr, hcells, holder⟩ := hI.settled
  cases call with
  | write on fault points =>
    rw [step_write] at hstep
    cases hstep
    refine ingestGroups_invariant digest (fun h m points hpoints hI hG => ?_)
      (groups_ne_nil points) hI hquiet
    exact ⟨hI.inv.ingest digest hpoints, named_ingest digest hI.named _ _ _ _,
      settled_ingest digest hI.settled hI.inv hI.named hpoints hG.1 hG.2⟩
  | delete measurement tagFilters start stop =>
    cases hstep
    refine ⟨hinv, hnamed, r, hr, hcells, ?_⟩
    obtain ⟨hcold, -, hhot⟩ := deleteLp_frame h.service measurement tagFilters start stop
    exact ⟨fun stored hstored => holder.hot stored (hhot table k stored hstored),
      fun x hx => holder.exported x (hcold ▸ hx)⟩
  | compact measurement =>
    cases hstep
    refine ⟨hinv, hnamed, r, hr, hcells, holder.hot, fun x hx => ?_⟩
    rw [heldIn_foreign_congr (hI.inv.vault.compactOnce hI.inv.log measurement).2] at hx
    exact holder.exported x hx
  | evict eligible =>
    cases hstep
    exact ⟨hinv, hnamed, r, hr, hcells, holder.evictTables hI.inv eligible⟩

end Step

section Fail

variable (digest : Str → ℕ) [Numerics F] {h : History F} {fault : Option Fault}
  {measurement : Str} {points : List (Point F)} {b : Batch F}

/-- The call raises after it recorded the batch. -/
structure FailsLate (h : History F) (fault : Option Fault) (measurement : Str)
    (points : List (Point F)) (b : Batch F) : Prop where
  recorded : recordedBy digest h.service true fault measurement points = [b]
  fails : (writeMeasurement digest true fault h.service measurement points).2.isOk = false

/-- Reads of both tiers are as they were, at once and, for the keys of the batch,
until a write of the key succeeds or another row of it is left behind. -/
structure Harmless (h after : History F) (b : Batch F) : Prop where
  now : ∀ table k cells,
    Read after.service.toWorld .all table k cells ↔ Read h.service.toWorld .all table k cells
  later : ∀ r ∈ b.records, ∀ cells, Read h.service.toWorld .all b.table r.key cells →
    ∀ calls last, Runs.Along (step digest) (Quiet digest b.table r.key cells) after calls →
      Runs.exec (step digest) after calls = some last →
        ∀ cells', Read last.service.toWorld .all b.table r.key cells' ↔ cells' = cells

/-- A read of a key in the batch returned just the row that the batch has, and
promotions change no hot row that reads returned. -/
structure Repeats (h : History F) (measurement : Str) (points : List (Point F)) (b : Batch F) :
    Prop where
  rows : ∀ r ∈ b.records, ∀ cells,
    Read h.service.toWorld .all b.table r.key cells ↔ cells = r.cells
  promotions : ∀ k stored, (∀ p ∈ points, pointKey digest p ≠ k) →
    (h.service.hot (measurementTable measurement)).get? k = some stored →
    Newest (viewRows h.service.toWorld .all (measurementTable measurement) none none) k
      (stored.row k) →
    recast (callMigrations h.service measurement (tagNames points) (fieldSamples points))
      stored.cells = stored.cells

omit [Numerics F] in
/-- What cold holds after the batch is recorded. -/
theorem mem_held_written {c : Cold (Value F)} (hunlisted : c.manifest.get? b.key = none)
    (table : Str) (r : Row (Value F)) : r ∈ held (written true c b) table ↔
      r ∈ held c table ∨ b.table = table ∧ r ∈ b.records := by
  have hself : (written true c b).manifest.get? b.key = some b.stagingMeta.toManifestRow :=
    get?_record_new (Store.stage b c) b.stagingMeta fun old hold => by
      have hnone : (Store.stage b c).manifest.get? b.stagingMeta.objectKey = none := hunlisted
      rw [hnone] at hold
      contradiction
  have hother : ∀ k, k ≠ b.key → (written true c b).manifest.get? k = c.manifest.get? k :=
    fun k hk => get?_record_of_ne _ b.stagingMeta hk
  have hfiles : ∀ k, (written true c b).files k = if k = b.key then some b.records else c.files k :=
    Vault.files_stage
  constructor
  · rintro ⟨k, e, rows, hk, hm, -, hrows, hr⟩
    rw [hfiles] at hrows
    split at hrows
    · rename_i hkey
      subst hkey
      cases hself.symm.trans hk
      cases hrows
      exact Or.inr ⟨hm, hr⟩
    · rename_i hkey
      exact Or.inl ⟨k, e, rows, hother k hkey ▸ hk, hm, trivial, hrows, hr⟩
  · rintro (⟨k, e, rows, hk, hm, -, hrows, hr⟩ | ⟨hm, hr⟩)
    · have hkey : k ≠ b.key := by
        rintro rfl
        rw [hunlisted] at hk
        contradiction
      exact ⟨k, e, rows, (hother k hkey).trans hk, hm, trivial,
        by rw [hfiles, if_neg hkey]; exact hrows, hr⟩
    · exact ⟨b.key, _, b.records, hself, hm, trivial, by rw [hfiles, if_pos rfl], hr⟩

/-- The state after the call. -/
theorem ingest_failsLate (hnamed : Named h.service) (hpoints : points ≠ [])
    (hfail : FailsLate digest h fault measurement points b) :
    ∃ s' schema sources, Prepared digest h.service measurement points s' b schema sources ∧
      ingest digest true fault h measurement points =
        ⟨{ s' with cold := written true s'.cold b }, h.recorded ++ [b]⟩ := by
  have hb : b ∈ recordedBy digest h.service true fault measurement points := by
    simp [hfail.recorded]
  obtain ⟨s', schema, sources, hprepare, hprepared, hpasses⟩ :=
    mem_recordedBy digest hnamed hpoints hb
  refine ⟨s', schema, sources, hprepared, ?_⟩
  have hfails := hfail.fails
  simp only [ingest, hfail.recorded, writeMeasurement, hprepare] at hfails ⊢
  have houtcome := outcome_storeBatch true fault s' b
  generalize (storeBatch true fault s' b).1 = s'' at houtcome
  generalize (storeBatch true fault s' b).2 = res at houtcome hfails
  cases houtcome with
  | unstaged _ hfault => simp [passes, hfault] at hpasses
  | unrecorded _ hfault => simp [passes, hfault] at hpasses
  | uncommitted => rfl
  | committed => contradiction

/-- What a promotion of the call makes of the cells of a table. -/
def recasts (h : History F) (measurement : Str) (points : List (Point F)) (table : Str)
    (cells : Cells (Value F)) : Cells (Value F) :=
  if table = measurementTable measurement then
    recast (callMigrations h.service measurement (tagNames points) (fieldSamples points)) cells
  else cells

omit [Numerics F] in
/-- Rows of cold as new as a hot row of their key are one row. -/
theorem eq_of_seq (hinv : Inv h.service.toWorld h.recorded) {table : Str} {k : Key}
    {old : Stored (Value F)} (hold : (h.service.hot table).get? k = some old) {x y : Row (Value F)}
    (hx : x ∈ held h.service.cold table) (hxk : x.key = k) (hxs : x.seq = old.seq)
    (hy : y ∈ held h.service.cold table) (hyk : y.key = k) (hys : y.seq = old.seq) : x = y := by
  have hrecorded : ∀ z ∈ held h.service.cold table, z.key = k → z.seq = old.seq →
      z ∈ rowsOf h.recorded table := by
    rintro z ⟨key, e, rows, hkey, hm, -, hrows, hz⟩ rfl hseq
    by_cases hin : key ∈ exportKeys
    · have hlt := (hinv.exported table z ⟨key, e, rows, hkey, hm, hin, hrows, hz⟩).2 old hold
      exact absurd hseq hlt.ne
    · exact hinv.vault.kept_subset table ⟨key, e, rows, hkey, hm, hin, hrows, hz⟩
  exact Vault.distinct_rowsOf hinv.log table x (hrecorded x hx hxk hxs) y (hrecorded y hy hyk hys)
    (hxk.trans hyk.symm) (hxs.trans hys.symm)

section Reads

variable (hinv : Inv h.service.toWorld h.recorded) (hnamed : Named h.service) (hpoints : points ≠ [])
  (hfail : FailsLate digest h fault measurement points b)
include hnamed hpoints hfail

include hinv

theorem settled_failsLate {r : Row (Value F)} (hr : r ∈ b.records) :
    Settled b.table r.key r.cells (ingest digest true fault h measurement points) := by
  have hb : b ∈ recordedBy digest h.service true fault measurement points := by
    simp [hfail.recorded]
  exact settled_of_recorded digest hinv hnamed hpoints (fun _ => Or.inr hfail.fails) hb rfl hr rfl

/-- Reads of a key that the batch does not have. -/
theorem read_after_iff {table : Str} {k : Key} (hk : b.table = table → ∀ r ∈ b.records, r.key ≠ k)
    (cells : Cells (Value F)) :
    Read (ingest digest true fault h measurement points).service.toWorld .all table k cells ↔
      match (h.service.hot table).get? k with
      | none => Engine.ViewRow (held h.service.cold table) k cells
      | some old => Engine.ViewRow (insert ⟨k, old.seq, recasts h measurement points table old.cells⟩
          (held h.service.cold table)) k cells := by
  obtain ⟨s', schema, sources, hprepared, hingest⟩ := ingest_failsLate digest hnamed hpoints hfail
  obtain ⟨hlog, hnew⟩ := hinv.log_append hprepared.drawn
  have hheld : ∀ x : Row (Value F), x.key = k →
      (x ∈ held (written true s'.cold b) table ↔ x ∈ held h.service.cold table) := by
    intro x hx
    rw [hprepared.cold, mem_held_written (hinv.vault.unlisted hlog hnew)]
    exact or_iff_left fun hxb => hk hxb.1 x hxb.2 hx
  have hrows := hprepared.rows table k
  rw [hingest]
  cases hget : (h.service.hot table).get? k with
  | none =>
    rw [hget, Option.map_none] at hrows
    refine (read_all_cold (w := ⟨s'.nextSeq, s'.hot, written true s'.cold b⟩) hrows cells).trans ?_
    exact exists_congr fun r => and_congr_left' (Versions.newest_congr hheld r)
  | some old =>
    rw [hget, Option.map_some] at hrows
    refine (read_all_hot (w := ⟨s'.nextSeq, s'.hot, written true s'.cold b⟩) hrows cells).trans ?_
    refine exists_congr fun r => and_congr_left' (Versions.newest_congr (fun x hx => ?_) r)
    rw [Set.mem_insert_iff, Set.mem_insert_iff, hheld x hx]
    rfl

/-- Promotions go unseen where hot rows that reads return keep their cells. -/
theorem read_after_of_recasts {table : Str} {k : Key}
    (hk : b.table = table → ∀ r ∈ b.records, r.key ≠ k)
    (hcells : ∀ old, (h.service.hot table).get? k = some old →
      Newest (viewRows h.service.toWorld .all table none none) k (old.row k) →
        recasts h measurement points table old.cells = old.cells) (cells : Cells (Value F)) :
    Read (ingest digest true fault h measurement points).service.toWorld .all table k cells ↔
      Read h.service.toWorld .all table k cells := by
  rw [read_after_iff digest hinv hnamed hpoints hfail hk]
  cases hget : (h.service.hot table).get? k with
  | none => exact (read_all_cold hget cells).symm
  | some old =>
    rw [read_all_hot hget]
    show Engine.ViewRow (insert ⟨k, old.seq, recasts h measurement points table old.cells⟩
      (held h.service.cold table)) k cells ↔ _
    by_cases hsame : recasts h measurement points table old.cells = old.cells
    · rw [hsame]
      rfl
    · -- the hot row changes, and there is a newer one in cold
      have hnot : ¬Newest (insert (old.row k) (held h.service.cold table)) k (old.row k) :=
        fun hnewest => hsame (hcells old hget ((newest_view_iff hget _).mpr hnewest))
      obtain ⟨x, hx, hxk, hlt⟩ : ∃ x ∈ held h.service.cold table, x.key = k ∧ old.seq < x.seq := by
        by_contra hnone
        push Not at hnone
        refine hnot ⟨Or.inl rfl, rfl, ?_⟩
        rintro x (rfl | hx) hxk
        · exact le_rfl
        · exact hnone x hx hxk
      refine exists_congr fun r => and_congr_left' ?_
      exact (Versions.newest_insert_of_lt hx hxk hlt r).trans
        (Versions.newest_insert_of_lt (a := old.row k) hx hxk hlt r).symm

/-- When reads of a key are the same, a hot row that they return keeps its cells. -/
theorem recasts_of_read_after {table : Str} {k : Key}
    (hk : b.table = table → ∀ r ∈ b.records, r.key ≠ k)
    (hread : ∀ cells,
      Read (ingest digest true fault h measurement points).service.toWorld .all table k cells ↔
        Read h.service.toWorld .all table k cells) {old : Stored (Value F)}
    (hold : (h.service.hot table).get? k = some old)
    (hnewest : Newest (viewRows h.service.toWorld .all table none none) k (old.row k)) :
    recasts h measurement points table old.cells = old.cells := by
  by_contra hne
  have hnewest := (newest_view_iff hold _).mp hnewest
  have hread : ∀ cells, Engine.ViewRow (insert
      ⟨k, old.seq, recasts h measurement points table old.cells⟩ (held h.service.cold table)) k
        cells ↔ Engine.ViewRow (insert (old.row k) (held h.service.cold table)) k cells := by
    intro cells
    have hafter := read_after_iff digest hinv hnamed hpoints hfail hk cells
    rw [hold] at hafter
    exact hafter.symm.trans ((hread cells).trans (read_all_hot hold cells))
  have hle : ∀ x ∈ held h.service.cold table, x.key = k → x.seq ≤ old.seq :=
    fun x hx hxk => hnewest.2.2 x (Or.inr hx) hxk
  -- each of the two rows must be in cold for the reads to be the same
  obtain ⟨x, ⟨hx, hxk, hxmax⟩, hxcells⟩ := (hread _).mp
    ⟨⟨k, old.seq, recasts h measurement points table old.cells⟩, ⟨Or.inl rfl, rfl, by
      rintro x (rfl | hx) hxk
      · exact le_rfl
      · exact hle x hx hxk⟩, rfl⟩
  obtain ⟨y, ⟨hy, hyk, hymax⟩, hycells⟩ := (hread _).mpr ⟨old.row k, hnewest, rfl⟩
  rcases hx with rfl | hx
  · exact hne hxcells.symm
  · rcases hy with rfl | hy
    · exact hne hycells
    · have hxy : x = y := eq_of_seq hinv hold hx hxk
        (le_antisymm (hle x hx hxk) (hxmax _ (Or.inl rfl) rfl)) hy hyk
        (le_antisymm (hle y hy hyk) (hymax _ (Or.inl rfl) rfl))
      exact hne (hxcells.symm.trans (hxy ▸ hycells))

/-- A call that fails late is harmless exactly if it repeats what was there. -/
theorem harmless_iff_repeats :
    Harmless digest h (ingest digest true fault h measurement points) b ↔
      Repeats digest h measurement points b := by
  obtain ⟨s', schema, sources, hprepared, -⟩ := ingest_failsLate digest hnamed hpoints hfail
  have hinv' : Inv (ingest digest true fault h measurement points).service.toWorld
      (ingest digest true fault h measurement points).recorded := hinv.ingest digest hpoints
  have hafter : ∀ r ∈ b.records, ∀ cells,
      Read (ingest digest true fault h measurement points).service.toWorld .all b.table r.key cells ↔
        cells = r.cells := fun r hr =>
    (settled_failsLate digest hinv hnamed hpoints hfail hr).read_all hinv'
  have hother : ∀ k, (∀ p ∈ points, pointKey digest p ≠ k) → ∀ r ∈ b.records, r.key ≠ k := by
    intro k hk r hr hkey
    obtain ⟨p, hlast, -⟩ := hprepared.built.rows r hr
    obtain ⟨hp, hpk⟩ := lastOf_mem digest hlast
    exact hk p hp (hpk.trans hkey)
  constructor
  · intro hharmless
    refine ⟨fun r hr cells => (hharmless.now _ _ _).symm.trans (hafter r hr cells), ?_⟩
    intro k old hk hold hnewest
    have hsame := recasts_of_read_after digest hinv hnamed hpoints hfail
      (fun _ => hother k hk) (hharmless.now _ k) hold hnewest
    rwa [recasts, if_pos rfl] at hsame
  · intro hrepeats
    constructor
    · intro table k cells
      by_cases hk : b.table = table ∧ ∃ r ∈ b.records, r.key = k
      · obtain ⟨rfl, r, hr, rfl⟩ := hk
        exact (hafter r hr cells).trans (hrepeats.rows r hr cells).symm
      · push Not at hk
        refine read_after_of_recasts digest hinv hnamed hpoints hfail hk (fun old hold hnewest => ?_)
          cells
        rw [recasts]
        split
        · rename_i htable
          subst htable
          refine hrepeats.promotions k old (fun p hp hpk => ?_) hold hnewest
          obtain ⟨r, hr, hkey⟩ := hprepared.built.keys p hp
          exact hk hprepared.table r hr (hkey.trans hpk)
        · rfl
    · intro r hr cells hread calls last hquiet hexec
      rw [(hrepeats.rows r hr cells).mp hread] at hquiet ⊢
      have hlast := Runs.exec_invariant_along (I := SettledInv b.table r.key r.cells)
        (fun _ _ _ hI hG hstep => settledInv_step digest hI hG hstep)
        ⟨hinv', named_ingest digest hnamed _ _ _ _,
          settled_failsLate digest hinv hnamed hpoints hfail hr⟩ hquiet hexec
      exact hlast.settled.read_all hlast.inv

end Reads

end Fail

/-- In every reachable state, a call that fails late is harmless exactly if it
repeats what reads returned before it. -/
theorem harmless_iff [Numerics F] (digest : Str → ℕ) (clock : ℕ) (calls : List (Call F))
    {h : History F} {fault : Option Fault} {measurement : Str} {points : List (Point F)}
    {b : Batch F} (hrun : Runs.exec (step digest) (Sequence.start clock) calls = some h)
    (hpoints : points ≠ []) (hfail : FailsLate digest h fault measurement points b) :
    Harmless digest h (ingest digest true fault h measurement points) b ↔
      Repeats digest h measurement points b := by
  have hinv : Inv h.service.toWorld h.recorded ∧ Named h.service :=
    Runs.exec_invariant (I := fun h => Inv h.service.toWorld h.recorded ∧ Named h.service)
      (fun _ _ _ hI hstep => ⟨step_inv digest hI.1 hstep, named_step digest hI.2 hstep⟩)
      ⟨start_inv clock, named_start clock⟩ hrun
  exact harmless_iff_repeats digest hinv.1 hinv.2 hpoints hfail

section Retry

/-- A call whose transaction fails. -/
def failing (h : History ℤ) (n : ℤ) : History ℤ :=
  ingest (fun _ => 0) true (some .transaction) h "cpu".toList [cpuPoint 0 n]

/-- The row such a call leaves behind. -/
theorem exists_failsLate (h : History ℤ) (n : ℤ) (hrecorded : (recordedBy (fun _ => 0) h.service true
      (some .transaction) "cpu".toList [cpuPoint 0 n]).map (fun b =>
        (b.table, b.records.map fun r => (r.key, r.cells))) =
      [("cpu".toList, [(⟨0, 0⟩, cellsOf [("f_a".toList, some (.int n))])])])
    (hfails : (writeMeasurement (fun _ => 0) true (some .transaction) h.service "cpu".toList
      [cpuPoint 0 n]).2.isOk = false) :
    ∃ b, FailsLate (fun _ => 0) h (some .transaction) "cpu".toList [cpuPoint 0 n] b ∧
      b.table = "cpu".toList ∧ (∃ r, r ∈ b.records) ∧ ∀ r ∈ b.records, r.key = ⟨0, 0⟩ ∧
        r.cells = cellsOf [("f_a".toList, some (.int n))] := by
  rcases recordedBy_eq (fun _ => 0) h.service true (some .transaction) "cpu".toList
    [cpuPoint 0 n] with heq | ⟨b, heq⟩
  · rw [heq] at hrecorded
    contradiction
  · rw [heq, List.map_singleton, List.cons.injEq, Prod.mk.injEq] at hrecorded
    obtain ⟨⟨htable, hrecords⟩, -⟩ := hrecorded
    refine ⟨b, ⟨heq, hfails⟩, htable, ?_, fun r hr => ?_⟩
    · refine List.exists_mem_of_ne_nil _ fun hnil => ?_
      simp [hnil] at hrecords
    · have hmem : (r.key, r.cells) ∈ b.records.map fun r => (r.key, r.cells) :=
        List.mem_map_of_mem hr
      rw [hrecords, List.mem_singleton, Prod.mk.injEq] at hmem
      exact hmem

/-- A retry that fails as the first call did leaves no trace. -/
theorem retry_harmless : ∃ b, Harmless (fun _ => 0) (failing (Sequence.start 1) 1)
    (failing (failing (Sequence.start 1) 1) 1) b := by
  obtain ⟨b₀, hfail₀, htable₀, ⟨r₀, hr₀⟩, hrows₀⟩ :=
    exists_failsLate (Sequence.start 1) 1 rfl (by decide +kernel)
  obtain ⟨b, hfail, htable, -, hrows⟩ :=
    exists_failsLate (failing (Sequence.start 1) 1) 1 rfl (by decide +kernel)
  have hpoints : [cpuPoint 0 1] ≠ [] := List.cons_ne_nil _ _
  have hsettled := settled_failsLate (fun _ => 0) (start_inv 1) (named_start 1) hpoints hfail₀ hr₀
  have hinv : Inv (failing (Sequence.start 1) 1).service.toWorld
      (failing (Sequence.start 1) 1).recorded := (start_inv 1).ingest (fun _ => 0) hpoints
  refine ⟨b, (harmless_iff (fun _ => 0) 1 [.write true (fun _ => some .transaction) [cpuPoint 0 1]]
    rfl hpoints hfail).mpr ⟨fun r hr cells => ?_, fun k stored _ _ _ => ?_⟩⟩
  · rw [htable, (hrows r hr).1, (hrows r hr).2, ← htable₀, ← (hrows₀ r₀ hr₀).1,
      ← (hrows₀ r₀ hr₀).2]
    exact hsettled.read_all hinv cells
  · exact recast_eq_self (by decide +kernel) stored.cells

/-- A row that no read returned before is returned after the call has failed. -/
theorem newRow_harmful : ∃ (h : History ℤ) (b : Batch ℤ),
    FailsLate (fun _ => 0) h (some .transaction) "cpu".toList [cpuPoint 0 1] b ∧
      ¬Harmless (fun _ => 0) h (failing h 1) b := by
  obtain ⟨b, hfail, -, ⟨r, hr⟩, -⟩ := exists_failsLate (Sequence.start 1) 1 rfl (by decide +kernel)
  refine ⟨Sequence.start 1, b, hfail, fun hharmless => ?_⟩
  have hpoints : [cpuPoint 0 1] ≠ [] := List.cons_ne_nil _ _
  have hsettled := settled_failsLate (fun _ => 0) (start_inv 1) (named_start 1) hpoints hfail hr
  have hinv : Inv (failing (Sequence.start 1) 1).service.toWorld
      (failing (Sequence.start 1) 1).recorded := (start_inv 1).ingest (fun _ => 0) hpoints
  obtain ⟨x, ⟨hx, -⟩, -⟩ := (hharmless.now _ _ _).mp ((hsettled.read_all hinv _).mpr rfl)
  rcases (mem_viewRows_iff _ _ _ _).mp hx with ⟨-, hhot⟩ | ⟨-, k, e, rows, hk, -⟩
  · simp [Sequence.start] at hhot
  · simp [Sequence.start, ColdStore.empty] at hk

end Retry

end TimescaleLp.FailedWrite
