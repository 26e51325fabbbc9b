import TimescaleLp.Sequence

/-!
Partition pruning against the recorded time ranges. Write-through records the
least and the greatest time of the rows, a merge the hull of the ranges of its
inputs, an export the bounds of the chunk: each range contains the times of all
rows of its object. An object whose range lies outside a window has therefore no
row in the window, and leaving it out changes no answer there.
-/
namespace TimescaleLp.Pruning

open ColdStore Tiering Passes Store

universe u

section Ranges

variable {V : Type u} {c c' : Cold V}

/-- The times of the rows lie in the recorded range, both ends included. -/
def Within (e : ManifestRow) (rows : List (Row V)) : Prop :=
  ∀ r ∈ rows, e.rangeStart ≤ r.key.time ∧ r.key.time ≤ e.rangeEnd

/-- Every listed object lies in its range, apart from one that has been written
and is about to be recorded with a new range. -/
structure Ranges (c : Cold V) (pending : Option ObjectMeta) : Prop where
  listed : ∀ k e rows, c.manifest.get? k = some e → c.files k = some rows →
    (∀ new, pending = some new → k ≠ new.objectKey) → Within e rows
  output : ∀ new, pending = some new → ∀ rows, c.files new.objectKey = some rows →
    Within new.toManifestRow rows

theorem ranges_empty : Ranges (ColdStore.empty : Cold V) none where
  listed k e rows hk := by simp [ColdStore.empty] at hk
  output new hnew := by contradiction

/-- Fewer entries and fewer files. -/
theorem Ranges.mono {pending : Option ObjectMeta} (h : Ranges c pending)
    (hmanifest : ∀ k e, c'.manifest.get? k = some e → c.manifest.get? k = some e)
    (hfiles : ∀ k rows, c'.files k = some rows → c.files k = some rows) : Ranges c' pending where
  listed k e rows hk hrows hne := h.listed k e rows (hmanifest k e hk) (hfiles k rows hrows) hne
  output new hnew rows hrows := h.output new hnew rows (hfiles _ rows hrows)

theorem Ranges.write (h : Ranges c none) (new : ObjectMeta) {rows : List (Row V)}
    (hrows : Within new.toManifestRow rows) :
    Ranges (writeTable c new.objectKey rows) (some new) where
  listed k e rows' hk hrows' hne := by
    rw [files_writeTable_of_ne _ _ (hne new rfl)] at hrows'
    exact h.listed k e rows' hk hrows' fun _ hnone => by contradiction
  output new' hnew rows' hrows' := by
    cases hnew
    rw [files_writeTable, if_pos rfl] at hrows'
    cases hrows'
    exact hrows

/-- `ON CONFLICT` replaces the range of an object that is already listed. -/
theorem within_onConflict (new : ManifestRow) (old : Option ManifestRow) (rows : List (Row V)) :
    Within (onConflict new old) rows ↔ Within new rows := by
  cases old with
  | none => exact Iff.rfl
  | some old => exact Iff.rfl

theorem Ranges.record {new : ObjectMeta} (h : Ranges c (some new)) :
    Ranges (record c new) none where
  listed k e rows hk hrows _ := by
    by_cases hkey : k = new.objectKey
    · subst hkey
      rw [get?_record_self] at hk
      cases hk
      exact (within_onConflict _ _ rows).mpr (h.output new rfl rows hrows)
    · rw [get?_record_of_ne c new hkey] at hk
      refine h.listed k e rows hk hrows fun new' hnew => ?_
      cases hnew
      exact hkey
  output new' hnew := by contradiction

/-- A file that is never listed needs no range. -/
theorem Ranges.unlisted {new : ObjectMeta} (h : Ranges c (some new))
    (hnone : c.manifest.get? new.objectKey = none) : Ranges c none where
  listed k e rows hk hrows _ := by
    refine h.listed k e rows hk hrows fun new' hnew heq => ?_
    cases hnew
    rw [heq, hnone] at hk
    contradiction
  output new' hnew := by contradiction

end Ranges

section Hull

theorem min?_getD_le {l : List Time} {t : Time} (ht : t ∈ l) : l.min?.getD 0 ≤ t := by
  obtain ⟨a, ha⟩ := Option.ne_none_iff_exists'.mp
    (show l.min? ≠ none by simpa using List.ne_nil_of_mem ht)
  rw [ha, Option.getD_some]
  exact (List.min?_eq_some_iff.mp ha).2 t ht

theorem le_max?_getD {l : List Time} {t : Time} (ht : t ∈ l) : t ≤ l.max?.getD 0 := by
  obtain ⟨a, ha⟩ := Option.ne_none_iff_exists'.mp
    (show l.max? ≠ none by simpa using List.ne_nil_of_mem ht)
  rw [ha, Option.getD_some]
  exact (List.max?_eq_some_iff.mp ha).2 t ht

variable {F : Type}

theorem within_stagingMeta (b : Batch F) : Within b.stagingMeta.toManifestRow b.records := by
  intro r hr
  have hmem : r.key.time ∈ b.records.map (·.key.time) := List.mem_map_of_mem hr
  exact ⟨min?_getD_le hmem, le_max?_getD hmem⟩

theorem within_jobMeta (log : List (Batch F)) (job : Job) (n : ℕ) {rows : List (Row (Value F))}
    (h : ∀ r ∈ rows, r ∈ Vault.jobRows log job) : Within (jobMeta job n).toManifestRow rows := by
  intro r hr
  obtain ⟨b, -, ho, hmem⟩ := h r hr
  obtain ⟨hstart, hstop⟩ := within_stagingMeta b r hmem
  have hmin : (jobMeta job n).rangeStart ≤ b.stagingMeta.rangeStart :=
    min?_getD_le (List.mem_map_of_mem ho)
  have hmax : b.stagingMeta.rangeEnd ≤ (jobMeta job n).rangeEnd :=
    le_max?_getD (List.mem_map_of_mem ho)
  exact ⟨hmin.trans hstart, hstop.trans hmax⟩

end Hull

section Pass

variable {F : Type} {foreign : Set Str} {c c' : Cold (Value F)} {log : List (Batch F)}
  {pass pass' : Pass}

/-- The object a pass has written and not yet recorded. -/
def pending : Pass → Option ObjectMeta
  | .recording job rows _ _ => some (jobMeta job rows)
  | _ => none

theorem Ranges.step (h : Ranges c (pending pass))
    (hvault : Vault.Inv foreign c log fun _ : Unit => pass)
    (hstep : Passes.step c pass = some (pass', c')) : Ranges c' (pending pass') := by
  have hok := hvault.working ()
  cases pass with
  | idle => contradiction
  | listing todo => cases todo <;> cases hstep <;> exact h
  | merging m groups todo =>
    cases groups with
    | nil =>
      cases hstep
      exact h
    | cons g groups =>
      obtain ⟨day, objs⟩ := g
      simp only [Passes.step] at hstep
      split at hstep
      · cases hstep
        exact h
      · rename_i c₁ n hmerge
        cases hstep
        obtain ⟨rows, hread, rfl, -⟩ := Engine.compact_some hmerge
        refine Ranges.write h (jobMeta ⟨m, day, objs⟩ n) (within_jobMeta log _ _ ?_)
        intro r hr
        have hjob := hok (day, objs) List.mem_cons_self
        exact (hvault.mem_read_iff hjob hread r).mp (Engine.dedupRows_subset rows r hr)
  | recording job rows groups todo =>
    cases hstep
    exact Ranges.record h
  | removing job rest groups todo =>
    cases rest with
    | nil =>
      cases hstep
      exact h
    | cons o rest =>
      cases hstep
      refine h.mono (fun k e hk => hk) fun k rows hrows => ?_
      rw [files_delete] at hrows
      split at hrows
      · contradiction
      · exact hrows
  | forgetting job o rest groups todo =>
    cases hstep
    refine h.mono (fun k e hk => ?_) fun k rows hrows => hrows
    rw [get?_forget] at hk
    split at hk
    · contradiction
    · exact hk
  | ended ok => contradiction

theorem Ranges.steps (hsteps : Steps pass c pass' c') (hlog : Vault.LogOk log)
    (hvault : Vault.Inv foreign c log fun _ : Unit => pass) (h : Ranges c (pending pass)) :
    Ranges c' (pending pass') := by
  induction hsteps with
  | refl => exact h
  | head hstep _ ih => exact ih (hvault.stepAlone hlog hstep) (h.step hvault hstep)

theorem Ranges.compactOnce (h : Ranges c none) (hlog : Vault.LogOk log)
    (hvault : Vault.Inv foreign c log fun _ : Unit => .idle) (measurement : Option Str) :
    Ranges (Tiering.compactOnce measurement c).1 none :=
  Ranges.steps (steps_compactOnce measurement c) hlog (hvault.begin hlog measurement) h

end Pass

section Run

variable {F : Type}

/-- A chunk is half-open, so its bounds contain the times of its rows. -/
theorem Ranges.evictChunk {w : World (Value F)} (h : Ranges w.cold none) (table : Str)
    (intervals : List (Time × Time)) (chunk : Time × Time) :
    Ranges (Tiering.evictChunk table intervals w chunk).cold none := by
  rw [Tiering.evictChunk]
  split
  · exact h
  · refine Ranges.record (h.write ⟨⟨table, .cold, chunk.1, chunk.2, _, 0, 0⟩, _⟩ ?_)
    intro r hr
    obtain ⟨-, hstart, hstop⟩ := (Engine.mem_hotRange_iff _ _ _ r).mp hr
    exact ⟨hstart, hstop.le⟩

theorem Ranges.evictOnce {w : World (Value F)} (h : Ranges w.cold none)
    (eligible : List (Str × List (Time × Time))) :
    Ranges (Tiering.evictOnce w eligible).1.cold none := by
  have htable : ∀ (w : World (Value F)) (table : Str) (intervals : List (Time × Time))
      (chunks : List (Time × Time)), Ranges w.cold none →
        Ranges (chunks.foldl (Tiering.evictChunk table intervals) w).cold none := by
    intro w table intervals chunks h
    induction chunks generalizing w with
    | nil => exact h
    | cons chunk chunks ih => exact ih _ (h.evictChunk table intervals chunk)
  rw [Tiering.evictOnce]
  induction eligible generalizing w with
  | nil => exact h
  | cons e eligible ih => exact ih (htable w e.1 _ e.2 h)

variable (digest : Str → ℕ) [Numerics F]

structure Inv (h : History F) : Prop where
  sequence : Sequence.Inv h.service.toWorld h.recorded
  ranges : Ranges h.service.cold none

omit [Numerics F] in
theorem start_inv (clock : ℕ) : Inv (Sequence.start clock : History F) where
  sequence := Sequence.start_inv clock
  ranges := ranges_empty

omit [Numerics F] in
theorem Ranges.storeBatch {s : Service F} {b : Batch F} {on : Bool} {fault : Option Fault}
    (h : Ranges s.cold none) (hunlisted : s.cold.manifest.get? b.key = none) :
    Ranges (Store.storeBatch on fault s b).1.cold none := by
  have hstage : Ranges (Store.stage b s.cold) (some b.stagingMeta) := h.write _ (within_stagingMeta b)
  have hwritten : Ranges (Sequence.written on s.cold b) none := by
    cases on with
    | false => exact h
    | true => exact hstage.record
  have houtcome := Sequence.outcome_storeBatch on fault s b
  generalize (Store.storeBatch on fault s b).1 = s' at houtcome
  generalize (Store.storeBatch on fault s b).2 = res at houtcome
  cases houtcome with
  | unstaged hon hfault => exact h
  | unrecorded hon hfault => exact hstage.unlisted hunlisted
  | uncommitted hpasses => exact hwritten
  | committed t hpasses ht => exact hwritten

theorem Inv.ingest {h : History F} {on : Bool} {fault : Option Fault} {measurement : Str}
    {points : List (Point F)} (hpoints : points ≠ []) (hinv : Inv h) :
    Inv (Sequence.ingest digest on fault h measurement points) where
  sequence := hinv.sequence.ingest digest hpoints
  ranges := by
    simp only [Sequence.ingest, Store.writeMeasurement]
    rcases hprepare : Store.prepare digest h.service measurement points with ⟨s', err | b⟩
    · exact (Sequence.prepare_frame digest hprepare).1 ▸ hinv.ranges
    · obtain ⟨-, -, -, -, -, hdrawn⟩ := Sequence.prepare_ok digest hpoints hprepare
      have hcold := (Sequence.prepare_frame digest hprepare).1
      obtain ⟨hlog, hnew⟩ := hinv.sequence.log_append hdrawn
      refine Ranges.storeBatch (hcold ▸ hinv.ranges) ?_
      rw [hcold]
      exact hinv.sequence.vault.unlisted hlog hnew

theorem step_inv {h h' : History F} {call : Call F} (hinv : Inv h)
    (hstep : Sequence.step digest h call = some h') : Inv h' := by
  refine ⟨Sequence.step_inv digest hinv.sequence hstep, ?_⟩
  cases call with
  | write on fault points =>
    rw [Sequence.step_write] at hstep
    cases hstep
    exact (Sequence.ingestGroups_invariant digest (I := Inv)
      (fun h m points hpoints hI _ => hI.ingest digest hpoints) (Sequence.groups_ne_nil points)
      hinv (Sequence.eachGroup_true digest h _)).ranges
  | delete measurement tagFilters start stop =>
    cases hstep
    exact (Sequence.deleteLp_frame h.service measurement tagFilters start stop).1 ▸ hinv.ranges
  | compact measurement =>
    cases hstep
    exact hinv.ranges.compactOnce hinv.sequence.log hinv.sequence.vault measurement
  | evict eligible =>
    cases hstep
    exact hinv.ranges.evictOnce eligible

end Run

section Window

variable {V : Type u}

/-- The rows of a list of objects. -/
def rowsIn (c : Cold V) (objs : List ObjectMeta) : Set (Row V) :=
  {r | ∃ o ∈ objs, ∃ rows, c.files o.objectKey = some rows ∧ r ∈ rows}

/-- `start <= t` and `t <= end`, each if given. -/
def InWindow (start stop : Option Time) (t : Time) : Prop :=
  (∀ a, start = some a → a ≤ t) ∧ ∀ b, stop = some b → t ≤ b

/-- Pruning leaves the rows of every key inside the window as they are, and so
what a query reads for the key. -/
def Sound (w : World V) : Prop :=
  ∀ table start stop (k : Key), InWindow start stop k.time →
    {r | r ∈ rowsIn w.cold (selectOverlapping (objects w.cold table none) start stop) ∧ r.key = k} =
      {r | r ∈ rowsIn w.cold (objects w.cold table none) ∧ r.key = k} ∧
    ∀ tier cells, Engine.ViewRow (viewRows w tier table start stop) k cells ↔
      Read w tier table k cells

/-- An object with a row in the window overlaps it. -/
theorem mem_selectOverlapping {objs : List ObjectMeta} {o : ObjectMeta} (ho : o ∈ objs)
    {rows : List (Row V)} (hrows : Within o.toManifestRow rows) {r : Row V} (hr : r ∈ rows)
    {start stop : Option Time} (hwindow : InWindow start stop r.key.time) :
    o ∈ selectOverlapping objs start stop := by
  obtain ⟨hle, hge⟩ := hrows r hr
  rw [selectOverlapping, List.mem_filter]
  refine ⟨ho, ?_⟩
  simp only [Bool.and_eq_true, Bool.not_eq_true', Option.any_eq_false_iff_get,
    decide_eq_false_iff_not, not_lt]
  refine ⟨fun h => ?_, fun h => ?_⟩
  · exact (hwindow.1 _ (Option.some_get h).symm).trans hge
  · exact hle.trans (hwindow.2 _ (Option.some_get h).symm)

theorem mem_rowsIn_iff {c : Cold V} (h : Ranges c none) (table : Str) {start stop : Option Time}
    {r : Row V} (hwindow : InWindow start stop r.key.time) :
    r ∈ rowsIn c (selectOverlapping (objects c table none) start stop) ↔
      r ∈ rowsIn c (objects c table none) := by
  constructor
  · rintro ⟨o, ho, hrest⟩
    exact ⟨o, List.mem_of_mem_filter ho, hrest⟩
  · rintro ⟨o, ho, rows, hrows, hr⟩
    have hwithin := h.listed _ _ rows ((mem_objects_iff c table none o).mp ho).1 hrows
      fun _ hnone => by contradiction
    exact ⟨o, mem_selectOverlapping ho hwithin hr hwindow, rows, hrows, hr⟩

theorem sound_of_ranges {w : World V} (h : Ranges w.cold none) : Sound w := by
  intro table start stop k hwindow
  have hrow : ∀ r : Row V, r.key = k →
      (r ∈ rowsIn w.cold (selectOverlapping (objects w.cold table none) start stop) ↔
        r ∈ rowsIn w.cold (objects w.cold table none)) := fun r hk =>
    mem_rowsIn_iff h table (hk ▸ hwindow)
  refine ⟨Set.ext fun r => and_congr_left (hrow r), fun tier cells => ?_⟩
  refine exists_congr fun r => and_congr_left fun _ => ?_
  refine Versions.newest_congr (fun r' hk => ?_) r
  refine or_congr_right (and_congr_right fun _ => ?_)
  rw [selectOverlapping_none]
  exact hrow r' hk

end Window

/-- Pruning is sound after every sequence of calls. -/
theorem always_sound {F : Type} [Numerics F] (digest : Str → ℕ) (clock : ℕ)
    (calls : List (Call F)) : Runs.Always (Sequence.step digest)
      (fun h => Sound h.service.toWorld) (Sequence.start clock) calls :=
  Runs.always_of_invariant (fun _ _ _ hinv hstep => step_inv digest hinv hstep)
    (fun _ hinv => sound_of_ranges hinv.ranges) (start_inv clock)

end TimescaleLp.Pruning
