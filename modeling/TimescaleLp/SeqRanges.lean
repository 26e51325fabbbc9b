import TimescaleLp.Columns
import TimescaleLp.Schedule

/-!
Sequence numbers of batches. The counter is drawn from for every point of a
batch, also for those whose row the dedup drops and for those of a batch that
fails; the name of a staging object has the numbers of the rows that are left.
A restart sets the counter to the clock.
-/
namespace TimescaleLp.SeqRanges

open Store Batches Columns ColdStore

variable {F : Type}

/-- The counter of a process. The numbers drawn, and the batches whose range was
passed to `staging_key`, are history over all processes. -/
structure Sequencer (F : Type) where
  nextSeq : ℕ
  issued : List ℕ
  staged : List (Batch F)

/-- From the draw of the numbers to the call of `staging_key` nothing is awaited,
so this is one step, with any schema that `_ensure_schema` returned. -/
inductive Event (F : Type)
  | write (writeThroughOn : Bool) (schema : TableSchema) (points : List (Point F))
  | restart (clock : ℕ)

def start (clock : ℕ) : Sequencer F := ⟨clock, [], []⟩

variable (digest : Str → ℕ) [Numerics F]

/-- There is no batch without points. -/
def step (s : Sequencer F) : Event F → Option (Sequencer F)
  | .write writeThroughOn schema points =>
    match points with
    | [] => none
    | p :: ps =>
      let (n, batch) := buildBatch digest schema (p :: ps) s.nextSeq
      some {
        nextSeq := n
        issued := s.issued ++ List.range' s.nextSeq (n - s.nextSeq)
        staged := match writeThroughOn, batch with
          | true, .ok b => s.staged ++ [b]
          | _, _ => s.staged }
  | .restart clock => some { s with nextSeq := clock }

/-- The clock of a new process is past every number drawn so far. -/
def ClockAhead (s : Sequencer F) : Event F → Prop
  | .restart clock => ∀ n ∈ s.issued, n < clock
  | .write _ _ _ => True

instance : ∀ (s : Sequencer F) (e : Event F), Decidable (ClockAhead s e)
  | s, .restart clock => inferInstanceAs (Decidable (∀ n ∈ s.issued, n < clock))
  | _, .write .. => isTrue trivial

/-- The ranges in the keys of staging objects. -/
structure Ranges (s : Sequencer F) : Prop where
  range : ∀ b ∈ s.staged, b.key = stagingKey b.table b.minSeq b.maxSeq ∧ b.minSeq ≤ b.maxSeq
  increasing : s.staged.Pairwise fun b b' => b.maxSeq < b'.minSeq

/-- What the records of a batch keep of its points: for each key the row of the
last point, whose number is the highest drawn for the key. -/
structure Deduped (schema : TableSchema) (points : List (Point F)) (nextSeq : ℕ) (b : Batch F) :
    Prop where
  keys : (b.records.map Row.key).Nodup
  mem_keys : ∀ k, k ∈ b.records.map Row.key ↔ k ∈ points.map (pointKey digest)
  last : ∃ sources rows, columnSources schema (tagNames points) (fieldSamples points).keys =
      some sources ∧
    List.Forall₂ (RowOf digest sources) points rows ∧
    rows.map Row.seq = List.range' nextSeq points.length ∧
    ∀ r ∈ b.records, (∃ p, lastOf digest points r.key = some p ∧ RowOf digest sources p r) ∧
      r ∈ rows ∧ ∀ row ∈ rows, row.key = r.key → row.seq ≤ r.seq

section Records

variable {digest} {schema : TableSchema} {points : List (Point F)} {n n' : ℕ} {b : Batch F}

/-- Rows have the keys of their points. -/
theorem keys_of_forall₂ {sources : List (Str × Source)} {rows : List (Row (Value F))}
    (h : List.Forall₂ (RowOf digest sources) points rows) :
    rows.map Row.key = points.map (pointKey digest) := by
  induction h with
  | nil => rfl
  | cons hrow hrest ih => rw [List.map_cons, List.map_cons, hrow.1, ih]

theorem deduped_of_build (h : buildBatch digest schema points n = (n', .ok b)) :
    Deduped digest schema points n b := by
  obtain ⟨sources, rows, hsources, hrows, rfl⟩ := buildBatch_ok digest h
  obtain ⟨-, hseqs, hof⟩ := buildRows_ok digest hrows
  have hsorted : rows.Pairwise fun r r' => r.seq < r'.seq := by
    have hrange : (rows.map Row.seq).Pairwise (· < ·) := hseqs ▸ List.pairwise_lt_range'
    exact List.pairwise_map.mp hrange
  have hkeys := keys_of_forall₂ hof
  refine ⟨dedupRecords_keys_nodup rows, fun k => ?_, sources, rows, hsources, hof, hseqs, ?_⟩
  · rw [← hkeys]
    constructor
    · intro hk
      obtain ⟨r, hr, rfl⟩ := List.mem_map.mp hk
      exact List.mem_map_of_mem (dedupRecords_subset rows r hr)
    · intro hk
      obtain ⟨r, hr, rfl⟩ := List.mem_map.mp hk
      obtain ⟨s, hs, hkey⟩ := exists_mem_dedupRecords rows r hr
      exact hkey ▸ List.mem_map_of_mem hs
  · intro r hr
    have hnewest := newest_of_mem_dedupRecords rows hsorted hr
    exact ⟨rowOf_of_mem_dedupRecords digest hof hr, dedupRecords_subset rows r hr,
      fun row hrow hkey => hnewest.2.2 row hrow hkey⟩

end Records

section Run

variable {b : Batch F}

omit [Numerics F] in
theorem maxSeq_mem (h : b.records ≠ []) : ∃ r ∈ b.records, r.seq = b.maxSeq := by
  have hne : (b.records.map (·.seq)).max? ≠ none := by simpa using h
  obtain ⟨a, ha⟩ := Option.ne_none_iff_exists'.mp hne
  have hmem := List.max?_mem ha
  simpa [Batch.maxSeq, ha] using hmem

omit [Numerics F] in
/-- The range of a batch is within the numbers drawn for it. -/
theorem range_of_drawn {lo hi : ℕ} (h : b.Drawn lo hi) :
    lo ≤ b.minSeq ∧ b.minSeq ≤ b.maxSeq ∧ b.maxSeq < hi := by
  obtain ⟨r, hr, hmin⟩ := minSeq_mem h.nonempty
  obtain ⟨r', hr', hmax⟩ := maxSeq_mem h.nonempty
  refine ⟨hmin ▸ (h.seqs r hr).1, hmin ▸ ?_, hmax ▸ (h.seqs r' hr').2⟩
  exact List.le_max?_getD_of_mem (List.mem_map_of_mem hr)

/-- The counter is past all that was drawn, and all that was staged was drawn. -/
structure Inv (s : Sequencer F) : Prop where
  ranges : Ranges s
  issued : ∀ n ∈ s.issued, n < s.nextSeq
  drawn : ∀ b ∈ s.staged, b.maxSeq ∈ s.issued

omit [Numerics F] in
theorem start_inv (clock : ℕ) : Inv (start clock : Sequencer F) where
  ranges := ⟨by simp [start], List.Pairwise.nil⟩
  issued := by simp [start]
  drawn := by simp [start]

variable {digest} {s t : Sequencer F} {e : Event F}

/-- What a write leaves: numbers drawn from the counter on, and one more range if
the batch was built and goes to cold. -/
theorem step_write {writeThroughOn : Bool} {schema : TableSchema} {points : List (Point F)}
    (h : step digest s (.write writeThroughOn schema points) = some t) :
    s.nextSeq ≤ t.nextSeq ∧
      t.issued = s.issued ++ List.range' s.nextSeq (t.nextSeq - s.nextSeq) ∧
      (t.staged = s.staged ∨
        ∃ b, b.Drawn s.nextSeq t.nextSeq ∧ t.staged = s.staged ++ [b]) := by
  cases points with
  | nil => contradiction
  | cons p ps =>
    have hle := buildBatch_le digest schema (p :: ps) s.nextSeq
    cases hbuild : buildBatch digest schema (p :: ps) s.nextSeq with
    | mk n batch =>
      rw [hbuild] at hle
      simp only [step, hbuild, Option.some.injEq] at h
      subst h
      refine ⟨hle, rfl, ?_⟩
      cases batch with
      | error e => cases writeThroughOn <;> exact Or.inl rfl
      | ok b =>
        cases writeThroughOn with
        | false => exact Or.inl rfl
        | true => exact Or.inr ⟨b, buildBatch_drawn digest (List.cons_ne_nil p ps) hbuild, rfl⟩

theorem step_inv (hs : Inv s) (hclock : ClockAhead s e) (h : step digest s e = some t) :
    Inv t := by
  cases e with
  | restart clock =>
    cases h
    exact ⟨⟨hs.ranges.range, hs.ranges.increasing⟩, hclock, hs.drawn⟩
  | write writeThroughOn schema points =>
    obtain ⟨hle, hissued, hstaged⟩ := step_write h
    have hnew : ∀ n ∈ t.issued, n < t.nextSeq := by
      intro n hn
      rw [hissued, List.mem_append, List.mem_range'_1] at hn
      rcases hn with hold | hnew
      · exact (hs.issued n hold).trans_le hle
      · omega
    have hold : ∀ b ∈ s.staged, b.maxSeq ∈ t.issued := fun b hb =>
      hissued ▸ List.mem_append_left _ (hs.drawn b hb)
    rcases hstaged with hsame | ⟨b, hb, hstaged⟩
    · exact ⟨⟨hsame ▸ hs.ranges.range, hsame ▸ hs.ranges.increasing⟩, hnew, hsame ▸ hold⟩
    · obtain ⟨hmin, hminmax, hmax⟩ := range_of_drawn hb
      refine ⟨⟨?_, ?_⟩, hnew, ?_⟩
      · rw [hstaged]
        intro b' hb'
        rcases List.mem_append.mp hb' with hb' | hb'
        · exact hs.ranges.range b' hb'
        · obtain rfl := List.mem_singleton.mp hb'
          exact ⟨rfl, hminmax⟩
      · rw [hstaged, List.pairwise_append]
        refine ⟨hs.ranges.increasing, List.pairwise_singleton _ _, fun b' hb' b'' hb'' => ?_⟩
        obtain rfl := List.mem_singleton.mp hb''
        exact (hs.issued _ (hs.drawn b' hb')).trans_le hmin
      · rw [hstaged, hissued]
        intro b' hb'
        rcases List.mem_append.mp hb' with hb' | hb'
        · exact List.mem_append_left _ (hs.drawn b' hb')
        · obtain rfl := List.mem_singleton.mp hb'
          refine List.mem_append_right _ (List.mem_range'_1.mpr ?_)
          omega

end Run

/-- The records of every batch, and the ranges of all batches of all processes. -/
theorem records_and_ranges :
    (∀ schema (points : List (Point F)) n n' b, points ≠ [] →
        buildBatch digest schema points n = (n', .ok b) → Deduped digest schema points n b) ∧
      ∀ clock (es : List (Event F)), Runs.Along (step digest) ClockAhead (start clock) es →
        Runs.Always (step digest) Ranges (start clock) es :=
  ⟨fun _ _ _ _ _ _ h => deduped_of_build h, fun clock _ hclock =>
    Runs.always_of_along (I := Inv) (fun _ _ _ hs hc h => step_inv hs hc h) (fun _ hs => hs.ranges)
      (start_inv clock) hclock⟩

/-- Two points of one key and a later one. -/
def threePoints : List (Point ℤ) :=
  [Schedule.cpuPoint 0 1, Schedule.cpuPoint 0 2, Schedule.cpuPoint 5 3]

/-- They are written before and after a restart. -/
def rebooted : List (Event ℤ) :=
  [.write true Schedule.cpuSchema threePoints, .restart 40,
    .write true Schedule.cpuSchema threePoints]

theorem rebooted_ranges :
    (∃ n b, buildBatch (fun _ => 0) Schedule.cpuSchema threePoints 7 = (n, .ok b) ∧
        Deduped (fun _ => 0) Schedule.cpuSchema threePoints 7 b) ∧
      (Runs.exec (step fun _ => 0) (start 7) rebooted).map (fun s => s.staged.map fun b =>
        (b.minSeq, b.maxSeq)) = some [(8, 9), (41, 42)] ∧
      Runs.Always (step fun _ => 0) Ranges (start 7) rebooted := by
  have hok : (buildBatch (fun _ => 0) Schedule.cpuSchema threePoints 7).2.isOk = true := by
    decide +kernel
  refine ⟨?_, by decide +kernel, (records_and_ranges fun _ => 0).2 7 rebooted (by decide +kernel)⟩
  cases hbuild : buildBatch (fun _ => 0) Schedule.cpuSchema threePoints 7 with
  | mk n batch =>
    cases batch with
    | error e =>
      rw [hbuild] at hok
      contradiction
    | ok b =>
      exact ⟨n, b, rfl, (records_and_ranges fun _ => 0).1 _ _ _ _ _ (by decide) hbuild⟩

end TimescaleLp.SeqRanges
