import TimescaleLp.Pruning
import TimescaleLp.SeqRanges
import Mathlib.Order.Bounds.Basic

/-!
What the manifest says of an object. Write-through counts the rows of a batch and
takes the bounds of their times and numbers; a merge combines the bounds of its
inputs, and dedup drops no key and no newest row. So the bounds are attained, and
the totals of `status` are those of a scan of the objects.
-/
namespace TimescaleLp

/-- A row of `GROUP BY measurement, kind`. -/
structure StatusRow where
  measurement : Str
  kind : Kind
  objects : ℕ
  rows : ℕ
  oldest : Time
  newest : Time
deriving DecidableEq

namespace Summaries

open ColdStore Tiering Passes Vault

universe u

variable {V : Type u}

/-- `status`: the texts of the kinds are in the order `cold`, `staging`. -/
def status (c : Cold V) : List StatusRow :=
  (measurements c).flatMap fun m =>
    [Kind.cold, Kind.staging].filterMap fun kind =>
      let objs := objects c m (some kind)
      if objs = [] then none
      else some {
        measurement := m
        kind := kind
        objects := objs.length
        rows := (objs.map (·.rows)).sum
        oldest := (objs.map (·.rangeStart)).min?.getD 0
        newest := (objs.map (·.rangeEnd)).max?.getD 0 }

def times (rows : Set (Row V)) : Set Time := {t | ∃ r ∈ rows, r.key.time = t}

/-- The bounds of an entry are attained. The least number may belong to a row that a
merge has dropped. -/
structure Bounded (e : ManifestRow) (rows : Set (Row V)) : Prop where
  oldest : IsLeast (times rows) e.rangeStart
  newest : IsGreatest (times rows) e.rangeEnd
  greatest : IsGreatest {n | ∃ r ∈ rows, r.seq = n} e.maxSeq
  least : ∀ r ∈ rows, e.minSeq ≤ r.seq

/-- An entry that says of an object what is true of it. -/
structure Exact (e : ManifestRow) (rows : List (Row V)) : Prop where
  count : e.rows = rows.length
  bounded : Bounded e {r | r ∈ rows}
  keys : (rows.map Row.key).Nodup

/-- What a scan of the objects of a group gives. -/
structure Scanned (c : Cold V) (st : StatusRow) (rows : List (Row V)) : Prop where
  read : Engine.readParquet c ((objects c st.measurement (some st.kind)).map (·.objectKey)) =
    some rows
  objects : st.objects = (objects c st.measurement (some st.kind)).length
  count : st.rows = rows.length
  oldest : IsLeast (times {r | r ∈ rows}) st.oldest
  newest : IsGreatest (times {r | r ∈ rows}) st.newest

theorem Exact.within {e : ManifestRow} {rows : List (Row V)} (h : Exact e rows) :
    Pruning.Within e rows := by
  intro r hr
  exact ⟨h.bounded.oldest.2 ⟨r, hr, rfl⟩, h.bounded.newest.2 ⟨r, hr, rfl⟩⟩

section Bounds

variable {α : Type} [LinearOrder α] {l : List α} {d a : α}

theorem isLeast_min? (h : l ≠ []) : IsLeast {a | a ∈ l} (l.min?.getD d) := by
  obtain ⟨a, ha⟩ := Option.ne_none_iff_exists'.mp (show l.min? ≠ none by simpa using h)
  obtain ⟨hmem, hle⟩ := List.min?_eq_some_iff.mp ha
  rw [ha, Option.getD_some]
  exact ⟨hmem, fun b hb => hle b hb⟩

theorem isGreatest_max? (h : l ≠ []) : IsGreatest {a | a ∈ l} (l.max?.getD d) := by
  obtain ⟨a, ha⟩ := Option.ne_none_iff_exists'.mp (show l.max? ≠ none by simpa using h)
  obtain ⟨hmem, hle⟩ := List.max?_eq_some_iff.mp ha
  rw [ha, Option.getD_some]
  exact ⟨hmem, fun b hb => hle b hb⟩

variable {β : Type} {objs : List β} {f : β → α} {S : β → Set α}

/-- The least of the least elements of several sets. -/
theorem isLeast_iUnion (hne : objs ≠ []) (h : ∀ o ∈ objs, IsLeast (S o) (f o)) :
    IsLeast {a | ∃ o ∈ objs, a ∈ S o} ((objs.map f).min?.getD d) := by
  obtain ⟨hmem, hle⟩ := isLeast_min? (d := d) (show objs.map f ≠ [] by simpa using hne)
  obtain ⟨o, ho, hof⟩ := List.mem_map.mp hmem
  refine ⟨⟨o, ho, hof ▸ (h o ho).1⟩, ?_⟩
  rintro a ⟨o', ho', ha⟩
  exact (hle (List.mem_map_of_mem ho')).trans ((h o' ho').2 ha)

theorem isGreatest_iUnion (hne : objs ≠ []) (h : ∀ o ∈ objs, IsGreatest (S o) (f o)) :
    IsGreatest {a | ∃ o ∈ objs, a ∈ S o} ((objs.map f).max?.getD d) := by
  obtain ⟨hmem, hle⟩ := isGreatest_max? (d := d) (show objs.map f ≠ [] by simpa using hne)
  obtain ⟨o, ho, hof⟩ := List.mem_map.mp hmem
  refine ⟨⟨o, ho, hof ▸ (h o ho).1⟩, ?_⟩
  rintro a ⟨o', ho', ha⟩
  exact ((h o' ho').2 ha).trans (hle (List.mem_map_of_mem ho'))

end Bounds

section Status

variable {c : Cold V}

theorem mem_status {st : StatusRow} (h : st ∈ status c) :
    objects c st.measurement (some st.kind) ≠ [] ∧
      st.objects = (objects c st.measurement (some st.kind)).length ∧
      st.rows = ((objects c st.measurement (some st.kind)).map (·.rows)).sum ∧
      st.oldest = ((objects c st.measurement (some st.kind)).map (·.rangeStart)).min?.getD 0 ∧
      st.newest = ((objects c st.measurement (some st.kind)).map (·.rangeEnd)).max?.getD 0 := by
  obtain ⟨m, -, hst⟩ := List.mem_flatMap.mp h
  obtain ⟨kind, -, hkind⟩ := List.mem_filterMap.mp hst
  simp only at hkind
  split at hkind
  · contradiction
  · rename_i hne
    cases hkind
    exact ⟨hne, rfl, rfl, rfl, rfl⟩

/-- A scan of objects that are there, with the numbers of their rows. -/
theorem sum_rows {objs : List ObjectMeta} {rows : List (Row V)}
    (hread : Engine.readParquet c (objs.map (·.objectKey)) = some rows)
    (h : ∀ o ∈ objs, ∃ rows, c.files o.objectKey = some rows ∧ o.rows = rows.length) :
    (objs.map (·.rows)).sum = rows.length := by
  induction objs generalizing rows with
  | nil =>
    cases hread
    rfl
  | cons o objs ih =>
    obtain ⟨rs, hrs, hcount⟩ := h o List.mem_cons_self
    rw [List.map_cons, Engine.readParquet, hrs, Option.bind_some] at hread
    obtain ⟨rest, hrest, rfl⟩ := Option.map_eq_some_iff.mp hread
    rw [List.map_cons, List.sum_cons, hcount, List.length_append,
      ih hrest fun o' ho' => h o' (List.mem_cons_of_mem o ho')]

theorem fileRows_eq {k : Str} {rows : List (Row V)} (h : c.files k = some rows) :
    fileRows c k = {r | r ∈ rows} := by
  ext r
  simp [fileRows, h]

/-- The totals of a group whose entries are exact. -/
theorem exists_scanned {st : StatusRow} (hst : st ∈ status c)
    (h : ∀ o ∈ objects c st.measurement (some st.kind),
      ∃ rows, c.files o.objectKey = some rows ∧ Exact o.toManifestRow rows) :
    ∃ rows, Scanned c st rows := by
  obtain ⟨hne, hobjects, hrows, holdest, hnewest⟩ := mem_status hst
  obtain ⟨rows, hread⟩ : ∃ rows, Engine.readParquet c
      ((objects c st.measurement (some st.kind)).map (·.objectKey)) = some rows := by
    refine Engine.exists_readParquet fun k hk => ?_
    obtain ⟨o, ho, rfl⟩ := List.mem_map.mp hk
    obtain ⟨rs, hrs, -⟩ := h o ho
    exact ⟨rs, hrs⟩
  have hsum := sum_rows hread fun o ho => by
    obtain ⟨rs, hrs, hexact⟩ := h o ho
    exact ⟨rs, hrs, hexact.count⟩
  have htimes : times {r | r ∈ rows} = {t | ∃ o ∈ objects c st.measurement (some st.kind),
      t ∈ times (fileRows c o.objectKey)} := by
    ext t
    constructor
    · rintro ⟨r, hr, rfl⟩
      obtain ⟨k, hk, rs, hrs, hmem⟩ := Engine.mem_readParquet c _ rows hread r hr
      obtain ⟨o, ho, rfl⟩ := List.mem_map.mp hk
      exact ⟨o, ho, r, ⟨rs, hrs, hmem⟩, rfl⟩
    · rintro ⟨o, ho, r, ⟨rs, hrs, hmem⟩, rfl⟩
      obtain ⟨rs', hrs', hsub⟩ :=
        Engine.readParquet_exists c _ rows hread _ (List.mem_map_of_mem ho)
      cases hrs.symm.trans hrs'
      exact ⟨r, hsub r hmem, rfl⟩
  refine ⟨rows, hread, hobjects, hrows.trans hsum, ?_, ?_⟩
  · rw [htimes, holdest]
    refine isLeast_iUnion hne fun o ho => ?_
    obtain ⟨rs, hrs, hexact⟩ := h o ho
    rw [fileRows_eq hrs]
    exact hexact.bounded.oldest
  · rw [htimes, hnewest]
    refine isGreatest_iUnion hne fun o ho => ?_
    obtain ⟨rs, hrs, hexact⟩ := h o ho
    rw [fileRows_eq hrs]
    exact hexact.bounded.newest

end Status

section Sources

variable {F : Type}

/-- Write-through describes its batch. -/
theorem bounded_stagingMeta {b : Batch F} (hne : b.records ≠ []) :
    Bounded b.stagingMeta.toManifestRow {r | r ∈ b.records} := by
  have htimes : times {r | r ∈ b.records} = {t | t ∈ b.records.map (·.key.time)} := by
    ext t
    simp [times]
  have hseqs : {n | ∃ r ∈ {r | r ∈ b.records}, r.seq = n} = {n | n ∈ b.records.map Row.seq} := by
    ext n
    simp
  have hleast := isLeast_min? (l := b.records.map Row.seq) (d := 0) (by simpa using hne)
  refine ⟨?_, ?_, ?_, fun r hr => hleast.2 (List.mem_map_of_mem hr)⟩
  · rw [htimes]
    exact isLeast_min? (by simpa using hne)
  · rw [htimes]
    exact isGreatest_max? (by simpa using hne)
  · rw [hseqs]
    exact isGreatest_max? (by simpa using hne)

/-- The rows of a staging object. -/
def objRows (log : List (Batch F)) (o : ObjectMeta) : Set (Row (Value F)) :=
  {r | ∃ b ∈ log, b.stagingMeta = o ∧ r ∈ b.records}

theorem objRows_stagingMeta {log : List (Batch F)} (hlog : LogOk log) {b : Batch F} (hb : b ∈ log) :
    objRows log b.stagingMeta = {r | r ∈ b.records} := by
  ext r
  constructor
  · rintro ⟨b', hb', hmeta, hr⟩
    obtain rfl := eq_of_key hlog hb' hb (congrArg ObjectMeta.objectKey hmeta)
    exact hr
  · exact fun hr => ⟨b, hb, rfl, hr⟩

/-- A merge describes its output exactly where its inputs are staging objects. -/
theorem exact_jobMeta {log : List (Batch F)} (hlog : LogOk log)
    {job : Job} (hjob : JobOk log job) {rows : List (Row (Value F))}
    (hrows : ∀ r, r ∈ rows ↔ r ∈ jobRows log job) :
    Exact (jobMeta job (Engine.dedupRows rows).length).toManifestRow (Engine.dedupRows rows) := by
  have hsub : ∀ r ∈ Engine.dedupRows rows, r ∈ jobRows log job :=
    fun r hr => (hrows r).mp (Engine.dedupRows_subset rows r hr)
  have hdedup : ∀ r ∈ jobRows log job,
      ∃ r' ∈ Engine.dedupRows rows, r'.key = r.key ∧ r.seq ≤ r'.seq :=
    fun r hr => Engine.dedupRows_covers rows r ((hrows r).mpr hr)
  have hbatch : ∀ o ∈ job.objs, Bounded o.toManifestRow (objRows log o) := by
    intro o ho
    obtain ⟨b, hb, -, rfl⟩ := hjob.objs o ho
    rw [objRows_stagingMeta hlog hb]
    exact bounded_stagingMeta (hlog.nonempty b hb)
  have hinputs : ∀ r, r ∈ jobRows log job ↔ ∃ o ∈ job.objs, r ∈ objRows log o := by
    intro r
    constructor
    · rintro ⟨b, hb, ho, hr⟩
      exact ⟨_, ho, b, hb, rfl, hr⟩
    · rintro ⟨o, ho, b, hb, rfl, hr⟩
      exact ⟨b, hb, ho, hr⟩
  -- dedup drops no time and not the greatest number
  have htimes : times {r | r ∈ Engine.dedupRows rows} =
      {t | ∃ o ∈ job.objs, t ∈ times (objRows log o)} := by
    ext t
    constructor
    · rintro ⟨r, hr, rfl⟩
      obtain ⟨o, ho, hmem⟩ := (hinputs r).mp (hsub r hr)
      exact ⟨o, ho, r, hmem, rfl⟩
    · rintro ⟨o, ho, r, hr, rfl⟩
      obtain ⟨r', hr', hkey, -⟩ := hdedup r ((hinputs r).mpr ⟨o, ho, hr⟩)
      exact ⟨r', hr', congrArg Key.time hkey⟩
  have hgreatest := isGreatest_iUnion (d := 0) hjob.nonempty fun o ho => (hbatch o ho).greatest
  refine ⟨rfl, ⟨?_, ?_, ?_, ?_⟩, Versions.dedup_keys_nodup Row.key Row.seq rows⟩
  · rw [htimes]
    exact isLeast_iUnion hjob.nonempty fun o ho => (hbatch o ho).oldest
  · rw [htimes]
    exact isGreatest_iUnion hjob.nonempty fun o ho => (hbatch o ho).newest
  · obtain ⟨⟨o, ho, r, hr, hseq⟩, hle⟩ := hgreatest
    have hbound : ∀ r' ∈ Engine.dedupRows rows, r'.seq ≤ r.seq := by
      intro r' hr'
      obtain ⟨o', ho', hmem⟩ := (hinputs r').mp (hsub r' hr')
      exact hseq ▸ hle ⟨o', ho', r', hmem, rfl⟩
    obtain ⟨r', hr', -, hnewer⟩ := hdedup r ((hinputs r).mpr ⟨o, ho, hr⟩)
    refine ⟨⟨r', hr', (le_antisymm (hbound r' hr') hnewer).trans hseq⟩, ?_⟩
    rintro n ⟨r'', hr'', rfl⟩
    exact (hbound r'' hr'').trans hseq.le
  · intro r hr
    obtain ⟨o, ho, hmem⟩ := (hinputs r).mp (hsub r hr)
    exact (minSeqOf_le ho).trans ((hbatch o ho).least r hmem)

end Sources

end Summaries

end TimescaleLp
