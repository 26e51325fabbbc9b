import TimescaleLp.Store

/-!
What is known of a batch once its rows are built. Its rows carry sequence
numbers drawn together, one a point in the order of the points; a key keeps its
last row, which is the newest of that key. The sequence numbers make the names
of staging objects unique.
-/
namespace TimescaleLp

/-- The facts about a batch whose sequence numbers lie in `[lo, hi)`. -/
structure Batch.Drawn {F : Type} (b : Batch F) (lo hi : ℕ) : Prop where
  nonempty : b.records ≠ []
  keys : (b.records.map Row.key).Nodup
  seqs : ∀ r ∈ b.records, lo ≤ r.seq ∧ r.seq < hi
  distinct : ∀ r ∈ b.records, ∀ r' ∈ b.records, r.seq = r'.seq → r = r'

namespace Batches

open Store Schema

variable {F : Type}

section Dedup

variable (rows : List (Row (Value F)))

private theorem get?_foldl_set (d : Dict Key (Row (Value F))) (k : Key) :
    (rows.foldl (fun d r => d.set r.key r) d).get? k =
      ((rows.filter (fun r => r.key = k)).getLast?).or (d.get? k) := by
  induction rows generalizing d with
  | nil => simp
  | cons r rows ih =>
    rw [List.foldl_cons, ih]
    by_cases hr : r.key = k
    · subst hr
      cases hlast : (rows.filter (fun x => x.key = r.key)).getLast? with
      | none => simp [List.getLast?_cons, hlast]
      | some x => simp [List.getLast?_cons, hlast]
    · have hk : k ≠ r.key := Ne.symm hr
      simp [hr, Dict.get?_set, hk]

private theorem get?_deduped (k : Key) :
    (rows.foldl (fun d r => d.set r.key r) (Dict.empty : Dict Key (Row (Value F)))).get? k =
      (rows.filter (fun r => r.key = k)).getLast? := by
  rw [get?_foldl_set]
  simp

/-- The dedup keeps the last row of each key. -/
theorem mem_dedupRecords_iff (r : Row (Value F)) :
    r ∈ dedupRecords rows ↔ (rows.filter (fun x => x.key = r.key)).getLast? = some r := by
  rw [dedupRecords, Dict.mem_values_iff]
  constructor
  · rintro ⟨k, hk⟩
    rw [get?_deduped] at hk
    have hkey : r.key = k := by simpa using (List.mem_filter.mp (List.mem_of_getLast? hk)).2
    rw [hkey]
    exact hk
  · intro h
    exact ⟨r.key, (get?_deduped rows r.key).trans h⟩

theorem dedupRecords_subset : ∀ r ∈ dedupRecords rows, r ∈ rows := fun r hr =>
  (List.mem_filter.mp (List.mem_of_getLast? ((mem_dedupRecords_iff rows r).mp hr))).1

theorem dedupRecords_keys_nodup : ((dedupRecords rows).map Row.key).Nodup := by
  rw [dedupRecords]
  generalize hd : rows.foldl (fun d r => d.set r.key r)
    (Dict.empty : Dict Key (Row (Value F))) = d
  have hkeys : d.values.map Row.key = d.keys := by
    rw [Dict.values, Dict.keys, List.map_map]
    apply List.map_congr_left
    rintro ⟨k, r⟩ he
    have hk : d.get? k = some r := (Dict.get?_eq_some_iff d k r).mpr he
    rw [← hd, get?_deduped] at hk
    simpa using (List.mem_filter.mp (List.mem_of_getLast? hk)).2
  rw [hkeys]
  exact d.nodup

theorem exists_mem_dedupRecords (r : Row (Value F)) (hr : r ∈ rows) :
    ∃ s ∈ dedupRecords rows, s.key = r.key := by
  have hmem : r ∈ rows.filter (fun x => x.key = r.key) := by simp [hr]
  obtain ⟨s, hs⟩ : ∃ s, (rows.filter (fun x => x.key = r.key)).getLast? = some s :=
    Option.isSome_iff_exists.mp (by simpa using ⟨r, hr, rfl⟩)
  have hkey : s.key = r.key := by simpa using (List.mem_filter.mp (List.mem_of_getLast? hs)).2
  refine ⟨s, (mem_dedupRecords_iff rows s).mpr ?_, hkey⟩
  rw [hkey]
  exact hs

theorem dedupRecords_ne_nil (h : rows ≠ []) : dedupRecords rows ≠ [] := by
  obtain ⟨r, hr⟩ := List.exists_mem_of_ne_nil rows h
  obtain ⟨s, hs, -⟩ := exists_mem_dedupRecords rows r hr
  exact List.ne_nil_of_mem hs

/-- When sequence numbers grow along the list, the row that is kept is newest. -/
theorem newest_of_mem_dedupRecords (hseqs : rows.Pairwise (fun r s => r.seq < s.seq))
    {r : Row (Value F)} (hr : r ∈ dedupRecords rows) : Newest {s | s ∈ rows} r.key r := by
  refine ⟨dedupRecords_subset rows r hr, rfl, ?_⟩
  intro s hs hkey
  obtain ⟨before, hbefore⟩ :=
    List.getLast?_eq_some_iff.mp ((mem_dedupRecords_iff rows r).mp hr)
  have hmem : s ∈ before ++ [r] := by
    rw [← hbefore]
    exact List.mem_filter.mpr ⟨hs, by simpa using hkey⟩
  have hsorted : (before ++ [r]).Pairwise (fun r s => r.seq < s.seq) := by
    rw [← hbefore]
    exact hseqs.sublist List.filter_sublist
  rcases List.mem_append.mp hmem with hs | hs
  · exact le_of_lt ((List.pairwise_append.mp hsorted).2.2 s hs r (List.mem_singleton_self r))
  · rw [List.mem_singleton.mp hs]

end Dedup

section Rows

variable (digest : Str → ℕ) [Numerics F]

/-- The row is the one built from the point, under some sequence number. -/
def RowOf (sources : List (Str × Source)) (p : Point F) (r : Row (Value F)) : Prop :=
  r.key = pointKey digest p ∧ ∃ values, rowValues p sources = .ok values ∧ r.cells = cellsOf values

theorem buildRows_le (sources : List (Str × Source)) (n : ℕ) (points : List (Point F)) :
    n ≤ (buildRows digest sources n points).1 := by
  induction points generalizing n with
  | nil => exact le_rfl
  | cons p ps ih =>
    rw [buildRows]
    cases rowValues p sources with
    | error e => exact Nat.le_succ n
    | ok values => exact (Nat.le_succ n).trans (ih (n + 1))

/-- Each point draws the next sequence number. -/
theorem buildRows_ok {sources : List (Str × Source)} {n n' : ℕ} {points : List (Point F)}
    {rows : List (Row (Value F))} (h : buildRows digest sources n points = (n', .ok rows)) :
    n' = n + points.length ∧ rows.map Row.seq = List.range' n points.length ∧
      List.Forall₂ (RowOf digest sources) points rows := by
  induction points generalizing n rows with
  | nil =>
    cases h
    exact ⟨rfl, rfl, List.Forall₂.nil⟩
  | cons p ps ih =>
    rw [buildRows] at h
    cases hvalues : rowValues p sources with
    | error e => simp [hvalues] at h
    | ok values =>
      simp only [hvalues] at h
      cases hrest : buildRows digest sources (n + 1) ps with
      | mk m res =>
        simp only [hrest, Prod.mk.injEq] at h
        obtain ⟨rfl, hrows⟩ := h
        cases res with
        | error e => simp [Except.map] at hrows
        | ok rest =>
          cases hrows
          obtain ⟨hm, hseqs, hrest⟩ := ih hrest
          refine ⟨?_, ?_, List.Forall₂.cons ⟨rfl, values, hvalues, rfl⟩ hrest⟩
          · simp only [List.length_cons]
            omega
          · rw [List.map_cons, hseqs, List.length_cons, List.range'_succ]

theorem buildBatch_le (schema : TableSchema) (points : List (Point F)) (n : ℕ) :
    n ≤ (buildBatch digest schema points n).1 := by
  rw [buildBatch]
  cases columnSources schema (tagNames points) (fieldSamples points).keys with
  | none => exact le_rfl
  | some sources => exact buildRows_le digest sources n points

/-- The columns and rows of a batch that was built without an error. -/
theorem buildBatch_ok {schema : TableSchema} {points : List (Point F)} {n n' : ℕ} {b : Batch F}
    (h : buildBatch digest schema points n = (n', .ok b)) :
    ∃ sources rows, columnSources schema (tagNames points) (fieldSamples points).keys =
        some sources ∧
      buildRows digest sources n points = (n', .ok rows) ∧
      b = ⟨schema.table, sources.map Prod.fst, dedupRecords rows⟩ := by
  rw [buildBatch] at h
  cases hsources : columnSources schema (tagNames points) (fieldSamples points).keys with
  | none => simp [hsources] at h
  | some sources =>
    simp only [hsources] at h
    cases hrows : buildRows digest sources n points with
    | mk m res =>
      simp only [hrows, Prod.mk.injEq] at h
      obtain ⟨rfl, hb⟩ := h
      cases res with
      | error e => simp [Except.map] at hb
      | ok rows =>
        cases hb
        exact ⟨sources, rows, rfl, hrows, rfl⟩

theorem buildBatch_drawn {schema : TableSchema} {points : List (Point F)} {n n' : ℕ}
    {b : Batch F} (hpoints : points ≠ [])
    (h : buildBatch digest schema points n = (n', .ok b)) : b.Drawn n n' := by
  obtain ⟨sources, rows, -, hrows, rfl⟩ := buildBatch_ok digest h
  obtain ⟨rfl, hseqs, hof⟩ := buildRows_ok digest hrows
  have hrange : ∀ r ∈ rows, n ≤ r.seq ∧ r.seq < n + points.length := by
    intro r hr
    have hmem : r.seq ∈ rows.map Row.seq := List.mem_map_of_mem hr
    rw [hseqs, List.mem_range'_1] at hmem
    exact hmem
  have hinj : ∀ r ∈ rows, ∀ r' ∈ rows, r.seq = r'.seq → r = r' := by
    have hnodup : (rows.map Row.seq).Nodup := hseqs ▸ List.nodup_range'
    exact fun r hr r' hr' heq => List.inj_on_of_nodup_map hnodup hr hr' heq
  have hne : rows ≠ [] := by
    rintro rfl
    exact hpoints (List.length_eq_zero_iff.mp hof.length_eq)
  have hsub := dedupRecords_subset rows
  exact ⟨dedupRecords_ne_nil rows hne, dedupRecords_keys_nodup rows,
    fun r hr => hrange r (hsub r hr),
    fun r hr r' hr' => hinj r (hsub r hr) r' (hsub r' hr')⟩

end Rows

section Commit

/-- What an upsert leaves under the key of the row. -/
def upserted (cols : List Str) (old : Option (Stored (Value F))) (r : Row (Value F)) :
    Stored (Value F) :=
  ⟨r.seq, fun c => (insertedCell cols r c).getD (old.bind fun o => o.cells c)⟩

theorem get?_upsertRow (cols : List Str) (t : Table (Value F)) (r : Row (Value F)) (k : Key) :
    (upsertRow cols t r).get? k =
      if k = r.key then some (upserted cols (t.get? r.key) r) else t.get? k :=
  Dict.get?_set _ _ _ _

private theorem get?_foldl_upsert_of_notMem (cols : List Str) (records : List (Row (Value F)))
    (t : Table (Value F)) {k : Key} (hk : k ∉ records.map Row.key) :
    (records.foldl (upsertRow cols) t).get? k = t.get? k := by
  induction records generalizing t with
  | nil => rfl
  | cons r rs ih =>
    rw [List.map_cons, List.mem_cons, not_or] at hk
    rw [List.foldl_cons, ih _ hk.2, get?_upsertRow, if_neg hk.1]

private theorem get?_foldl_upsert_of_mem (cols : List Str) (records : List (Row (Value F)))
    (t : Table (Value F)) (hkeys : (records.map Row.key).Nodup) {r : Row (Value F)}
    (hr : r ∈ records) :
    (records.foldl (upsertRow cols) t).get? r.key =
      some (upserted cols (t.get? r.key) r) := by
  induction records generalizing t with
  | nil => contradiction
  | cons a rs ih =>
    rw [List.map_cons, List.nodup_cons] at hkeys
    rw [List.foldl_cons]
    rcases List.mem_cons.mp hr with rfl | hr
    · rw [get?_foldl_upsert_of_notMem cols rs _ hkeys.1, get?_upsertRow, if_pos rfl]
    · have hne : r.key ≠ a.key := fun heq => hkeys.1 (heq ▸ List.mem_map_of_mem hr)
      rw [ih _ hkeys.2 hr, get?_upsertRow, if_neg hne]

variable {b : Batch F} {t t' : Table (Value F)} (h : commit b t = some t')
include h

theorem commit_cols_nodup : (b.cols.map Names.pgIdent).Nodup := by
  by_contra hcols
  simp [commit, hcols] at h

private theorem commit_eq : t' = b.records.foldl (upsertRow b.cols) t := by
  rw [commit, if_pos (commit_cols_nodup h)] at h
  exact (Option.some.inj h).symm

/-- A key that is not in the batch keeps its row. -/
theorem get?_commit_of_notMem {k : Key} (hk : k ∉ b.records.map Row.key) :
    t'.get? k = t.get? k := by
  rw [commit_eq h]
  exact get?_foldl_upsert_of_notMem b.cols b.records t hk

theorem get?_commit_of_mem (hkeys : (b.records.map Row.key).Nodup) {r : Row (Value F)}
    (hr : r ∈ b.records) : t'.get? r.key = some (upserted b.cols (t.get? r.key) r) := by
  rw [commit_eq h]
  exact get?_foldl_upsert_of_mem b.cols b.records t hkeys hr

end Commit

theorem minSeq_mem {b : Batch F} (h : b.records ≠ []) : ∃ r ∈ b.records, r.seq = b.minSeq := by
  have hne : (b.records.map (·.seq)).min? ≠ none := by simpa using h
  obtain ⟨a, ha⟩ := Option.ne_none_iff_exists'.mp hne
  have hmem := List.min?_mem ha
  simpa [Batch.minSeq, ha] using hmem

end Batches

end TimescaleLp
