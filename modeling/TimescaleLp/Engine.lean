import TimescaleLp.ColdStore

/-!
The query and compaction engine. Reading a list of objects fails when a file is
missing. Compaction and the federated views keep, for each `(time, tag_hash)`,
the row that `row_number() OVER (PARTITION BY time, tag_hash ORDER BY seq DESC)`
numbers first; which of several rows with the highest `seq` that is, SQL leaves
open for the views.
-/
namespace TimescaleLp.Engine

open ColdStore

universe u

variable {V : Type u}

/-- `read_parquet([...], union_by_name=true)`, but for the common types of columns and the
column that DuckDB adds for a `dt=` in a path. -/
def readParquet (c : Cold V) : List Str → Option (List (Row V))
  | [] => some []
  | k :: ks => (c.files k).bind fun rows => (readParquet c ks).map (rows ++ ·)

def dedupRows (rows : List (Row V)) : List (Row V) := Versions.dedup Row.key Row.seq rows

/-- Merge and dedup the inputs into the output object; `none` is the error for a
missing input. Returns the number of rows written. -/
def compact (c : Cold V) (inputKeys : List Str) (outputKey : Str) : Option (Cold V × ℕ) :=
  (readParquet c inputKeys).map fun rows =>
    (writeTable c outputKey (dedupRows rows), (dedupRows rows).length)

/-- `SELECT * FROM hot WHERE time >= start AND time < end` -/
def hotRange (hot : Table V) (start stop : Time) : List (Row V) :=
  (Table.rows hot).filter (fun r => start ≤ r.key.time ∧ r.key.time < stop)

def exportHotRange (c : Cold V) (hot : Table V) (outputKey : Str) (start stop : Time) :
    Cold V × ℕ :=
  (writeTable c outputKey (hotRange hot start stop), (hotRange hot start stop).length)

/-- A row a federated view can return for a key, without its `seq`. -/
def ViewRow (rows : Set (Row V)) (k : Key) (cells : Cells V) : Prop :=
  ∃ r, Newest rows k r ∧ r.cells = cells

theorem readParquet_exists (c : Cold V) (keys : List Str) (rows : List (Row V))
    (h : readParquet c keys = some rows) :
    ∀ k ∈ keys, ∃ rs, c.files k = some rs ∧ ∀ r ∈ rs, r ∈ rows := by
  induction keys generalizing rows with
  | nil => simp
  | cons a ks ih =>
    obtain ⟨ra, ha, hrest⟩ := Option.bind_eq_some_iff.mp h
    obtain ⟨rest, hks, rfl⟩ := Option.map_eq_some_iff.mp hrest
    intro k hk
    rcases List.mem_cons.mp hk with rfl | hk
    · exact ⟨ra, ha, fun r hr => List.mem_append_left _ hr⟩
    · obtain ⟨rs, hrs, hsub⟩ := ih rest hks k hk
      exact ⟨rs, hrs, fun r hr => List.mem_append_right _ (hsub r hr)⟩

theorem mem_readParquet (c : Cold V) (keys : List Str) (rows : List (Row V))
    (h : readParquet c keys = some rows) (r : Row V) (hr : r ∈ rows) :
    ∃ k ∈ keys, ∃ rs, c.files k = some rs ∧ r ∈ rs := by
  induction keys generalizing rows with
  | nil =>
    cases Option.some.inj h
    contradiction
  | cons a ks ih =>
    obtain ⟨ra, ha, hrest⟩ := Option.bind_eq_some_iff.mp h
    obtain ⟨rest, hks, rfl⟩ := Option.map_eq_some_iff.mp hrest
    rcases List.mem_append.mp hr with hr | hr
    · exact ⟨a, List.mem_cons_self, ra, ha, hr⟩
    · obtain ⟨k, hk, rs, hrs, hmem⟩ := ih rest hks hr
      exact ⟨k, List.mem_cons_of_mem a hk, rs, hrs, hmem⟩

theorem exists_readParquet {c : Cold V} {keys : List Str}
    (h : ∀ k ∈ keys, ∃ rows, c.files k = some rows) : ∃ rows, readParquet c keys = some rows := by
  induction keys with
  | nil => exact ⟨[], rfl⟩
  | cons k keys ih =>
    obtain ⟨rows, hrows⟩ := h k List.mem_cons_self
    obtain ⟨rest, hrest⟩ := ih fun k' hk' => h k' (List.mem_cons_of_mem k hk')
    exact ⟨rows ++ rest, by rw [readParquet, hrows, Option.bind_some, hrest]; rfl⟩

/-- What a merge that does not fail has done. -/
theorem compact_some {c c' : Cold V} {keys : List Str} {out : Str} {n : ℕ}
    (h : compact c keys out = some (c', n)) :
    ∃ rows, readParquet c keys = some rows ∧ c' = writeTable c out (dedupRows rows) ∧
      n = (dedupRows rows).length := by
  obtain ⟨rows, hrows, heq⟩ := Option.map_eq_some_iff.mp h
  cases heq
  exact ⟨rows, hrows, rfl, rfl⟩

theorem dedupRows_subset (rows : List (Row V)) : ∀ r ∈ dedupRows rows, r ∈ rows :=
  Versions.dedup_subset _ _ rows

theorem dedupRows_covers (rows : List (Row V)) :
    Covers {r | r ∈ dedupRows rows} {r | r ∈ rows} :=
  Versions.dedup_covers _ _ rows

theorem mem_hotRange_iff (hot : Table V) (start stop : Time) (r : Row V) :
    r ∈ hotRange hot start stop ↔
      hot.get? r.key = some r.stored ∧ start ≤ r.key.time ∧ r.key.time < stop := by
  simp [hotRange, Table.mem_rows_iff]

end TimescaleLp.Engine
