import TimescaleLp.Sequence

/-!
What a query returns for a key. Without a time window the view of a table has
the hot rows, the rows that cold holds, or both. When one recorded row is newer
than all that hot and the exports have for its key, every read of cold returns
that row.
-/
namespace TimescaleLp.Reads

open ColdStore Tiering Schedule Sequence

variable {F : Type} {w : World (Value F)} {recorded : List (Batch F)} {table : Str}

theorem mem_viewRows_iff (w : World (Value F)) (tier : Tier) (table : Str) (r : Row (Value F)) :
    r ∈ viewRows w tier table none none ↔
      tier ≠ .cold ∧ (w.hot table).get? r.key = some r.stored ∨
        tier ≠ .hot ∧ r ∈ held w.cold table := by
  have hcold : (∃ o ∈ objects w.cold table none,
      ∃ rows, w.cold.files o.objectKey = some rows ∧ r ∈ rows) ↔ r ∈ held w.cold table := by
    constructor
    · rintro ⟨o, ho, rows, hrows, hr⟩
      obtain ⟨hk, hm, -⟩ := (mem_objects_iff _ _ _ _).mp ho
      exact ⟨o.objectKey, o.toManifestRow, rows, hk, hm, trivial, hrows, hr⟩
    · rintro ⟨k, e, rows, hk, hm, -, hrows, hr⟩
      exact ⟨⟨e, k⟩, (mem_objects_iff _ _ _ _).mpr ⟨hk, hm, Or.inl rfl⟩, rows, hrows, hr⟩
  simp only [viewRows, selectOverlapping_none, Set.mem_ofPred_eq, Table.mem_rows_iff, hcold]

/-- A hot read returns the stored row. -/
theorem read_hot_iff (w : World (Value F)) (table : Str) (k : Key) (cells : Cells (Value F)) :
    Read w .hot table k cells ↔ ∃ stored, (w.hot table).get? k = some stored ∧
      stored.cells = cells := by
  have hmem : ∀ r, r ∈ viewRows w .hot table none none ↔
      (w.hot table).get? r.key = some r.stored := by
    intro r
    simp [mem_viewRows_iff]
  constructor
  · rintro ⟨r, ⟨hr, rfl, -⟩, rfl⟩
    exact ⟨r.stored, (hmem r).mp hr, rfl⟩
  · rintro ⟨stored, hstored, rfl⟩
    refine ⟨stored.row k, ⟨(hmem _).mpr hstored, rfl, fun r hr hk => ?_⟩, rfl⟩
    rw [hmem, hk, hstored] at hr
    exact (congrArg Stored.seq (Option.some.inj hr)).ge

theorem viewRows_cold (w : World (Value F)) (table : Str) :
    viewRows w .cold table none none = held w.cold table := by
  ext r
  simp [mem_viewRows_iff]

/-- The view of both tiers for a key that hot has. -/
theorem newest_view_iff {k : Key} {stored : Stored (Value F)}
    (hstored : (w.hot table).get? k = some stored) (r : Row (Value F)) :
    Newest (viewRows w .all table none none) k r ↔
      Newest (insert (stored.row k) (held w.cold table)) k r := by
  refine Versions.newest_congr (fun x hx => ?_) r
  subst hx
  simp only [mem_viewRows_iff, hstored, Set.mem_insert_iff, Option.some.injEq]
  constructor
  · rintro (⟨-, rfl⟩ | ⟨-, hx⟩)
    · exact Or.inl rfl
    · exact Or.inr hx
  · rintro (hx | hx)
    · exact Or.inl ⟨by simp, by rw [hx]; rfl⟩
    · exact Or.inr ⟨by simp, hx⟩

theorem read_all_hot {k : Key} {stored : Stored (Value F)}
    (hstored : (w.hot table).get? k = some stored) (cells : Cells (Value F)) :
    Read w .all table k cells ↔
      Engine.ViewRow (insert (stored.row k) (held w.cold table)) k cells :=
  exists_congr fun r => and_congr_left' (newest_view_iff hstored r)

theorem read_all_cold {k : Key} (hnone : (w.hot table).get? k = none) (cells : Cells (Value F)) :
    Read w .all table k cells ↔ Engine.ViewRow (held w.cold table) k cells := by
  refine exists_congr fun r => and_congr_left' (Versions.newest_congr (fun x hx => ?_) r)
  subst hx
  simp [mem_viewRows_iff, hnone]

/-- A recorded row that is newest of its key, with only older exports. -/
structure Latest (w : World (Value F)) (recorded : List (Batch F)) (table : Str)
    (r : Row (Value F)) : Prop where
  newest : Newest (rowsOf recorded table) r.key r
  exported : ∀ s ∈ heldIn w.cold table (fun k _ => k ∈ exportKeys), s.key = r.key → s.seq < r.seq

theorem newest_held_iff (h : Inv w recorded) {r : Row (Value F)} (hr : Latest w recorded table r)
    (s : Row (Value F)) : Newest (held w.cold table) r.key s ↔ s = r := by
  have hdistinct := Vault.distinct_rowsOf h.log table
  have hsplit : ∀ s ∈ held w.cold table, s.key = r.key →
      s ∈ rowsOf recorded table ∨ s.seq < r.seq := by
    rintro s ⟨k, e, rows, hk, hm, -, hrows, hs⟩ hkey
    by_cases hin : k ∈ exportKeys
    · exact Or.inr (hr.exported s ⟨k, e, rows, hk, hm, hin, hrows, hs⟩ hkey)
    · exact Or.inl (h.vault.kept_subset table ⟨k, e, rows, hk, hm, hin, hrows, hs⟩)
  have hheld : r ∈ held w.cold table := by
    obtain ⟨s, hs, hkey, hle⟩ := h.vault.covers table r hr.newest.1
    have hs' := h.vault.kept_subset table hs
    have heq := hdistinct s hs' r hr.newest.1 hkey
      (le_antisymm (hr.newest.2.2 s hs' hkey) hle)
    exact heq ▸ heldIn_mono _ _ (fun _ _ _ => trivial) hs
  constructor
  · rintro ⟨hs, hkey, hmax⟩
    have hle := hmax r hheld rfl
    rcases hsplit s hs hkey with hs' | hlt
    · exact hdistinct s hs' r hr.newest.1 hkey (le_antisymm (hr.newest.2.2 s hs' hkey) hle)
    · exact absurd hle (Nat.not_le.mpr hlt)
  · rintro rfl
    refine ⟨hheld, rfl, fun s hs hkey => ?_⟩
    rcases hsplit s hs hkey with hs' | hlt
    · exact hr.newest.2.2 s hs' hkey
    · exact hlt.le

/-- The hot row of the key may be older, or the same row. -/
theorem read_all_iff (h : Inv w recorded) {r : Row (Value F)} (hr : Latest w recorded table r)
    (hhot : ∀ stored, (w.hot table).get? r.key = some stored →
      stored.seq < r.seq ∨ stored.seq = r.seq ∧ stored.cells = r.cells)
    (cells : Cells (Value F)) : Read w .all table r.key cells ↔ cells = r.cells := by
  have hview : ∀ s, s ∈ viewRows w .all table none none ↔
      (w.hot table).get? s.key = some s.stored ∨ s ∈ held w.cold table := by
    intro s
    simp [mem_viewRows_iff]
  have hcold := (newest_held_iff h hr r).mpr rfl
  constructor
  · rintro ⟨s, ⟨hs, hkey, hmax⟩, rfl⟩
    have hle := hmax r ((hview r).mpr (Or.inr hcold.1)) rfl
    rcases (hview s).mp hs with hs | hs
    · rcases hhot s.stored (hkey ▸ hs) with hlt | ⟨-, hcells⟩
      · exact absurd hle (Nat.not_le.mpr hlt)
      · exact hcells
    · have hnewest : Newest (held w.cold table) r.key s :=
        ⟨hs, hkey, fun x hx hxk => (hcold.2.2 x hx hxk).trans hle⟩
      rw [(newest_held_iff h hr s).mp hnewest]
  · rintro rfl
    refine ⟨r, ⟨(hview r).mpr (Or.inr hcold.1), rfl, fun s hs hkey => ?_⟩, rfl⟩
    rcases (hview s).mp hs with hs | hs
    · rcases hhot s.stored (hkey ▸ hs) with hlt | ⟨hseq, -⟩
      · exact hlt.le
      · exact hseq.le
    · exact hcold.2.2 s hs hkey

end TimescaleLp.Reads
