import TimescaleLp.TypeSafety

/-!
The Arrow table of a staging object. A batch goes to cold storage with the types of
the cached schema, and `pa.array` raises where a value does not fit; the records of
a workload whose columns are its own always fit.
-/
namespace TimescaleLp

inductive ArrowType
  | timestamp
  | int64
  | float64
  | bool
  | string
deriving DecidableEq

/-- What a record has in a column. -/
inductive ArrowCell (F : Type)
  | timestamp (t : Time)
  | value (v : Value F)
  | null

namespace ArrowTable

open Names Schema Store Naming Promotion Alters Widest Columns FieldTypes BigintRange TypeSafety

variable {F : Type}

/-- The array type of a column type, that of texts by default. -/
def arrowOf : PgType → ArrowType
  | .bigint => .int64
  | .doublePrecision => .float64
  | .boolean => .bool
  | _ => .string

/-- `_pa_type` -/
def paType (col : Str) (schema : TableSchema) : ArrowType :=
  if col = "time".toList then .timestamp
  else if col = "tag_hash".toList ∨ col = "seq".toList then .int64
  else if "t_".toList <+: col then .string
  else arrowOf (TempTable.colTypeFor col schema)

/-- What an array of the type takes as it is. -/
def takes : ArrowType → ArrowCell F → Bool
  | _, .null => true
  | .timestamp, .timestamp _ => true
  | .int64, .value (.int n) => decide (-2 ^ 63 ≤ n ∧ n < 2 ^ 63)
  | .float64, .value (.float _) => true
  | .bool, .value (.bool _) => true
  | .string, .value (.str _) => true
  | _, _ => false

/-- The entry of a record for a column. -/
def recordCell (r : Row (Value F)) (col : Str) : ArrowCell F :=
  if col = "time".toList then .timestamp r.key.time
  else if col = "tag_hash".toList then .value (.int r.key.tagHash)
  else if col = "seq".toList then .value (.int r.seq)
  else match r.cells col with
    | some v => .value v
    | none => .null

/-- `build_arrow_table`: one typed array for each column. It is `none` where an array
does not take a value as it is, whether `pa.array` converts the value or raises. -/
def buildArrowTable (cols : List Str) (records : List (Row (Value F))) (schema : TableSchema) :
    Option (List (Str × ArrowType × List (ArrowCell F))) :=
  cols.mapM fun col =>
    let values := records.map fun r => recordCell r col
    if values.all (takes (paType col schema)) then some (col, paType col schema, values) else none

/-- The columns of a batch, the fixed ones first. -/
def allCols (b : Batch F) : List Str := TempTable.fixedTypes.map Prod.fst ++ b.cols

/-- A call has a batch, whose table takes all that its rows have. -/
def Fits [Numerics F] (digest : Str → ℕ) (s : Service F) (g : Str × List (Point F)) : Prop :=
  ∃ s' b schema, prepare digest s g.1 g.2 = (s', .ok b) ∧ s'.cache.get? g.1 = some schema ∧
    (s'.nextSeq ≤ 2 ^ 63 → (buildArrowTable (allCols b) b.records schema).isSome = true)

theorem takes_int {n : ℤ} (h : InBigint n) : takes .int64 (.value (.int n) : ArrowCell F) = true :=
  decide_eq_true h

theorem takes_value {ty : PgType} {v : Value F} (h : Holds ty v) :
    takes (arrowOf ty) (.value v) = true := by
  obtain ⟨rfl, hfits⟩ := h
  cases v with
  | int n => exact takes_int (hfits n rfl)
  | _ => rfl

theorem paType_tagCol (t : Str) (schema : TableSchema) : paType (tagCol t) schema = .string := rfl

theorem recordCell_tagCol (r : Row (Value F)) (t : Str) : recordCell r (tagCol t) =
    match r.cells (tagCol t) with
    | some v => .value v
    | none => .null := rfl

theorem paType_fieldCol (f : Str) (schema : TableSchema) :
    paType (fieldCol f) schema = arrowOf (TempTable.colTypeFor (fieldCol f) schema) := rfl

theorem recordCell_fieldCol (r : Row (Value F)) (f : Str) : recordCell r (fieldCol f) =
    match r.cells (fieldCol f) with
    | some v => .value v
    | none => .null := rfl

/-- The type of a field whose column is its own. -/
theorem colTypeFor_fieldCol {m f : Str} {schema : TableSchema} {ty : PgType}
    (hschema : Canonical m schema) (hentry : schema.fieldCols.get? f = some (fieldCol f, ty))
    (hown : ∀ f' e, schema.fieldCols.get? f' = some e → fieldCol f' = fieldCol f → f' = f) :
    TempTable.colTypeFor (fieldCol f) schema = ty := by
  rw [TempTable.colTypeFor_of_field (c := fieldCol f) ⟨_, rfl⟩, TempTable.owner]
  cases hfind : schema.fieldCols.entries.find? fun e => e.2.1 = fieldCol f with
  | none =>
    have hmem := (Dict.get?_eq_some_iff _ _ _).mp hentry
    simpa using List.find?_eq_none.mp hfind _ hmem
  | some e =>
    have hget : schema.fieldCols.get? e.1 = some e.2 :=
      (Dict.get?_eq_some_iff _ _ _).mpr (List.mem_of_find?_eq_some hfind)
    have hcol : e.2.1 = fieldCol f := by simpa using List.find?_some hfind
    have hsame : e.1 = f := hown e.1 e.2 hget ((hschema.fields e.1 e.2 hget).symm.trans hcol)
    have hvalue : e.2 = (fieldCol f, ty) := Option.some.inj (hget.symm.trans (hsame ▸ hentry))
    rw [Option.map_some, Option.getD_some, hvalue]

theorem isSome_buildArrowTable {cols : List Str} {records : List (Row (Value F))}
    {schema : TableSchema}
    (h : ∀ c ∈ cols, ∀ r ∈ records, takes (paType c schema) (recordCell r c) = true) :
    (buildArrowTable cols records schema).isSome = true := by
  obtain ⟨table, htable⟩ := exists_mapM_iff.mpr (show ∀ c ∈ cols, ∃ array, (fun col =>
      let values := records.map fun r => recordCell r col
      if values.all (takes (paType col schema)) then some (col, paType col schema, values)
      else none) c = some array from fun c hc => by
    refine ⟨_, if_pos (List.all_eq_true.mpr fun x hx => ?_)⟩
    obtain ⟨r, hr, rfl⟩ := List.mem_map.mp hx
    exact h c hc r hr)
  rw [buildArrowTable, htable]
  rfl

section Records

variable [Numerics F] {digest : Str → ℕ} {m : Str} {points : List (Point F)}
  {schema : TableSchema} {b : Batch F} {n n' : ℕ}

theorem hashTags_lt (digest : Str → ℕ) (tags : Dict Str Str) : hashTags digest tags < 2 ^ 63 := by
  unfold hashTags
  split
  · decide
  · exact Nat.mod_lt _ (by decide)

/-- What the rows of a batch have in its columns is of the types of the arrays. -/
theorem takes_recordCell (hschema : Canonical m schema) (hcovers : TypeSafety.Covers schema points)
    (hintegers : ∀ p ∈ points, ∀ f n, p.fields.get? f = some (.int n) → InBigint n)
    (hown : ∀ f ∈ (fieldSamples points).keys, ∀ f' e, schema.fieldCols.get? f' = some e →
      fieldCol f' = fieldCol f → f' = f)
    (hpoints : points ≠ []) (hbuild : buildBatch digest schema points n = (n', .ok b))
    (hcols : (b.cols.map pgIdent).Nodup) (hseq : n' ≤ 2 ^ 63) :
    ∀ c ∈ allCols b, ∀ r ∈ b.records, takes (paType c schema) (recordCell r c) = true := by
  obtain ⟨sources, hbuilt⟩ := exists_built digest hbuild
  intro c hc r hr
  obtain ⟨p, hlast, hrow⟩ := hbuilt.rows r hr
  obtain ⟨hp, hkey⟩ := lastOf_mem digest hlast
  rcases List.mem_append.mp hc with hc | hc
  · have hfixed : c = "time".toList ∨ c = "tag_hash".toList ∨ c = "seq".toList := by
      simpa [TempTable.fixedTypes] using hc
    rcases hfixed with rfl | rfl | rfl
    · rfl
    · have hhash := hashTags_lt digest p.tags
      have hsame : hashTags digest p.tags = r.key.tagHash := congrArg Key.tagHash hkey
      exact takes_int (n := r.key.tagHash) ⟨by omega, by omega⟩
    · have hdrawn := ((Batches.buildBatch_drawn digest hpoints hbuild).seqs r hr).2
      exact takes_int (n := r.seq) ⟨by omega, by omega⟩
  · rw [hbuilt.cols] at hc
    obtain ⟨e, he, rfl⟩ := List.mem_map.mp hc
    have hvalue := hbuilt.sourceValue digest hcols hrow he
    rcases hbuilt.source digest hschema he with ⟨t, -, rfl⟩ | ⟨f, hf, ty, rfl⟩
    · replace hvalue : Except.ok ((p.tags.get? t).map .str) = Except.ok (r.cells (tagCol t)) :=
        hvalue
      rw [paType_tagCol, recordCell_tagCol, ← Except.ok.inj hvalue]
      cases p.tags.get? t <;> rfl
    · obtain ⟨ty', hentry, hmem⟩ := hbuilt.field digest hschema hf
      cases hbuilt.source_inj digest hcols he hmem rfl
      obtain ⟨cell, hcell, hholds⟩ := exists_coerce hcovers hintegers hp hf hentry
      replace hvalue : coerce (p.fields.get? f) ty = .ok (r.cells (fieldCol f)) := hvalue
      cases hcell.symm.trans hvalue
      rw [paType_fieldCol, recordCell_fieldCol, colTypeFor_fieldCol hschema hentry (hown f hf)]
      cases hr' : r.cells (fieldCol f) with
      | none => rfl
      | some v => exact takes_value (hholds v hr')

end Records

section Workload

variable [Numerics F] (digest : Str → ℕ) (on : Bool) {batches : List (List (Point F))}

/-- A measurement of a batch of the workload has a table that takes its rows. -/
theorem group_fits (hsane : Sane batches) {s : Service F} (hs : Safe batches s)
    {g : Str × List (Point F)} (hg : g ∈ groupsOf batches) : Fits digest s g := by
  obtain ⟨s'', hwrite, hs''⟩ := group_safe digest true hsane hs hg
  have hpart := part_of_mem hg
  obtain ⟨vs, htypes, -⟩ := hs.exists_types hpart
  obtain ⟨vs'', htypes'', hseen⟩ := hs''.exists_types hpart
  obtain ⟨s', b, t, hprepare, hcommit, heq⟩ := exists_committed hwrite
  obtain ⟨schema, s₁, hensure, hbuild, hs', -⟩ := Sequence.prepare_ok digest hpart.ne_nil hprepare
  have hcanonical := (htypes.named.ensureSchema g.1 (tagNames g.2) (fieldSamples g.2)).2 schema
    (by rw [hensure])
  have hcached : s'.cache.get? g.1 = some schema := by
    rw [hs']
    exact (ensureSchema_ok hensure).2.2
  refine ⟨s', b, schema, hprepare, hcached, fun hseq => isSome_buildArrowTable ?_⟩
  refine takes_recordCell hcanonical (covers_of_ensureSchema htypes hensure)
    (fun p hp f n hget => hsane.integers p (hpart.mem p hp).1 f n hget) ?_ hpart.ne_nil hbuild
    (Batches.commit_cols_nodup hcommit) hseq
  intro f hf f' e hentry hcol
  -- the schema knows no other fields than those of the workload
  have hknown : (seen g.1 batches f').Nonempty := by
    have hty := htypes''.entries f'
    have hcache : s''.cache.get? g.1 = some schema := by rw [heq, ← hcached]
    rw [schemaOf_of_cached hcache, hentry] at hty
    obtain ⟨v, hv, -⟩ := (hty.widest e.2 rfl).needed
    exact hseen f' ⟨v, hv⟩
  obtain ⟨p, hp, hkey⟩ := (mem_fieldSamples_iff f).mp hf
  obtain ⟨v, hv⟩ := (Dict.mem_keys_iff _ _).mp hkey
  exact hsane.injOn g.1 hknown ⟨v, hpart.seen ⟨p, hp, hv⟩⟩ (congrArg pgIdent hcol)

/-- Through the whole of such a workload, no staging object fails for a value that is
not of the type of its column. -/
theorem arrow_fits (hsane : Sane batches) (clock : ℕ) :
    Runs.Along (writeOne digest on) (Fits digest) (Sequence.start clock).service
      (groupsOf batches) := by
  refine Runs.Along.of_invariant (I := Safe batches) (G := fun _ g => g ∈ groupsOf batches) ?_ ?_
    (safe_start clock) (Runs.along_of_forall (fun g hg _ => hg) _)
  · intro s g t hs hg hst
    obtain ⟨t', hst', ht'⟩ := group_safe digest on hsane hs hg
    cases hst.symm.trans hst'
    exact ht'
  · exact fun s g hs hg => group_fits digest hsane hs hg

theorem mixedBatches_fit :
    Runs.Along (writeOne (fun _ => 0) true) (Fits (fun _ => 0)) (Sequence.start 1).service
      (groupsOf mixedBatches) :=
  arrow_fits (fun _ => 0) true mixedBatches_sane 1

end Workload

end ArrowTable

end TimescaleLp
