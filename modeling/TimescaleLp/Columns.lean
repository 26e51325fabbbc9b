import TimescaleLp.Batches
import TimescaleLp.Naming
import Mathlib.Data.List.Dedup
import Mathlib.Data.List.Find

/-!
What the rows of a batch hold. The columns of a batch are those of all tags and
fields of its points; a row is that of the last point of its key, with NULL in
the columns the point has no value for. A column is named here as the database
stores it.
-/
namespace TimescaleLp.Columns

open Names Schema Store Naming Batches

variable {F : Type}

/-- The cells of a point. -/
def pointCells (p : Point F) : Cells (Value F) := fun c =>
  ((p.tags.entries.find? fun e => colOfTag e.1 = c).map fun e => .str e.2).or
    ((p.fields.entries.find? fun e => colOfField e.1 = c).map Prod.snd)

/-- The last point of a key. -/
def lastOf (digest : Str → ℕ) (points : List (Point F)) (k : Key) : Option (Point F) :=
  (points.filter fun p => pointKey digest p = k).getLast?

section Points

variable {p : Point F} {points : List (Point F)}

theorem pointCells_ne_none_iff (p : Point F) (c : Str) : pointCells p c ≠ none ↔
    (∃ t ∈ p.tags.keys, colOfTag t = c) ∨ ∃ f ∈ p.fields.keys, colOfField f = c := by
  simp only [pointCells, ne_eq, Option.or_eq_none_iff, Option.map_eq_none_iff,
    List.find?_eq_none, decide_eq_true_eq, Dict.keys, List.mem_map]
  grind

theorem pointCells_colOfTag_ne_none {t : Str} (ht : t ∈ p.tags.keys) :
    pointCells p (colOfTag t) ≠ none :=
  (pointCells_ne_none_iff p _).mpr (Or.inl ⟨t, ht, rfl⟩)

/-- A point whose tags have columns of their own. -/
theorem pointCells_colOfTag {t : Str} (h : ∀ t' ∈ p.tags.keys, colOfTag t' = colOfTag t → t' = t) :
    pointCells p (colOfTag t) = (p.tags.get? t).map .str := by
  have htags : (p.tags.entries.find? fun e => colOfTag e.1 = colOfTag t) =
      p.tags.entries.find? fun e => e.1 = t := by
    refine List.find?_congr fun e he => decide_eq_decide.mpr ⟨?_, fun heq => heq ▸ rfl⟩
    exact h e.1 (List.mem_map_of_mem he)
  have hfields : (p.fields.entries.find? fun e => colOfField e.1 = colOfTag t) = none := by
    rw [List.find?_eq_none]
    intro e _
    simpa using (colOfTag_ne_colOfField t e.1).symm
  rw [pointCells, htags, hfields, Dict.get?]
  simp [Function.comp_def]

theorem pointCells_colOfField {f : Str}
    (h : ∀ f' ∈ p.fields.keys, colOfField f' = colOfField f → f' = f) :
    pointCells p (colOfField f) = p.fields.get? f := by
  have htags : (p.tags.entries.find? fun e => colOfTag e.1 = colOfField f) = none := by
    rw [List.find?_eq_none]
    intro e _
    simpa using colOfTag_ne_colOfField e.1 f
  have hfields : (p.fields.entries.find? fun e => colOfField e.1 = colOfField f) =
      p.fields.entries.find? fun e => e.1 = f := by
    refine List.find?_congr fun e he => decide_eq_decide.mpr ⟨?_, fun heq => heq ▸ rfl⟩
    exact h e.1 (List.mem_map_of_mem he)
  rw [pointCells, htags, hfields, Dict.get?, Option.map_none, Option.none_or]

/-- What stands in the column of a tag is a tag of the point. -/
theorem exists_tag_of_pointCells {t : Str} {v : Value F} (h : pointCells p (colOfTag t) = some v) :
    ∃ t' w, colOfTag t' = colOfTag t ∧ p.tags.get? t' = some w ∧ v = .str w := by
  rw [pointCells, Option.or_eq_some_iff] at h
  rcases h with h | ⟨-, h⟩
  · obtain ⟨⟨t', w⟩, hfind, rfl⟩ := Option.map_eq_some_iff.mp h
    refine ⟨t', w, by simpa using List.find?_some hfind, ?_, rfl⟩
    exact (Dict.get?_eq_some_iff _ _ _).mpr (List.mem_of_find?_eq_some hfind)
  · obtain ⟨e, hfind, -⟩ := Option.map_eq_some_iff.mp h
    exact absurd (by simpa using List.find?_some hfind) (colOfTag_ne_colOfField t e.1).symm

theorem exists_field_of_pointCells {f : Str} {v : Value F}
    (h : pointCells p (colOfField f) = some v) :
    ∃ f', colOfField f' = colOfField f ∧ p.fields.get? f' = some v := by
  rw [pointCells, Option.or_eq_some_iff] at h
  rcases h with h | ⟨-, h⟩
  · obtain ⟨e, hfind, -⟩ := Option.map_eq_some_iff.mp h
    exact absurd (by simpa using List.find?_some hfind) (colOfTag_ne_colOfField e.1 f)
  · obtain ⟨⟨f', w⟩, hfind, rfl⟩ := Option.map_eq_some_iff.mp h
    refine ⟨f', by simpa using List.find?_some hfind, ?_⟩
    exact (Dict.get?_eq_some_iff _ _ _).mpr (List.mem_of_find?_eq_some hfind)

theorem mem_tagNames_iff (t : Str) : t ∈ tagNames points ↔ ∃ p ∈ points, t ∈ p.tags.keys := by
  rw [tagNames, List.mem_dedup, List.mem_flatMap]

private theorem mem_keys_keepWidest (samples : Dict Str (Value F)) (e : Str × Value F) (f : Str) :
    f ∈ (keepWidest samples e).keys ↔ f ∈ samples.keys ∨ f = e.1 := by
  simp only [Dict.mem_keys_iff, keepWidest]
  split
  · rw [Dict.get?_set]
    by_cases hf : f = e.1 <;> simp [hf]
  · rename_i v hv
    by_cases hf : f = e.1
    · subst hf
      split <;> simp [hv]
    · split <;> simp [hf, Dict.get?_set]

private theorem mem_keys_foldl_keepWidest (es : List (Str × Value F))
    (samples : Dict Str (Value F)) (f : Str) :
    f ∈ (es.foldl keepWidest samples).keys ↔ f ∈ samples.keys ∨ f ∈ es.map Prod.fst := by
  induction es generalizing samples with
  | nil => simp
  | cons e es ih => simp [ih, mem_keys_keepWidest, or_assoc]

theorem mem_fieldSamples_iff (f : Str) :
    f ∈ (fieldSamples points).keys ↔ ∃ p ∈ points, f ∈ p.fields.keys := by
  rw [fieldSamples, mem_keys_foldl_keepWidest]
  simp only [Dict.keys, Dict.empty, List.map_nil, List.not_mem_nil, false_or, List.mem_map,
    List.mem_flatMap]
  grind

end Points

section Sources

variable {schema : TableSchema} {sources : List (Str × Source)}

/-- The results in order are what each element gives. -/
theorem map_eq_of_mapM {α β : Type} {g : α → Option β} {xs : List α} {ys : List β}
    (h : xs.mapM g = some ys) : xs.map g = ys.map some := by
  induction xs generalizing ys with
  | nil =>
    cases h
    rfl
  | cons x xs ih =>
    rw [List.mapM_cons] at h
    obtain ⟨y, hx, h⟩ := Option.bind_eq_some_iff.mp h
    obtain ⟨ys', hxs, h⟩ := Option.bind_eq_some_iff.mp h
    cases h
    rw [List.map_cons, List.map_cons, hx, ih hxs]

theorem mem_of_mapM {α β : Type} {g : α → Option β} {xs : List α} {ys : List β}
    (h : xs.mapM g = some ys) (y : β) : y ∈ ys ↔ ∃ x ∈ xs, g x = some y := by
  rw [← List.mem_map_of_injective (Option.some_injective β), ← map_eq_of_mapM h, List.mem_map]

theorem exists_of_mapM {α β : Type} {g : α → Option β} {xs : List α} {ys : List β}
    (h : xs.mapM g = some ys) : ∀ x ∈ xs, ∃ y, g x = some y := by
  intro x hx
  have hmem : g x ∈ ys.map some := map_eq_of_mapM h ▸ List.mem_map_of_mem hx
  obtain ⟨y, _, hy⟩ := List.mem_map.mp hmem
  exact ⟨y, hy.symm⟩

theorem exists_mapM_iff {α β : Type} {g : α → Option β} {xs : List α} :
    (∃ ys, xs.mapM g = some ys) ↔ ∀ x ∈ xs, ∃ y, g x = some y := by
  constructor
  · intro ⟨ys, h⟩
    exact exists_of_mapM h
  · intro h
    induction xs with
    | nil => exact ⟨[], rfl⟩
    | cons x xs ih =>
      obtain ⟨y, hy⟩ := h x List.mem_cons_self
      obtain ⟨ys, hys⟩ := ih fun x' hx' => h x' (List.mem_cons_of_mem x hx')
      exact ⟨y :: ys, by rw [List.mapM_cons, hy, hys]; rfl⟩

theorem mapM_eq_some_map {α β : Type} {g : α → Option β} {f : α → β} {xs : List α}
    (h : ∀ x ∈ xs, g x = some (f x)) : xs.mapM g = some (xs.map f) := by
  induction xs with
  | nil => rfl
  | cons x xs ih =>
    rw [List.mapM_cons, h x List.mem_cons_self, ih fun x' hx' => h x' (List.mem_cons_of_mem x hx')]
    rfl

/-- Every name that is looked up is found. -/
theorem exists_of_columnSources {tagNames fieldNames : List Str}
    (h : columnSources schema tagNames fieldNames = some sources) :
    (∀ t ∈ tagNames, ∃ col, schema.tagCols.get? t = some col) ∧
      ∀ f ∈ fieldNames, ∃ e, schema.fieldCols.get? f = some e := by
  obtain ⟨tags, htags, h⟩ := Option.bind_eq_some_iff.mp h
  obtain ⟨fields, hfields, -⟩ := Option.bind_eq_some_iff.mp h
  constructor
  · intro t ht
    obtain ⟨e, he⟩ := exists_of_mapM htags t ht
    obtain ⟨col, hcol, -⟩ := Option.map_eq_some_iff.mp he
    exact ⟨col, hcol⟩
  · intro f hf
    obtain ⟨e, he⟩ := exists_of_mapM hfields f hf
    obtain ⟨e', he', -⟩ := Option.map_eq_some_iff.mp he
    exact ⟨e', he'⟩

theorem mem_columnSources_iff {tagNames fieldNames : List Str}
    (h : columnSources schema tagNames fieldNames = some sources) (e : Str × Source) :
    e ∈ sources ↔ (∃ t ∈ tagNames, schema.tagCols.get? t = some e.1 ∧ e.2 = .tag t) ∨
      ∃ f ∈ fieldNames, ∃ ty, schema.fieldCols.get? f = some (e.1, ty) ∧ e.2 = .field f ty := by
  obtain ⟨tags, htags, h⟩ := Option.bind_eq_some_iff.mp h
  obtain ⟨fields, hfields, h⟩ := Option.bind_eq_some_iff.mp h
  cases h
  obtain ⟨c, source⟩ := e
  rw [List.mem_append, mem_of_mapM htags, mem_of_mapM hfields]
  simp only [Option.map_eq_some_iff, Prod.mk.injEq, Prod.exists]
  grind

variable [Numerics F] {p : Point F} {values : List (Str × Option (Value F))}

theorem rowValues_fst (h : rowValues p sources = .ok values) :
    values.map Prod.fst = sources.map Prod.fst := by
  induction sources generalizing values with
  | nil =>
    cases h
    rfl
  | cons e es ih =>
    rw [rowValues] at h
    cases hv : sourceValue p e.2 with
    | error err => simp [hv, bind, Except.bind] at h
    | ok v =>
      cases hvs : rowValues p es with
      | error err => simp [hv, hvs, bind, Except.bind] at h
      | ok vs =>
        simp only [hv, hvs, bind, Except.bind, pure, Except.pure, Except.ok.injEq] at h
        subst h
        simp [ih hvs]

theorem cellsOf_eq_none (h : rowValues p sources = .ok values) {c : Str}
    (hc : c ∉ sources.map Prod.fst) : cellsOf values c = none := by
  rw [← rowValues_fst h] at hc
  have hfind : values.find? (fun e => e.1 = c) = none := by
    rw [List.find?_eq_none]
    intro e he hec
    have heq : e.1 = c := of_decide_eq_true hec
    exact hc (heq ▸ List.mem_map_of_mem he)
  simp [cellsOf, hfind]

theorem sourceValue_of_mem (h : rowValues p sources = .ok values)
    (hnodup : (sources.map Prod.fst).Nodup) {c : Str} {source : Source}
    (he : (c, source) ∈ sources) : sourceValue p source = .ok (cellsOf values c) := by
  induction sources generalizing values with
  | nil => contradiction
  | cons e es ih =>
    rw [rowValues] at h
    cases hv : sourceValue p e.2 with
    | error err => simp [hv, bind, Except.bind] at h
    | ok v =>
      cases hvs : rowValues p es with
      | error err => simp [hv, hvs, bind, Except.bind] at h
      | ok vs =>
        simp only [hv, hvs, bind, Except.bind, pure, Except.pure, Except.ok.injEq] at h
        subst h
        rw [List.map_cons, List.nodup_cons] at hnodup
        rcases List.mem_cons.mp he with rfl | he
        · simpa [cellsOf] using hv
        · have hne : e.1 ≠ c := fun heq => hnodup.1 (heq ▸ List.mem_map_of_mem (f := Prod.fst) he)
          have hrest := ih hvs hnodup.2 he
          simpa [cellsOf, hne] using hrest

end Sources

section Batch

variable (digest : Str → ℕ) [Numerics F] {measurement : Str} {schema : TableSchema}
  {points : List (Point F)} {n n' : ℕ} {b : Batch F}

private theorem getLast?_of_forall₂ {α β : Type} {R : α → β → Prop} {xs : List α} {ys : List β}
    (h : List.Forall₂ R xs ys) {y : β} (hy : ys.getLast? = some y) :
    ∃ x, xs.getLast? = some x ∧ R x y := by
  induction h with
  | nil => contradiction
  | @cons x y' xs ys hxy hrest ih =>
    cases hrest with
    | nil =>
      cases hy
      exact ⟨x, rfl, hxy⟩
    | cons =>
      rw [List.getLast?_cons_cons] at hy ⊢
      exact ih hy

/-- The record of a key is the row of the last point of the key. -/
theorem rowOf_of_mem_dedupRecords {sources : List (Str × Source)} {rows : List (Row (Value F))}
    (h : List.Forall₂ (RowOf digest sources) points rows) {r : Row (Value F)}
    (hr : r ∈ dedupRecords rows) :
    ∃ p, lastOf digest points r.key = some p ∧ RowOf digest sources p r := by
  have hsame : List.Forall₂ (RowOf digest sources)
      (points.filter fun p => pointKey digest p = r.key) (rows.filter fun x => x.key = r.key) := by
    refine List.rel_filter (fun p x hpx => ?_) h
    simp [hpx.1]
  exact getLast?_of_forall₂ hsame ((mem_dedupRecords_iff rows r).mp hr)

omit [Numerics F] in
theorem lastOf_mem {k : Key} {p : Point F} (h : lastOf digest points k = some p) :
    p ∈ points ∧ pointKey digest p = k := by
  have hmem := List.mem_of_getLast? h
  simpa using List.mem_filter.mp hmem

omit [Numerics F] in
theorem exists_lastOf {p : Point F} (hp : p ∈ points) :
    ∃ q, lastOf digest points (pointKey digest p) = some q := by
  have hmem : p ∈ points.filter fun q => pointKey digest q = pointKey digest p := by simp [hp]
  exact ⟨_, List.getLast?_eq_some_getLast (List.ne_nil_of_mem hmem)⟩

/-- The batch of a group of points: its columns and where its rows come from. -/
structure Built (schema : TableSchema) (points : List (Point F)) (b : Batch F)
    (sources : List (Str × Source)) : Prop where
  table : b.table = schema.table
  found : columnSources schema (tagNames points) (fieldSamples points).keys = some sources
  cols : b.cols = sources.map Prod.fst
  rows : ∀ r ∈ b.records, ∃ p, lastOf digest points r.key = some p ∧ RowOf digest sources p r
  keys : ∀ p ∈ points, ∃ r ∈ b.records, r.key = pointKey digest p

theorem exists_built (h : buildBatch digest schema points n = (n', .ok b)) :
    ∃ sources, Built digest schema points b sources := by
  obtain ⟨sources, rows, hsources, hrows, rfl⟩ := buildBatch_ok digest h
  obtain ⟨-, -, hof⟩ := buildRows_ok digest hrows
  refine ⟨sources, rfl, hsources, rfl, fun r hr => rowOf_of_mem_dedupRecords digest hof hr, ?_⟩
  intro p hp
  obtain ⟨i, hi, rfl⟩ := List.mem_iff_getElem.mp hp
  have hi' : i < rows.length := hof.length_eq ▸ hi
  obtain ⟨s, hs, hkey⟩ := exists_mem_dedupRecords rows rows[i] (List.getElem_mem hi')
  exact ⟨s, hs, hkey.trans (hof.get hi hi').1⟩

theorem cells_eq_none {sources : List (Str × Source)} {p : Point F} {r : Row (Value F)}
    (hrow : RowOf digest sources p r) {c : Str} (hc : c ∉ sources.map Prod.fst) :
    r.cells c = none := by
  obtain ⟨-, values, hvalues, hcells⟩ := hrow
  rw [hcells, cellsOf_eq_none hvalues hc]

section Cells

variable {sources : List (Str × Source)} (hb : Built digest schema points b sources)
  (hschema : Canonical measurement schema)
include hb hschema

theorem Built.tag {t : Str} (ht : t ∈ tagNames points) : (tagCol t, Source.tag t) ∈ sources := by
  obtain ⟨col, hcol⟩ := (exists_of_columnSources hb.found).1 t ht
  cases hschema.tags t col hcol
  exact (mem_columnSources_iff hb.found _).mpr (Or.inl ⟨t, ht, hcol, rfl⟩)

theorem Built.field {f : Str} (hf : f ∈ (fieldSamples points).keys) :
    ∃ ty, schema.fieldCols.get? f = some (fieldCol f, ty) ∧
      (fieldCol f, Source.field f ty) ∈ sources := by
  obtain ⟨⟨col, ty⟩, he⟩ := (exists_of_columnSources hb.found).2 f hf
  cases hschema.fields f _ he
  exact ⟨ty, he, (mem_columnSources_iff hb.found _).mpr (Or.inr ⟨f, hf, ty, he, rfl⟩)⟩

theorem Built.source {e : Str × Source} (he : e ∈ sources) :
    (∃ t ∈ tagNames points, e = (tagCol t, .tag t)) ∨
      ∃ f ∈ (fieldSamples points).keys, ∃ ty, e = (fieldCol f, .field f ty) := by
  obtain ⟨c, source⟩ := e
  rcases (mem_columnSources_iff hb.found _).mp he with ⟨t, ht, hget, heq⟩ | ⟨f, hf, ty, hget, heq⟩
  · cases hschema.tags t _ hget
    cases heq
    exact Or.inl ⟨t, ht, rfl⟩
  · cases hschema.fields f _ hget
    cases heq
    exact Or.inr ⟨f, hf, ty, rfl⟩

/-- The columns of a batch in the database are those its points have values in. -/
theorem Built.mem_cols_iff (c : Str) :
    c ∈ b.cols.map pgIdent ↔ ∃ q ∈ points, pointCells q c ≠ none := by
  simp only [hb.cols, List.mem_map, pointCells_ne_none_iff]
  constructor
  · rintro ⟨col, ⟨e, he, rfl⟩, rfl⟩
    rcases hb.source digest hschema he with ⟨t, ht, rfl⟩ | ⟨f, hf, ty, rfl⟩
    · obtain ⟨q, hq, htq⟩ := (mem_tagNames_iff t).mp ht
      exact ⟨q, hq, Or.inl ⟨t, htq, rfl⟩⟩
    · obtain ⟨q, hq, hfq⟩ := (mem_fieldSamples_iff f).mp hf
      exact ⟨q, hq, Or.inr ⟨f, hfq, rfl⟩⟩
  · rintro ⟨q, hq, ⟨t, ht, rfl⟩ | ⟨f, hf, rfl⟩⟩
    · exact ⟨_, ⟨_, hb.tag digest hschema ((mem_tagNames_iff t).mpr ⟨q, hq, ht⟩), rfl⟩, rfl⟩
    · obtain ⟨ty, -, he⟩ := hb.field digest hschema ((mem_fieldSamples_iff f).mpr ⟨q, hq, hf⟩)
      exact ⟨_, ⟨_, he, rfl⟩, rfl⟩

theorem Built.insertedCell_eq_none_iff (r : Row (Value F)) (c : Str) :
    insertedCell b.cols r c = none ↔ ∀ q ∈ points, pointCells q c = none := by
  have hmem := hb.mem_cols_iff digest hschema c
  rw [insertedCell, Option.map_eq_none_iff, List.find?_eq_none]
  simp only [List.mem_map] at hmem
  grind

variable (hcols : (b.cols.map pgIdent).Nodup)
include hcols

omit hschema in
/-- Columns of a batch differ in the database. -/
theorem Built.source_inj {e e' : Str × Source} (he : e ∈ sources) (he' : e' ∈ sources)
    (heq : pgIdent e.1 = pgIdent e'.1) : e = e' := by
  rw [hb.cols, List.map_map] at hcols
  exact List.inj_on_of_nodup_map hcols he he' heq

omit hschema in
theorem Built.insertedCell_of_mem {e : Str × Source} (he : e ∈ sources) (r : Row (Value F)) :
    insertedCell b.cols r (pgIdent e.1) = some (r.cells e.1) := by
  have hmem : e.1 ∈ b.cols := hb.cols ▸ List.mem_map_of_mem he
  rw [insertedCell]
  cases hfind : b.cols.find? fun col => pgIdent col = pgIdent e.1 with
  | none => simpa using (List.find?_eq_none.mp hfind) e.1 hmem
  | some col =>
    have hcol : col = e.1 := List.inj_on_of_nodup_map hcols (List.mem_of_find?_eq_some hfind) hmem
      (by simpa using List.find?_some hfind)
    rw [hcol, Option.map_some]

variable {p : Point F} {r : Row (Value F)} (hp : p ∈ points) (hrow : RowOf digest sources p r)

omit hschema in
include hrow in
/-- The value a row has in a column of the batch. -/
theorem Built.sourceValue {e : Str × Source} (he : e ∈ sources) :
    Store.sourceValue p e.2 = .ok (r.cells e.1) := by
  obtain ⟨-, values, hvalues, hcells⟩ := hrow
  have hnodup : (sources.map Prod.fst).Nodup := hb.cols ▸ hcols.of_map _
  rw [hcells]
  exact sourceValue_of_mem hvalues hnodup he

/-- When the names of a point fit, the insert brings what the row holds. -/
theorem Built.cells_eq (hrow : RowOf digest sources p r)
    (htags : ∀ t ∈ p.tags.keys, (tagCol t).length ≤ 63)
    (hfields : ∀ f ∈ p.fields.keys, (fieldCol f).length ≤ 63) (c : Str) :
    r.cells c = (insertedCell b.cols r c).getD none := by
  have hfits : ∀ e ∈ sources, r.cells e.1 ≠ none → pgIdent e.1 = e.1 := by
    intro e he hne
    have hvalue := hb.sourceValue digest hcols hrow he
    rcases hb.source digest hschema he with ⟨t, -, rfl⟩ | ⟨f, -, ty, rfl⟩
    · cases hget : p.tags.get? t with
      | none => exact absurd (Except.ok.inj hvalue).symm (by simpa [hget] using hne)
      | some v => exact List.take_of_length_le (htags t ((Dict.mem_keys_iff _ _).mpr ⟨v, hget⟩))
    · cases hget : p.fields.get? f with
      | none =>
        rw [Store.sourceValue, hget] at hvalue
        exact absurd (Except.ok.inj hvalue).symm hne
      | some v => exact List.take_of_length_le (hfields f ((Dict.mem_keys_iff _ _).mpr ⟨v, hget⟩))
  have hlisted : r.cells c ≠ none → ∃ e ∈ sources, e.1 = c ∧ pgIdent c = c := by
    intro hne
    have hc : c ∈ sources.map Prod.fst := by
      by_contra hc
      exact hne (cells_eq_none digest hrow hc)
    obtain ⟨e, he, rfl⟩ := List.mem_map.mp hc
    exact ⟨e, he, rfl, hfits e he hne⟩
  by_cases hc : ∃ e ∈ sources, pgIdent e.1 = c
  · obtain ⟨e, he, rfl⟩ := hc
    rw [hb.insertedCell_of_mem digest hcols he r, Option.getD_some]
    by_cases hne : r.cells e.1 = none
    · rw [hne]
      by_contra hcell
      obtain ⟨e', he', hec, hpg⟩ := hlisted hcell
      have heq : e' = e := hb.source_inj digest hcols he' he (by rw [hec, hpg])
      exact hcell (hec ▸ heq ▸ hne)
    · rw [hfits e he hne]
  · have hnone : insertedCell b.cols r c = none := by
      rw [insertedCell, Option.map_eq_none_iff, List.find?_eq_none]
      intro col hcol heq
      rw [hb.cols] at hcol
      obtain ⟨e, he, rfl⟩ := List.mem_map.mp hcol
      exact hc ⟨e, he, of_decide_eq_true heq⟩
    rw [hnone, Option.getD_none]
    by_contra hcell
    obtain ⟨e, he, hec, hpg⟩ := hlisted hcell
    exact hc ⟨e, he, by rw [hec, hpg]⟩

include hp

/-- Columns of tags are set to the tags of the point. -/
theorem Built.insertedCell_tag (hrow : RowOf digest sources p r) {t : Str}
    (ht : t ∈ tagNames points) :
    insertedCell b.cols r (colOfTag t) = some (pointCells p (colOfTag t)) := by
  have he := hb.tag digest hschema ht
  have hinj : ∀ t' ∈ p.tags.keys, colOfTag t' = colOfTag t → t' = t := by
    intro t' ht' heq
    have he' := hb.tag digest hschema ((mem_tagNames_iff t').mpr ⟨p, hp, ht'⟩)
    exact Source.tag.inj (congrArg Prod.snd (hb.source_inj digest hcols he' he heq))
  have hvalue := hb.sourceValue digest hcols hrow he
  rw [pointCells_colOfTag hinj]
  exact (hb.insertedCell_of_mem digest hcols he r).trans
    (congrArg some (Except.ok.inj hvalue).symm)

/-- A tag column that is not set has no value in any point. -/
theorem Built.insertedCell_colOfTag (hrow : RowOf digest sources p r) (t : Str) :
    insertedCell b.cols r (colOfTag t) = some (pointCells p (colOfTag t)) ∨
      insertedCell b.cols r (colOfTag t) = none ∧ pointCells p (colOfTag t) = none := by
  by_cases hnone : ∀ q ∈ points, pointCells q (colOfTag t) = none
  · exact Or.inr ⟨(hb.insertedCell_eq_none_iff digest hschema r _).mpr hnone, hnone p hp⟩
  · push Not at hnone
    obtain ⟨q, hq, hne⟩ := hnone
    rcases (pointCells_ne_none_iff q _).mp hne with ⟨t', ht', heq⟩ | ⟨f, -, heq⟩
    · rw [← heq]
      exact Or.inl (hb.insertedCell_tag digest hschema hcols hp hrow
        ((mem_tagNames_iff t').mpr ⟨q, hq, ht'⟩))
    · exact absurd heq (colOfTag_ne_colOfField t f).symm

/-- No other field of a point goes to the column of a field. -/
theorem Built.pointCells_colOfField {f : Str} (hf : f ∈ (fieldSamples points).keys) :
    pointCells p (colOfField f) = p.fields.get? f := by
  obtain ⟨ty, -, he⟩ := hb.field digest hschema hf
  refine Columns.pointCells_colOfField fun f' hf' heq => ?_
  obtain ⟨ty', -, he'⟩ := hb.field digest hschema ((mem_fieldSamples_iff f').mpr ⟨p, hp, hf'⟩)
  exact (Source.field.inj (congrArg Prod.snd (hb.source_inj digest hcols he' he heq))).1

/-- Columns of fields are set to what the fields of the point are coerced to. -/
theorem Built.insertedCell_field (hrow : RowOf digest sources p r) {f : Str}
    (hf : f ∈ (fieldSamples points).keys) :
    ∃ ty v, schema.fieldCols.get? f = some (fieldCol f, ty) ∧
      coerce (pointCells p (colOfField f)) ty = .ok v ∧
      insertedCell b.cols r (colOfField f) = some v := by
  obtain ⟨ty, hty, he⟩ := hb.field digest hschema hf
  rw [hb.pointCells_colOfField digest hschema hcols hp hf]
  exact ⟨ty, _, hty, hb.sourceValue digest hcols hrow he, hb.insertedCell_of_mem digest hcols he r⟩

end Cells

end Batch

end TimescaleLp.Columns
