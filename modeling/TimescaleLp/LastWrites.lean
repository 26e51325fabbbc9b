import TimescaleLp.TypeSafety
import TimescaleLp.Upserts
import Mathlib.Logic.Relation

/-!
What the hot tier is for. A client writes tags and fields under their names, and of
each key and name the last write counts. The service refines this picture: tables and
columns stand for the names, and a stored value is what the written one has become on
the way up the types.
-/
namespace TimescaleLp.LastWrites

open Names Schema Store Naming Promotion Alters Widest Columns FieldTypes TypeSafety Upserts

variable {F : Type}

/-- What a client calls a value. -/
inductive Label
  | tag (t : Str)
  | field (f : Str)

/-- The rows of a measurement as a client sees them. -/
abbrev Page (F : Type) := Rows Key Label (Value F)

/-- The name occurs in one of the points. -/
def mentions (points : List (Point F)) : Label → Bool
  | .tag t => (tagNames points).contains t
  | .field f => (fieldSamples points).contains f

def valueOf (p : Point F) : Label → Option (Value F)
  | .tag t => (p.tags.get? t).map .str
  | .field f => p.fields.get? f

section Pictures

variable (digest : Str → ℕ)

/-- The last point of a key sets all names that occur in any of the points. -/
def change (points : List (Point F)) : Change Key Label (Value F) := fun k =>
  (lastOf digest points k).map fun p l => if mentions points l then some (valueOf p l) else none

def changeOf (m : Str) (points : List (Point F)) : Change Key Label (Value F) :=
  change digest (points.filter fun p => p.measurement = m)

/-- A batch writes to all its measurements. -/
def absorb (pic : Str → Page F) (points : List (Point F)) : Str → Page F :=
  fun m => apply (pic m) (changeOf digest m points)

/-- What a client that has sent the batches expects to find. -/
def picture (batches : List (List (Point F))) : Str → Page F :=
  batches.foldl (absorb digest) fun _ _ => none

/-- The measurements of a batch are written one after the other. -/
theorem absorb_eq (pic : Str → Page F) (points : List (Point F)) :
    (byMeasurement points).entries.foldl
      (fun (pic : Str → Page F) g => Function.update pic g.1 (apply (pic g.1) (change digest g.2)))
        pic =
        absorb digest pic points := by
  funext m
  rw [Dict.foldl_update fun page points => apply page (change digest points), byMeasurement,
    Dict.get?_groupBy, absorb, changeOf]
  split
  · rename_i hnone
    rw [hnone]
    rfl
  · rfl

theorem picture_eq (batches : List (List (Point F))) (m : Str) :
    picture digest batches m = (batches.map (changeOf digest m)).foldl apply fun _ => none := by
  have hfold : ∀ pic : Str → Page F, batches.foldl (absorb digest) pic m =
      (batches.map (changeOf digest m)).foldl apply (pic m) := by
    induction batches with
    | nil => exact fun pic => rfl
    | cons points batches ih => exact fun pic => ih _
  exact hfold _

/-- Of each key and name the last batch counts that has both. -/
theorem cell_picture (batches : List (List (Point F))) (m : Str) (k : Key) (l : Label) :
    cell (picture digest batches m) k l =
      (lastSet (batches.map (changeOf digest m)) k l).getD none := by
  rw [picture_eq, cell_foldl_apply]
  rfl

theorem cell_change (page : Page F) (points : List (Point F)) (k : Key) (l : Label) :
    cell (apply page (change digest points)) k l =
      (((lastOf digest points k).filter fun _ => mentions points l).map fun p =>
        valueOf p l).getD (cell page k l) := by
  rw [cell_apply, change]
  cases lastOf digest points k with
  | none => rfl
  | some p => cases hl : mentions points l <;> simp [hl, Option.filter]

end Pictures

section Relations

variable {α : Type} {R : α → α → Prop}

theorem rel_refl (hrefl : ∀ a, R a a) (o : Option α) : Option.Rel R o o := by
  cases o with
  | none => exact .none
  | some a => exact .some (hrefl a)

theorem rel_comp {S T : α → α → Prop} (hcomp : ∀ a b c, R a b → S b c → T a c)
    {o o' o'' : Option α} (h : Option.Rel R o o') (h' : Option.Rel S o' o'') :
    Option.Rel T o o'' := by
  cases h with
  | none =>
    cases h'
    exact .none
  | some hab =>
    cases h' with
    | some hbc => exact .some (hcomp _ _ _ hab hbc)

end Relations

section Values

variable [Numerics F] {u v w : Value F}

/-- A promotion has cast the value to a higher type. -/
def Raised (v w : Value F) : Prop :=
  ∃ fromType toType, castValue fromType toType v = some w ∧
    typeRank (inferFieldType v) < typeRank (inferFieldType w)

/-- A value was coerced to the type of its column, and cast with it since. -/
def Becomes (v w : Value F) : Prop :=
  ∃ u, coerceValue (inferFieldType u) v = .ok u ∧
    typeRank (inferFieldType v) ≤ typeRank (inferFieldType u) ∧ Relation.ReflTransGen Raised u w

theorem Becomes.raised {w' : Value F} (h : Becomes v w)
    (hraised : Relation.ReflTransGen Raised w w') : Becomes v w' := by
  obtain ⟨u, hcoerce, hle, hraised'⟩ := h
  exact ⟨u, hcoerce, hle, hraised'.trans hraised⟩

theorem typeRank_of_raised (h : Relation.ReflTransGen Raised v w) :
    v = w ∨ typeRank (inferFieldType v) < typeRank (inferFieldType w) := by
  induction h with
  | refl => exact Or.inl rfl
  | tail _ hraised ih =>
    obtain ⟨_, _, -, hlt⟩ := hraised
    rcases ih with rfl | hlt'
    · exact Or.inr hlt
    · exact Or.inr (hlt'.trans hlt)

/-- A value that has the type it was written with is the value that was written. -/
theorem Becomes.eq_of_type (h : Becomes v w) (htype : inferFieldType w = inferFieldType v) :
    w = v := by
  obtain ⟨u, hcoerce, hle, hraised⟩ := h
  rcases typeRank_of_raised hraised with rfl | hlt
  · rw [htype, Typing.coerceValue_inferFieldType] at hcoerce
    exact (Except.ok.inj hcoerce).symm
  · rw [htype] at hlt
    exact absurd (hle.trans_lt hlt) (Nat.lt_irrefl _)

end Values

section Cells

/-- What hot has in a column, for a measurement and a key. -/
def hotCell (s : Service F) (m : Str) (k : Key) (c : Str) : Option (Value F) :=
  ((s.hot (measurementTable m)).get? k).bind fun r => r.cells c

variable [Numerics F]

/-- Under the names of a workload the hot tier holds what the page shows. -/
structure Shows (batches : List (List (Point F))) (m : Str) (page : Page F) (s : Service F) :
    Prop where
  rows : ∀ k, (page k).isSome = ((s.hot (measurementTable m)).get? k).isSome
  tags : ∀ p ∈ batches.flatten, p.measurement = m → ∀ t ∈ p.tags.keys, ∀ k,
    hotCell s m k (colOfTag t) = cell page k (.tag t)
  fields : ∀ p ∈ batches.flatten, p.measurement = m → ∀ f ∈ p.fields.keys, ∀ k,
    Option.Rel Becomes (cell page k (.field f)) (hotCell s m k (colOfField f))

/-- A promotion raises what its column holds, and leaves the others alone. -/
theorem castCells_raised {columns : Dict Str PgType} {f col : Str} {fromType toType : PgType}
    (hready : Ready F columns (.widen f col fromType toType)) {rows : Table (Value F)}
    (htyped : Typed columns rows) {k : Key} {r : Stored (Value F)} (hr : rows.get? k = some r)
    (f' : Str) :
    Option.Rel (Relation.ReflTransGen Raised) (r.cells (colOfField f'))
      (castCells (pgIdent col) fromType toType r.cells (colOfField f')) := by
  obtain ⟨-, w, -, hget, rfl, hlt⟩ := hready
  rw [castCells]
  split
  · rename_i hsame
    cases hcell : r.cells (colOfField f') with
    | none => exact .none
    | some v =>
      obtain ⟨ty, hty, hholds⟩ := htyped k r f' v hr hcell
      rw [hsame] at hty
      cases hget.symm.trans hty
      obtain ⟨v', hcast, hholds'⟩ := exists_cast hholds hlt
      rw [Option.bind_some, hcast]
      refine .some (.single ⟨fromType, inferFieldType w, hcast, ?_⟩)
      rw [hholds.1, hholds'.1]
      exact hlt
  · exact rel_refl (fun _ => Relation.ReflTransGen.refl) _

/-- The promotions of a call raise what the field columns hold. -/
theorem recast_raised {ms : List Migration} {columns : Dict Str PgType}
    (hready : ∀ mg ∈ ms, Ready F columns mg) (hapart : ms.Pairwise Apart)
    {rows : Table (Value F)} (htyped : Typed columns rows) {k : Key} {r : Stored (Value F)}
    (hr : rows.get? k = some r) (f : Str) :
    Option.Rel (Relation.ReflTransGen Raised) (r.cells (colOfField f))
      (recast ms r.cells (colOfField f)) := by
  induction ms generalizing columns rows r with
  | nil => exact rel_refl (fun _ => Relation.ReflTransGen.refl) _
  | cons mg ms ih =>
    obtain ⟨hfirst, hrest⟩ := List.pairwise_cons.mp hapart
    have hready' : ∀ mg' ∈ ms, Ready F (altered columns mg) mg' := fun mg' hmg' =>
      (hready mg' (List.mem_cons_of_mem mg hmg')).altered (hfirst mg' hmg')
    have hmg := hready mg List.mem_cons_self
    cases mg with
    | addTag t => exact ih hready' hrest (htyped.add rfl) hr
    | addField f' ty => exact ih hready' hrest (htyped.add rfl) hr
    | widen f' col fromType toType =>
      refine rel_comp (fun _ _ _ => .trans) (castCells_raised hmg htyped hr f)
        (ih hready' hrest (htyped.widen hmg)
          (r := ⟨r.seq, castCells (pgIdent col) fromType toType r.cells⟩) ?_)
      rw [Dict.get?_map, hr, Option.map_some]

/-- What is coerced to the type that the schema gives has become a value of it. -/
theorem becomes_of_coerce {schema : TableSchema} {points : List (Point F)}
    (hcovers : TypeSafety.Covers schema points)
    (hintegers : ∀ p ∈ points, ∀ f n, p.fields.get? f = some (.int n) → BigintRange.InBigint n)
    {p : Point F} (hp : p ∈ points) {f col : Str} (hf : f ∈ (fieldSamples points).keys)
    {ty : PgType} (hentry : schema.fieldCols.get? f = some (col, ty)) {c : Option (Value F)}
    (hcoerce : coerce (p.fields.get? f) ty = .ok c) : Option.Rel Becomes (p.fields.get? f) c := by
  obtain ⟨_, w, hentry', hwide⟩ := hcovers.2 f hf
  cases hentry.symm.trans hentry'
  cases hget : p.fields.get? f with
  | none =>
    rw [hget] at hcoerce
    cases hcoerce
    exact .none
  | some v =>
    have hle := hwide v ⟨p, hp, hget⟩
    obtain ⟨v', hv', htype, -⟩ := exists_coerceValue hle fun n hn => hintegers p hp f n (hn ▸ hget)
    rw [hget, coerce, hv'] at hcoerce
    cases hcoerce
    refine .some ⟨v', ?_, ?_, .refl⟩
    · rw [htype]
      exact hv'
    · rw [htype]
      exact hle

end Cells

section Calls

variable [Numerics F] {digest : Str → ℕ} {on : Bool} {batches : List (List (Point F))}
  {page : Page F} {s s' : Service F} {g : Str × List (Point F)}

/-- What a call has done to the rows. The row of a key that it writes is made from the
last point of the key; what it does not set is as before, promotions apart. -/
structure Landed (digest : Str → ℕ) (g : Str × List (Point F)) (s s' : Service F) : Prop where
  others : ∀ table, table ≠ measurementTable g.1 → ∀ k,
    (s'.hot table).get? k = (s.hot table).get? k
  rows : ∀ k, ((s'.hot (measurementTable g.1)).get? k).isSome =
    (((s.hot (measurementTable g.1)).get? k).isSome || (lastOf digest g.2 k).isSome)
  tags : ∀ k p, lastOf digest g.2 k = some p → ∀ t ∈ tagNames g.2,
    hotCell s' g.1 k (colOfTag t) = pointCells p (colOfTag t)
  fields : ∀ k p, lastOf digest g.2 k = some p → ∀ f ∈ (fieldSamples g.2).keys,
    Option.Rel Becomes (p.fields.get? f) (hotCell s' g.1 k (colOfField f))
  tagsKept : ∀ k t,
    (lastOf digest g.2 k = none ∨ ∀ q ∈ g.2, pointCells q (colOfTag t) = none) →
      hotCell s' g.1 k (colOfTag t) = hotCell s g.1 k (colOfTag t)
  fieldsKept : ∀ k f,
    (lastOf digest g.2 k = none ∨ ∀ q ∈ g.2, pointCells q (colOfField f) = none) →
      Option.Rel (Relation.ReflTransGen Raised) (hotCell s g.1 k (colOfField f))
        (hotCell s' g.1 k (colOfField f))

omit [Numerics F] in
theorem upserted_cells (cols : List Str) (old : Option (Stored (Value F))) (r : Row (Value F))
    (c : Str) : (Batches.upserted cols old r).cells c =
      (insertedCell cols r c).getD (old.bind fun o => o.cells c) := rfl

/-- The table of a call after its commit: the rows of the batch are upserted. -/
theorem rows_of_call (hs : Named s) (hne : g.2 ≠ []) (hwrite : writeOne digest on s g = some s') :
    ∃ s₁ b schema sources, Writes.Prepared digest s g.1 g.2 s₁ b schema sources ∧
      (b.cols.map pgIdent).Nodup ∧
      (∀ table, table ≠ measurementTable g.1 → s'.hot table = s₁.hot table) ∧
      ∀ k, (lastOf digest g.2 k = none ∧ (s'.hot (measurementTable g.1)).get? k =
          (s₁.hot (measurementTable g.1)).get? k) ∨
        ∃ p r, lastOf digest g.2 k = some p ∧ Batches.RowOf digest sources p r ∧
          (s'.hot (measurementTable g.1)).get? k = some
            (Batches.upserted b.cols ((s₁.hot (measurementTable g.1)).get? k) r) := by
  obtain ⟨s₁, b, t, hprepare, hcommit, rfl⟩ := exists_committed hwrite
  obtain ⟨schema, sources, hprepared⟩ := Writes.exists_prepared digest hs hne hprepare
  have hbuilt := hprepared.built
  refine ⟨s₁, b, schema, sources, hprepared, Batches.commit_cols_nodup hcommit, ?_, ?_⟩
  · intro table htable
    exact Function.update_of_ne (hprepared.table ▸ htable) _ _
  · intro k
    simp only [← hprepared.table, Function.update_self]
    cases hlast : lastOf digest g.2 k with
    | none =>
      refine Or.inl ⟨rfl, Batches.get?_commit_of_notMem hcommit fun hk => ?_⟩
      obtain ⟨r, hr, rfl⟩ := List.mem_map.mp hk
      obtain ⟨p, hp, -⟩ := hbuilt.rows r hr
      cases hlast.symm.trans hp
    | some p =>
      obtain ⟨hp, hkey⟩ := lastOf_mem digest hlast
      obtain ⟨r, hr, hrkey⟩ := hbuilt.keys p hp
      obtain ⟨p', hlast', hrow⟩ := hbuilt.rows r hr
      rw [hrkey, hkey, hlast] at hlast'
      cases hlast'
      refine Or.inr ⟨p, r, rfl, hrow, ?_⟩
      rw [← hkey, ← hrkey]
      exact Batches.get?_commit_of_mem hcommit hprepared.drawn.keys hr

/-- The schema step of a call raises what field columns hold and leaves the rest. -/
theorem cells_of_prepared (hsane : Sane batches) (hs : Safe batches s) (hpart : Part batches g)
    {s₁ : Service F} {b : Batch F} {schema : TableSchema} {sources : List (Str × Source)}
    (hprepared : Writes.Prepared digest s g.1 g.2 s₁ b schema sources) (k : Key) :
    (∀ t, ((s₁.hot (measurementTable g.1)).get? k).bind (fun r => r.cells (colOfTag t)) =
      hotCell s g.1 k (colOfTag t)) ∧
    ∀ f, Option.Rel (Relation.ReflTransGen Raised) (hotCell s g.1 k (colOfField f))
      (((s₁.hot (measurementTable g.1)).get? k).bind fun r => r.cells (colOfField f)) := by
  obtain ⟨vs, htypes, -⟩ := hs.exists_types hpart
  rw [hprepared.rows]
  cases hget : (s.hot (measurementTable g.1)).get? k with
  | none =>
    simp only [hotCell, hget]
    exact ⟨fun _ => rfl, fun _ => .none⟩
  | some r =>
    simp only [hotCell, hget, Option.map_some, Option.bind_some, if_true]
    exact ⟨recast_colOfTag htypes.named g.1 (tagNames g.2) (fieldSamples g.2) r.cells,
      recast_raised (ready_issued htypes hpart.seen_of_sample)
        (apart_issued htypes hpart.seen_of_sample (hsane.injOn g.1)) (hs.typed _) hget⟩

theorem landed (hsane : Sane batches) (hs : Safe batches s) (hpart : Part batches g)
    (hwrite : writeOne digest on s g = some s') : Landed digest g s s' := by
  obtain ⟨vs, htypes, -⟩ := hs.exists_types hpart
  obtain ⟨s₁, b, schema, sources, hprepared, hcols, hothers, hrows⟩ :=
    rows_of_call htypes.named hpart.ne_nil hwrite
  have hbuilt := hprepared.built
  have hcanonical := hprepared.canonical
  have hcovers := covers_of_prepared htypes hpart.ne_nil hprepared
  have hbefore := cells_of_prepared hsane hs hpart hprepared
  -- a column that no point of the call has
  have hkept : ∀ k c, (lastOf digest g.2 k = none ∨ ∀ q ∈ g.2, pointCells q c = none) →
      hotCell s' g.1 k c = ((s₁.hot (measurementTable g.1)).get? k).bind fun r => r.cells c := by
    intro k c hkept
    rcases hrows k with ⟨-, hget⟩ | ⟨p, r, hlast, -, hget⟩
    · rw [hotCell, hget]
    · have hnone := hkept.resolve_left fun hnone => by cases hnone.symm.trans hlast
      rw [hotCell, hget, Option.bind_some, upserted_cells,
        (hbuilt.insertedCell_eq_none_iff digest hcanonical r _).mpr hnone, Option.getD_none]
  -- a column of the call, in the row of a key that it has
  have hwritten : ∀ k p, lastOf digest g.2 k = some p → ∃ r, Batches.RowOf digest sources p r ∧
      ∀ c, hotCell s' g.1 k c = (insertedCell b.cols r c).getD
        (((s₁.hot (measurementTable g.1)).get? k).bind fun o => o.cells c) := by
    intro k p hlast
    rcases hrows k with ⟨hnone, -⟩ | ⟨p', r, hlast', hrow, hget⟩
    · cases hnone.symm.trans hlast
    · cases hlast.symm.trans hlast'
      exact ⟨r, hrow, fun c => by rw [hotCell, hget, Option.bind_some, upserted_cells]⟩
  constructor
  · intro table htable k
    rw [hothers table htable, hprepared.rows]
    simp only [if_neg htable]
    cases (s.hot table).get? k <;> rfl
  · intro k
    have hsome : ((s₁.hot (measurementTable g.1)).get? k).isSome =
        ((s.hot (measurementTable g.1)).get? k).isSome := by
      rw [hprepared.rows, Option.isSome_map]
    rcases hrows k with ⟨hlast, hget⟩ | ⟨p, r, hlast, -, hget⟩
    · rw [hget, hsome, hlast, Option.isSome_none, Bool.or_false]
    · rw [hget, hlast, Option.isSome_some, Option.isSome_some, Bool.or_true]
  · intro k p hlast t ht
    obtain ⟨r, hrow, hcells⟩ := hwritten k p hlast
    rw [hcells, hbuilt.insertedCell_tag digest hcanonical hcols (lastOf_mem digest hlast).1 hrow ht,
      Option.getD_some]
  · intro k p hlast f hf
    obtain ⟨r, hrow, hcells⟩ := hwritten k p hlast
    have hp := (lastOf_mem digest hlast).1
    obtain ⟨ty, v, hentry, hcoerce, hcell⟩ :=
      hbuilt.insertedCell_field digest hcanonical hcols hp hrow hf
    rw [hbuilt.pointCells_colOfField digest hcanonical hcols hp hf] at hcoerce
    rw [hcells, hcell, Option.getD_some]
    exact becomes_of_coerce hcovers (fun p hp => hsane.integers p (hpart.mem p hp).1) hp hf hentry
      hcoerce
  · intro k t hnone
    rw [hkept k _ hnone]
    exact (hbefore k).1 t
  · intro k f hnone
    rw [hkept k _ hnone]
    exact (hbefore k).2 f

/-- A measurement with another table does not change. -/
theorem Shows.other {m : Str} (hlanded : Landed digest g s s')
    (hm : measurementTable m ≠ measurementTable g.1) (h : Shows batches m page s) :
    Shows batches m page s' := by
  have hcell : ∀ k c, hotCell s' m k c = hotCell s m k c := by
    intro k c
    rw [hotCell, hotCell, hlanded.others _ hm]
  constructor
  · intro k
    rw [hlanded.others _ hm]
    exact h.rows k
  · intro p hp hpm t ht k
    rw [hcell]
    exact h.tags p hp hpm t ht k
  · intro p hp hpm f hf k
    rw [hcell]
    exact h.fields p hp hpm f hf k

/-- The measurement of the call is written. -/
theorem Shows.own (hsane : Sane batches) (hlanded : Landed digest g s s')
    (hmem : ∀ p ∈ g.2, p ∈ batches.flatten ∧ p.measurement = g.1) (h : Shows batches g.1 page s) :
    Shows batches g.1 (apply page (change digest g.2)) s' := by
  constructor
  · intro k
    rw [hlanded.rows, ← h.rows, apply, change]
    cases lastOf digest g.2 k <;> simp
  · intro p hp hpm t ht k
    have hbefore := h.tags p hp hpm t ht k
    have hown : ∀ q ∈ g.2, ∀ t' ∈ q.tags.keys, colOfTag t' = colOfTag t → t' = t :=
      fun q hq t' ht' => hsane.tags q (hmem q hq).1 p hp ((hmem q hq).2.trans hpm.symm) t' ht' t ht
    rw [cell_change]
    cases hlast : lastOf digest g.2 k with
    | none => exact (hlanded.tagsKept k t (Or.inl hlast)).trans hbefore
    | some p' =>
      by_cases hset : t ∈ tagNames g.2
      · have hin : mentions g.2 (.tag t) = true := List.contains_iff_mem.mpr hset
        simp only [Option.filter_some, hin, if_true]
        rw [hlanded.tags k p' hlast t hset,
          pointCells_colOfTag (hown p' (lastOf_mem digest hlast).1)]
        rfl
      · have hout : mentions g.2 (.tag t) = false := by
          rw [mentions, List.contains_eq_mem, decide_eq_false hset]
        simp only [Option.filter_some, hout, Bool.false_eq_true, if_false]
        refine (hlanded.tagsKept k t (Or.inr fun q hq => ?_)).trans hbefore
        rw [pointCells_colOfTag (hown q hq), Option.map_eq_none_iff, Dict.get?_eq_none_iff]
        exact fun hkey => hset ((mem_tagNames_iff t).mpr ⟨q, hq, hkey⟩)
  · intro p hp hpm f hf k
    have hbefore := h.fields p hp hpm f hf k
    rw [cell_change]
    cases hlast : lastOf digest g.2 k with
    | none => exact rel_comp (fun _ _ _ => .raised) hbefore (hlanded.fieldsKept k f (Or.inl hlast))
    | some p' =>
      by_cases hset : f ∈ (fieldSamples g.2).keys
      · have hin : mentions g.2 (.field f) = true :=
          Option.isSome_iff_exists.mpr ((Dict.mem_keys_iff _ _).mp hset)
        simp only [Option.filter_some, hin, if_true]
        exact hlanded.fields k p' hlast f hset
      · have hout : mentions g.2 (.field f) = false := by
          rw [mentions, Dict.contains, Option.isSome_eq_false_iff, Option.isNone_iff_eq_none,
            Dict.get?_eq_none_iff]
          exact hset
        simp only [Option.filter_some, hout, Bool.false_eq_true, if_false]
        refine rel_comp (fun _ _ _ => .raised) hbefore
          (hlanded.fieldsKept k f (Or.inr fun q hq => ?_))
        rw [pointCells_colOfField fun f' hf' => hsane.fields q (hmem q hq).1 p hp
          ((hmem q hq).2.trans hpm.symm) f' hf' f hf, Dict.get?_eq_none_iff]
        exact fun hkey => hset ((mem_fieldSamples_iff f).mpr ⟨q, hq, hkey⟩)

end Calls

section Runs

variable [Numerics F] (digest : Str → ℕ) (on : Bool) {batches : List (List (Point F))}

/-- The state is one of the workload, and shows the picture under its names. -/
structure Refines (batches : List (List (Point F))) (s : Service F) (pic : Str → Page F) : Prop where
  safe : Safe batches s
  shows : ∀ p ∈ batches.flatten, Shows batches p.measurement (pic p.measurement) s

theorem refines_start (clock : ℕ) :
    Refines batches (Sequence.start clock : History F).service fun _ _ => none where
  safe := safe_start clock
  shows _ _ := ⟨fun _ => rfl, fun _ _ _ _ _ _ => rfl, fun _ _ _ _ _ _ => .none⟩

/-- One measurement of a batch is written as the picture has it. -/
theorem refines_writeOne (hsane : Sane batches) {s : Service F} {pic : Str → Page F}
    (h : Refines batches s pic) {g : Str × List (Point F)} (hg : g ∈ groupsOf batches) :
    ∃ s', writeOne digest on s g = some s' ∧
      Refines batches s' (Function.update pic g.1 (apply (pic g.1) (change digest g.2))) := by
  have hpart := part_of_mem hg
  obtain ⟨s', hwrite, hsafe⟩ := group_safe digest on hsane h.safe hg
  have hlanded := landed hsane h.safe hpart hwrite
  refine ⟨s', hwrite, hsafe, fun p hp => ?_⟩
  by_cases hm : p.measurement = g.1
  · have hshows := h.shows p hp
    rw [hm] at hshows ⊢
    rw [Function.update_self]
    exact hshows.own hsane hlanded hpart.mem
  · rw [Function.update_of_ne hm]
    obtain ⟨q, hq⟩ := List.exists_mem_of_ne_nil _ hpart.ne_nil
    refine (h.shows p hp).other hlanded fun htable => hm ?_
    rw [← (hpart.mem q hq).2] at htable ⊢
    exact hsane.tables p hp q (hpart.mem q hq).1 htable

variable {digest} in
/-- The hot tier holds the last write of each key and name, or what it has become: the
value itself, unless its column has another type by now. -/
theorem Refines.eq_of_type {s : Service F} (h : Refines batches s (picture digest batches))
    {p : Point F} (hp : p ∈ batches.flatten) {f : Str} (hf : f ∈ p.fields.keys) {k : Key}
    {v w : Value F}
    (hv : lastSet (batches.map (changeOf digest p.measurement)) k (.field f) = some (some v))
    (hw : hotCell s p.measurement k (colOfField f) = some w)
    (htype : inferFieldType w = inferFieldType v) : w = v := by
  have hbecomes := (h.shows p hp).fields p hp rfl f hf k
  rw [cell_picture, hv, hw] at hbecomes
  cases hbecomes with
  | some hbecomes => exact hbecomes.eq_of_type htype

end Runs

end TimescaleLp.LastWrites
