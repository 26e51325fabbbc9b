import TimescaleLp.Typing
import TimescaleLp.Upserts
import TimescaleLp.Writes

/-!
How a sequence of points is cut into calls. The points one at a time merge into
the rows: each sets the tags and fields that it has. A call instead sets, in every
row it writes, all the columns of its batch, from the last point of the row's
key. It leaves the merge exactly if those points hold what the merge has there.
-/
namespace TimescaleLp.BatchCuts

open Names Schema Store Naming Columns Promotion Sequence Writes Typing Upserts

variable {F : Type}

/-- The tag and field columns of the hot rows, by table and key. -/
def hotRows (w : World (Value F)) : Rows (Str × Key) Str (Value F) :=
  fun k => ((w.hot k.1).get? k.2).map Stored.cells

variable (digest : Str → ℕ)

/-- The table and key of the row of a point. -/
def rowKey (p : Point F) : Str × Key := (measurementTable p.measurement, pointKey digest p)

def pointChange (p : Point F) : Change (Str × Key) Str (Value F) :=
  fun k => if rowKey digest p = k then some (carry (pointCells p)) else none

/-- The per-field last-writer merge of points into rows. -/
def merged (rows : Rows (Str × Key) Str (Value F)) (points : List (Point F)) :
    Rows (Str × Key) Str (Value F) :=
  (points.map (pointChange digest)).foldl apply rows

/-- A point of the batch has the column. -/
def brings (points : List (Point F)) (c : Str) : Bool := points.any fun q => (pointCells q c).isSome

/-- What the batch of one measurement sets. -/
def groupChange (g : Str × List (Point F)) : Change (Str × Key) Str (Value F) := fun k =>
  if measurementTable g.1 = k.1 then
    (lastOf digest g.2 k.2).map fun p c => if brings g.2 c then some (pointCells p c) else none
  else none

/-- The last point of the key in the measurement that sets the column last. -/
def decidingPoint (points : List (Point F)) (k : Str × Key) (c : Str) : Option (Point F) :=
  (byMeasurement points).entries.reverse.findSome? fun g =>
    if measurementTable g.1 = k.1 ∧ brings g.2 c = true then lastOf digest g.2 k.2 else none

/-- What the newest point of the key that has the column has there. -/
def newestValue (points : List (Point F)) (k : Str × Key) (c : Str) : Option (Value F) :=
  points.reverse.findSome? fun q => if rowKey digest q = k then pointCells q c else none

/-- A point that decides a column of a row has there what the newest point of
the row's key has that has the column; where none has it, the stored row has
nothing either. -/
def Keeps (rows : Rows (Str × Key) Str (Value F)) (points : List (Point F)) : Prop :=
  ∀ k c p, decidingPoint digest points k c = some p →
    newestValue digest points k c = pointCells p c ∧ (pointCells p c = none → cell rows k c = none)

section Cells

variable [Numerics F] {types : Str → PgType} {m : Str} {schema : TableSchema}
  {points : List (Point F)} {b : Batch F} {sources : List (Str × Source)} {p : Point F}
  {r : Row (Value F)}

omit [Numerics F] in
theorem brings_iff (points : List (Point F)) (c : Str) :
    brings points c = true ↔ ∃ q ∈ points, pointCells q c ≠ none := by
  simp [brings, Option.isSome_iff_ne_none]

/-- The insert sets the columns of the batch to what the point has. -/
theorem insertedCell_eq (hb : Built digest schema points b sources)
    (hcanonical : Canonical m schema) (hschema : SchemaTyped types schema)
    (hfields : ∀ f v, p.fields.get? f = some v → inferFieldType v = types (colOfField f))
    (hcols : (b.cols.map pgIdent).Nodup) (hp : p ∈ points)
    (hrow : Batches.RowOf digest sources p r) (c : Str) :
    insertedCell b.cols r c = if brings points c then some (pointCells p c) else none := by
  by_cases hc : brings points c = true
  · rw [if_pos hc]
    obtain ⟨q, hq, hne⟩ := (brings_iff points c).mp hc
    rcases (pointCells_ne_none_iff q c).mp hne with ⟨t, ht, rfl⟩ | ⟨f, hf, rfl⟩
    · exact hb.insertedCell_tag digest hcanonical hcols hp hrow ((mem_tagNames_iff t).mpr ⟨q, hq, ht⟩)
    · obtain ⟨ty, v, hty, hcoerce, hcell⟩ := hb.insertedCell_field digest hcanonical hcols hp hrow
        ((mem_fieldSamples_iff f).mpr ⟨q, hq, hf⟩)
      rw [hcell, Option.some.injEq]
      cases hvalue : pointCells p (colOfField f) with
      | none =>
        rw [hvalue] at hcoerce
        exact (Except.ok.inj hcoerce).symm
      | some x =>
        obtain ⟨f', hcol, hget⟩ := exists_field_of_pointCells hvalue
        have htype : inferFieldType x = ty := by
          rw [hfields f' x hget, hcol]
          exact (hschema f _ hty).symm
        rw [hvalue, coerce, ← htype, coerceValue_inferFieldType] at hcoerce
        exact (Except.ok.inj hcoerce).symm
  · rw [if_neg hc, hb.insertedCell_eq_none_iff digest hcanonical]
    intro q hq
    by_contra hne
    exact hc ((brings_iff points c).mpr ⟨q, hq, hne⟩)

end Cells

section Calls

variable [Numerics F] {types : Str → Str → PgType} {on : Bool} {s s' : Service F} {n : ℕ}

/-- The hot rows are not touched before the batch is stored. -/
theorem prepared_typed {m : Str} {points : List (Point F)} {b : Batch F} {schema : TableSchema}
    {sources : List (Str × Source)} (htyped : Typed types s) (hpoints : points ≠ [])
    (hsamples : SamplesTyped (types (measurementTable m)) (fieldSamples points))
    (h : Prepared digest s m points s' b schema sources) :
    Typed types s' ∧ SchemaTyped (types (measurementTable m)) schema ∧
      hotRows s'.toWorld = hotRows s.toWorld := by
  obtain ⟨schema₁, s₁, hensure, hbuild, hs', -⟩ := prepare_ok digest hpoints h.prepared
  obtain ⟨htyped₁, hschema₁⟩ := htyped.ensureSchema hsamples
  rw [hensure] at htyped₁ hschema₁
  have hadds := htyped.adds hsamples (tagNames points)
  refine ⟨?_, ?_, ?_⟩
  · rw [hs']
    exact htyped₁.congr rfl rfl
  · rw [h.noted, ← (ensureSchema_ok hensure).1]
    exact hschema₁ schema₁ rfl
  · funext k
    have hrecast : ∀ cells : Cells (Value F),
        recast (callMigrations s m (tagNames points) (fieldSamples points)) cells = cells :=
      recast_eq_self fun mg hmg => promotes_of_adds (hadds mg hmg)
    simp only [hotRows, h.rows, hrecast, ite_self, Option.map_map]
    rfl

/-- The commit of a batch sets what the batch brings. -/
theorem hotRows_commit {m : Str} {points : List (Point F)} {b : Batch F} {schema : TableSchema}
    {sources : List (Str × Source)} {t : Table (Value F)} {hot : Str → Table (Value F)}
    (h : Prepared digest s m points s' b schema sources)
    (hschema : SchemaTyped (types (measurementTable m)) schema)
    (hpts : PointsTyped types points) (hm : ∀ p ∈ points, p.measurement = m)
    (ht : Store.commit b (s'.hot b.table) = some t)
    (hhot : hot = Function.update s'.hot b.table t) (k : Str × Key) :
    ((hot k.1).get? k.2).map Stored.cells =
      apply (hotRows s'.toWorld) (groupChange digest (m, points)) k := by
  obtain ⟨table, k⟩ := k
  subst hhot
  by_cases htable : table = measurementTable m
  · subst htable
    rw [← h.table, Function.update_self]
    simp only [apply, groupChange, h.table, if_true]
    cases hlast : lastOf digest points k with
    | none =>
      have hnot : k ∉ b.records.map Row.key := by
        intro hk
        obtain ⟨r, hr, rfl⟩ := List.mem_map.mp hk
        obtain ⟨p, hp, -⟩ := h.built.rows r hr
        cases hlast.symm.trans hp
      rw [Batches.get?_commit_of_notMem ht hnot, h.table]
      rfl
    | some p =>
      obtain ⟨hp, rfl⟩ := lastOf_mem digest hlast
      obtain ⟨r, hr, hkey⟩ := h.built.keys p hp
      obtain ⟨p', hlast', hrow⟩ := h.built.rows r hr
      rw [hkey, hlast, Option.some.injEq] at hlast'
      subst hlast'
      rw [← hkey, Batches.get?_commit_of_mem ht h.drawn.keys hr]
      refine congrArg some (funext fun c => ?_)
      have hfields : ∀ f v, p.fields.get? f = some v →
          inferFieldType v = types (measurementTable m) (colOfField f) := fun f v hget =>
        hm p hp ▸ hpts p hp f v hget
      simp only [Batches.upserted, insertedCell_eq digest h.built h.canonical hschema hfields
        (Batches.commit_cols_nodup ht) hp hrow c]
      rw [cell, hotRows, h.table, Option.bind_map]
      rfl
  · rw [Function.update_of_ne (h.table ▸ htable)]
    simp only [apply, groupChange, if_neg (Ne.symm htable)]
    rfl

/-- One measurement of a call. -/
theorem hotRows_writeMeasurement {m : Str} {points : List (Point F)} (htyped : Typed types s)
    (hpoints : points ≠ []) (hpts : PointsTyped types points)
    (hm : ∀ p ∈ points, p.measurement = m)
    (hwrite : writeMeasurement digest on none s m points = (s', .ok n)) :
    Typed types s' ∧
      hotRows s'.toWorld = apply (hotRows s.toWorld) (groupChange digest (m, points)) := by
  have hok : (writeMeasurement digest on none s m points).2.isOk = true := by rw [hwrite]; rfl
  obtain ⟨s₁, b, schema, sources, t, hprepared, -, ht, hingest⟩ :=
    ingest_ok (h := ⟨s, []⟩) digest htyped.named hpoints hok
  obtain ⟨htyped₁, hschema, hrows₁⟩ := prepared_typed digest htyped hpoints
    (samplesTyped_fieldSamples hpts hm) hprepared
  have hs' : s' = { s₁ with
      cold := written on s₁.cold b
      hot := Function.update s₁.hot b.table t } := by
    have hservice := congrArg History.service hingest
    simpa only [ingest, hwrite] using hservice
  constructor
  · rw [hs']
    exact htyped₁.congr rfl rfl
  · rw [← hrows₁]
    funext k
    exact hotRows_commit digest hprepared hschema hpts hm ht (by rw [hs']) k

/-- A group of a call: the points of one measurement. -/
def GroupOk (types : Str → Str → PgType) (g : Str × List (Point F)) : Prop :=
  g.2 ≠ [] ∧ PointsTyped types g.2 ∧ ∀ p ∈ g.2, p.measurement = g.1

theorem hotRows_writeGroups {groups : List (Str × List (Point F))} (htyped : Typed types s)
    (hgroups : ∀ g ∈ groups, GroupOk types g)
    (hwrite : writeGroups digest on (fun _ => none) s groups = (s', .ok n)) : Typed types s' ∧
      hotRows s'.toWorld = (groups.map (groupChange digest)).foldl apply (hotRows s.toWorld) := by
  induction groups generalizing s n with
  | nil =>
    cases hwrite
    exact ⟨htyped, rfl⟩
  | cons g groups ih =>
    obtain ⟨m, points⟩ := g
    obtain ⟨hpoints, hpts, hm⟩ := hgroups _ List.mem_cons_self
    rw [writeGroups] at hwrite
    rcases hfirst : writeMeasurement digest on none s m points with ⟨s₁, err | n₁⟩
    · simp [hfirst] at hwrite
    · simp only [hfirst] at hwrite
      rcases hrest : writeGroups digest on (fun _ => none) s₁ groups with ⟨s₂, err | n₂⟩
      · simp [hrest, Except.map] at hwrite
      · simp only [hrest, Prod.mk.injEq] at hwrite
        obtain ⟨rfl, -⟩ := hwrite
        obtain ⟨htyped₁, hrows₁⟩ := hotRows_writeMeasurement digest htyped hpoints hpts hm hfirst
        obtain ⟨htyped₂, hrows₂⟩ :=
          ih htyped₁ (fun g hg => hgroups g (List.mem_cons_of_mem _ hg)) hrest
        exact ⟨htyped₂, by rw [hrows₂, hrows₁]; rfl⟩

/-- What a call that returns leaves. -/
theorem hotRows_writeBatch {points : List (Point F)} (htyped : Typed types s)
    (hpts : PointsTyped types points)
    (hwrite : writeBatch digest on (fun _ => none) s points = (s', .ok n)) :
    Typed types s' ∧ hotRows s'.toWorld =
      ((byMeasurement points).entries.map (groupChange digest)).foldl apply (hotRows s.toWorld) := by
  refine hotRows_writeGroups digest htyped (fun g hg => ?_) hwrite
  refine ⟨groups_ne_nil points g hg, fun p hp => hpts p (mem_group hg p hp).1, fun p hp => ?_⟩
  exact (mem_group hg p hp).2

end Calls

section Merge

variable (points : List (Point F)) (k : Str × Key) (c : Str)

theorem lastSet_groupChange :
    lastSet ((byMeasurement points).entries.map (groupChange digest)) k c =
      (decidingPoint digest points k c).map fun p => pointCells p c := by
  rw [lastSet, decidingPoint, ← List.map_reverse, List.findSome?_map, List.map_findSome?]
  congr 1
  funext g
  simp only [Function.comp_apply, groupChange]
  by_cases htable : measurementTable g.1 = k.1
  · by_cases hc : brings g.2 c = true <;> cases lastOf digest g.2 k.2 <;> simp [htable, hc]
  · simp [htable]

theorem lastSet_pointChange :
    lastSet (points.map (pointChange digest)) k c = (newestValue digest points k c).map some := by
  rw [lastSet, newestValue, ← List.map_reverse, List.findSome?_map, List.map_findSome?]
  congr 1
  funext q
  simp only [Function.comp_apply, pointChange]
  split <;> rfl

variable {points k c}

/-- The group of a point writes the row of the point. -/
theorem exists_group_of_mem {q : Point F} (hq : q ∈ points) :
    ∃ g ∈ (byMeasurement points).entries, q ∈ g.2 ∧
      measurementTable g.1 = (rowKey digest q).1 ∧
      ∃ p, lastOf digest g.2 (rowKey digest q).2 = some p := by
  obtain ⟨group, hgroup, hmem⟩ := Dict.exists_group (·.measurement) points q hq
  exact ⟨_, hgroup, hmem, rfl, exists_lastOf digest hmem⟩

theorem rowKey_of_lastOf {g : Str × List (Point F)} {p : Point F}
    (hg : g ∈ (byMeasurement points).entries) (htable : measurementTable g.1 = k.1)
    (hlast : lastOf digest g.2 k.2 = some p) : p ∈ points ∧ rowKey digest p = k := by
  obtain ⟨hp, hkey⟩ := lastOf_mem digest hlast
  obtain ⟨hmem, hm⟩ := mem_group hg p hp
  exact ⟨hmem, Prod.ext (by rw [← htable, ← hm]; rfl) hkey⟩

/-- A call writes the rows of its points. -/
theorem groupChange_eq_none_iff (k : Str × Key) :
    (∀ u ∈ (byMeasurement points).entries.map (groupChange digest), u k = none) ↔
      ∀ v ∈ points.map (pointChange digest), v k = none := by
  simp only [List.forall_mem_map]
  constructor
  · intro h q hq
    rw [pointChange]
    split
    · rename_i hkey
      subst hkey
      obtain ⟨g, hg, -, htable, p, hlast⟩ := exists_group_of_mem digest hq
      have hnone := h g hg
      simp [groupChange, htable, hlast] at hnone
    · rfl
  · intro h g hg
    rw [groupChange]
    split
    · rename_i htable
      cases hlast : lastOf digest g.2 k.2 with
      | none => rfl
      | some p =>
        obtain ⟨hp, hkey⟩ := rowKey_of_lastOf digest hg htable hlast
        have hnone := h p hp
        simp [pointChange, hkey] at hnone
    · rfl

theorem mem_of_decidingPoint {p : Point F} (h : decidingPoint digest points k c = some p) :
    p ∈ points ∧ rowKey digest p = k := by
  obtain ⟨g, hg, hlast⟩ := List.exists_of_findSome?_eq_some h
  split at hlast
  · rename_i hdecides
    exact rowKey_of_lastOf digest (List.mem_reverse.mp hg) hdecides.1 hlast
  · contradiction

theorem newestValue_eq_none_iff : newestValue digest points k c = none ↔
    ∀ q ∈ points, rowKey digest q = k → pointCells q c = none := by
  simp [newestValue, List.findSome?_eq_none_iff]

/-- A column that no point decides, no point of the key has. -/
theorem newestValue_of_decidingPoint (h : decidingPoint digest points k c = none) :
    newestValue digest points k c = none := by
  rw [newestValue_eq_none_iff]
  rintro q hq rfl
  by_contra hne
  obtain ⟨g, hg, hmem, htable, p, hlast⟩ := exists_group_of_mem digest hq
  have hnone := List.findSome?_eq_none_iff.mp h g (List.mem_reverse.mpr hg)
  rw [if_pos ⟨htable, (brings_iff _ _).mpr ⟨q, hmem, hne⟩⟩, hlast] at hnone
  contradiction

/-- What a call leaves is the merge of its points exactly if these points keep it. -/
theorem groups_eq_merged_iff (rows : Rows (Str × Key) Str (Value F)) (points : List (Point F)) :
    ((byMeasurement points).entries.map (groupChange digest)).foldl apply rows =
      merged digest rows points ↔ Keeps digest rows points := by
  rw [merged, foldl_apply_eq_iff rows (groupChange_eq_none_iff digest)]
  refine forall₂_congr fun k c => ?_
  rw [lastSet_groupChange, lastSet_pointChange]
  cases hp : decidingPoint digest points k c with
  | none => simp [newestValue_of_decidingPoint digest hp]
  | some p =>
    obtain ⟨hmem, hkey⟩ := mem_of_decidingPoint digest hp
    simp only [Option.map_some, Option.getD_some, Option.some.injEq, forall_eq']
    cases hv : newestValue digest points k c with
    | some v =>
      simp only [Option.map_some, Option.getD_some]
      refine ⟨fun h => ⟨h.symm, fun hnone => ?_⟩, fun h => h.1.symm⟩
      rw [hnone] at h
      contradiction
    | none =>
      -- the deciding point has the key, so it has nothing there
      have hnone := (newestValue_eq_none_iff digest).mp hv p hmem hkey
      simp only [hnone, Option.map_none, Option.getD_none, true_and, forall_const]
      exact eq_comm

theorem merged_append (rows : Rows (Str × Key) Str (Value F)) (xs ys : List (Point F)) :
    merged digest rows (xs ++ ys) = merged digest (merged digest rows xs) ys := by
  rw [merged, List.map_append, List.foldl_append]
  rfl

/-- A point alone sets what it has and no more. -/
theorem keeps_singleton (rows : Rows (Str × Key) Str (Value F)) (p : Point F) :
    Keeps digest rows [p] := by
  intro k c q hq
  obtain ⟨hmem, hkey⟩ := mem_of_decidingPoint digest hq
  cases List.mem_singleton.mp hmem
  have hnewest : newestValue digest [p] k c = pointCells p c := by
    simp [newestValue, hkey]
  refine ⟨hnewest, fun hnone => ?_⟩
  obtain ⟨g, hg, hlast⟩ := List.exists_of_findSome?_eq_some hq
  split at hlast
  · rename_i hdecides
    obtain ⟨x, hx, hne⟩ := (brings_iff _ _).mp hdecides.2
    cases List.mem_singleton.mp (mem_group (List.mem_reverse.mp hg) x hx).1
    exact absurd hnone hne
  · contradiction

end Merge

section Run

variable [Numerics F] {types : Str → Str → PgType}

/-- A call that returns, with the points written so far. -/
def writeCall (on : Bool) (t : Service F × List (Point F)) (points : List (Point F)) :
    Option (Service F × List (Point F)) :=
  match writeBatch digest on (fun _ => none) t.1 points with
  | (s, .ok _) => some (s, t.2 ++ points)
  | (_, .error _) => none

/-- The hot rows are the merge of the points so far into the rows at the start. -/
def Merged (rows : Rows (Str × Key) Str (Value F)) (t : Service F × List (Point F)) : Prop :=
  hotRows t.1.toWorld = merged digest rows t.2

theorem hotRows_writeCall {on : Bool} {t t' : Service F × List (Point F)}
    {points : List (Point F)} (htyped : Typed types t.1) (hpts : PointsTyped types points)
    (hcall : writeCall digest on t points = some t') :
    Typed types t'.1 ∧ t'.2 = t.2 ++ points ∧ hotRows t'.1.toWorld =
      ((byMeasurement points).entries.map (groupChange digest)).foldl apply
        (hotRows t.1.toWorld) := by
  rw [writeCall] at hcall
  split at hcall
  · rename_i s n hwrite
    cases hcall
    obtain ⟨htyped', hrows⟩ := hotRows_writeBatch digest htyped hpts hwrite
    exact ⟨htyped', rfl, hrows⟩
  · contradiction

/-- One call keeps the merge exactly if its points do. -/
theorem merged_writeCall_iff {on : Bool} {t t' : Service F × List (Point F)}
    {points : List (Point F)} {rows : Rows (Str × Key) Str (Value F)} (htyped : Typed types t.1)
    (hpts : PointsTyped types points) (hmerged : Merged digest rows t)
    (hcall : writeCall digest on t points = some t') :
    Merged digest rows t' ↔ Keeps digest (hotRows t.1.toWorld) points := by
  obtain ⟨-, hpoints, hrows⟩ := hotRows_writeCall digest htyped hpts hcall
  rw [Merged, hpoints, merged_append, ← hmerged, hrows]
  exact groups_eq_merged_iff digest _ points

/-- Calls that keep the merge end in the merge of all their points. -/
theorem exec_merged {on : Bool} {t t' : Service F × List (Point F)} {calls : List (List (Point F))}
    {rows : Rows (Str × Key) Str (Value F)} (htyped : Typed types t.1)
    (hpts : ∀ points ∈ calls, PointsTyped types points) (hmerged : Merged digest rows t)
    (hkeeps : Runs.Along (writeCall digest on)
      (fun t points => Keeps digest (hotRows t.1.toWorld) points) t calls)
    (hexec : Runs.exec (writeCall digest on) t calls = some t') :
    Merged digest rows t' ∧ t'.2 = t.2 ++ calls.flatten := by
  induction calls generalizing t with
  | nil =>
    cases hexec
    exact ⟨hmerged, by simp⟩
  | cons points calls ih =>
    obtain ⟨t₁, hcall, hrest⟩ := Runs.exec_cons hexec
    obtain ⟨hkeep, hkeeps⟩ := hkeeps t₁ hcall
    have hp := hpts points List.mem_cons_self
    obtain ⟨htyped₁, hpoints, -⟩ := hotRows_writeCall digest htyped hp hcall
    have hmerged₁ := (merged_writeCall_iff digest htyped hp hmerged hcall).mpr hkeep
    obtain ⟨hmerged', hall⟩ := ih htyped₁
      (fun points' h => hpts points' (List.mem_cons_of_mem _ h)) hmerged₁ hkeeps hrest
    exact ⟨hmerged', by rw [hall, hpoints, List.append_assoc, List.flatten_cons]⟩

/-- Two cuts of one sequence of points leave the same rows. -/
theorem hotRows_eq_of_cuts {on : Bool} {s : Service F} {t t' : Service F × List (Point F)}
    {calls calls' : List (List (Point F))} (htyped : Typed types s)
    (hpts : ∀ points ∈ calls ++ calls', PointsTyped types points)
    (hcuts : calls.flatten = calls'.flatten)
    (hkeeps : ∀ cut ∈ [calls, calls'], Runs.Along (writeCall digest on)
      (fun t points => Keeps digest (hotRows t.1.toWorld) points) (s, []) cut)
    (hexec : Runs.exec (writeCall digest on) (s, []) calls = some t)
    (hexec' : Runs.exec (writeCall digest on) (s, []) calls' = some t') :
    hotRows t.1.toWorld = hotRows t'.1.toWorld := by
  have hstart : Merged digest (hotRows s.toWorld) (s, []) := rfl
  obtain ⟨hmerged, hpoints⟩ := exec_merged digest htyped
    (fun points h => hpts points (List.mem_append_left _ h)) hstart (hkeeps calls (by simp)) hexec
  obtain ⟨hmerged', hpoints'⟩ := exec_merged digest htyped
    (fun points h => hpts points (List.mem_append_right _ h)) hstart (hkeeps calls' (by simp))
    hexec'
  rw [hmerged, hmerged', hpoints, hpoints', hcuts]

/-- Calls leave the merge of all points so far, however the points are cut into
calls, exactly if each call keeps the merge of its own points. -/
theorem always_merged_iff (on : Bool) (s : Service F) (calls : List (List (Point F)))
    (htyped : Typed types s) (hpts : ∀ points ∈ calls, PointsTyped types points) :
    Runs.Always (writeCall digest on) (Merged digest (hotRows s.toWorld)) (s, []) calls ↔
      Runs.Along (writeCall digest on) (fun t points => Keeps digest (hotRows t.1.toWorld) points)
        (s, []) calls := by
  refine Runs.always_iff_along_of_forall (I := fun t => Typed types t.1) (E := PointsTyped types)
    ?_ ?_ hpts htyped rfl
  · intro t points t' hI hpoints hcall
    exact (hotRows_writeCall digest hI hpoints hcall).1
  · intro t points t' hI hpoints hmerged hcall
    exact merged_writeCall_iff digest hI hpoints hmerged hcall

end Run

section Examples

def fieldPoint (field : String) (n : ℤ) : Point ℤ :=
  ⟨"cpu".toList, Dict.empty, Dict.single field.toList (.int n), 0⟩

theorem pointsTyped_fieldPoint (field : String) (n : ℤ) :
    PointsTyped (fun _ _ => .bigint) [fieldPoint field n] := by
  intro p hp f v hget
  cases List.mem_singleton.mp hp
  cases Dict.eq_of_get?_single hget
  rfl

/-- Two points of one key, with a field each, in a call each. -/
theorem onePointCalls_merged : Runs.Always (writeCall (fun _ => 0) true)
    (Merged (fun _ => 0) (hotRows (start 1 : History ℤ).service.toWorld))
    ((start 1).service, []) [[fieldPoint "a" 1], [fieldPoint "b" 2]] := by
  have htyped : Typed (fun _ _ => .bigint) (start 1 : History ℤ).service :=
    ⟨by simp [start], by simp [start]⟩
  refine (always_merged_iff (fun _ => 0) true (start 1).service
    [[fieldPoint "a" 1], [fieldPoint "b" 2]] htyped ?_).mpr ?_
  · intro points hpoints
    rcases List.mem_cons.mp hpoints with rfl | hpoints
    · exact pointsTyped_fieldPoint "a" 1
    · cases List.mem_singleton.mp hpoints
      exact pointsTyped_fieldPoint "b" 2
  · refine Runs.along_of_forall (fun points hpoints t => ?_) _
    rcases List.mem_cons.mp hpoints with rfl | hpoints
    · exact keeps_singleton _ _ _
    · cases List.mem_singleton.mp hpoints
      exact keeps_singleton _ _ _

/-- The rows after calls that all return. -/
def rowsAfter (calls : List (List (Point ℤ))) : Option (Rows (Str × Key) Str (Value ℤ)) :=
  (Runs.exec (writeCall (fun _ => 0) true) ((start 1).service, []) calls).map fun t =>
    hotRows t.1.toWorld

/-- In one call the field of the first point is lost: the last point of the key
sets all columns of the batch. -/
theorem oneCall_loses : ∃ one two,
    rowsAfter [[fieldPoint "a" 1, fieldPoint "b" 2]] = some one ∧
    rowsAfter [[fieldPoint "a" 1], [fieldPoint "b" 2]] = some two ∧ one ≠ two ∧
    one ≠ merged (fun _ => 0) (hotRows (start 1 : History ℤ).service.toWorld)
      [fieldPoint "a" 1, fieldPoint "b" 2] := by
  have hrun : (rowsAfter [[fieldPoint "a" 1, fieldPoint "b" 2]]).any (fun one =>
      (rowsAfter [[fieldPoint "a" 1], [fieldPoint "b" 2]]).any fun two =>
        cell one ("cpu".toList, ⟨0, 0⟩) "f_a".toList ≠ cell two ("cpu".toList, ⟨0, 0⟩) "f_a".toList ∧
        cell one ("cpu".toList, ⟨0, 0⟩) "f_a".toList ≠
          cell (merged (fun _ => 0) (hotRows (start 1 : History ℤ).service.toWorld)
            [fieldPoint "a" 1, fieldPoint "b" 2]) ("cpu".toList, ⟨0, 0⟩) "f_a".toList) = true := by
    decide +kernel
  obtain ⟨one, hone, hrun⟩ := (Option.any_eq_true _ _).mp hrun
  obtain ⟨two, htwo, hcells⟩ := (Option.any_eq_true _ _).mp hrun
  obtain ⟨hcut, hmerge⟩ := of_decide_eq_true hcells
  exact ⟨one, two, hone, htwo, fun heq => hcut (by rw [heq]), fun heq => hmerge (by rw [heq])⟩

end Examples

end TimescaleLp.BatchCuts
