import TimescaleLp.Writes
import TimescaleLp.Reads

/-!
Deletes reach the hypertable only. What they delete does not come back there
before a point is written that matches the filters: an upsert sets the tags of a
row to those of its point, since rows of one hash have one set of tags. In cold
every version stays, and reads of cold return it.
-/
namespace TimescaleLp.Deletion

open Names ColdStore Tiering Schedule Schema Store Naming Columns Promotion Sequence Writes Reads

variable {F : Type} (digest : Str → ℕ)

/-- The points of a call. -/
def pointsOf : Call F → List (Point F)
  | .write _ _ points => points
  | _ => []

/-- The tag hash stands for the tags: no two tag sets share one. -/
def HashesTags (points : List (Point F)) : Prop :=
  ∀ p ∈ points, ∀ q ∈ points, hashTags digest p.tags = hashTags digest q.tags →
    ∀ t, p.tags.get? t = q.tags.get? t

/-- A point matches the filters of a delete. -/
def pointMatches (columns : List (Str × Str)) (start stop : Option Time) (p : Point F) : Bool :=
  deleteMatches columns start stop (pointKey digest p) (pointCells p)

/-- The tags of hot rows are those their hash stands for. -/
def Tagged (tags : ℕ → Str → Option Str) (w : World (Value F)) : Prop :=
  ∀ table k stored, (w.hot table).get? k = some stored → ∀ t v, stored.cells (colOfTag t) = some v →
    ∃ t' x, colOfTag t' = colOfTag t ∧ tags k.tagHash t' = some x ∧ v = .str x

/-- No hot row of the table matches. -/
def Cleared (table : Str) (columns : List (Str × Str)) (start stop : Option Time)
    (w : World (Value F)) : Prop :=
  ∀ k stored, (w.hot table).get? k = some stored →
    deleteMatches columns start stop k stored.cells = false

theorem deleteMatches_congr {columns : List (Str × Str)} {start stop : Option Time} {k : Key}
    {cells cells' : Cells (Value F)} (h : ∀ e ∈ columns, cells e.1 = cells' e.1) :
    deleteMatches columns start stop k cells = deleteMatches columns start stop k cells' := by
  have hall : columns.all (fun e => textEq e.2 (cells e.1)) =
      columns.all fun e => textEq e.2 (cells' e.1) := by
    rw [Bool.eq_iff_iff, List.all_eq_true, List.all_eq_true]
    exact forall₂_congr fun e he => by rw [h e he]
  rw [deleteMatches, deleteMatches, hall]

/-- The columns of a delete are columns of tags. -/
theorem columns_of_filterColumns {measurement : Str} {schema : TableSchema}
    (hschema : Canonical measurement schema) {tagFilters : List (Str × Str)}
    {columns : List (Str × Str)} (h : filterColumns schema tagFilters = some columns) :
    ∀ e ∈ columns, ∃ t, e.1 = colOfTag t := by
  intro e he
  obtain ⟨f, -, hf⟩ := (mem_of_mapM h e).mp he
  obtain ⟨col, hcol, rfl⟩ := Option.map_eq_some_iff.mp hf
  exact ⟨f.1, congrArg pgIdent (hschema.tags f.1 col hcol)⟩

section Ingest

variable [Numerics F] {h : History F} {on : Bool} {fault : Option Fault} {measurement : Str}
  {points : List (Point F)} {tags : ℕ → Str → Option Str}

/-- Tags of a hot row after a call: those of a point of the call, or those the
row had. -/
theorem tags_ingest (hnamed : Named h.service) (htagged : Tagged tags h.service.toWorld)
    (hpoints : points ≠ [])
    (htags : ∀ p ∈ points, ∀ t, p.tags.get? t = tags (hashTags digest p.tags) t) {table : Str}
    {k : Key} {stored : Stored (Value F)}
    (hstored : ((ingest digest on fault h measurement points).service.hot table).get? k =
      some stored) :
    (∃ p ∈ points, measurementTable measurement = table ∧ pointKey digest p = k ∧
      ∀ t, stored.cells (colOfTag t) = pointCells p (colOfTag t)) ∨
    ∃ old, (h.service.hot table).get? k = some old ∧
      ∀ t, stored.cells (colOfTag t) = old.cells (colOfTag t) := by
  rcases get?_hot_ingest digest hnamed hpoints hstored with
    ⟨s', b, schema, sources, r, hprepared, -, hcols, hr, rfl, rfl, rfl⟩ | ⟨old, f, hold, hf, rfl⟩
  · obtain ⟨p, hlast, hrow⟩ := hprepared.built.rows r hr
    obtain ⟨hp, hkey⟩ := lastOf_mem digest hlast
    refine Or.inl ⟨p, hp, rfl, hkey, fun t => ?_⟩
    rcases hprepared.built.insertedCell_colOfTag digest hprepared.canonical hcols hp hrow t with
      hset | ⟨hnone, hpoint⟩
    · simp only [Batches.upserted, hset, Option.getD_some]
    · -- the stored row has the tags of the point, so it has nothing here either
      simp only [Batches.upserted, hnone, Option.getD_none, hpoint]
      by_contra hcell
      obtain ⟨v, hv⟩ := Option.ne_none_iff_exists'.mp hcell
      obtain ⟨before, hbefore, hv⟩ := Option.bind_eq_some_iff.mp hv
      rw [hprepared.rows, Option.map_eq_some_iff] at hbefore
      obtain ⟨old, hold, rfl⟩ := hbefore
      simp only [if_true] at hv
      rw [colOfTag_of_recast hnamed (Or.inr rfl)] at hv
      obtain ⟨t', x, hcol, htag, -⟩ := htagged _ _ old hold t v hv
      rw [← hkey] at htag
      have hcarried : p.tags.get? t' = some x := (htags p hp t').trans htag
      refine absurd hpoint (hcol ▸ pointCells_colOfTag_ne_none ?_)
      exact (Dict.mem_keys_iff _ _).mpr ⟨x, hcarried⟩
  · refine Or.inr ⟨old, hold, fun t => ?_⟩
    split
    · exact colOfTag_of_recast hnamed hf old.cells t
    · rfl

theorem tagged_ingest (hnamed : Named h.service) (htagged : Tagged tags h.service.toWorld)
    (hpoints : points ≠ [])
    (htags : ∀ p ∈ points, ∀ t, p.tags.get? t = tags (hashTags digest p.tags) t) :
    Tagged tags (ingest digest on fault h measurement points).service.toWorld := by
  intro table k stored hstored t v hv
  rcases tags_ingest digest hnamed htagged hpoints htags hstored with
    ⟨p, hp, -, rfl, hcells⟩ | ⟨old, hold, hcells⟩
  · rw [hcells] at hv
    obtain ⟨t', x, hcol, hget, rfl⟩ := exists_tag_of_pointCells hv
    exact ⟨t', x, hcol, (htags p hp t').symm.trans hget, rfl⟩
  · exact htagged table k old hold t v (hcells t ▸ hv)

/-- Points that do not match bring no row that matches. -/
theorem cleared_ingest {columns : List (Str × Str)} {start stop : Option Time} {table : Str}
    (hnamed : Named h.service) (htagged : Tagged tags h.service.toWorld) (hpoints : points ≠ [])
    (htags : ∀ p ∈ points, ∀ t, p.tags.get? t = tags (hashTags digest p.tags) t)
    (hcolumns : ∀ e ∈ columns, ∃ t, e.1 = colOfTag t)
    (hmatches : measurementTable measurement = table →
      ∀ p ∈ points, pointMatches digest columns start stop p = false)
    (hcleared : Cleared table columns start stop h.service.toWorld) :
    Cleared table columns start stop
      (ingest digest on fault h measurement points).service.toWorld := by
  intro k stored hstored
  rcases tags_ingest digest hnamed htagged hpoints htags hstored with
    ⟨p, hp, htable, rfl, hcells⟩ | ⟨old, hold, hcells⟩
  · rw [← hmatches htable p hp]
    refine deleteMatches_congr fun e he => ?_
    obtain ⟨t, ht⟩ := hcolumns e he
    rw [ht, hcells]
  · rw [← hcleared k old hold]
    refine deleteMatches_congr fun e he => ?_
    obtain ⟨t, ht⟩ := hcolumns e he
    rw [ht, hcells]

end Ingest

section Run

variable [Numerics F] {h h' : History F} {call : Call F} {tags : ℕ → Str → Option Str}

/-- The points of a call have the tags that their hash stands for. -/
def TagsOk (tags : ℕ → Str → Option Str) (call : Call F) : Prop :=
  ∀ p ∈ pointsOf call, ∀ t, p.tags.get? t = tags (hashTags digest p.tags) t

structure TagInv (tags : ℕ → Str → Option Str) (h : History F) : Prop where
  named : Named h.service
  tagged : Tagged tags h.service.toWorld

omit [Numerics F] in
theorem Tagged.mono {w w' : World (Value F)} (htagged : Tagged tags w)
    (hhot : ∀ table k stored, (w'.hot table).get? k = some stored →
      (w.hot table).get? k = some stored) : Tagged tags w' :=
  fun table k stored hstored => htagged table k stored (hhot table k stored hstored)

/-- Calls that write nothing leave no row in hot that was not there. -/
theorem hot_step (hstep : step digest h call = some h') (hcall : ∀ on fault points,
      call ≠ .write on fault points) : ∀ table k stored,
    (h'.service.hot table).get? k = some stored → (h.service.hot table).get? k = some stored := by
  cases call with
  | write on fault points => exact absurd rfl (hcall on fault points)
  | delete measurement tagFilters start stop =>
    cases hstep
    exact (deleteLp_frame h.service measurement tagFilters start stop).2.2
  | compact measurement =>
    cases hstep
    exact fun _ _ _ hstored => hstored
  | evict eligible =>
    cases hstep
    exact fun _ _ _ hstored => get?_hot_evictTables hstored

theorem tagInv_step (hI : TagInv tags h) (htags : TagsOk digest tags call)
    (hstep : step digest h call = some h') : TagInv tags h' := by
  have hnamed := named_step digest hI.named hstep
  by_cases hcall : ∀ on fault points, call ≠ .write on fault points
  · exact ⟨hnamed, hI.tagged.mono (hot_step digest hstep hcall)⟩
  · push Not at hcall
    obtain ⟨on, fault, points, rfl⟩ := hcall
    rw [step_write] at hstep
    cases hstep
    refine ingestGroups_invariant digest (fun h m points hpoints hI hG => ?_)
      (groups_ne_nil points) hI
      (eachGroup_of_forall digest (G := fun _ _ group => ∀ p ∈ group, p ∈ points)
        (fun g hg _ p hp => (mem_group hg p hp).1) h)
    exact ⟨named_ingest digest hI.named _ _ _ _, tagged_ingest digest hI.named hI.tagged hpoints
      fun p hp => htags p (hG p hp)⟩

variable {table : Str} {columns : List (Str × Str)} {start stop : Option Time}

/-- No point that the call writes to the table matches. -/
def Misses (table : Str) (columns : List (Str × Str)) (start stop : Option Time)
    (call : Call F) : Prop :=
  ∀ p ∈ pointsOf call, measurementTable p.measurement = table →
    pointMatches digest columns start stop p = false

theorem cleared_step (hI : TagInv tags h) (hcleared : Cleared table columns start stop h.service.toWorld)
    (hcolumns : ∀ e ∈ columns, ∃ t, e.1 = colOfTag t) (htags : TagsOk digest tags call)
    (hmisses : Misses digest table columns start stop call)
    (hstep : step digest h call = some h') : Cleared table columns start stop h'.service.toWorld := by
  by_cases hcall : ∀ on fault points, call ≠ .write on fault points
  · exact fun k stored hstored => hcleared k stored (hot_step digest hstep hcall table k stored hstored)
  · push Not at hcall
    obtain ⟨on, fault, points, rfl⟩ := hcall
    rw [step_write] at hstep
    cases hstep
    refine (ingestGroups_invariant digest
      (I := fun h => TagInv tags h ∧ Cleared table columns start stop h.service.toWorld)
      (fun h m points hpoints hI hG => ?_) (groups_ne_nil points) ⟨hI, hcleared⟩
      (eachGroup_of_forall digest
        (G := fun _ m group => ∀ p ∈ group, p ∈ points ∧ p.measurement = m)
        (fun g hg _ => mem_group hg) h)).2
    have htags' : ∀ p ∈ points, ∀ t, p.tags.get? t = tags (hashTags digest p.tags) t :=
      fun p hp => htags p (hG p hp).1
    refine ⟨⟨named_ingest digest hI.1.named _ _ _ _, tagged_ingest digest hI.1.named hI.1.tagged
      hpoints htags'⟩, cleared_ingest digest hI.1.named hI.1.tagged hpoints htags' hcolumns
        (fun htable p hp => ?_) hI.2⟩
    exact hmisses p (hG p hp).1 (by rw [(hG p hp).2, htable])

/-- The tags a hash stands for among some points. -/
def tagsOf (points : List (Point F)) (hash : ℕ) (t : Str) : Option Str :=
  (points.find? fun p => hashTags digest p.tags = hash).bind fun p => p.tags.get? t

omit [Numerics F] in
theorem tagsOf_eq {points : List (Point F)} (hhash : HashesTags digest points) {p : Point F}
    (hp : p ∈ points) (t : Str) :
    p.tags.get? t = tagsOf digest points (hashTags digest p.tags) t := by
  rw [tagsOf]
  cases hfind : points.find? fun q => hashTags digest q.tags = hashTags digest p.tags with
  | none => simpa using List.find?_eq_none.mp hfind p hp
  | some q =>
    exact (hhash q (List.mem_of_find?_eq_some hfind) p hp (by simpa using List.find?_some hfind) t).symm

omit [Numerics F] in
theorem cleared_deleteLp (s : Service F) {measurement : Str} {tagFilters : List (Str × Str)}
    (start stop : Option Time)
    (hcolumns : filterColumns (deleteSchema s measurement).2 tagFilters = some columns) :
    Cleared (deleteSchema s measurement).2.table columns start stop
      (deleteLp s measurement tagFilters start stop).1.toWorld := by
  intro k stored hstored
  rw [deleteLp_toWorld, hcolumns] at hstored
  simp only [Function.update_self, Dict.get?_filter, Option.filter_eq_some_iff] at hstored
  simpa using hstored.2

/-- What a delete has deleted, no read of hot returns before a point that matches
is written. Cold is as it was. -/
theorem always_cleared (clock : ℕ) (calls later : List (Call F)) (measurement : Str)
    (tagFilters : List (Str × Str))
    (hrun : Runs.exec (step digest) (Sequence.start clock) calls = some h)
    (hcolumns : filterColumns (deleteSchema h.service measurement).2 tagFilters = some columns)
    (hhash : HashesTags digest ((calls ++ later).flatMap pointsOf))
    (hlater : ∀ call ∈ later, Misses digest (measurementTable measurement) columns start stop call) :
    (deleteLp h.service measurement tagFilters start stop).1.cold = h.service.cold ∧
      Runs.Always (step digest) (fun h => ∀ k cells,
          Read h.service.toWorld .hot (measurementTable measurement) k cells →
            deleteMatches columns start stop k cells = false)
        { h with service := (deleteLp h.service measurement tagFilters start stop).1 } later := by
  refine ⟨(deleteLp_frame h.service measurement tagFilters start stop).1, ?_⟩
  have htags : ∀ call ∈ calls ++ later,
      TagsOk digest (tagsOf digest ((calls ++ later).flatMap pointsOf)) call :=
    fun call hcall p hp => tagsOf_eq digest hhash (List.mem_flatMap.mpr ⟨call, hcall, hp⟩)
  have hI : TagInv (tagsOf digest ((calls ++ later).flatMap pointsOf)) h :=
    Runs.exec_invariant_along (G := fun _ call => TagsOk digest _ call)
      (fun _ _ _ hI hG hstep => tagInv_step digest hI hG hstep)
      ⟨named_start clock, by simp [Tagged, Sequence.start]⟩
      (Runs.along_of_forall (fun call hcall _ => htags call (List.mem_append_left _ hcall)) _) hrun
  obtain ⟨-, hcanonical⟩ := named_deleteSchema hI.named measurement
  have hcleared := cleared_deleteLp h.service start stop hcolumns
  rw [hcanonical.table] at hcleared
  refine Runs.always_of_along
    (I := fun h => TagInv (tagsOf digest ((calls ++ later).flatMap pointsOf)) h ∧
      Cleared (measurementTable measurement) columns start stop h.service.toWorld)
    (G := fun _ call => call ∈ later) ?_ ?_ ⟨⟨?_, ?_⟩, hcleared⟩
    (Runs.along_of_forall (fun call hcall _ => hcall) _)
  · intro h call h' hI hcall hstep
    have hok := htags call (List.mem_append_right _ hcall)
    exact ⟨tagInv_step digest hI.1 hok hstep, cleared_step digest hI.1 hI.2
      (columns_of_filterColumns hcanonical hcolumns) hok (hlater call hcall) hstep⟩
  · intro h hI k cells hread
    obtain ⟨stored, hstored, rfl⟩ := (read_hot_iff _ _ _ _).mp hread
    exact hI.2 k stored hstored
  · exact named_deleteLp hI.named measurement tagFilters start stop
  · exact hI.tagged.mono (deleteLp_frame h.service measurement tagFilters start stop).2.2

end Run

section Examples

/-- A digest that tells the points of the examples apart. -/
def codeSum (s : Str) : ℕ := (s.map Char.toNat).sum

def hostPoint (tag host : String) (time : Time) : Point ℤ :=
  ⟨"cpu".toList, Dict.single tag.toList host.toList, Dict.single "a".toList (.int 1), time⟩

def afterWrite (p : Point ℤ) : History ℤ :=
  ingest codeSum true none (Sequence.start 1) "cpu".toList [p]

/-- A delete of one host. -/
def deleteHost (h : History ℤ) : History ℤ :=
  { h with service := (deleteLp h.service "cpu".toList [("host".toList, "a".toList)] none none).1 }

theorem otherHost_cleared : Runs.Always (step codeSum)
    (fun h : History ℤ => ∀ k cells, Read h.service.toWorld .hot "cpu".toList k cells →
      deleteMatches [("t_host".toList, "a".toList)] none none k cells = false)
    (deleteHost (afterWrite (hostPoint "host" "a" 0)))
    [.write true (fun _ => none) [hostPoint "host" "b" 1], .compact none] := by
  refine (always_cleared (h := afterWrite (hostPoint "host" "a" 0)) codeSum 1
    [.write true (fun _ => none) [hostPoint "host" "a" 0]]
    [.write true (fun _ => none) [hostPoint "host" "b" 1], .compact none] "cpu".toList
    [("host".toList, "a".toList)] rfl rfl ?_ ?_).2
  · intro p hp q hq heq t
    simp only [pointsOf, List.cons_append, List.nil_append, List.flatMap_cons, List.flatMap_nil,
      List.append_nil, List.mem_cons, List.not_mem_nil, or_false] at hp hq
    rcases hp with rfl | rfl <;> rcases hq with rfl | rfl
    · rfl
    · exact absurd heq (by decide +kernel)
    · exact absurd heq (by decide +kernel)
    · rfl
  · intro call hcall
    rcases List.mem_cons.mp hcall with rfl | hcall
    · unfold Misses
      decide +kernel
    · cases List.mem_singleton.mp hcall
      exact fun p hp => absurd hp List.not_mem_nil

theorem exists_read_hot {w : World (Value ℤ)} (columns : List (Str × Str)) (k : Key)
    (h : (((w.hot "cpu".toList).get? k).any fun stored =>
      deleteMatches columns none none k stored.cells) = true) :
    ∃ k cells, deleteMatches columns none none k cells = true ∧ Read w .hot "cpu".toList k cells := by
  obtain ⟨stored, hstored, hmatches⟩ := (Option.any_eq_true _ _).mp h
  exact ⟨k, stored.cells, hmatches, (read_hot_iff _ _ _ _).mpr ⟨stored, hstored, rfl⟩⟩

/-- Every row of cold matches, and hot has no row of its key any more. -/
theorem exists_read_cold {h : History ℤ} {r : Row (Value ℤ)}
    (hr : r ∈ heldRows (deleteHost h).service.cold "cpu".toList)
    (hmatches : (heldRows (deleteHost h).service.cold "cpu".toList).all (fun r =>
      deleteMatches [("t_host".toList, "a".toList)] none none r.key r.cells &&
        (((deleteHost h).service.hot "cpu".toList).get? r.key).isNone) = true) :
    ∃ k cells, deleteMatches [("t_host".toList, "a".toList)] none none k cells = true ∧
      Read (deleteHost h).service.toWorld .cold "cpu".toList k cells ∧
      Read (deleteHost h).service.toWorld .all "cpu".toList k cells := by
  obtain ⟨newest, hnewest⟩ := exists_newest_held _ _ r ((mem_heldRows_iff _ _ _).mp hr)
  have hmem := (mem_heldRows_iff _ _ _).mpr hnewest.1
  have hboth := List.all_eq_true.mp hmatches newest hmem
  rw [Bool.and_eq_true, Option.isNone_iff_eq_none] at hboth
  have hview : Engine.ViewRow (held (deleteHost h).service.cold "cpu".toList) newest.key
      newest.cells := ⟨newest, hnewest.2.1 ▸ hnewest, rfl⟩
  refine ⟨newest.key, newest.cells, hboth.1, ?_, (read_all_cold hboth.2 _).mpr hview⟩
  rw [Read, viewRows_cold]
  exact hview

/-- Two tags that share a hash with the one tag of the second call. -/
def sharedHash : List (Call ℤ) :=
  [.write true (fun _ => none) [⟨"cpu".toList, (Dict.single "host".toList "a".toList).set
      "dc".toList "x".toList, Dict.single "a".toList (.int 1), 0⟩],
    .delete "cpu".toList [("host".toList, "a".toList), ("dc".toList, "y".toList)] none none,
    .write true (fun _ => none) [hostPoint "dc" "y" 0]]

/-- The deleted version is read from cold. A filter on a tag that the schema does
not list deletes nothing, though another tag may have its column. Where tag sets
share a hash, a point may complete a row that matches. -/
theorem deleted_stillRead :
    (∃ h k cells, Runs.exec (step codeSum) (Sequence.start 1)
        [.write true (fun _ => none) [hostPoint "host" "a" 0]] = some h ∧
      deleteMatches [("t_host".toList, "a".toList)] none none k cells = true ∧
      Read (deleteHost h).service.toWorld .cold "cpu".toList k cells ∧
      Read (deleteHost h).service.toWorld .all "cpu".toList k cells) ∧
    (∃ h k cells, Runs.exec (step codeSum) (Sequence.start 1)
        [.write true (fun _ => none) [hostPoint "Host" "a" 0]] = some h ∧
      deleteMatches [("t_host".toList, "a".toList)] none none k cells = true ∧
      Read (deleteHost h).service.toWorld .hot "cpu".toList k cells) ∧
    ∃ h k cells, Runs.exec (step fun _ => 0) (Sequence.start 1) sharedHash = some h ∧
      deleteMatches [("t_host".toList, "a".toList), ("t_dc".toList, "y".toList)] none none k cells =
        true ∧
      Read h.service.toWorld .hot "cpu".toList k cells := by
  refine ⟨?_, ?_, ?_⟩
  · obtain ⟨k, cells, hread⟩ := exists_read_cold (h := afterWrite (hostPoint "host" "a" 0))
      (List.mem_of_mem_head? rfl) (by decide +kernel)
    exact ⟨_, k, cells, rfl, hread⟩
  · obtain ⟨k, cells, hread⟩ := exists_read_hot [("t_host".toList, "a".toList)]
      (pointKey codeSum (hostPoint "Host" "a" 0))
      (w := (deleteHost (afterWrite (hostPoint "Host" "a" 0))).service.toWorld) (by decide +kernel)
    exact ⟨_, k, cells, rfl, hread⟩
  · have hrow : (Runs.exec (step fun _ => 0) (Sequence.start 1) sharedHash).any (fun h =>
        ((h.service.hot "cpu".toList).get? ⟨0, 0⟩).any fun stored => deleteMatches
          [("t_host".toList, "a".toList), ("t_dc".toList, "y".toList)] none none ⟨0, 0⟩
            stored.cells) = true := by
      decide +kernel
    obtain ⟨h, hrun, hrow⟩ := (Option.any_eq_true _ _).mp hrow
    obtain ⟨k, cells, hread⟩ := exists_read_hot _ ⟨0, 0⟩ hrow
    exact ⟨h, k, cells, hrun, hread⟩

end Examples

end TimescaleLp.Deletion
