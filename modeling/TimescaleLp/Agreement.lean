import TimescaleLp.Writes
import TimescaleLp.Reads

/-!
The hot row of a key against the newest row of the key in cold. Hot merges a
write into the stored row column by column; cold keeps whole rows, and a read
picks one of them. The two agree as long as each write carries the whole row,
under names that the database does not cut, and promotes no other row.
-/
namespace TimescaleLp.Agreement

open Names ColdStore Tiering Schedule Schema Store Naming Columns Promotion Sequence Writes Reads

variable {F : Type}

/-- A range of a table is dropped from hot. -/
def dropped (w : World (Value F)) (table : Str) (start stop : Time) : World (Value F) where
  nextSeq := w.nextSeq
  hot := Function.update w.hot table (dropChunk (w.hot table) start stop)
  cold := w.cold

/-- Hot and cold have the same row for every key of hot, so that neither a tie
between them nor the loss of the hot row can be seen in a read of both. -/
structure Agree (w : World (Value F)) : Prop where
  cold : ∀ table k stored, (w.hot table).get? k = some stored →
    (∃ r, Newest (held w.cold table) k r) ∧
      ∀ r, Newest (held w.cold table) k r → r.cells = stored.cells
  all : ∀ table k stored, (w.hot table).get? k = some stored →
    ∀ cells, Read w .all table k cells ↔ cells = stored.cells
  evicted : ∀ table k stored, (w.hot table).get? k = some stored → ∀ start stop cells,
    Read (dropped w table start stop) .all table k cells ↔ cells = stored.cells

/-- Each hot row is the newest recorded row of its key. -/
def Copied (h : History F) : Prop :=
  ∀ table k stored, (h.service.hot table).get? k = some stored →
    ∃ r, Newest (rowsOf h.recorded table) k r ∧ r.seq = stored.seq ∧ r.cells = stored.cells

theorem agree_of_copied {h : History F} (hinv : Inv h.service.toWorld h.recorded)
    (hcopied : Copied h) : Agree h.service.toWorld := by
  have hlatest : ∀ table k stored, (h.service.hot table).get? k = some stored →
      ∃ r, Latest h.service.toWorld h.recorded table r ∧ r.key = k ∧ r.seq = stored.seq ∧
        r.cells = stored.cells := by
    intro table k stored hstored
    obtain ⟨r, hr, hseq, hcells⟩ := hcopied table k stored hstored
    have hkey : r.key = k := hr.2.1
    subst hkey
    refine ⟨r, ⟨hr, fun s hs hkey => ?_⟩, rfl, hseq, hcells⟩
    rw [hseq]
    exact (hinv.exported table s hs).2 stored (hkey ▸ hstored)
  refine ⟨?_, ?_, ?_⟩
  · intro table k stored hstored
    obtain ⟨r, hr, rfl, -, hcells⟩ := hlatest table k stored hstored
    refine ⟨⟨r, (newest_held_iff hinv hr r).mpr rfl⟩, fun s hs => ?_⟩
    rw [(newest_held_iff hinv hr s).mp hs, hcells]
  · intro table k stored hstored cells
    obtain ⟨r, hr, rfl, hseq, hcells⟩ := hlatest table k stored hstored
    rw [← hcells]
    refine read_all_iff hinv hr (fun other hother => Or.inr ?_) cells
    cases hstored.symm.trans hother
    exact ⟨hseq.symm, hcells.symm⟩
  · intro table k stored hstored start stop cells
    obtain ⟨r, hr, rfl, hseq, hcells⟩ := hlatest table k stored hstored
    have hdrop : ∀ t k other, ((dropped h.service.toWorld table start stop).hot t).get? k =
        some other → (h.service.hot t).get? k = some other := by
      intro t k other hother
      simp only [dropped, Function.update_apply] at hother
      split at hother
      · rename_i ht
        rw [Eviction.get?_dropChunk] at hother
        split at hother
        · contradiction
        · exact ht ▸ hother
      · exact hother
    have hinv' : Inv (dropped h.service.toWorld table start stop) h.recorded :=
      hinv.frame rfl le_rfl fun t k other hother => ⟨other, hdrop t k other hother, rfl⟩
    rw [← hcells]
    refine read_all_iff hinv' ⟨hr.newest, hr.exported⟩ (fun other hother => ?_) cells
    cases hstored.symm.trans (hdrop table _ other hother)
    exact Or.inr ⟨hseq.symm, hcells.symm⟩

section Write

variable (digest : Str → ℕ) [Numerics F]

/-- The points of one measurement replace whole rows. The names of their tags
and fields fit into an identifier; a stored row that they write has values only
in columns they bring; promotions change no row that they do not write. -/
structure Whole (s : Service F) (measurement : Str) (points : List (Point F)) : Prop where
  names : ∀ k p, lastOf digest points k = some p →
    (∀ t ∈ p.tags.keys, (tagCol t).length ≤ 63) ∧ ∀ f ∈ p.fields.keys, (fieldCol f).length ≤ 63
  columns : ∀ p ∈ points, ∀ stored,
    (s.hot (measurementTable measurement)).get? (pointKey digest p) = some stored →
      ∀ c, stored.cells c ≠ none → ∃ q ∈ points, pointCells q c ≠ none
  promotions : ∀ k stored, (∀ p ∈ points, pointKey digest p ≠ k) →
    (s.hot (measurementTable measurement)).get? k = some stored →
      recast (callMigrations s measurement (tagNames points) (fieldSamples points)) stored.cells =
        stored.cells

variable {h : History F} {measurement : Str} {points : List (Point F)}

/-- A written row has the same cells in hot and in the batch: what the batch does
not bring, the stored row did not have. -/
theorem cells_upserted {s s' : Service F} {b : Batch F} {schema : TableSchema}
    {sources : List (Str × Source)}
    (hprepared : Prepared digest s measurement points s' b schema sources)
    (hcols : (b.cols.map pgIdent).Nodup) (hwhole : Whole digest s measurement points)
    {r : Row (Value F)} (hr : r ∈ b.records) :
    r.cells = (Batches.upserted b.cols ((s'.hot b.table).get? r.key) r).cells := by
  have hbuilt := hprepared.built
  obtain ⟨p, hlast, hrow⟩ := hbuilt.rows r hr
  obtain ⟨htags, hfields⟩ := hwhole.names _ p hlast
  funext c
  rw [hbuilt.cells_eq digest hprepared.canonical hcols hrow htags hfields c]
  cases hcell : insertedCell b.cols r c with
  | some v => simp [Batches.upserted, hcell]
  | none =>
    have hnone := (hbuilt.insertedCell_eq_none_iff digest hprepared.canonical r c).mp hcell
    have hkey : pointKey digest p = r.key := (lastOf_mem digest hlast).2
    have holdcell : ∀ other, (s'.hot b.table).get? r.key = some other → other.cells c = none := by
      intro other hother
      rw [hprepared.rows, Option.map_eq_some_iff] at hother
      obtain ⟨before, hbefore, rfl⟩ := hother
      rw [hprepared.table, ← hkey] at hbefore
      have hcbefore : before.cells c = none := by
        by_contra hne
        obtain ⟨q, hq, hqc⟩ := hwhole.columns p (lastOf_mem digest hlast).1 before hbefore c hne
        exact hqc (hnone q hq)
      simp only [if_pos hprepared.table]
      exact recast_none hcbefore
    simp only [Batches.upserted, hcell, Option.getD_none]
    cases hother : (s'.hot b.table).get? r.key with
    | none => rfl
    | some other => exact (holdcell other hother).symm

theorem copied_ingest (hinv : Inv h.service.toWorld h.recorded) (hs : Named h.service)
    (hcopied : Copied h) (hpoints : points ≠ []) {fault : Option Fault}
    (hok : (writeMeasurement digest true fault h.service measurement points).2.isOk = true)
    (hwhole : Whole digest h.service measurement points) :
    Copied (ingest digest true fault h measurement points) := by
  obtain ⟨s', b, schema, sources, t, hprepared, -, ht, hingest⟩ := ingest_ok digest hs hpoints hok
  have hbuilt := hprepared.built
  have hcols := Batches.commit_cols_nodup ht
  have hrecorded : ∀ table s, s ∈ rowsOf h.recorded table → s.seq < h.service.nextSeq := by
    rintro table s ⟨b', hb', -, hsb⟩
    exact (hinv.seqs b' hb' s hsb).2
  rw [hingest]
  intro table k stored hstored
  rw [if_pos rfl, rowsOf_append]
  rcases get?_update_commit hprepared.drawn.keys ht hstored with
    ⟨r, hr, rfl, rfl, rfl⟩ | ⟨hold, hkeys⟩
  · -- the row is written: the newest of its key, and the same in both tiers
    refine ⟨r, ⟨Or.inr ⟨rfl, hr⟩, rfl, ?_⟩, rfl, ?_⟩
    · rintro s (hs' | ⟨-, hs'⟩) hkey
      · exact (hrecorded _ s hs').le.trans (hprepared.drawn.seqs r hr).1
      · exact (List.inj_on_of_nodup_map hprepared.drawn.keys hs' hr hkey) ▸ le_rfl
    · exact cells_upserted digest hprepared hcols hwhole hr
  · rw [hprepared.rows, Option.map_eq_some_iff] at hold
    obtain ⟨before, hbefore, rfl⟩ := hold
    obtain ⟨r, hr, hseq, hcells⟩ := hcopied table k before hbefore
    refine ⟨r, ⟨Or.inl hr.1, hr.2.1, ?_⟩, hseq, ?_⟩
    · rintro s (hs' | ⟨htable, hs'⟩) hkey
      · exact hr.2.2 s hs' hkey
      · exact absurd hkey (hkeys htable.symm s hs')
    · rw [hcells]
      split
      · rename_i htable
        refine (hwhole.promotions k before (fun p hp hpk => ?_) (htable ▸ hbefore)).symm
        obtain ⟨r', hr', hkey⟩ := hbuilt.keys p hp
        exact hkeys (htable.trans hprepared.table.symm) r' hr' (hkey.trans hpk)
      · rfl

/-- A write with write-through that returns, a compaction or an eviction. -/
def Plain (h : History F) : Call F → Prop
  | .write on fault points => on = true ∧ (writeBatch digest on fault h.service points).2.isOk = true
  | .delete .. => False
  | _ => True

instance : ∀ (h : History F) (call : Call F), Decidable (Plain digest h call)
  | _, .write .. => inferInstanceAs (Decidable (_ ∧ _))
  | _, .delete .. => isFalse id
  | _, .compact _ | _, .evict _ => isTrue trivial

/-- Every measurement of a write call replaces whole rows. -/
def WholeRows (h : History F) : Call F → Prop
  | .write on fault points =>
    EachGroup digest (fun h m points => Whole digest h.service m points) on fault h
      (byMeasurement points).entries
  | _ => True

/-- What holds in every state of such a run. -/
structure CopyInv (h : History F) : Prop where
  inv : Inv h.service.toWorld h.recorded
  named : Named h.service
  copied : Copied h

variable {h' : History F} {call : Call F}

theorem copyInv_step (hI : CopyInv h) (hplain : Plain digest h call) (hwhole : WholeRows digest h call)
    (hstep : step digest h call = some h') : CopyInv h' := by
  have hinv := step_inv digest hI.inv hstep
  have hnamed := named_step digest hI.named hstep
  cases call with
  | write on fault points =>
    obtain ⟨rfl, hok⟩ := hplain
    rw [step_write] at hstep
    cases hstep
    refine ingestGroups_invariant digest (fun h m points hpoints hI hG => ?_)
      (groups_ne_nil points) hI (hwhole.and (eachGroup_isOk digest hok))
    exact ⟨hI.inv.ingest digest hpoints, named_ingest digest hI.named _ _ _ _,
      copied_ingest digest hI.inv hI.named hI.copied hpoints hG.2 hG.1⟩
  | delete measurement tagFilters start stop => exact hplain.elim
  | compact measurement =>
    cases hstep
    exact ⟨hinv, hnamed, hI.copied⟩
  | evict eligible =>
    cases hstep
    exact ⟨hinv, hnamed, fun table k stored hstored =>
      hI.copied table k stored (get?_hot_evictTables hstored)⟩

/-- Hot and cold agree in every state of a run whose writes replace whole rows. -/
theorem always_agree (clock : ℕ) (calls : List (Call F))
    (hcalls : Runs.Along (step digest) (fun h call => Plain digest h call ∧ WholeRows digest h call)
      (start clock) calls) :
    Runs.Always (step digest) (fun h => Agree h.service.toWorld) (start clock) calls :=
  Runs.always_of_along (fun _ _ _ hI hcall hstep => copyInv_step digest hI hcall.1 hcall.2 hstep)
    (fun _ hI => agree_of_copied hI.inv hI.copied)
    ⟨start_inv clock, named_start clock, by simp [Copied, Sequence.start]⟩ hcalls

/-- Hot rows have values in these columns only. -/
def Within (cols : List Str) (s : Service F) : Prop :=
  ∀ table k stored, (s.hot table).get? k = some stored → ∀ c, stored.cells c ≠ none → c ∈ cols

def columnsOf (p : Point F) : List Str := p.tags.keys.map colOfTag ++ p.fields.keys.map colOfField

/-- All points have values in the same columns, under names that fit; nothing is
promoted. -/
def Alike (cols : List Str) (s : Service F) (measurement : Str) (points : List (Point F)) : Prop :=
  (∀ p ∈ points, columnsOf p = cols ∧ (∀ t ∈ p.tags.keys, (tagCol t).length ≤ 63) ∧
    ∀ f ∈ p.fields.keys, (fieldCol f).length ≤ 63) ∧
  ∀ mg ∈ callMigrations s measurement (tagNames points) (fieldSamples points), promotes mg = false

instance (cols : List Str) (s : Service F) (measurement : Str) (points : List (Point F)) :
    Decidable (Alike cols s measurement points) := by
  unfold Alike
  infer_instance

omit [Numerics F] in
theorem pointCells_ne_none_of_alike {cols : List Str} {p : Point F} (hp : columnsOf p = cols)
    (c : Str) : pointCells p c ≠ none ↔ c ∈ cols := by
  rw [pointCells_ne_none_iff, ← hp, columnsOf, List.mem_append, List.mem_map, List.mem_map]

theorem whole_of_alike {cols : List Str} {s : Service F} (hwithin : Within cols s)
    (h : Alike cols s measurement points) : Whole digest s measurement points where
  names _ _ hlast := (h.1 _ (lastOf_mem digest hlast).1).2
  columns p hp _ hstored c hc :=
    ⟨p, hp, (pointCells_ne_none_of_alike (h.1 p hp).1 c).mpr (hwithin _ _ _ hstored c hc)⟩
  promotions _ stored _ _ := recast_eq_self h.2 stored.cells

/-- What the points bring is within the columns, and a promotion makes no values. -/
theorem within_ingest {cols : List Str} (hs : Named h.service) (hwithin : Within cols h.service)
    (hpoints : points ≠ []) {fault : Option Fault}
    (hok : (writeMeasurement digest true fault h.service measurement points).2.isOk = true)
    (halike : Alike cols h.service measurement points) :
    Within cols (ingest digest true fault h measurement points).service := by
  obtain ⟨s', b, schema, sources, t, hprepared, -, ht, hingest⟩ := ingest_ok digest hs hpoints hok
  have hbefore : Within cols s' := by
    intro table k stored hstored c hc
    rw [hprepared.rows, Option.map_eq_some_iff] at hstored
    obtain ⟨before, hbefore, rfl⟩ := hstored
    refine hwithin table k before hbefore c fun hnone => hc ?_
    simp only
    split
    · exact recast_none hnone
    · exact hnone
  rw [hingest]
  intro table k stored hstored c hc
  rcases get?_update_commit hprepared.drawn.keys ht hstored with ⟨r, -, -, -, rfl⟩ | ⟨hold, -⟩
  · simp only [Batches.upserted] at hc
    cases hcell : insertedCell b.cols r c with
    | none =>
      rw [hcell, Option.getD_none] at hc
      obtain ⟨v, hv⟩ := Option.ne_none_iff_exists'.mp hc
      obtain ⟨old, hget, hcold⟩ := Option.bind_eq_some_iff.mp hv
      exact hbefore table k old hget c (by rw [hcold]; exact Option.some_ne_none v)
    | some v =>
      have hbrought : ∃ q ∈ points, pointCells q c ≠ none := by
        by_contra hnone
        push Not at hnone
        rw [(hprepared.built.insertedCell_eq_none_iff digest hprepared.canonical r c).mpr hnone]
          at hcell
        contradiction
      obtain ⟨q, hq, hqc⟩ := hbrought
      exact (pointCells_ne_none_of_alike (halike.1 q hq).1 c).mp hqc
  · exact hbefore table k stored hold c hc

end Write

/-- The test for a call whose points all have the columns. -/
def writesAlike (digest : Str → ℕ) [Numerics F] (cols : List Str) (h : History F) : Call F → Bool
  | .write on fault points =>
    on && (writeBatch digest on fault h.service points).2.isOk &&
      decide (EachGroup digest (fun h m points => Alike cols h.service m points) on fault h
        (byMeasurement points).entries)
  | .compact _ => true
  | _ => false

/-- Writes that always bring the same columns replace whole rows. -/
theorem plain_of_alike (digest : Str → ℕ) [Numerics F] (clock : ℕ) {cols : List Str}
    {calls : List (Call F)}
    (htest : Runs.checkAlong (step digest) (writesAlike digest cols) (start clock) calls = true) :
    Runs.Along (step digest) (fun h call => Plain digest h call ∧ WholeRows digest h call)
      (start clock) calls := by
  have hingest : ∀ (fault : Str → Option Fault) (h : History F) m points, points ≠ [] →
      Named h.service ∧ Within cols h.service → Alike cols h.service m points →
      (writeMeasurement digest true (fault m) h.service m points).2.isOk = true →
      Named (ingest digest true (fault m) h m points).service ∧
        Within cols (ingest digest true (fault m) h m points).service :=
    fun fault h m points hpoints hI halike hok =>
      ⟨named_ingest digest hI.1 _ _ _ _, within_ingest digest hI.1 hI.2 hpoints hok halike⟩
  refine Runs.Along.of_invariant (I := fun h : History F => Named h.service ∧ Within cols h.service)
    ?_ ?_ ⟨named_start clock, by simp [Within, Sequence.start]⟩ (Runs.along_of_check htest)
  · intro h call h' hI htest hstep
    cases call with
    | write on fault points =>
      simp only [writesAlike, Bool.and_eq_true, decide_eq_true_eq] at htest
      obtain ⟨⟨rfl, hok⟩, halike⟩ := htest
      rw [step_write] at hstep
      cases hstep
      exact ingestGroups_invariant digest
        (fun h m points hpoints hI hG => hingest fault h m points hpoints hI hG.1 hG.2)
        (groups_ne_nil points) hI (halike.and (eachGroup_isOk digest hok))
    | compact measurement =>
      refine ⟨named_step digest hI.1 hstep, ?_⟩
      cases hstep
      exact hI.2
    | _ => contradiction
  · intro h call hI htest
    cases call with
    | write on fault points =>
      simp only [writesAlike, Bool.and_eq_true, decide_eq_true_eq] at htest
      obtain ⟨⟨rfl, hok⟩, halike⟩ := htest
      exact ⟨⟨rfl, hok⟩, halike.of_invariant (hingest fault)
        (fun h m points hI hG => whole_of_alike digest hI.2 hG) (groups_ne_nil points) hI⟩
    | compact measurement => exact ⟨trivial, trivial⟩
    | _ => contradiction

/-- The second call writes a stored row again, with all its columns. -/
def rewrites : List (Call ℤ) :=
  [.write true (fun _ => none) [cpuPoint 0 1, cpuPoint 1 2],
    .write true (fun _ => none) [cpuPoint 1 3, cpuPoint 2 4], .compact none]

theorem rewrites_agree : Runs.Always (step fun _ => 0)
    (fun h : History ℤ => Agree h.service.toWorld) (Sequence.start 1) rewrites :=
  always_agree (fun _ => 0) 1 rewrites
    (plain_of_alike (fun _ => 0) 1 (show Runs.checkAlong _ (writesAlike _ ["f_a".toList]) _ _ = true
      by decide +kernel))

/-- The test for a hot row whose column no newest row of cold has. -/
def differs (w : World (Value ℤ)) (table : Str) (k : Key) (c : Str) : Bool :=
  ((w.hot table).get? k).any fun stored =>
    (heldRows w.cold table).all fun r => decide (r.key = k →
      r.cells c ≠ stored.cells c ∨ ∃ s ∈ heldRows w.cold table, s.key = k ∧ r.seq < s.seq)

theorem not_agree_of_differs {w : World (Value ℤ)} {table : Str} {k : Key} {c : Str}
    (h : differs w table k c = true) : ¬Agree w := by
  intro hagree
  obtain ⟨stored, hstored, hall⟩ := (Option.any_eq_true _ _).mp h
  obtain ⟨⟨r, hr⟩, hcells⟩ := hagree.cold table k stored hstored
  have hmem := (mem_heldRows_iff _ _ r).mpr hr.1
  rcases of_decide_eq_true (List.all_eq_true.mp hall r hmem) hr.2.1 with hne | ⟨s, hs, hkey, hlt⟩
  · exact hne (congrFun (hcells r hr) c)
  · exact absurd (hr.2.2 s ((mem_heldRows_iff _ _ s).mp hs) hkey) (Nat.not_le.mpr hlt)

def partialPoint (field : Str) (n : ℤ) : Point ℤ :=
  ⟨"cpu".toList, Dict.empty, Dict.single field (.int n), 0⟩

/-- Two writes of one key, with a field each. -/
def partialUpdate : List (Call ℤ) :=
  [.write true (fun _ => none) [partialPoint "a".toList 1],
    .write true (fun _ => none) [partialPoint "b".toList 2]]

/-- Hot has both fields then, the newest row of cold has the second only. -/
theorem partialUpdate_differs : ∃ calls : List (Call ℤ),
    Runs.Along (step fun _ => 0) (Plain fun _ => 0) (Sequence.start 1) calls ∧
      ¬Runs.Always (step fun _ => 0) (fun h => Agree h.service.toWorld) (Sequence.start 1) calls := by
  refine ⟨partialUpdate, by decide +kernel, fun halways => ?_⟩
  have hrun : (Runs.exec (step fun _ => 0) (Sequence.start 1) partialUpdate).any (fun h =>
      differs h.service.toWorld "cpu".toList ⟨0, 0⟩ "f_a".toList) = true := by decide +kernel
  obtain ⟨h, hexec, hdiffers⟩ := (Option.any_eq_true _ _).mp hrun
  exact not_agree_of_differs hdiffers (halways.last hexec)

end TimescaleLp.Agreement
