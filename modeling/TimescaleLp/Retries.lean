import TimescaleLp.FailedWrite
import TimescaleLp.Sheets

/-!
A call that stopped at one of its stores and is made again. The first attempt has
written some measurements, may have promoted and staged another and has not got
to the rest. The second one writes every sheet, and its rows are the newest in
cold, so nothing but sequence numbers tells that there was a first.
-/
namespace TimescaleLp.Retries

open Names ColdStore Schema Store Naming Promotion Columns Sequence Writes BatchCuts Sheets

variable {F : Type}

section Sheets
variable (digest : Str → ℕ) [Numerics F]

/-- The tables of the measurements of a call. -/
def tablesOf (groups : List (Str × List (Point F))) : Set Str :=
  {t | ∃ g ∈ groups, measurementTable g.1 = t}

/-- Distinct measurements have distinct tables, and each has a point. -/
def Separate (groups : List (Str × List (Point F))) : Prop :=
  groups.Pairwise (fun g g' => measurementTable g.1 ≠ measurementTable g'.1) ∧
    ∀ g ∈ groups, g.2 ≠ []

/-- The rows of a measurement have been built, so that its stores come next. -/
def Built (h : History F) (m : Str) (points : List (Point F)) : Prop :=
  (prepare digest h.service m points).2.isOk = true

/-- The measurement is written without a failure. -/
def Returns (on : Bool) (fault : Str → Option Fault) (h : History F) (m : Str)
    (points : List (Point F)) : Prop :=
  (writeMeasurement digest on (fault m) h.service m points).2.isOk = true

instance (h : History F) (m : Str) (points : List (Point F)) : Decidable (Built digest h m points) :=
  inferInstanceAs (Decidable (_ = true))

variable {digest} {on : Bool} {fault : Str → Option Fault} {h : History F}
  {groups : List (Str × List (Point F))} {g : Str × List (Point F)}

theorem Returns.built {m : Str} {points : List (Point F)}
    (hok : Returns digest on fault h m points) : Built digest h m points := by
  unfold Returns writeMeasurement at hok
  unfold Built
  rcases hprepare : prepare digest h.service m points with ⟨s', err | b⟩
  · rw [hprepare] at hok
    contradiction
  · rfl

omit [Numerics F] in
theorem separate_cons (hgroups : Separate (g :: groups)) :
    Separate groups ∧ g.2 ≠ [] ∧ measurementTable g.1 ∉ tablesOf groups := by
  obtain ⟨hpairs, hne⟩ := hgroups
  rw [List.pairwise_cons] at hpairs
  refine ⟨⟨hpairs.2, fun g' hg' => hne g' (List.mem_cons_of_mem g hg')⟩,
    hne g List.mem_cons_self, fun ⟨g', hg', heq⟩ => hpairs.1 g' hg' heq.symm⟩

omit [Numerics F] in
theorem tablesOf_cons : tablesOf (g :: groups) = insert (measurementTable g.1) (tablesOf groups) := by
  ext t
  simp [tablesOf, eq_comm]

/-- A call leaves other tables alone, and of each of its sheets one of three
states; a call that returns has written them all. -/
theorem sheets_ingestGroups (hs : Named h.service) (hgroups : Separate groups)
    (hbuilt : EachGroup digest (Built digest) on fault h groups) :
    Frame (tablesOf groups) h.service (ingestGroups digest on fault h groups).service ∧
      ∀ g ∈ groups,
        Left digest g.2 (sheetOf h.service g.1)
          (sheetOf (ingestGroups digest on fault h groups).service g.1) ∧
        (EachGroup digest (Returns digest on fault) on fault h groups →
          sheetOf (ingestGroups digest on fault h groups).service g.1 =
            (sheetOf h.service g.1).written digest g.2) := by
  induction groups generalizing h with
  | nil => exact ⟨Frame.refl _ _, by simp⟩
  | cons g groups ih =>
    obtain ⟨m, points⟩ := g
    obtain ⟨hrest, hpoints, hapart⟩ := separate_cons hgroups
    obtain ⟨hframe, hsheet⟩ := sheet_ingest digest hs hpoints hbuilt.1
    have hother : ∀ g ∈ groups, measurementTable g.1 ∉ ({measurementTable m} : Set Str) :=
      fun g hg heq => hapart ⟨g, hg, heq⟩
    rw [ingestGroups, tablesOf_cons]
    split
    · rename_i hok
      rw [if_pos hok] at hsheet
      obtain ⟨hframe', hgroups'⟩ := ih (named_ingest digest hs on (fault m) m points) hrest
        (hbuilt.2 hok)
      refine ⟨(hframe.mono ?_).trans (hframe'.mono (Set.subset_insert _ _)), fun g hg => ?_⟩
      · exact Set.singleton_subset_iff.mpr (Set.mem_insert _ _)
      · rcases List.mem_cons.mp hg with rfl | hg
        · rw [hframe'.sheet hapart, hsheet]
          exact ⟨.written, fun _ => rfl⟩
        · rw [← hframe.sheet (hother g hg)]
          exact ⟨(hgroups' g hg).1, fun hall => (hgroups' g hg).2 (hall.2 hok)⟩
    · rename_i hfails
      rw [if_neg hfails] at hsheet
      refine ⟨hframe.mono ?_, fun g hg => ?_⟩
      · exact Set.singleton_subset_iff.mpr (Set.mem_insert _ _)
      · refine ⟨?_, fun hall => absurd hall.1 hfails⟩
        rcases List.mem_cons.mp hg with rfl | hg
        · rw [hsheet]
          exact .promoted
        · rw [hframe.sheet (hother g hg)]
          exact .untouched

end Sheets

section Cold
variable (digest : Str → ℕ) [Numerics F]

omit [Numerics F] in
/-- What cold holds has been numbered before. -/
theorem seq_lt_of_held {w : World (Value F)} {recorded : List (Batch F)} (hinv : Inv w recorded)
    {table : Str} {r : Row (Value F)} (hr : r ∈ held w.cold table) : r.seq < w.nextSeq := by
  obtain ⟨k, e, rows, hk, hm, -, hrows, hr⟩ := hr
  by_cases hexport : k ∈ exportKeys
  · exact (hinv.exported table r ⟨k, e, rows, hk, hm, hexport, hrows, hr⟩).1
  · obtain ⟨b, hb, -, hmem⟩ := hinv.vault.kept_subset table ⟨k, e, rows, hk, hm, hexport, hrows, hr⟩
    exact (hinv.seqs b hb r hmem).2

variable {fault : Option Fault} {h : History F} {m : Str} {points : List (Point F)}

/-- A call that returns has recorded its batch. -/
theorem held_ingest (hinv : Inv h.service.toWorld h.recorded) (hs : Named h.service)
    (hpoints : points ≠ [])
    (hok : (writeMeasurement digest true fault h.service m points).2.isOk = true) :
    ∃ s' b schema sources, Prepared digest h.service m points s' b schema sources ∧
      ∀ table r, r ∈ held (ingest digest true fault h m points).service.cold table ↔
        r ∈ held h.service.cold table ∨ b.table = table ∧ r ∈ b.records := by
  obtain ⟨s', b, schema, sources, t, hprepared, -, -, hingest⟩ := ingest_ok digest hs hpoints hok
  obtain ⟨hlog, hnew⟩ := hinv.log_append hprepared.drawn
  refine ⟨s', b, schema, sources, hprepared, fun table r => ?_⟩
  rw [hingest, ← hprepared.cold]
  refine FailedWrite.mem_held_written ?_ table r
  rw [hprepared.cold]
  exact hinv.vault.unlisted hlog hnew

/-- The newest row of a key in cold is that of the call. -/
theorem viewRow_ingest (hinv : Inv h.service.toWorld h.recorded) (hs : Named h.service)
    (hok : (writeMeasurement digest true fault h.service m points).2.isOk = true)
    {p : Point F} (hp : p ∈ points) :
    ∃ cells, cellsFor digest ((sheetOf h.service m).promoted points).schema points
        (pointKey digest p) = some cells ∧
      ∀ cells', Engine.ViewRow (held (ingest digest true fault h m points).service.cold
        (measurementTable m)) (pointKey digest p) cells' ↔ cells' = cells := by
  obtain ⟨s', b, schema, sources, hprepared, hheld⟩ :=
    held_ingest digest hinv hs (List.ne_nil_of_mem hp) hok
  obtain ⟨r, hr, hkey⟩ := hprepared.built.keys p hp
  have hschema : ((sheetOf h.service m).promoted points).schema = schema := hprepared.noted.symm
  have hcells := cellsFor_of_mem digest hprepared.built hr
  rw [hkey] at hcells
  refine ⟨r.cells, hschema ▸ hcells, fun cells' => ?_⟩
  have hmem : r ∈ held (ingest digest true fault h m points).service.cold (measurementTable m) :=
    (hheld _ r).mpr (Or.inr ⟨hprepared.table, hr⟩)
  have hseq := (hprepared.drawn.seqs r hr).1
  have hnewest : ∀ x ∈ held (ingest digest true fault h m points).service.cold (measurementTable m),
      x.key = pointKey digest p → x.seq ≤ r.seq ∧ (x.seq = r.seq → x = r) := by
    intro x hx hxk
    rcases (hheld _ x).mp hx with hold | ⟨-, hxb⟩
    · have hlt := (seq_lt_of_held hinv hold).trans_le hseq
      exact ⟨hlt.le, fun heq => absurd heq hlt.ne⟩
    · have hxr : x = r := List.inj_on_of_nodup_map hprepared.drawn.keys hxb hr (hxk.trans hkey.symm)
      exact ⟨(congrArg Row.seq hxr).le, fun _ => hxr⟩
  constructor
  · intro ⟨x, ⟨hx, hxk, hmax⟩, hcells'⟩
    have hle : r.seq ≤ x.seq := hmax r hmem hkey
    rw [← hcells', (hnewest x hx hxk).2 (le_antisymm (hnewest x hx hxk).1 hle)]
  · intro hcells'
    exact ⟨r, ⟨hmem, hkey, fun x hx hxk => (hnewest x hx hxk).1⟩, hcells'.symm⟩

variable {groups : List (Str × List (Point F))} {on : Bool}

/-- The measurements of a call that returns, seen in cold. -/
theorem viewRow_ingestGroups (hinv : Inv h.service.toWorld h.recorded) (hs : Named h.service)
    (hgroups : Separate groups)
    (hok : EachGroup digest (Returns digest true fun _ => none) true (fun _ => none) h groups) :
    (∀ t ∉ tablesOf groups, held (ingestGroups digest true (fun _ => none) h groups).service.cold t =
        held h.service.cold t) ∧
      ∀ g ∈ groups, ∀ p ∈ g.2, ∃ cells,
        cellsFor digest ((sheetOf h.service g.1).promoted g.2).schema g.2 (pointKey digest p) =
          some cells ∧
        ∀ cells', Engine.ViewRow (held
          (ingestGroups digest true (fun _ => none) h groups).service.cold
            (measurementTable g.1)) (pointKey digest p) cells' ↔ cells' = cells := by
  induction groups generalizing h with
  | nil => exact ⟨fun _ _ => rfl, by simp⟩
  | cons g groups ih =>
    obtain ⟨m, points⟩ := g
    obtain ⟨hrest, hpoints, hapart⟩ := separate_cons hgroups
    have hreturns : (writeMeasurement digest true none h.service m points).2.isOk = true := hok.1
    obtain ⟨s', b, schema, sources, hprepared, hheld⟩ := held_ingest digest hinv hs hpoints hreturns
    have hframe : Frame {measurementTable m} h.service
        (ingest digest true none h m points).service :=
      (sheet_ingest digest hs hpoints hok.1.built).1
    obtain ⟨hkept, hviews⟩ := ih (hinv.ingest digest hpoints)
      (named_ingest digest hs true none m points) hrest (hok.2 hok.1)
    have hfirst : ∀ t, t ≠ measurementTable m →
        held (ingest digest true none h m points).service.cold t = held h.service.cold t := by
      intro t ht
      ext r
      rw [hheld]
      exact or_iff_left fun hb => ht (hb.1.symm.trans hprepared.table)
    rw [ingestGroups, if_pos hreturns]
    refine ⟨fun t ht => ?_, fun g hg p hp => ?_⟩
    · rw [tablesOf_cons, Set.mem_insert_iff, not_or] at ht
      exact (hkept t ht.2).trans (hfirst t ht.1)
    · rcases List.mem_cons.mp hg with rfl | hg
      · rw [hkept _ hapart]
        exact viewRow_ingest digest hinv hs hreturns hp
      · have hother : measurementTable g.1 ∉ ({measurementTable m} : Set Str) :=
          fun heq => hapart ⟨g, hg, heq⟩
        rw [← hframe.sheet hother]
        exact hviews g hg p hp

omit [Numerics F] in
theorem cold_storeBatch (fault : Option Fault) (s : Service F) (b : Batch F) :
    (storeBatch false fault s b).1.cold = s.cold := by
  have houtcome := outcome_storeBatch false fault s b
  generalize (storeBatch false fault s b).1 = s' at houtcome
  generalize (storeBatch false fault s b).2 = res at houtcome
  cases houtcome with
  | unstaged hon | unrecorded hon => contradiction
  | uncommitted | committed => rfl

/-- Without write-through a call leaves cold alone. -/
theorem cold_ingestGroups {fault : Str → Option Fault} :
    (ingestGroups digest false fault h groups).service.cold = h.service.cold := by
  have hone : ∀ h : History F, ∀ m points,
      (ingest digest false (fault m) h m points).service.cold = h.service.cold := by
    intro h m points
    simp only [ingest, writeMeasurement]
    rcases hprepare : prepare digest h.service m points with ⟨s', err | b⟩
    · exact (prepare_frame digest hprepare).1
    · exact (cold_storeBatch (fault m) s' b).trans (prepare_frame digest hprepare).1
  induction groups generalizing h with
  | nil => rfl
  | cons g groups ih =>
    rw [ingestGroups]
    split
    · exact ih.trans (hone h g.1 g.2)
    · exact hone h g.1 g.2

end Cold

/-- A call, or a restart of the process at a later time. -/
inductive Event (F : Type)
  | call (c : Call F)
  | restart (clock : ℕ)

section Retry
variable (digest : Str → ℕ) [Numerics F]

def step (h : History F) : Event F → Option (History F)
  | .call c => Sequence.step digest h c
  | .restart clock =>
    if h.service.nextSeq ≤ clock then
      some { h with service := { h.service with nextSeq := clock, cache := Dict.empty } }
    else none

/-- A call that fails at a store of some measurement: no schema step and no row
made it fail. -/
structure StopsAtStore (on : Bool) (fault : Str → Option Fault) (h : History F)
    (points : List (Point F)) : Prop where
  built : EachGroup digest (Built digest) on fault h (byMeasurement points).entries
  fails : (writeBatch digest on fault h.service points).2.isOk = false

/-- The hot rows have the same cells, and so have the newest rows of cold for the
keys of the points. -/
structure Agree (points : List (Point F)) (s s' : Service F) : Prop where
  hot : hotRows s.toWorld = hotRows s'.toWorld
  cold : ∀ p ∈ points, ∀ cells,
    Engine.ViewRow (held s.cold (measurementTable p.measurement)) (pointKey digest p) cells ↔
      Engine.ViewRow (held s'.cold (measurementTable p.measurement)) (pointKey digest p) cells

variable {digest} {h h' : History F} {on : Bool} {fault : Str → Option Fault}
  {points : List (Point F)}

theorem kept_step {Q : Str → Dict Str PgType → Prop} {R : Str → TableSchema → Prop}
    {P : Migration → Prop} {e : Event F} (rule : SchemaRules.CallRule F Q R P)
    (hs : SchemaRules.SchemaInv Q R h.service) (hstep : step digest h e = some h') :
    SchemaRules.SchemaInv Q R h'.service := by
  cases e with
  | call c => exact Writes.kept_step digest rule hs hstep
  | restart clock =>
    simp only [step] at hstep
    split at hstep
    · cases hstep
      exact ⟨hs.catalog, by simp⟩
    · contradiction

theorem step_inv {e : Event F} (hI : Inv h.service.toWorld h.recorded ∧ Named h.service)
    (hstep : step digest h e = some h') :
    Inv h'.service.toWorld h'.recorded ∧ Named h'.service := by
  refine ⟨?_, kept_step namedCall hI.2 hstep⟩
  cases e with
  | call c => exact Sequence.step_inv digest hI.1 hstep
  | restart clock =>
    simp only [step] at hstep
    split at hstep
    · rename_i hclock
      cases hstep
      exact hI.1.frame rfl hclock fun t k stored hstored => ⟨stored, hstored, rfl⟩
    · contradiction

omit [Numerics F] in
/-- When the measurements of the points have distinct tables. -/
theorem separate_byMeasurement
    (htables : Set.InjOn measurementTable {m | ∃ p ∈ points, p.measurement = m}) :
    Separate (byMeasurement points).entries := by
  have hnamed : ∀ g ∈ (byMeasurement points).entries, ∃ p ∈ points, p.measurement = g.1 := by
    intro g hg
    obtain ⟨p, hp⟩ := List.exists_mem_of_ne_nil _ (groups_ne_nil points g hg)
    exact ⟨p, mem_group hg p hp⟩
  refine ⟨?_, groups_ne_nil points⟩
  have hkeys : (byMeasurement points).entries.Pairwise fun g g' => g.1 ≠ g'.1 :=
    List.pairwise_map.mp (byMeasurement points).nodup
  exact hkeys.imp_of_mem fun hg hg' hne heq => hne (htables (hnamed _ hg) (hnamed _ hg') heq)

theorem returns_of_isOk (hok : (writeBatch digest on fault h.service points).2.isOk = true) :
    EachGroup digest (Returns digest on fault) on fault h (byMeasurement points).entries :=
  eachGroup_isOk digest hok

end Retry

section Attempted
variable (digest : Str → ℕ) [Numerics F]

/-- What a first attempt leaves: other tables are as they were, and each sheet of
the call is in one of three states. -/
structure Attempted (on : Bool) (groups : List (Str × List (Point F))) (h failed : History F) :
    Prop where
  inv : Inv failed.service.toWorld failed.recorded
  named : Named failed.service
  frame : Frame (tablesOf groups) h.service failed.service
  left : ∀ g ∈ groups, Left digest g.2 (sheetOf h.service g.1) (sheetOf failed.service g.1)
  cold : on = false → failed.service.cold = h.service.cold

variable {digest} {on : Bool} {h failed : History F} {groups : List (Str × List (Point F))}

theorem attempted_ingestGroups {fault : Str → Option Fault}
    (hinv : Inv h.service.toWorld h.recorded) (hs : Named h.service) (hgroups : Separate groups)
    (hbuilt : EachGroup digest (Built digest) on fault h groups) :
    Attempted digest on groups h (ingestGroups digest on fault h groups) := by
  obtain ⟨hinv', hs'⟩ : Inv (ingestGroups digest on fault h groups).service.toWorld
        (ingestGroups digest on fault h groups).recorded ∧
      Named (ingestGroups digest on fault h groups).service :=
    ingestGroups_invariant digest
      (I := fun h => Inv h.service.toWorld h.recorded ∧ Named h.service)
      (fun h m points hpoints hI _ =>
        ⟨hI.1.ingest digest hpoints, named_ingest digest hI.2 on (fault m) m points⟩)
      hgroups.2 ⟨hinv, hs⟩ hbuilt
  obtain ⟨hframe, hleft⟩ := sheets_ingestGroups hs hgroups hbuilt
  refine ⟨hinv', hs', hframe, fun g hg => (hleft g hg).1, ?_⟩
  intro hon
  rw [hon]
  exact cold_ingestGroups digest

/-- Every sheet is written by the second attempt as by a first one. -/
theorem Attempted.hotRows_eq (hfailed : Attempted digest on groups h failed)
    (hs : Named h.service) (hgroups : Separate groups)
    (hretry : EachGroup digest (Returns digest on fun _ => none) on (fun _ => none) failed groups)
    (honce : EachGroup digest (Returns digest on fun _ => none) on (fun _ => none) h groups) :
    hotRows (ingestGroups digest on (fun _ => none) failed groups).service.toWorld =
      hotRows (ingestGroups digest on (fun _ => none) h groups).service.toWorld := by
  obtain ⟨hframe₁, hwritten₁⟩ :=
    sheets_ingestGroups hfailed.named hgroups (hretry.mono fun _ _ _ hok => hok.built)
  obtain ⟨hframe₂, hwritten₂⟩ :=
    sheets_ingestGroups hs hgroups (honce.mono fun _ _ _ hok => hok.built)
  funext ⟨t, k⟩
  by_cases ht : t ∈ tablesOf groups
  · obtain ⟨g, hg, rfl⟩ := ht
    have hsheet : sheetOf (ingestGroups digest on (fun _ => none) failed groups).service g.1 =
        sheetOf (ingestGroups digest on (fun _ => none) h groups).service g.1 := by
      rw [(hwritten₁ g hg).2 hretry, (hfailed.left g hg).written_eq, (hwritten₂ g hg).2 honce]
    exact congrFun (congrArg Sheet.rows hsheet) k
  · rw [hframe₁.rows t ht, hfailed.frame.rows t ht, hframe₂.rows t ht]

/-- In cold the second attempt hides the first one. -/
theorem Attempted.viewRow_iff (hfailed : Attempted digest on groups h failed)
    (hinv : Inv h.service.toWorld h.recorded) (hs : Named h.service) (hgroups : Separate groups)
    (hretry : EachGroup digest (Returns digest on fun _ => none) on (fun _ => none) failed groups)
    (honce : EachGroup digest (Returns digest on fun _ => none) on (fun _ => none) h groups)
    {g : Str × List (Point F)} (hg : g ∈ groups) {p : Point F} (hp : p ∈ g.2)
    (cells : Cells (Value F)) :
    Engine.ViewRow (held (ingestGroups digest on (fun _ => none) failed groups).service.cold
        (measurementTable g.1)) (pointKey digest p) cells ↔
      Engine.ViewRow (held (ingestGroups digest on (fun _ => none) h groups).service.cold
        (measurementTable g.1)) (pointKey digest p) cells := by
  cases on with
  | false => rw [cold_ingestGroups, cold_ingestGroups, hfailed.cold rfl]
  | true =>
    obtain ⟨cells₁, hcells₁, hview₁⟩ :=
      (viewRow_ingestGroups digest hfailed.inv hfailed.named hgroups hretry).2 g hg p hp
    obtain ⟨cells₂, hcells₂, hview₂⟩ :=
      (viewRow_ingestGroups digest hinv hs hgroups honce).2 g hg p hp
    have hsame : cells₁ = cells₂ := by
      rw [(hfailed.left g hg).schema_eq, hcells₂] at hcells₁
      exact (Option.some.inj hcells₁).symm
    rw [hview₁, hview₂, hsame]

end Attempted

/-- In every reachable state, a call that stops at a store and is made again
leaves what one call leaves. -/
theorem agree_of_retry (digest : Str → ℕ) [Numerics F] (clock : ℕ) {es : List (Event F)}
    {h : History F} (hrun : Runs.exec (step digest) (Sequence.start clock) es = some h) (on : Bool)
    {fault : Str → Option Fault} {points : List (Point F)}
    (htables : Set.InjOn measurementTable {m | ∃ p ∈ points, p.measurement = m})
    (hstops : StopsAtStore digest on fault h points)
    (hretry : (writeBatch digest on (fun _ => none)
      (writeBatch digest on fault h.service points).1 points).2.isOk = true)
    (honce : (writeBatch digest on (fun _ => none) h.service points).2.isOk = true) :
    Agree digest points
      (writeBatch digest on (fun _ => none)
        (writeBatch digest on fault h.service points).1 points).1
      (writeBatch digest on (fun _ => none) h.service points).1 := by
  obtain ⟨hinv, hs⟩ : Inv h.service.toWorld h.recorded ∧ Named h.service :=
    Runs.exec_invariant (I := fun h => Inv h.service.toWorld h.recorded ∧ Named h.service)
      (fun _ _ _ hI hstep => step_inv hI hstep) ⟨start_inv clock, named_start clock⟩ hrun
  have hgroups := separate_byMeasurement htables
  have hservice : ∀ (fault : Str → Option Fault) (h : History F),
      (writeBatch digest on fault h.service points).1 =
        (ingestGroups digest on fault h (byMeasurement points).entries).service :=
    fun fault h => (service_ingestGroups digest h _).symm
  rw [hservice fault h] at hretry ⊢
  rw [hservice, hservice]
  have hfailed := attempted_ingestGroups hinv hs hgroups hstops.built
  have hretry := returns_of_isOk hretry
  have honce := returns_of_isOk honce
  constructor
  · exact hfailed.hotRows_eq hs hgroups hretry honce
  · intro p hp cells
    obtain ⟨g, hg, hpg⟩ := Dict.exists_group (·.measurement) points p hp
    exact hfailed.viewRow_iff hinv hs hgroups hretry honce hg hpg cells

section Examples

def pointOf (m : String) (v : Value ℤ) : Point ℤ :=
  ⟨m.toList, Dict.empty, Dict.single "a".toList v, 0⟩

/-- The second value is wider than the one that was written before. -/
def twoPoints : List (Point ℤ) := [pointOf "cpu" (.int 2), pointOf "mem" (.float 3)]

/-- The process has been started again since the tables were made. -/
def earlier : List (Event ℤ) :=
  [.call (.write true (fun _ => none) [pointOf "cpu" (.int 1), pointOf "mem" (.int 1)]),
    .restart 9]

/-- The transaction of the second measurement fails. -/
def secondFails (m : Str) : Option Fault :=
  if m = "mem".toList then some .transaction else none

theorem agree_of_retry_twoPoints : ∃ h : History ℤ,
    Runs.exec (step fun _ => 0) (Sequence.start 1) earlier = some h ∧
      Agree (fun _ => 0) twoPoints
        (writeBatch (fun _ => 0) true (fun _ => none)
          (writeBatch (fun _ => 0) true secondFails h.service twoPoints).1 twoPoints).1
        (writeBatch (fun _ => 0) true (fun _ => none) h.service twoPoints).1 := by
  have htest : (Runs.exec (step fun _ => 0) (Sequence.start 1) earlier).any (fun h =>
      decide (EachGroup (fun _ => 0) (Built fun _ => 0) true secondFails h
        (byMeasurement twoPoints).entries) &&
      !(writeBatch (fun _ => 0) true secondFails h.service twoPoints).2.isOk &&
      (writeBatch (fun _ => 0) true (fun _ => none)
        (writeBatch (fun _ => 0) true secondFails h.service twoPoints).1 twoPoints).2.isOk &&
      (writeBatch (fun _ => 0) true (fun _ => none) h.service twoPoints).2.isOk) = true := by
    decide +kernel
  obtain ⟨h, hrun, htest⟩ := (Option.any_eq_true _ _).mp htest
  simp only [Bool.and_eq_true, decide_eq_true_eq, Bool.not_eq_true'] at htest
  obtain ⟨⟨⟨hbuilt, hfails⟩, hretry⟩, honce⟩ := htest
  refine ⟨h, hrun, agree_of_retry (fun _ => 0) 1 hrun true ?_ ⟨hbuilt, hfails⟩ hretry honce⟩
  have hname : ∀ m, (∃ p ∈ twoPoints, p.measurement = m) → measurementTable m = m := by
    intro m ⟨p, hp, hm⟩
    rcases List.mem_cons.mp hp with rfl | hp
    · exact hm ▸ (by decide +kernel)
    · cases List.mem_singleton.mp hp
      exact hm ▸ (by decide +kernel)
  intro m hm m' hm' heq
  rw [← hname m hm, ← hname m' hm', heq]

end Examples

end TimescaleLp.Retries
