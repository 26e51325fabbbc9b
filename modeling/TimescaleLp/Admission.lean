import TimescaleLp.AlterText
import TimescaleLp.LastWrites
import TimescaleLp.Numerals
import TimescaleLp.RelationNames

/-!
What the database admits. It keeps the names of relations beside rows and columns, and
the first use of a measurement has to find the names of its table and index free. It
takes a batch only if the table has its unique index, no integer is beyond 64 bits and
no text has U+0000. A workload that gives no such reason is written to its end, as the
service alone would write it.
-/
namespace TimescaleLp.Admission

open Names Texts Schema Store Naming Promotion RelationNames Columns Upserts BigintRange
open TypeSafety (AllTyped Sane Safe Part part_of_mem)
open FieldTypes (groupsOf)
open LastWrites (Page Refines Shows absorb_eq change changeOf hotCell picture refines_start
  refines_writeOne)

variable {F : Type}

/-- The service and the relations of its schema. -/
structure Database (F : Type) where
  service : Service F
  relations : Namespace

section Steps

/-- The transaction of `_create_or_load` in the database. A table that is new becomes a
hypertable and gets an index on its time, under a name that the database chooses. -/
def createOrLoad (chosen : Namespace → Str → Str) (table : Str) (ns : Namespace) :
    Option Namespace :=
  let created := createIfNotExists ns table .hypertable
  if created.get? (pgIdent table) = some .hypertable then
    let timed := if ns.contains (pgIdent table) then created
      else createIfNotExists created (chosen created table) .implicitIndex
    some (createIfNotExists timed (uniqueIndexName table) (.uniqueIndex table))
  else none

variable (chosen : Namespace → Str → Str)

/-- The relations once a measurement is in use; one that is cached has been before. -/
def opened (d : Database F) (m : Str) : Option Namespace :=
  if d.service.cache.contains m then some d.relations
  else createOrLoad chosen (measurementTable m) d.relations

/-- What the copy into a temp table takes. -/
def takes : Value F → Bool
  | .int n => decide (InBigint n)
  | .str t => !t.contains '\x00'
  | _ => true

def admits (ns : Namespace) (b : Batch F) : Bool :=
  ns.get? (pgIdent (uniqueIndexName b.table)) == some (.uniqueIndex b.table) &&
    b.records.all fun r => b.cols.all fun c => (r.cells c).all takes

variable (on : Bool)

/-- What makes the storing of a batch fail: no manifest for its staging object, or a
transaction that is not admitted. -/
def faultOf (ns : Namespace) (b : Batch F) : Option Fault :=
  if on && ns.get? (pgIdent manifestName) != some .manifest then some .manifestRecord
  else if admits ns b then none
  else some .transaction

variable [Numerics F] (digest : Str → ℕ)

/-- One measurement of a batch. -/
def writeOne (d : Database F) (g : Str × List (Point F)) : Option (Database F) :=
  (opened chosen d g.1).bind fun ns =>
    match prepare digest d.service g.1 g.2 with
    | (_, .error _) => none
    | (s, .ok b) =>
      match storeBatch on (faultOf on ns b) s b with
      | (s', .ok _) => some ⟨s', ns⟩
      | (_, .error _) => none

def write (d : Database F) (points : List (Point F)) : Option (Database F) :=
  Runs.exec (writeOne chosen on digest) d (byMeasurement points).entries

theorem exec_write (d : Database F) (batches : List (List (Point F))) :
    Runs.exec (write chosen on digest) d batches =
      Runs.exec (writeOne chosen on digest) d (groupsOf batches) :=
  Runs.exec_flatMap _ d batches

variable {chosen on digest} {d : Database F} {ns : Namespace} {g : Str × List (Point F)}

/-- What the database admits is written as the service writes it. -/
theorem writeOne_eq {s : Service F} (hopened : opened chosen d g.1 = some ns)
    (hwrite : FieldTypes.writeOne digest on d.service g = some s)
    (hadmits : ∀ s₁ b, prepare digest d.service g.1 g.2 = (s₁, .ok b) → faultOf on ns b = none) :
    writeOne chosen on digest d g = some ⟨s, ns⟩ := by
  rw [FieldTypes.writeOne, writeMeasurement] at hwrite
  rw [writeOne, hopened, Option.bind_some]
  rcases hprepare : prepare digest d.service g.1 g.2 with ⟨s₁, err | b⟩
  · simp [hprepare] at hwrite
  · simp only [hprepare] at hwrite
    simp only [hadmits s₁ b hprepare]
    generalize storeBatch on none s₁ b = stored at hwrite ⊢
    obtain ⟨s₂, err | n⟩ := stored
    · contradiction
    · cases hwrite
      rfl

end Steps

section Relations

variable {ns : Namespace} {tables : Set Str}

theorem get?_createIfNotExists (ns : Namespace) (name : Str) (r : Relation) (x : Str) :
    (createIfNotExists ns name r).get? x =
      if x = pgIdent name then some ((ns.get? x).getD r) else ns.get? x := by
  unfold createIfNotExists
  split
  · rename_i hcontains
    obtain ⟨r', hget⟩ := Option.isSome_iff_exists.mp hcontains
    split
    · rename_i hx
      rw [hx, hget, Option.getD_some]
    · rfl
  · rename_i hcontains
    have hnone : ns.get? (pgIdent name) = none := by
      simpa [Dict.contains] using hcontains
    rw [Dict.get?_set]
    split
    · rename_i hx
      rw [hx, hnone, Option.getD_none]
    · rfl

/-- The names that a table brings. -/
def namesOf (table : Str) : List Str := [table, pgIdent (uniqueIndexName table)]

/-- The names that tables bring are their own, and none that the database chooses. -/
structure Distinct (chosen : Namespace → Str → Str) (tables : Set Str) : Prop where
  stored : ∀ t ∈ tables, pgIdent t = t
  index_ne : ∀ t ∈ tables, ∀ u ∈ tables, pgIdent (uniqueIndexName t) ≠ u
  index_inj : ∀ t ∈ tables, ∀ u ∈ tables,
    pgIdent (uniqueIndexName t) = pgIdent (uniqueIndexName u) → t = u
  chosen_notMem : ∀ t ∈ tables, ∀ u ∈ tables, ∀ ns, pgIdent (chosen ns t) ∉ namesOf u

/-- What stands under the names of tables and their indexes is what is meant. -/
structure Meant (tables : Set Str) (ns : Namespace) : Prop where
  table : ∀ t ∈ tables, ∀ r, ns.get? t = some r → r = .hypertable
  index : ∀ t ∈ tables, ∀ r, ns.get? (pgIdent (uniqueIndexName t)) = some r → r = .uniqueIndex t

theorem Meant.createIfNotExists (h : Meant tables ns) {name : Str} {r : Relation}
    (htable : ∀ t ∈ tables, t = pgIdent name → r = .hypertable)
    (hindex : ∀ t ∈ tables, pgIdent (uniqueIndexName t) = pgIdent name → r = .uniqueIndex t) :
    Meant tables (createIfNotExists ns name r) := by
  constructor
  · intro t ht r' hget
    rw [get?_createIfNotExists] at hget
    split at hget
    · rename_i hname
      cases hold : ns.get? t with
      | none =>
        rw [hold] at hget
        exact (Option.some.inj hget).symm.trans (htable t ht hname)
      | some r'' =>
        rw [hold] at hget
        exact (Option.some.inj hget).symm.trans (h.table t ht r'' hold)
    · exact h.table t ht r' hget
  · intro t ht r' hget
    rw [get?_createIfNotExists] at hget
    split at hget
    · rename_i hname
      cases hold : ns.get? (pgIdent (uniqueIndexName t)) with
      | none =>
        rw [hold] at hget
        exact (Option.some.inj hget).symm.trans (hindex t ht hname)
      | some r'' =>
        rw [hold] at hget
        exact (Option.some.inj hget).symm.trans (h.index t ht r'' hold)
    · exact h.index t ht r' hget

/-- The first use of a table succeeds and leaves it with its index. -/
theorem exists_created {chosen : Namespace → Str → Str} (hdistinct : Distinct chosen tables)
    (h : Meant tables ns) {t : Str} (ht : t ∈ tables) :
    ∃ ns', createOrLoad chosen t ns = some ns' ∧ Meant tables ns' ∧ Keeps ns ns' ∧
      ns'.get? (pgIdent (uniqueIndexName t)) = some (.uniqueIndex t) := by
  have hcreated : Meant tables (createIfNotExists ns t .hypertable) := by
    refine h.createIfNotExists (fun _ _ _ => rfl) fun u hu hname => ?_
    rw [hdistinct.stored t ht] at hname
    exact absurd hname (hdistinct.index_ne u hu t ht)
  have hget : (createIfNotExists ns t .hypertable).get? (pgIdent t) = some .hypertable := by
    have hsome := get?_createIfNotExists ns t .hypertable (pgIdent t)
    rw [if_pos rfl] at hsome
    rw [hsome]
    refine congrArg some (hcreated.table t ht _ ?_)
    rw [hdistinct.stored t ht] at hsome ⊢
    exact hsome
  rw [createOrLoad]
  simp only [hget, if_true]
  generalize htimed : (if ns.contains (pgIdent t) then createIfNotExists ns t .hypertable
    else createIfNotExists (createIfNotExists ns t .hypertable)
      (chosen (createIfNotExists ns t .hypertable) t) .implicitIndex) = timed
  have hmeant : Meant tables timed ∧ Keeps ns timed := by
    have hkeeps := keeps_createIfNotExists ns t .hypertable
    rw [← htimed]
    split
    · exact ⟨hcreated, hkeeps⟩
    · refine ⟨hcreated.createIfNotExists (fun u hu hname => ?_) fun u hu hname => ?_,
        hkeeps.trans (keeps_createIfNotExists _ _ _)⟩
      · exact absurd (List.mem_cons.mpr (Or.inl hname.symm)) (hdistinct.chosen_notMem t ht u hu _)
      · exact absurd (List.mem_cons_of_mem _ (List.mem_singleton.mpr hname.symm))
          (hdistinct.chosen_notMem t ht u hu _)
  have hindexed : Meant tables (createIfNotExists timed (uniqueIndexName t) (.uniqueIndex t)) := by
    refine hmeant.1.createIfNotExists (fun u hu hname => ?_) fun u hu hname => ?_
    · exact absurd hname.symm (hdistinct.index_ne t ht u hu)
    · exact congrArg Relation.uniqueIndex (hdistinct.index_inj t ht u hu hname.symm)
  refine ⟨_, rfl, hindexed, hmeant.2.trans (keeps_createIfNotExists _ _ _), ?_⟩
  have hsome := get?_createIfNotExists timed (uniqueIndexName t) (.uniqueIndex t)
    (pgIdent (uniqueIndexName t))
  rw [if_pos rfl] at hsome
  rw [hsome]
  exact congrArg some (hindexed.index t ht _ hsome)

end Relations

section Values

variable [Numerics F] (htext : ∀ x : F, '\x00' ∉ Numerics.text x) {v w u : Value F}

include htext

theorem nul_notMem_valueText (hv : takes v = true) : '\x00' ∉ valueText v := by
  cases v with
  | bool b => cases b <;> simp [valueText]
  | int n => exact fun hmem => absurd (mem_intText hmem) (by decide)
  | float x => exact htext x
  | str t => simpa [takes, valueText] using hv

/-- A value that is taken is coerced to one that is. -/
theorem takes_coerceValue (hle : typeRank (inferFieldType v) ≤ typeRank (inferFieldType w))
    (hv : takes v = true) (hu : coerceValue (inferFieldType w) v = .ok u) : takes u = true := by
  obtain ⟨u', hu', htype, hint⟩ := TypeSafety.exists_coerceValue hle fun n hn => by
    rw [hn] at hv
    exact of_decide_eq_true hv
  cases hu.symm.trans hu'
  cases u with
  | bool b => rfl
  | int n => exact decide_eq_true (hint n rfl)
  | float x => rfl
  | str t =>
    rw [← htype] at hu
    cases hu
    simpa [takes] using nul_notMem_valueText htext hv

end Values

section Workload

variable {chosen : Namespace → Str → Str} {relations : Namespace} {on : Bool}
  {batches : List (List (Point F))}

/-- A workload whose names and values the database has no reason to refuse, with the
manifest there if its batches are staged. -/
structure Storable (chosen : Namespace → Str → Str) (relations : Namespace) (on : Bool)
    (batches : List (List (Point F))) : Prop extends Sane batches where
  manifest : on = true → relations.get? (pgIdent manifestName) = some .manifest
  clashes : ∀ p ∈ batches.flatten, ∀ q ∈ batches.flatten,
    ¬Clashes (measurementTable p.measurement) (measurementTable q.measurement)
  free : ∀ p ∈ batches.flatten, ∀ name ∈ namesOf (measurementTable p.measurement),
    relations.get? name = none
  chosen : ∀ p ∈ batches.flatten, ∀ q ∈ batches.flatten, ∀ ns,
    pgIdent (chosen ns (measurementTable p.measurement)) ∉ namesOf (measurementTable q.measurement)
  tagTexts : ∀ p ∈ batches.flatten, ∀ t v, p.tags.get? t = some v → '\x00' ∉ v
  fieldTexts : ∀ p ∈ batches.flatten, ∀ f v, p.fields.get? f = some (.str v) → '\x00' ∉ v

/-- The tables of a workload. -/
def tablesOf (batches : List (List (Point F))) : Set Str :=
  {t | ∃ p ∈ batches.flatten, measurementTable p.measurement = t}

theorem Storable.takes (h : Storable chosen relations on batches) {p : Point F}
    (hp : p ∈ batches.flatten) {f : Str} {v : Value F} (hv : p.fields.get? f = some v) :
    takes v = true := by
  cases v with
  | int n => exact decide_eq_true (h.integers p hp f n hv)
  | str t => simpa [Admission.takes] using h.fieldTexts p hp f t hv
  | _ => rfl

theorem Storable.distinct (h : Storable chosen relations on batches) :
    Distinct chosen (tablesOf batches) := by
  have hplan : ∀ t ∈ tablesOf batches, ∀ u ∈ tablesOf batches, t ≠ u →
      ((plan t u).map Prod.fst).Nodup := by
    rintro - ⟨p, hp, rfl⟩ - ⟨q, hq, rfl⟩ hne
    exact (nodup_plan_iff (length_measurementTable _) (length_measurementTable _) hne).mpr
      ⟨h.clashes p hp q hq, h.clashes q hq p hp⟩
  have hstored : ∀ t ∈ tablesOf batches, pgIdent t = t := by
    rintro - ⟨p, hp, rfl⟩
    exact pgIdent_eq_self (length_measurementTable _)
  refine ⟨hstored, ?_, ?_, ?_⟩
  · intro t ht u hu heq
    by_cases hne : t = u
    · obtain ⟨p, hp, rfl⟩ := ht
      rw [← hne] at heq
      exact h.clashes p hp p hp
        (Or.inl ((eq_own_index_iff (length_measurementTable _)).mp heq.symm))
    · have hsame := List.inj_on_of_nodup_map (hplan t ht u hu hne)
        (show (pgIdent (uniqueIndexName t), Relation.uniqueIndex t) ∈ plan t u by simp [plan])
        (show (pgIdent u, Relation.hypertable) ∈ plan t u by simp [plan])
        (heq.trans (hstored u hu).symm)
      cases congrArg Prod.snd hsame
  · intro t ht u hu heq
    by_contra hne
    have hsame := List.inj_on_of_nodup_map (hplan t ht u hu hne)
      (show (pgIdent (uniqueIndexName t), Relation.uniqueIndex t) ∈ plan t u by simp [plan])
      (show (pgIdent (uniqueIndexName u), Relation.uniqueIndex u) ∈ plan t u by simp [plan]) heq
    exact hne (Relation.uniqueIndex.inj (congrArg Prod.snd hsame))
  · rintro - ⟨p, hp, rfl⟩ - ⟨q, hq, rfl⟩
    exact h.chosen p hp q hq

/-- The names are as they are meant, and each measurement in use has its index. -/
structure Kept (on : Bool) (tables : Set Str) (d : Database F) : Prop where
  manifest : on = true → d.relations.get? (pgIdent manifestName) = some .manifest
  meant : Meant tables d.relations
  indexed : ∀ m, measurementTable m ∈ tables → d.service.cache.contains m = true →
    d.relations.get? (pgIdent (uniqueIndexName (measurementTable m))) =
      some (.uniqueIndex (measurementTable m))

theorem kept_start (h : Storable chosen relations on batches) {s : Service F}
    (hs : s.cache = Dict.empty) : Kept on (tablesOf batches) ⟨s, relations⟩ := by
  refine ⟨h.manifest, ⟨?_, ?_⟩, fun m _ hcached => ?_⟩
  · rintro - ⟨p, hp, rfl⟩ r hget
    cases (h.free p hp _ List.mem_cons_self).symm.trans hget
  · rintro - ⟨p, hp, rfl⟩ r hget
    cases (h.free p hp _ (List.mem_cons_of_mem _ List.mem_cons_self)).symm.trans hget
  · rw [hs] at hcached
    contradiction

theorem Kept.exists_opened (hdistinct : Distinct chosen (tablesOf batches)) {d : Database F}
    (h : Kept on (tablesOf batches) d) {m : Str} (hm : measurementTable m ∈ tablesOf batches) :
    ∃ ns, opened chosen d m = some ns ∧ Meant (tablesOf batches) ns ∧ Keeps d.relations ns ∧
      ns.get? (pgIdent (uniqueIndexName (measurementTable m))) =
        some (.uniqueIndex (measurementTable m)) := by
  by_cases hcached : d.service.cache.contains m = true
  · exact ⟨d.relations, if_pos hcached, h.meant, fun _ _ hget => hget, h.indexed m hm hcached⟩
  · rw [opened, if_neg hcached]
    exact exists_created hdistinct h.meant hm

variable [Numerics F] {digest : Str → ℕ} {s s' : Service F}
  {g : Str × List (Point F)}

/-- What the rows of a batch of the workload hold is taken. -/
theorem takes_cells (hstorable : Storable chosen relations on batches)
    (htext : ∀ x : F, '\x00' ∉ Numerics.text x) (hs : Safe batches s) (hpart : Part batches g)
    (hwrite : FieldTypes.writeOne digest on s g = some s') {s₁ : Service F} {b : Batch F}
    (hprepare : prepare digest s g.1 g.2 = (s₁, .ok b)) :
    ∀ r ∈ b.records, ∀ c ∈ b.cols, ∀ v, r.cells c = some v → takes v = true := by
  obtain ⟨vs, htypes, -⟩ := hs.exists_types hpart
  obtain ⟨schema, sources, hprepared⟩ :=
    Writes.exists_prepared digest htypes.named hpart.ne_nil hprepare
  have hbuilt := hprepared.built
  have hcovers := TypeSafety.covers_of_prepared htypes hpart.ne_nil hprepared
  have hcols : (b.cols.map pgIdent).Nodup := by
    obtain ⟨_, _, _, hprepare', hcommit, -⟩ := TypeSafety.exists_committed hwrite
    cases hprepare.symm.trans hprepare'
    exact Batches.commit_cols_nodup hcommit
  intro r hr c hc v hv
  rw [hbuilt.cols] at hc
  obtain ⟨e, he, rfl⟩ := List.mem_map.mp hc
  obtain ⟨p, hlast, hrow⟩ := hbuilt.rows r hr
  have hp := (lastOf_mem digest hlast).1
  have hvalue := hbuilt.sourceValue digest hcols hrow he
  rw [hv] at hvalue
  rcases (mem_columnSources_iff hbuilt.found e).mp he with
    ⟨t, -, -, hsource⟩ | ⟨f, hf, ty, hentry, hsource⟩
  · rw [hsource, Store.sourceValue] at hvalue
    obtain ⟨t', ht', rfl⟩ := Option.map_eq_some_iff.mp (Except.ok.inj hvalue)
    simpa [takes] using hstorable.tagTexts p (hpart.mem p hp).1 t t' ht'
  · obtain ⟨col, w, hentry', hwide⟩ := hcovers.2 f hf
    cases hentry.symm.trans hentry'
    rw [hsource, Store.sourceValue] at hvalue
    cases hget : p.fields.get? f with
    | none =>
      rw [hget] at hvalue
      cases hvalue
    | some v₀ =>
      rw [hget, coerce] at hvalue
      cases hcoerce : coerceValue (inferFieldType w) v₀ with
      | error err =>
        rw [hcoerce] at hvalue
        cases hvalue
      | ok u =>
        rw [hcoerce] at hvalue
        cases hvalue
        exact takes_coerceValue htext (hwide v₀ ⟨p, hp, hget⟩)
          (hstorable.takes (hpart.mem p hp).1 hget) hcoerce

variable (digest) (hstorable : Storable chosen relations on batches)
  (htext : ∀ x : F, '\x00' ∉ Numerics.text x)

include hstorable htext

/-- One measurement of a batch is admitted, and written as the picture has it. -/
theorem writeOne_refines {d : Database F} {pic : Str → Page F}
    (h : Refines batches d.service pic) (hkept : Kept on (tablesOf batches) d)
    (hg : g ∈ groupsOf batches) : ∃ d', writeOne chosen on digest d g = some d' ∧
      Refines batches d'.service
        (Function.update pic g.1 (apply (pic g.1) (change digest g.2))) ∧
      Kept on (tablesOf batches) d' := by
  have hpart := part_of_mem hg
  obtain ⟨p, hp⟩ := List.exists_mem_of_ne_nil _ hpart.ne_nil
  have htable : measurementTable g.1 ∈ tablesOf batches :=
    ⟨p, (hpart.mem p hp).1, by rw [(hpart.mem p hp).2]⟩
  obtain ⟨s', hwrite, hrefines⟩ :=
    refines_writeOne digest on hstorable.toSane h hg
  obtain ⟨ns, hopened, hmeant, hkeeps, hindex⟩ :=
    hkept.exists_opened hstorable.distinct htable
  have hadmits : ∀ s₁ b, prepare digest d.service g.1 g.2 = (s₁, .ok b) →
      faultOf on ns b = none := by
    intro s₁ b hprepare
    have hmanifest : (on && ns.get? (pgIdent manifestName) != some .manifest) = false := by
      cases on with
      | false => rfl
      | true => rw [hkeeps _ _ (hkept.manifest rfl), Bool.true_and, bne_self_eq_false]
    suffices hadmitted : admits ns b = true by
      rw [faultOf, hmanifest, hadmitted]
      rfl
    obtain ⟨vs, htypes, -⟩ := h.safe.exists_types hpart
    obtain ⟨_, _, hprepared⟩ :=
      Writes.exists_prepared digest htypes.named hpart.ne_nil hprepare
    rw [admits, hprepared.table, hindex, beq_self_eq_true, Bool.true_and, List.all_eq_true]
    intro r hr
    rw [List.all_eq_true]
    intro c hc
    rw [Option.all_eq_true]
    exact takes_cells hstorable htext h.safe hpart hwrite hprepare r hr c hc
  refine ⟨⟨s', ns⟩, writeOne_eq hopened hwrite hadmits, hrefines,
    fun hon => hkeeps _ _ (hkept.manifest hon), hmeant, ?_⟩
  intro m hm hcached
  by_cases hown : m = g.1
  · rw [hown]
    exact hindex
  · obtain ⟨t, schema, hensure, -, hcache⟩ := FieldTypes.writeOne_some hwrite
    have hbefore := (Alters.ensureSchema_some hensure).2 m
    rw [if_neg hown] at hbefore
    refine hkeeps _ _ (hkept.indexed m hm ?_)
    rw [Dict.contains, ← hbefore, ← hcache]
    exact hcached

/-- The whole workload is admitted, and the hot tier shows the picture. -/
theorem exec_refines (clock : ℕ) : ∃ d',
    Runs.exec (writeOne chosen on digest) ⟨(Sequence.start clock).service, relations⟩
      (groupsOf batches) = some d' ∧
    Refines batches d'.service (picture digest batches) := by
  obtain ⟨d', hrun, hrefines, -⟩ := Runs.exec_simulates
    (R := fun d pic => Refines batches d.service pic ∧ Kept on (tablesOf batches) d)
    (E := fun g => g ∈ groupsOf batches)
    (fun d pic g h hg => writeOne_refines digest hstorable htext h.1 h.2 hg)
    ⟨refines_start clock, kept_start hstorable rfl⟩ fun g hg => hg
  refine ⟨d', hrun, ?_⟩
  rw [groupsOf, List.foldl_flatMap] at hrefines
  simp only [absorb_eq] at hrefines
  exact hrefines

end Workload

section Examples

/-- The name that Postgres gives the index of a new hypertable, if it is free. -/
def timeIndexName (_ : Namespace) (table : Str) : Str := table.take 54 ++ "_time_idx".toList

/-- The manifest is there, with its primary key. -/
def prepared : Namespace :=
  (ensureManifest Dict.empty).set "_cold_objects_pkey".toList .implicitIndex

def pointOf (f : Char) (v : Value ℤ) (time : Time) : Point ℤ :=
  ⟨['m'], Dict.empty, Dict.single [f] v, time⟩

/-- The first row is written three times: its field gets NULL in a batch of two keys,
and then a value that its column has outgrown. -/
def rewritten : List (List (Point ℤ)) :=
  [[pointOf 'a' (.int 1) 0], [pointOf 'b' (.int 2) 0, pointOf 'a' (.str ['x']) 1],
    [pointOf 'a' (.int 3) 0]]

theorem mem_rewritten : ∀ p ∈ rewritten.flatten, p.measurement = ['m'] ∧ p.tags = Dict.empty ∧
    ∃ f v, (f = ['a'] ∨ f = ['b']) ∧ p.fields = Dict.single f v ∧
      (v = .int 1 ∨ v = .int 2 ∨ v = .int 3 ∨ v = .str ['x']) := by
  intro p hp
  simp only [rewritten, List.flatten_cons, List.flatten_nil, List.cons_append, List.nil_append,
    List.mem_cons, List.not_mem_nil, or_false] at hp
  rcases hp with rfl | rfl | rfl | rfl <;> exact ⟨rfl, rfl, _, _, by simp, rfl, by simp⟩

theorem rewritten_storable : Storable timeIndexName prepared true rewritten where
  manifest _ := by decide
  tables p hp q hq _ := (mem_rewritten p hp).1.trans (mem_rewritten q hq).1.symm
  tags p hp q hq _ t ht := by
    rw [(mem_rewritten p hp).2.1] at ht
    exact absurd ht List.not_mem_nil
  fields p hp q hq _ f hf f' hf' heq := by
    obtain ⟨-, -, g, v, hg, hfields, -⟩ := mem_rewritten p hp
    obtain ⟨-, -, g', v', hg', hfields', -⟩ := mem_rewritten q hq
    rw [hfields] at hf
    rw [hfields'] at hf'
    cases List.mem_singleton.mp hf
    cases List.mem_singleton.mp hf'
    have hinj : ∀ g ∈ [['a'], ['b']], ∀ g' ∈ [['a'], ['b']],
        colOfField g = colOfField g' → g = g' := by decide
    exact hinj g (by simpa using hg) g' (by simpa using hg') heq
  integers p hp f n hget := by
    obtain ⟨-, -, g, v, -, hfields, hv⟩ := mem_rewritten p hp
    rw [hfields] at hget
    cases congrArg Prod.snd (Dict.eq_of_get?_single hget)
    rcases hv with hv | hv | hv | hv <;> cases hv <;> exact ⟨by decide, by decide⟩
  clashes p hp q hq := by
    rw [(mem_rewritten p hp).1, (mem_rewritten q hq).1]
    decide
  free p hp := by
    rw [(mem_rewritten p hp).1]
    decide
  chosen p hp q hq _ := by
    rw [(mem_rewritten p hp).1, (mem_rewritten q hq).1, timeIndexName]
    decide
  tagTexts p hp t v hget := by
    rw [(mem_rewritten p hp).2.1] at hget
    contradiction
  fieldTexts p hp f t hget := by
    obtain ⟨-, -, g, v, -, hfields, hv⟩ := mem_rewritten p hp
    rw [hfields] at hget
    cases congrArg Prod.snd (Dict.eq_of_get?_single hget)
    rcases hv with hv | hv | hv | hv <;> cases hv
    decide

theorem nul_notMem_text (n : ℤ) : '\x00' ∉ Numerics.text n := by
  intro hmem
  rcases List.mem_append.mp hmem with hmem | hmem
  · exact absurd (mem_intText hmem) (by decide)
  · exact absurd hmem (by decide)

end Examples

section Runs

variable [Numerics F] {chosen : Namespace → Str → Str} {relations : Namespace}
  {on : Bool} {batches : List (List (Point F))} (digest : Str → ℕ)

/-- No write of such a workload fails, and what the field columns hold in the end is of
their types. -/
theorem no_write_fails (hstorable : Storable chosen relations on batches)
    (htext : ∀ x : F, '\x00' ∉ Numerics.text x) (clock : ℕ) : ∃ d',
    Runs.exec (write chosen on digest) ⟨(Sequence.start clock).service, relations⟩ batches =
      some d' ∧ AllTyped d'.service := by
  obtain ⟨d', hrun, hrefines⟩ := exec_refines digest hstorable htext clock
  rw [exec_write]
  exact ⟨d', hrun, hrefines.safe.typed⟩

theorem rewritten_written : ∃ d', Runs.exec (write timeIndexName true (fun _ => 0))
      ⟨(Sequence.start 1).service, prepared⟩ rewritten = some d' ∧ AllTyped d'.service :=
  no_write_fails (fun _ => 0) rewritten_storable nul_notMem_text 1

/-- The hot tier holds the last write of each key and name, or what it has become: the
value itself, unless its column has another type by now. -/
theorem shows_picture (hstorable : Storable chosen relations on batches)
    (htext : ∀ x : F, '\x00' ∉ Numerics.text x) (clock : ℕ) : ∃ d',
    Runs.exec (write chosen on digest) ⟨(Sequence.start clock).service, relations⟩ batches =
      some d' ∧
    ∀ p ∈ batches.flatten,
      Shows batches p.measurement (picture digest batches p.measurement)
        d'.service ∧
      ∀ f ∈ p.fields.keys, ∀ k v w,
        lastSet (batches.map (changeOf digest p.measurement)) k (.field f) =
          some (some v) →
        hotCell d'.service p.measurement k (colOfField f) = some w →
        inferFieldType w = inferFieldType v → w = v := by
  obtain ⟨d', hrun, hrefines⟩ := exec_refines digest hstorable htext clock
  rw [exec_write]
  exact ⟨d', hrun, fun p hp => ⟨hrefines.shows p hp,
    fun f hf k v w hv hw htype => hrefines.eq_of_type hp hf hv hw htype⟩⟩

/-- The value has become a text, and the other field is still there. -/
theorem rewritten_shown :
    (Runs.exec (write timeIndexName true (fun _ => 0)) ⟨(Sequence.start 1).service, prepared⟩
      rewritten).any (fun d =>
        hotCell d.service ['m'] ⟨0, 0⟩ (colOfField ['a']) = some (.str ['3']) ∧
        hotCell d.service ['m'] ⟨0, 0⟩ (colOfField ['b']) = some (.int 2)) = true ∧
    ∃ d', Runs.exec (write timeIndexName true (fun _ => 0))
        ⟨(Sequence.start 1).service, prepared⟩ rewritten = some d' ∧
      ∀ p ∈ rewritten.flatten,
        Shows rewritten p.measurement (picture (fun _ => 0) rewritten p.measurement) d'.service ∧
        ∀ f ∈ p.fields.keys, ∀ k v w,
          lastSet (rewritten.map (changeOf (fun _ => 0) p.measurement)) k (.field f) =
            some (some v) →
          hotCell d'.service p.measurement k (colOfField f) = some w →
          inferFieldType w = inferFieldType v → w = v :=
  ⟨by decide +kernel, shows_picture (fun _ => 0) rewritten_storable nul_notMem_text 1⟩

/-- The schema step of every write is carried out as it is sent. -/
theorem schema_steps_sent (hstorable : Storable chosen relations on batches)
    (htext : ∀ x : F, '\x00' ∉ Numerics.text x) (tsdbSchema : Str)
    (clock : ℕ) :
    (∃ d', Runs.exec (writeOne chosen on digest) ⟨(Sequence.start clock).service, relations⟩
      (groupsOf batches) = some d') ∧
    Runs.Along (writeOne chosen on digest) (fun d => AlterText.SentAs tsdbSchema d.service)
      ⟨(Sequence.start clock).service, relations⟩ (groupsOf batches) := by
  obtain ⟨d', hrun, -⟩ := exec_refines digest hstorable htext clock
  refine ⟨⟨d', hrun⟩, ?_⟩
  refine Runs.Along.of_invariant (I := fun d : Database F =>
      (∃ pic, Refines batches d.service pic) ∧ Kept on (tablesOf batches) d)
    (G := fun _ g => g ∈ groupsOf batches) ?_ ?_
    ⟨⟨_, refines_start clock⟩, kept_start hstorable rfl⟩
    (Runs.along_of_forall (fun g hg _ => hg) _)
  · rintro d g d₁ ⟨⟨pic, h⟩, hkept⟩ hg hstep
    obtain ⟨d₂, hstep', h', hkept'⟩ :=
      writeOne_refines digest hstorable htext h hkept hg
    cases hstep.symm.trans hstep'
    exact ⟨⟨_, h'⟩, hkept'⟩
  · rintro d g ⟨⟨pic, h⟩, -⟩ hg
    exact AlterText.sentAs_of_safe tsdbSchema hstorable.toSane h.safe hg

theorem rewritten_sent :
    (∃ d', Runs.exec (writeOne timeIndexName true (fun _ => 0))
      ⟨(Sequence.start 1).service, prepared⟩ (groupsOf rewritten) = some d') ∧
    Runs.Along (writeOne timeIndexName true (fun _ => 0))
      (fun d => AlterText.SentAs "lp".toList d.service) ⟨(Sequence.start 1).service, prepared⟩
      (groupsOf rewritten) :=
  schema_steps_sent (fun _ => 0) rewritten_storable nul_notMem_text "lp".toList 1

end Runs

end TimescaleLp.Admission
