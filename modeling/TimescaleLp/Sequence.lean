import TimescaleLp.Promotion
import TimescaleLp.Merging
import TimescaleLp.Eviction

/-!
Calls one after another: writes, deletes, compaction and eviction passes, each
to its end. A write may be made to fail where it uses a store. The history holds
the batches that write-through recorded; every sequence number in use was drawn
before, and exported objects have names of their own.
-/
namespace TimescaleLp

/-- One `write_batch`, `delete_lp`, `compact_once` or `evict_once`. -/
inductive Call (F : Type)
  | write (writeThroughOn : Bool) (fault : Str → Option Store.Fault) (points : List (Point F))
  | delete (measurement : Str) (tagFilters : List (Str × Str)) (start stop : Option Time)
  | compact (measurement : Option Str)
  | evict (eligible : List (Str × List (Time × Time)))

structure History (F : Type) where
  service : Service F
  recorded : List (Batch F)

namespace Sequence

open Store Schedule ColdStore

variable {F : Type}

/-- The clock is past the epoch when the process starts. -/
def start (clock : ℕ) : History F where
  service := ⟨⟨clock + 1, fun _ => Dict.empty, ColdStore.empty⟩, Dict.empty, Dict.empty⟩
  recorded := []

/-- Write-through is on and neither of its two calls fails. -/
def passes (writeThroughOn : Bool) (fault : Option Fault) : Bool :=
  writeThroughOn && decide (fault ≠ some .stagingWrite) && decide (fault ≠ some .manifestRecord)

section Step

variable (digest : Str → ℕ) [Numerics F]

/-- The batch that is recorded for one measurement, if the call gets that far. -/
def recordedBy (s : Service F) (writeThroughOn : Bool) (fault : Option Fault) (measurement : Str)
    (points : List (Point F)) : List (Batch F) :=
  match (prepare digest s measurement points).2 with
  | .ok b => if passes writeThroughOn fault then [b] else []
  | .error _ => []

/-- One measurement of a write call. -/
def ingest (writeThroughOn : Bool) (fault : Option Fault) (h : History F) (measurement : Str)
    (points : List (Point F)) : History F where
  service := (writeMeasurement digest writeThroughOn fault h.service measurement points).1
  recorded := h.recorded ++ recordedBy digest h.service writeThroughOn fault measurement points

/-- The measurements of a write call, up to the first that fails. -/
def ingestGroups (writeThroughOn : Bool) (fault : Str → Option Fault) (h : History F) :
    List (Str × List (Point F)) → History F
  | [] => h
  | (m, points) :: groups =>
    if (writeMeasurement digest writeThroughOn (fault m) h.service m points).2.isOk then
      ingestGroups writeThroughOn fault (ingest digest writeThroughOn (fault m) h m points) groups
    else ingest digest writeThroughOn (fault m) h m points

def step (h : History F) : Call F → Option (History F)
  | .write on fault points =>
    some ⟨(writeBatch digest on fault h.service points).1,
      (ingestGroups digest on fault h (byMeasurement points).entries).recorded⟩
  | .delete measurement tagFilters start stop =>
    some { h with service := (deleteLp h.service measurement tagFilters start stop).1 }
  | .compact measurement =>
    some { h with service := { h.service with
            cold := (Tiering.compactOnce measurement h.service.cold).1 } }
  | .evict eligible =>
    some { h with service := { h.service with
            toWorld := (Tiering.evictOnce h.service.toWorld eligible).1 } }

/-- A condition on each measurement that a write call gets to. -/
def EachGroup (G : History F → Str → List (Point F) → Prop) (writeThroughOn : Bool)
    (fault : Str → Option Fault) (h : History F) : List (Str × List (Point F)) → Prop
  | [] => True
  | (m, points) :: groups =>
    G h m points ∧
      ((writeMeasurement digest writeThroughOn (fault m) h.service m points).2.isOk = true →
        EachGroup G writeThroughOn fault (ingest digest writeThroughOn (fault m) h m points) groups)

instance decidableEachGroup {G : History F → Str → List (Point F) → Prop}
    [∀ h m points, Decidable (G h m points)] (writeThroughOn : Bool) (fault : Str → Option Fault) :
    (h : History F) → (groups : List (Str × List (Point F))) →
      Decidable (EachGroup digest G writeThroughOn fault h groups)
  | _, [] => isTrue trivial
  | h, (m, points) :: groups =>
    have := decidableEachGroup (G := G) writeThroughOn fault
      (ingest digest writeThroughOn (fault m) h m points) groups
    inferInstanceAs (Decidable (_ ∧ (_ → _)))

variable {writeThroughOn : Bool} {fault : Str → Option Fault}

theorem service_ingestGroups (h : History F) (groups : List (Str × List (Point F))) :
    (ingestGroups digest writeThroughOn fault h groups).service =
      (writeGroups digest writeThroughOn fault h.service groups).1 := by
  induction groups generalizing h with
  | nil => rfl
  | cons g groups ih =>
    obtain ⟨m, points⟩ := g
    rw [ingestGroups, writeGroups]
    rcases hwrite : writeMeasurement digest writeThroughOn (fault m) h.service m points with
      ⟨s', err | n⟩
    · simp [Except.isOk, Except.toBool, ingest, hwrite]
    · simp [Except.isOk, Except.toBool, ih, ingest, hwrite]

theorem step_write (h : History F) (points : List (Point F)) :
    step digest h (.write writeThroughOn fault points) =
      some (ingestGroups digest writeThroughOn fault h (byMeasurement points).entries) := by
  rw [step, writeBatch, ← service_ingestGroups]

/-- What each measurement preserves, a write call preserves. -/
theorem ingestGroups_invariant {I : History F → Prop}
    {G : History F → Str → List (Point F) → Prop}
    (hstep : ∀ h m points, points ≠ [] → I h → G h m points →
      I (ingest digest writeThroughOn (fault m) h m points))
    {h : History F} {groups : List (Str × List (Point F))} (hgroups : ∀ g ∈ groups, g.2 ≠ [])
    (hI : I h) (hG : EachGroup digest G writeThroughOn fault h groups) :
    I (ingestGroups digest writeThroughOn fault h groups) := by
  induction groups generalizing h with
  | nil => exact hI
  | cons g groups ih =>
    obtain ⟨m, points⟩ := g
    have hnext := hstep h m points (hgroups _ List.mem_cons_self) hI hG.1
    rw [ingestGroups]
    split
    · rename_i hok
      exact ih (fun g hg => hgroups g (List.mem_cons_of_mem _ hg)) hnext (hG.2 hok)
    · exact hnext

variable {digest} in
theorem EachGroup.mono {G G' : History F → Str → List (Point F) → Prop} {h : History F}
    {groups : List (Str × List (Point F))} (hsub : ∀ h m points, G h m points → G' h m points)
    (hG : EachGroup digest G writeThroughOn fault h groups) :
    EachGroup digest G' writeThroughOn fault h groups := by
  induction groups generalizing h with
  | nil => trivial
  | cons g groups ih => exact ⟨hsub _ _ _ hG.1, fun hok => ih (hG.2 hok)⟩

variable {digest} in
/-- A condition that follows from another where an invariant holds. -/
theorem EachGroup.of_invariant {I : History F → Prop}
    {G G' : History F → Str → List (Point F) → Prop}
    (hI : ∀ h m points, points ≠ [] → I h → G h m points →
      (writeMeasurement digest writeThroughOn (fault m) h.service m points).2.isOk = true →
        I (ingest digest writeThroughOn (fault m) h m points))
    (hsub : ∀ h m points, I h → G h m points → G' h m points) {h : History F}
    {groups : List (Str × List (Point F))} (hgroups : ∀ g ∈ groups, g.2 ≠ []) (hs : I h)
    (hG : EachGroup digest G writeThroughOn fault h groups) :
    EachGroup digest G' writeThroughOn fault h groups := by
  induction groups generalizing h with
  | nil => trivial
  | cons g groups ih =>
    obtain ⟨hne, hrest⟩ := List.forall_mem_cons.mp hgroups
    exact ⟨hsub _ _ _ hs hG.1, fun hok => ih hrest (hI _ _ _ hne hs hG.1 hok) (hG.2 hok)⟩

variable {digest} in
theorem EachGroup.and {G G' : History F → Str → List (Point F) → Prop} {h : History F}
    {groups : List (Str × List (Point F))} (hG : EachGroup digest G writeThroughOn fault h groups)
    (hG' : EachGroup digest G' writeThroughOn fault h groups) :
    EachGroup digest (fun h m points => G h m points ∧ G' h m points) writeThroughOn fault h
      groups := by
  induction groups generalizing h with
  | nil => trivial
  | cons g groups ih => exact ⟨⟨hG.1, hG'.1⟩, fun hok => ih (hG.2 hok) (hG'.2 hok)⟩

/-- When a call returns, each of its measurements was written. -/
theorem eachGroup_isOk {h : History F} {groups : List (Str × List (Point F))}
    (hok : (writeGroups digest writeThroughOn fault h.service groups).2.isOk = true) :
    EachGroup digest (fun h m points =>
      (writeMeasurement digest writeThroughOn (fault m) h.service m points).2.isOk = true)
        writeThroughOn fault h groups := by
  induction groups generalizing h with
  | nil => trivial
  | cons g groups ih =>
    obtain ⟨m, points⟩ := g
    rw [writeGroups] at hok
    rw [EachGroup]
    have hservice : (ingest digest writeThroughOn (fault m) h m points).service =
        (writeMeasurement digest writeThroughOn (fault m) h.service m points).1 := rfl
    rcases hwrite : writeMeasurement digest writeThroughOn (fault m) h.service m points with
      ⟨s', err | n⟩
    · simp [hwrite, Except.isOk, Except.toBool] at hok
    · simp only [hwrite] at hok hservice
      refine ⟨rfl, fun _ => ih ?_⟩
      rw [hservice]
      revert hok
      generalize writeGroups digest writeThroughOn fault s' groups = rest
      obtain ⟨s'', err | total⟩ := rest
      · exact id
      · exact fun _ => rfl

theorem eachGroup_of_forall {G : History F → Str → List (Point F) → Prop}
    {groups : List (Str × List (Point F))} (hG : ∀ g ∈ groups, ∀ h, G h g.1 g.2) (h : History F) :
    EachGroup digest G writeThroughOn fault h groups := by
  induction groups generalizing h with
  | nil => trivial
  | cons g groups ih =>
    exact ⟨hG g List.mem_cons_self h, fun _ => ih (fun g' hg' => hG g' (List.mem_cons_of_mem g hg')) _⟩

theorem eachGroup_true (h : History F) (groups : List (Str × List (Point F))) :
    EachGroup digest (fun _ _ _ => True) writeThroughOn fault h groups :=
  eachGroup_of_forall digest (fun _ _ _ => trivial) h

omit [Numerics F] in
theorem groups_ne_nil (points : List (Point F)) : ∀ g ∈ (byMeasurement points).entries, g.2 ≠ [] :=
  fun g hg => (Dict.mem_groupBy_entries _ points g.1 g.2 hg).2

omit [Numerics F] in
theorem mem_group {points : List (Point F)} {g : Str × List (Point F)}
    (hg : g ∈ (byMeasurement points).entries) : ∀ p ∈ g.2, p ∈ points ∧ p.measurement = g.1 := by
  intro p hp
  rw [(Dict.mem_groupBy_entries _ points g.1 g.2 hg).1] at hp
  simpa using hp

end Step

/-- The names of exported objects. -/
def exportKeys : Set Str := {k | ∃ table day, '/' ∉ day ∧ k = coldKey table day 0}

structure Inv (w : World (Value F)) (recorded : List (Batch F)) : Prop where
  positive : 1 ≤ w.nextSeq
  log : Vault.LogOk recorded
  seqs : ∀ b ∈ recorded, ∀ r ∈ b.records, 1 ≤ r.seq ∧ r.seq < w.nextSeq
  hot : ∀ table k stored, (w.hot table).get? k = some stored → stored.seq < w.nextSeq
  exported : ∀ table, ∀ r ∈ heldIn w.cold table (fun k _ => k ∈ exportKeys),
    r.seq < w.nextSeq ∧
      ∀ stored, (w.hot table).get? r.key = some stored → r.seq < stored.seq
  vault : Vault.Inv exportKeys w.cold recorded fun _ : Unit => .idle

theorem start_inv (clock : ℕ) :
    Inv (start clock : History F).service.toWorld (start clock : History F).recorded where
  positive := Nat.succ_pos clock
  log := ⟨by simp [start], by simp [start]⟩
  seqs := by simp [start]
  hot := by simp [start]
  exported := by
    rintro table r ⟨k, e, rows, hk, -⟩
    simp [start, ColdStore.empty] at hk
  vault := Vault.empty_inv fun _ => trivial

theorem outside_exportKeys {b : Batch F} (hb : b.records ≠ [])
    (hseqs : ∀ r ∈ b.records, 1 ≤ r.seq) : Vault.Outside exportKeys b := by
  obtain ⟨r, hr, hmin⟩ := Batches.minSeq_mem hb
  have hpos := hseqs r hr
  refine ⟨?_, ?_⟩
  · rintro ⟨table, day, -, hk⟩
    exact Vault.key_ne_coldKey b _ _ _ hk
  · rintro m day ⟨table, day', hday', hk⟩
    have hzero := coldKey_inj_seq hk
    omega

section Outcome

/-- Cold after the stages before the transaction. -/
def written (writeThroughOn : Bool) (c : Cold (Value F)) (b : Batch F) : Cold (Value F) :=
  if writeThroughOn then ColdStore.record (Store.stage b c) b.stagingMeta else c

/-- How a call ends that has built its batch. -/
inductive Outcome (writeThroughOn : Bool) (fault : Option Fault) (s : Service F) (b : Batch F) :
    Service F → Except WriteError ℕ → Prop
  | unstaged (hon : writeThroughOn = true) (hfault : fault = some .stagingWrite) :
      Outcome writeThroughOn fault s b s (.error .objectStore)
  | unrecorded (hon : writeThroughOn = true) (hfault : fault = some .manifestRecord) :
      Outcome writeThroughOn fault s b { s with cold := Store.stage b s.cold } (.error .database)
  | uncommitted (hpasses : passes writeThroughOn fault = writeThroughOn) :
      Outcome writeThroughOn fault s b { s with cold := written writeThroughOn s.cold b }
        (.error .database)
  | committed (t : Table (Value F)) (hpasses : passes writeThroughOn fault = writeThroughOn)
      (ht : Store.commit b (s.hot b.table) = some t) :
      Outcome writeThroughOn fault s b
        { s with
          cold := written writeThroughOn s.cold b
          hot := Function.update s.hot b.table t } (.ok b.records.length)

theorem outcome_storeBatch (writeThroughOn : Bool) (fault : Option Fault) (s : Service F)
    (b : Batch F) : Outcome writeThroughOn fault s b (storeBatch writeThroughOn fault s b).1
      (storeBatch writeThroughOn fault s b).2 := by
  have hlanded : passes writeThroughOn fault = writeThroughOn →
      (if writeThroughOn then writeThrough fault b s.cold else (s.cold, none)) =
        (written writeThroughOn s.cold b, none) →
      Outcome writeThroughOn fault s b (storeBatch writeThroughOn fault s b).1
        (storeBatch writeThroughOn fault s b).2 := by
    intro hpasses hcold
    simp only [storeBatch, hcold]
    cases hcommit : (if fault = some .transaction then none else Store.commit b (s.hot b.table)) with
    | none => exact .uncommitted hpasses
    | some t =>
      have ht : Store.commit b (s.hot b.table) = some t := by
        split at hcommit
        · contradiction
        · exact hcommit
      exact .committed t hpasses ht
  cases writeThroughOn with
  | false => exact hlanded rfl rfl
  | true =>
    by_cases hstage : fault = some .stagingWrite
    · subst hstage
      exact .unstaged rfl rfl
    · by_cases hrecord : fault = some .manifestRecord
      · subst hrecord
        exact .unrecorded rfl rfl
      · refine hlanded (by simp [passes, hstage, hrecord]) ?_
        simp [writeThrough, written, hstage, hrecord]

end Outcome

section Prepare

variable (digest : Str → ℕ) [Numerics F] {s s' : Service F} {measurement : Str}
  {points : List (Point F)} {res : Except WriteError (Batch F)}

/-- The rows of a call are built from a schema and fresh sequence numbers. -/
theorem prepare_ok {b : Batch F} (hpoints : points ≠ [])
    (h : prepare digest s measurement points = (s', .ok b)) : ∃ schema s₁,
      Schema.ensureSchema s measurement (tagNames points) (fieldSamples points) = (s₁, some schema) ∧
      buildBatch digest schema points s.nextSeq = (s'.nextSeq, .ok b) ∧
      s' = { s₁ with nextSeq := s'.nextSeq } ∧ b.Drawn s.nextSeq s'.nextSeq := by
  rw [prepare] at h
  rcases hensure : Schema.ensureSchema s measurement (tagNames points) (fieldSamples points) with
    ⟨s₁, _ | schema⟩
  · simp [hensure] at h
  · simp only [hensure] at h
    have hseq : s₁.nextSeq = s.nextSeq := (Promotion.ensureSchema_ok hensure).2.1.nextSeq
    cases hbuild : buildBatch digest schema points s₁.nextSeq with
    | mk n built =>
      simp only [hbuild, Prod.mk.injEq] at h
      obtain ⟨rfl, rfl⟩ := h
      rw [hseq] at hbuild
      exact ⟨schema, s₁, rfl, hbuild, rfl, Batches.buildBatch_drawn digest hpoints hbuild⟩

/-- Before anything is stored, a call has changed no row's key or number. -/
theorem prepare_frame (h : prepare digest s measurement points = (s', res)) :
    s'.cold = s.cold ∧ s.nextSeq ≤ s'.nextSeq ∧ ∀ t k,
      ((s'.hot t).get? k).map Stored.seq = ((s.hot t).get? k).map Stored.seq := by
  rw [prepare] at h
  rcases hensure : Schema.ensureSchema s measurement (tagNames points) (fieldSamples points) with
    ⟨s₁, _ | schema⟩
  · simp only [hensure, Prod.mk.injEq] at h
    obtain ⟨rfl, -⟩ := h
    have hrecast := Promotion.ensureSchema_none measurement hensure
    exact ⟨hrecast.cold, hrecast.nextSeq.ge, hrecast.seq⟩
  · simp only [hensure, Prod.mk.injEq] at h
    obtain ⟨rfl, -⟩ := h
    have hrecast := (Promotion.ensureSchema_ok hensure).2.1
    have hle := Batches.buildBatch_le digest schema points s₁.nextSeq
    exact ⟨hrecast.cold, hrecast.nextSeq.ge.trans hle, hrecast.seq⟩

end Prepare

section Step

variable {w w' : World (Value F)} {recorded : List (Batch F)}

theorem heldIn_foreign_congr {c c' : Cold (Value F)} {foreign : Set Str}
    (h : ∀ k ∈ foreign, c'.files k = c.files k ∧ c'.manifest.get? k = c.manifest.get? k)
    (table : Str) :
    heldIn c' table (fun k _ => k ∈ foreign) = heldIn c table fun k _ => k ∈ foreign := by
  ext r
  constructor
  · rintro ⟨k, e, rows, hk, hm, hin, hrows, hr⟩
    exact ⟨k, e, rows, (h k hin).2 ▸ hk, hm, hin, (h k hin).1 ▸ hrows, hr⟩
  · rintro ⟨k, e, rows, hk, hm, hin, hrows, hr⟩
    exact ⟨k, e, rows, (h k hin).2.trans hk, hm, hin, (h k hin).1.trans hrows, hr⟩

/-- Later numbers, the same cold store, and no hot row with a number it did not
have. -/
theorem Inv.frame (h : Inv w recorded) (hcold : w'.cold = w.cold) (hseq : w.nextSeq ≤ w'.nextSeq)
    (hhot : ∀ t k stored, (w'.hot t).get? k = some stored →
      ∃ old, (w.hot t).get? k = some old ∧ old.seq = stored.seq) : Inv w' recorded where
  positive := h.positive.trans hseq
  log := h.log
  seqs b hb r hr := ⟨(h.seqs b hb r hr).1, (h.seqs b hb r hr).2.trans_le hseq⟩
  hot t k stored hstored := by
    obtain ⟨old, hold, heq⟩ := hhot t k stored hstored
    exact heq ▸ (h.hot t k old hold).trans_le hseq
  exported t r hr := by
    rw [hcold] at hr
    obtain ⟨hlt, hall⟩ := h.exported t r hr
    refine ⟨hlt.trans_le hseq, fun stored hstored => ?_⟩
    obtain ⟨old, hold, heq⟩ := hhot t r.key stored hstored
    exact heq ▸ hall old hold
  vault := hcold ▸ h.vault

theorem Inv.prepared (h : Inv w recorded) (hcold : w'.cold = w.cold) (hseq : w.nextSeq ≤ w'.nextSeq)
    (hhot : ∀ t k, ((w'.hot t).get? k).map Stored.seq = ((w.hot t).get? k).map Stored.seq) :
    Inv w' recorded := by
  refine h.frame hcold hseq fun t k stored hstored => ?_
  have hmap := hhot t k
  rw [hstored, Option.map_some, eq_comm, Option.map_eq_some_iff] at hmap
  exact hmap

/-- Cold changes in the hands of write-through or a pass. -/
theorem Inv.cold {c : Cold (Value F)} {recorded' : List (Batch F)} (h : Inv w recorded)
    (hlog : Vault.LogOk recorded')
    (hseqs : ∀ b ∈ recorded', ∀ r ∈ b.records, 1 ≤ r.seq ∧ r.seq < w.nextSeq)
    (hforeign : ∀ k ∈ exportKeys, c.files k = w.cold.files k ∧
      c.manifest.get? k = w.cold.manifest.get? k)
    (hvault : Vault.Inv exportKeys c recorded' fun _ : Unit => .idle) :
    Inv { w with cold := c } recorded' where
  positive := h.positive
  log := hlog
  seqs := hseqs
  hot := h.hot
  exported t r hr := by
    rw [heldIn_foreign_congr hforeign] at hr
    exact h.exported t r hr
  vault := hvault

theorem Inv.compact (h : Inv w recorded) (measurement : Option Str) :
    Inv { w with cold := (Tiering.compactOnce measurement w.cold).1 } recorded := by
  obtain ⟨hvault, hforeign⟩ := h.vault.compactOnce h.log measurement
  exact h.cold h.log h.seqs hforeign hvault

section Write

variable {b : Batch F} {n : ℕ}

/-- A hot row after a commit is a row of the batch, or was there before under a
key that the batch does not have. -/
theorem get?_update_commit {hot : Str → Table (Value F)} {t : Table (Value F)}
    (hkeys : (b.records.map Row.key).Nodup) (ht : Store.commit b (hot b.table) = some t)
    {table : Str} {k : Key} {stored : Stored (Value F)}
    (h : (Function.update hot b.table t table).get? k = some stored) :
    (∃ r ∈ b.records, table = b.table ∧ r.key = k ∧
      stored = Batches.upserted b.cols ((hot table).get? k) r) ∨
    ((hot table).get? k = some stored ∧ (table = b.table → ∀ r ∈ b.records, r.key ≠ k)) := by
  by_cases htable : table = b.table
  · subst htable
    rw [Function.update_self] at h
    by_cases hk : k ∈ b.records.map Row.key
    · obtain ⟨r, hr, rfl⟩ := List.mem_map.mp hk
      rw [Batches.get?_commit_of_mem ht hkeys hr] at h
      exact Or.inl ⟨r, hr, rfl, rfl, (Option.some.inj h).symm⟩
    · rw [Batches.get?_commit_of_notMem ht hk] at h
      exact Or.inr ⟨h, fun _ r hr heq => hk (heq ▸ List.mem_map_of_mem hr)⟩
  · rw [Function.update_of_ne htable] at h
    exact Or.inr ⟨h, fun heq => absurd heq htable⟩

/-- A batch of new numbers can join the log. -/
theorem Inv.log_append (h : Inv w recorded) (hdrawn : b.Drawn w.nextSeq n) :
    Vault.LogOk (recorded ++ [b]) ∧ b ∉ recorded := by
  have hapart : ∀ b' ∈ recorded, ∀ r' ∈ b'.records, ∀ r ∈ b.records, r'.seq ≠ r.seq := by
    intro b' hb' r' hr' r hr
    have hlt := (h.seqs b' hb' r' hr').2
    have hle := (hdrawn.seqs r hr).1
    omega
  exact h.log.append hdrawn hapart

theorem Inv.outside (h : Inv w recorded) (hdrawn : b.Drawn w.nextSeq n) :
    Vault.Outside exportKeys b :=
  outside_exportKeys hdrawn.nonempty fun r hr => h.positive.trans (hdrawn.seqs r hr).1

theorem stage_foreign (c : Cold (Value F)) (hout : Vault.Outside exportKeys b) :
    ∀ k ∈ exportKeys, (Store.stage b c).files k = c.files k ∧
      (Store.stage b c).manifest.get? k = c.manifest.get? k := by
  intro k hk
  have hne : k ≠ b.key := fun heq => hout.key (heq ▸ hk)
  exact ⟨by rw [Vault.files_stage, if_neg hne], rfl⟩

theorem written_foreign (on : Bool) (c : Cold (Value F)) (hout : Vault.Outside exportKeys b) :
    ∀ k ∈ exportKeys, (written on c b).files k = c.files k ∧
      (written on c b).manifest.get? k = c.manifest.get? k := by
  intro k hk
  cases on with
  | false => exact ⟨rfl, rfl⟩
  | true =>
    have hne : k ≠ b.key := fun heq => hout.key (heq ▸ hk)
    exact ⟨(stage_foreign c hout k hk).1, get?_record_of_ne _ b.stagingMeta hne⟩

/-- Staging and recording a new batch. -/
theorem Inv.written (h : Inv w recorded) (hdrawn : b.Drawn w.nextSeq n) (hn : n ≤ w'.nextSeq)
    (h' : Inv w' recorded) (on : Bool) :
    Inv { w' with cold := written on w'.cold b } (recorded ++ if on then [b] else []) := by
  have hout := h.outside hdrawn
  have hforeign := written_foreign on w'.cold hout
  cases on with
  | false =>
    rw [if_neg Bool.false_ne_true, List.append_nil]
    exact h'
  | true =>
    obtain ⟨hlog, hnew⟩ := h.log_append hdrawn
    rw [if_pos rfl]
    refine h'.cold hlog ?_ hforeign ?_
    · intro b' hb' r hr
      rcases List.mem_append.mp hb' with hb' | hb'
      · exact h'.seqs b' hb' r hr
      · cases List.mem_singleton.mp hb'
        have hrange := hdrawn.seqs r hr
        exact ⟨h.positive.trans hrange.1, hrange.2.trans_le hn⟩
    · have hfile : (Store.stage b w'.cold).files b.key = some b.records := by
        rw [Vault.files_stage, if_pos rfl]
      exact (h'.vault.stage hlog hnew).record hlog hnew hout hfile

/-- The rows of a commit are newer than all that was exported. -/
theorem Inv.commit {t : Table (Value F)} (h : Inv w recorded) (hdrawn : b.Drawn n w.nextSeq)
    (hexported : ∀ table, ∀ r ∈ heldIn w.cold table (fun k _ => k ∈ exportKeys), r.seq < n)
    (ht : Store.commit b (w.hot b.table) = some t) :
    Inv { w with hot := Function.update w.hot b.table t } recorded where
  positive := h.positive
  log := h.log
  seqs := h.seqs
  hot table k stored hstored := by
    rcases get?_update_commit hdrawn.keys ht hstored with ⟨r, hr, -, -, rfl⟩ | ⟨hold, -⟩
    · exact (hdrawn.seqs r hr).2
    · exact h.hot table k stored hold
  exported table r hr := by
    refine ⟨(h.exported table r hr).1, fun stored hstored => ?_⟩
    rcases get?_update_commit hdrawn.keys ht hstored with ⟨r', hr', -, -, rfl⟩ | ⟨hold, -⟩
    · exact (hexported table r hr).trans_le (hdrawn.seqs r' hr').1
    · exact (h.exported table r hr).2 stored hold
  vault := h.vault

end Write

section Evict

variable {table : Str} {intervals : List (Time × Time)} {chunk : Time × Time}

theorem exportKey_mem (table : Str) (time : Time) : Tiering.exportKey table time ∈ exportKeys :=
  ⟨table, dayOf time, slash_notMem_dayOf time, rfl⟩

/-- A hot row after an eviction was there before, and not in the chunk. -/
theorem get?_hot_evictChunk {other : Str} {k : Key} {stored : Stored (Value F)}
    (h : ((Tiering.evictChunk table intervals w chunk).hot other).get? k = some stored) :
    (w.hot other).get? k = some stored := by
  rw [Eviction.hot_evictChunk] at h
  split at h
  · rename_i htable
    subst htable
    rw [Eviction.get?_dropChunk] at h
    split at h
    · contradiction
    · exact h
  · exact h

theorem get?_hot_evictTable {other : Str} {k : Key} {stored : Stored (Value F)}
    {chunks : List (Time × Time)}
    (h : ((Tiering.evictTable w table chunks).hot other).get? k = some stored) :
    (w.hot other).get? k = some stored := by
  rw [Tiering.evictTable] at h
  generalize Tiering.coverage w.cold table = intervals at h
  induction chunks generalizing w with
  | nil => exact h
  | cons chunk chunks ih => exact get?_hot_evictChunk (ih h)

/-- A hot row after a pass was there before. -/
theorem get?_hot_evictTables {eligible : List (Str × List (Time × Time))} {other : Str} {k : Key}
    {stored : Stored (Value F)}
    (h : ((eligible.foldl (fun w e => Tiering.evictTable w e.1 e.2) w).hot other).get? k =
      some stored) : (w.hot other).get? k = some stored := by
  induction eligible generalizing w with
  | nil => exact h
  | cons e eligible ih => exact get?_hot_evictTable (ih h)

/-- The vault does not answer for exports. -/
theorem Inv.vault_evictChunk (h : Inv w recorded) : Vault.Inv exportKeys
    (Tiering.evictChunk table intervals w chunk).cold recorded fun _ : Unit => .idle := by
  rw [Tiering.evictChunk]
  split
  · exact h.vault
  · exact h.vault.writeForeign (slash_notMem_dayOf chunk.1) (exportKey_mem table chunk.1) _ rfl rfl rfl

/-- An exported row was exported before, or has just left hot. -/
theorem Inv.exported_evictChunk (h : Inv w recorded) {other : Str} {r : Row (Value F)}
    (hr : r ∈ heldIn (Tiering.evictChunk table intervals w chunk).cold other
      fun k _ => k ∈ exportKeys) :
    r ∈ heldIn w.cold other (fun k _ => k ∈ exportKeys) ∨
      (w.hot other).get? r.key = some r.stored ∧
        ((Tiering.evictChunk table intervals w chunk).hot other).get? r.key = none := by
  cases hcov : Tiering.isCovered chunk.1 chunk.2 intervals with
  | true =>
    rw [Eviction.cold_evictChunk_covered hcov] at hr
    exact Or.inl hr
  | false =>
    obtain ⟨k, e, rows, hk, hm, hin, hrows, hmem⟩ := hr
    by_cases hkey : k = Tiering.exportKey table chunk.1
    · rw [Eviction.files_evictChunk hcov, if_pos hkey] at hrows
      cases hrows
      rw [Engine.mem_hotRange_iff] at hmem
      have htable : other = table := by
        cases h.vault_evictChunk.entries k e hk with
        | staging b _ hb _ => exact absurd (hb.symm.trans hkey) (Vault.key_ne_coldKey b _ _ _)
        | cold day a hday _ hcold =>
          rw [← hm]
          exact (coldKey_inj hday (slash_notMem_dayOf _) (hcold.symm.trans hkey)).1
      subst htable
      refine Or.inr ⟨hmem.1, ?_⟩
      rw [Eviction.hot_evictChunk, if_pos rfl, Eviction.get?_dropChunk, if_pos hmem.2]
    · rw [Eviction.get?_evictChunk_of_ne hcov hkey] at hk
      rw [Eviction.files_evictChunk hcov, if_neg hkey] at hrows
      exact Or.inl ⟨k, e, rows, hk, hm, hin, hrows, hmem⟩

/-- A chunk that is dropped was exported or is covered, so hot rows are newer
than exported ones. -/
theorem Inv.evictChunk (h : Inv w recorded) :
    Inv (Tiering.evictChunk table intervals w chunk) recorded := by
  have hseq : (Tiering.evictChunk table intervals w chunk).nextSeq = w.nextSeq :=
    Eviction.nextSeq_evictChunk
  refine ⟨hseq ▸ h.positive, h.log, hseq ▸ h.seqs, ?_, ?_, h.vault_evictChunk⟩
  · intro other k stored hstored
    rw [hseq]
    exact h.hot other k stored (get?_hot_evictChunk hstored)
  · rw [hseq]
    intro other r hr
    rcases h.exported_evictChunk hr with hold | ⟨hhot, hnone⟩
    · exact ⟨(h.exported other r hold).1,
        fun stored hstored => (h.exported other r hold).2 stored (get?_hot_evictChunk hstored)⟩
    · refine ⟨h.hot other _ _ hhot, fun stored hstored => ?_⟩
      rw [hnone] at hstored
      contradiction

theorem Inv.evictTable (h : Inv w recorded) (table : Str) (chunks : List (Time × Time)) :
    Inv (Tiering.evictTable w table chunks) recorded := by
  rw [Tiering.evictTable]
  generalize Tiering.coverage w.cold table = intervals
  induction chunks generalizing w with
  | nil => exact h
  | cons chunk chunks ih => exact ih h.evictChunk

theorem Inv.evictTables (h : Inv w recorded) (eligible : List (Str × List (Time × Time))) :
    Inv (eligible.foldl (fun w e => Tiering.evictTable w e.1 e.2) w) recorded := by
  induction eligible generalizing w with
  | nil => exact h
  | cons e eligible ih => exact ih (h.evictTable e.1 e.2)

end Evict

end Step

section Delete

variable (s : Service F) (measurement : Str) (tagFilters : List (Str × Str))
  (start stop : Option Time)

theorem deleteSchema_toWorld : (deleteSchema s measurement).1.toWorld = s.toWorld := by
  rw [deleteSchema]
  split <;> rfl

/-- What a delete does to the stores. -/
theorem deleteLp_toWorld : (deleteLp s measurement tagFilters start stop).1.toWorld =
    match filterColumns (deleteSchema s measurement).2 tagFilters with
    | none => s.toWorld
    | some columns =>
      { s.toWorld with
        hot := Function.update s.hot (deleteSchema s measurement).2.table
          ((s.hot (deleteSchema s measurement).2.table).filter
            fun k r => !deleteMatches columns start stop k r.cells) } := by
  have hworld := deleteSchema_toWorld s measurement
  rw [deleteLp]
  generalize deleteSchema s measurement = loaded at hworld ⊢
  obtain ⟨s', schema⟩ := loaded
  cases hcolumns : filterColumns schema tagFilters with
  | none => simpa [hcolumns] using hworld
  | some columns =>
    simp only [hcolumns]
    rw [show s'.hot = s.hot from congrArg World.hot hworld,
      show s'.nextSeq = s.nextSeq from congrArg World.nextSeq hworld,
      show s'.cold = s.cold from congrArg World.cold hworld]

/-- A delete leaves everything but hot rows as it was. -/
theorem deleteLp_frame :
    (deleteLp s measurement tagFilters start stop).1.cold = s.cold ∧
      (deleteLp s measurement tagFilters start stop).1.nextSeq = s.nextSeq ∧
      ∀ t k stored, ((deleteLp s measurement tagFilters start stop).1.hot t).get? k = some stored →
        (s.hot t).get? k = some stored := by
  have hworld := deleteLp_toWorld s measurement tagFilters start stop
  generalize (deleteLp s measurement tagFilters start stop).1 = s' at hworld
  rw [show s'.cold = s'.toWorld.cold from rfl, show s'.hot = s'.toWorld.hot from rfl,
    show s'.nextSeq = s'.toWorld.nextSeq from rfl, hworld]
  split
  · exact ⟨rfl, rfl, fun t k stored h => h⟩
  · refine ⟨rfl, rfl, fun t k stored h => ?_⟩
    simp only [Function.update_apply] at h
    split at h
    · rename_i ht
      rw [Dict.get?_filter, Option.filter_eq_some_iff] at h
      exact ht ▸ h.1
    · exact h

end Delete

section Run

variable (digest : Str → ℕ) [Numerics F] {s s' : Service F} {recorded : List (Batch F)}

omit [Numerics F] in
/-- The stages after a batch is built. -/
theorem Inv.storeBatch {on : Bool} {fault : Option Fault} {b : Batch F}
    (h : Inv s.toWorld recorded) (h' : Inv s'.toWorld recorded) (hcold : s'.cold = s.cold)
    (hdrawn : b.Drawn s.nextSeq s'.nextSeq) :
    Inv (Store.storeBatch on fault s' b).1.toWorld
      (recorded ++ if passes on fault then [b] else []) := by
  have hout := h.outside hdrawn
  have hwritten := h.written hdrawn le_rfl h' on
  have hexported : ∀ table, ∀ r ∈ heldIn (Sequence.written on s'.cold b) table
      (fun k _ => k ∈ exportKeys), r.seq < s.nextSeq := by
    intro table r hr
    rw [heldIn_foreign_congr (written_foreign on s'.cold hout), hcold] at hr
    exact (h.exported table r hr).1
  have houtcome := outcome_storeBatch on fault s' b
  generalize (Store.storeBatch on fault s' b).1 = s'' at houtcome
  generalize (Store.storeBatch on fault s' b).2 = res at houtcome
  cases houtcome with
  | unstaged hon hfault =>
    simpa [passes, hfault] using h'
  | unrecorded hon hfault =>
    obtain ⟨hlog, hnew⟩ := h.log_append hdrawn
    have hstaged : Inv { s'.toWorld with cold := Store.stage b s'.cold } recorded :=
      h'.cold h'.log h'.seqs (stage_foreign s'.cold hout) (h'.vault.stage hlog hnew)
    simpa [passes, hfault] using hstaged
  | uncommitted hpasses =>
    rw [hpasses]
    exact hwritten
  | committed t hpasses ht =>
    rw [hpasses]
    exact hwritten.commit hdrawn hexported ht

theorem Inv.prepare {measurement : Str} {points : List (Point F)}
    {res : Except WriteError (Batch F)} (h : Inv s.toWorld recorded)
    (hprepare : prepare digest s measurement points = (s', res)) : Inv s'.toWorld recorded := by
  obtain ⟨hcold, hseq, hhot⟩ := prepare_frame digest hprepare
  exact h.prepared hcold hseq hhot

theorem Inv.ingest {h : History F} {on : Bool} {fault : Option Fault} {measurement : Str}
    {points : List (Point F)} (hpoints : points ≠ []) (hinv : Inv h.service.toWorld h.recorded) :
    Inv (ingest digest on fault h measurement points).service.toWorld
      (ingest digest on fault h measurement points).recorded := by
  simp only [Sequence.ingest, Store.writeMeasurement, recordedBy]
  rcases hprepare : Store.prepare digest h.service measurement points with ⟨s', err | b⟩
  · simpa using hinv.prepare digest hprepare
  · obtain ⟨-, -, -, -, -, hdrawn⟩ := prepare_ok digest hpoints hprepare
    exact hinv.storeBatch (hinv.prepare digest hprepare) (prepare_frame digest hprepare).1 hdrawn

/-- One call. -/
theorem step_inv {h h' : History F} {call : Call F} (hinv : Inv h.service.toWorld h.recorded)
    (hstep : step digest h call = some h') : Inv h'.service.toWorld h'.recorded := by
  cases call with
  | write on fault points =>
    rw [step_write] at hstep
    cases hstep
    exact ingestGroups_invariant digest (I := fun h => Inv h.service.toWorld h.recorded)
      (fun h m points hpoints hI _ => hI.ingest digest hpoints) (groups_ne_nil points) hinv
      (eachGroup_true digest h _)
  | delete measurement tagFilters start stop =>
    cases hstep
    obtain ⟨hcold, hseq, hhot⟩ := deleteLp_frame h.service measurement tagFilters start stop
    exact hinv.frame hcold hseq.ge fun t k stored hstored => ⟨stored, hhot t k stored hstored, rfl⟩
  | compact measurement =>
    cases hstep
    exact hinv.compact measurement
  | evict eligible =>
    cases hstep
    exact hinv.evictTables eligible

end Run

end Sequence

end TimescaleLp
