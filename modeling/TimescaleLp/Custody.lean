import TimescaleLp.Ledger
import TimescaleLp.Merging

/-!
Cold as the source of truth. With write-through on, every batch is recorded in
cold before it is committed, and no step of a writer or a pass loses the newest
row of a key, as long as a merge does not overwrite what another pass has merged
and still counts on. A single compactor never does that; two of them can.
-/
namespace TimescaleLp.Custody

open Schedule Vault ColdStore

variable {F ι κ : Type}

structure Inv (s : Sys F ι κ) : Prop where
  ledger : Ledger s
  staged : ∀ w b, s.writers w = .staged b → s.world.cold.files b.key = some b.records
  vault : Vault.Inv ∅ s.world.cold s.recorded s.passes
  hot : ∀ table k stored, (s.world.hot table).get? k = some stored →
    ∃ r ∈ rowsOf s.recorded table, r.key = k ∧ r.seq = stored.seq

/-- Cold answers like the recorded batches, and no hot row is newer than cold. -/
structure ColdComplete (s : Sys F ι κ) : Prop where
  newest : ∀ table k r, Newest (held s.world.cold table) k r ↔
    Newest (rowsOf s.recorded table) k r
  hot : ∀ table, ∀ r ∈ Table.rows (s.world.hot table),
    ∃ r' ∈ held s.world.cold table, r'.key = r.key ∧ r.seq ≤ r'.seq

/-- The newest recorded row of every key is readable from cold. -/
def Kept (s : Sys F ι κ) : Prop :=
  ∀ table k r, Newest (rowsOf s.recorded table) k r → r ∈ held s.world.cold table

/-- What a pass is about to merge has the rows, or newer ones, of every job that
another pass has merged into the same object and not finished removing. -/
def MergesSafely (s : Sys F ι κ) : Event F ι κ → Prop
  | .advance p => Safe s.recorded s.passes p
  | _ => True

theorem start_inv (n : ℕ) : Inv (start n : Sys F ι κ) where
  ledger := by
    refine ⟨⟨?_, ?_⟩, ?_, ?_, ?_, ?_, ?_, ?_⟩ <;> simp [start, Writer.pending]
  staged := by simp [start]
  vault := Vault.empty_inv fun p => trivial
  hot := by simp [start]

/-- What cold holds was recorded. -/
theorem held_subset {s : Sys F ι κ} (hs : Inv s) (table : Str) :
    held s.world.cold table ⊆ rowsOf s.recorded table :=
  (heldIn_mono _ _ fun _ _ _ => Set.notMem_empty _).trans (hs.vault.kept_subset table)

theorem Inv.covers {s : Sys F ι κ} (hs : Inv s) {table : Str} :
    Covers (held s.world.cold table) (rowsOf s.recorded table) :=
  (hs.vault.covers table).mono (heldIn_mono _ _ fun _ _ _ => trivial) (Set.Subset.refl _)

theorem Inv.coldComplete {s : Sys F ι κ} (hs : Inv s) : ColdComplete s where
  newest table k r := Versions.newest_iff_of_covers (held_subset hs table) hs.covers
    (distinct_rowsOf hs.ledger.log table) k r
  hot table r hr := by
    obtain ⟨r', hr', hkey, hseq⟩ := hs.hot table r.key _ ((Table.mem_rows_iff _ r).mp hr)
    obtain ⟨s, hs', hskey, hle⟩ := hs.covers r' hr'
    exact ⟨s, hs', hskey.trans hkey, hseq.ge.trans hle⟩

theorem Inv.kept {s : Sys F ι κ} (hs : Inv s) : Kept s :=
  fun table k r hr => ((hs.coldComplete.newest table k r).mpr hr).1

section Change

variable [DecidableEq ι] {s t : Sys F ι κ} {e : Event F ι κ}

/-- Staged files stay while the write calls that staged them are under way. -/
theorem staged_update {writers : ι → Writer F} {c : Cold (Value F)} {w : ι} {x : Writer F}
    (hx : ∀ b, x = .staged b → c.files b.key = some b.records)
    (h : ∀ w' ≠ w, ∀ b, writers w' = .staged b → c.files b.key = some b.records) :
    ∀ w' b, Function.update writers w x w' = .staged b → c.files b.key = some b.records :=
  (Function.forall_update_iff writers fun _ x => ∀ b, x = .staged b →
    c.files b.key = some b.records).mpr ⟨hx, h⟩

variable [DecidableEq κ] [Numerics F]

theorem change_inv (hs : Inv s) (hsafe : MergesSafely s e) (h : Change true s e t) : Inv t := by
  cases h with
  | built hidle hn hdrawn =>
    refine ⟨hs.ledger.build hn hdrawn, ?_, hs.vault, hs.hot⟩
    exact staged_update (by simp) fun w' _ => hs.staged w'
  | refused hn =>
    exact ⟨hs.ledger.frame rfl rfl hn (fun _ _ hb => hb) hs.ledger.logged, hs.staged, hs.vault,
      hs.hot⟩
  | staged hb hon =>
    rename_i w b
    have hpend : (s.writers w).pending = some b := by rw [hb]; rfl
    obtain ⟨hlog, hnew⟩ := hs.ledger.log_append hpend
    refine ⟨?_, ?_, hs.vault.stage hlog hnew, hs.hot⟩
    · refine hs.ledger.move (.staged b) rfl rfl rfl rfl ?_ (by simp)
      rw [hpend]
      exact fun _ hb' => hb'
    · refine staged_update ?_ ?_
      · rintro b' ⟨⟩
        rw [cold_stage, files_stage, if_pos rfl]
      · intro w' hw b' hb'
        have hpend' : (s.writers w').pending = some b' := by rw [hb']; rfl
        have hne : b'.key ≠ b.key := by
          intro hk
          have heq := eq_of_key hs.ledger.drawn (hs.ledger.pending w' b' hpend').1
            (hs.ledger.pending w b hpend).1 hk
          exact hw (hs.ledger.owner w' w b (heq ▸ hpend') hpend)
        rw [cold_stage, files_stage, if_neg hne]
        exact hs.staged w' b' hb'
  | recorded hb =>
    rename_i w b
    have hpend : (s.writers w).pending = some b := by rw [hb]; rfl
    obtain ⟨hlog, hnew⟩ := hs.ledger.log_append hpend
    refine ⟨hs.ledger.record hb, ?_, hs.vault.record hlog hnew outside_empty (hs.staged w b hb), ?_⟩
    · exact staged_update (by simp) fun w' _ => hs.staged w'
    · intro table k stored hstored
      obtain ⟨r, hr, hkey, hseq⟩ := hs.hot table k stored hstored
      refine ⟨r, ?_, hkey, hseq⟩
      show r ∈ rowsOf (s.recorded ++ [b]) table
      rw [rowsOf_append]
      exact Or.inl hr
  | committed hb ht =>
    rename_i w b table'
    have hw : s.writers w = .recorded b := by
      generalize s.writers w = x at hb
      cases x <;> simp_all [ready]
    have hrec := hs.ledger.logged w b hw
    refine ⟨?_, staged_update (by simp) fun w' _ => hs.staged w', hs.vault, ?_⟩
    · exact hs.ledger.move .idle rfl rfl rfl rfl (by simp [Writer.pending]) (by simp)
    · intro table k stored hstored
      have hkeys := hs.ledger.keys b (hs.ledger.recorded b hrec)
      rcases get?_hot_commit hkeys ht table k with ⟨r, hr, htable, hkey, hget⟩ | ⟨-, hget⟩
      · cases hget.symm.trans hstored
        exact ⟨r, ⟨b, hrec, htable, hr⟩, hkey, rfl⟩
      · exact hs.hot table k stored (hget ▸ hstored)
  | abandoned =>
    refine ⟨?_, staged_update (by simp) fun w' _ => hs.staged w', hs.vault, hs.hot⟩
    exact hs.ledger.move .idle rfl rfl rfl rfl (by simp [Writer.pending]) (by simp)
  | promoted =>
    rename_i table' col fromType toType
    refine ⟨hs.ledger.frame rfl rfl le_rfl (fun _ _ hb => hb) hs.ledger.logged, hs.staged,
      hs.vault, ?_⟩
    intro table k stored hstored
    have hmap := seq_hot_promote s table' col fromType toType table k
    rw [hstored, Option.map_some, eq_comm, Option.map_eq_some_iff] at hmap
    obtain ⟨old, hold, hseq⟩ := hmap
    exact hseq ▸ hs.hot table k old hold
  | began hp =>
    refine ⟨hs.ledger.frame rfl rfl le_rfl (fun _ _ hb => hb) hs.ledger.logged, hs.staged, ?_,
      hs.hot⟩
    refine hs.vault.move hs.ledger.log _ _ trivial ?_
    intro job hjob
    rename_i p measurement
    generalize s.passes p = pass at hp hjob
    cases pass <;> simp [Pass.resting, mergedJob] at hp hjob
  | advanced hp =>
    refine ⟨hs.ledger.frame rfl rfl le_rfl (fun _ _ hb => hb) hs.ledger.logged, ?_,
      hs.vault.step hs.ledger.log hsafe hp, hs.hot⟩
    intro w b hb
    replace hb : s.writers w = .staged b := hb
    have hpend : (s.writers w).pending = some b := by rw [hb]; rfl
    obtain ⟨hlog, hnew⟩ := hs.ledger.log_append hpend
    exact (hs.vault.files_step hlog hnew hp).trans (hs.staged w b hb)

end Change

section Run

variable [DecidableEq ι] [DecidableEq κ] [Numerics F] (digest : Str → ℕ) (n : ℕ)

theorem step_inv [Subsingleton κ] {s t : Sys F ι κ} {e : Event F ι κ} (hs : Inv s)
    (h : step digest true s e = some t) : Inv t := by
  refine change_inv hs ?_ (change_of_step _ _ h)
  cases e with
  | advance p => exact safe_of_subsingleton _ _ p
  | build w schema points => trivial
  | stage w => trivial
  | record w => trivial
  | commit w => trivial
  | abandon w => trivial
  | promote table col fromType toType => trivial
  | begin p measurement => trivial

theorem always_inv (es : List (Event F ι Unit)) :
    Runs.Always (step digest true) Inv (start n) es :=
  Runs.always_of_invariant (fun _ _ _ hs h => step_inv digest hs h) (fun _ hs => hs) (start_inv n)

/-- Through every interleaving of writers with one compactor, cold answers every
read like the batches recorded so far and is never behind the hot table. -/
theorem always_coldComplete (es : List (Event F ι Unit)) :
    Runs.Always (step digest true) ColdComplete (start n) es :=
  Runs.always_of_invariant (fun _ _ _ hs h => step_inv digest hs h) (fun _ hs => hs.coldComplete)
    (start_inv n)

/-- With several passes at once, nothing is lost in a run whose merges respect
what the other passes have merged. -/
theorem always_kept (es : List (Event F ι κ))
    (h : Runs.Along (step digest true) MergesSafely (start n) es) :
    Runs.Always (step digest true) Kept (start n) es :=
  Runs.always_of_along (fun _ _ _ hs hG hstep => change_inv hs hG (change_of_step _ _ hstep))
    (fun _ hs => hs.kept) (start_inv n) h

end Run

/-- A merge of all the objects another pass merged into the same key is safe. -/
theorem safe_of_subset {log : List (Batch F)} {passes : κ → Pass} {p : κ}
    (h : ∀ job, nextJob (passes p) = some job → ∀ q other, mergedJob (passes q) = some other →
      Passes.jobKey other = Passes.jobKey job → ∀ o ∈ other.objs, o ∈ job.objs) :
    Safe log passes p := by
  intro job hjob q other hq hk
  apply Versions.covers_of_subset
  rintro r ⟨b, hb, ho, hr⟩
  exact ⟨b, hb, h job hjob q other hq hk _ ho, hr⟩

/-- The same as a test, for two passes. -/
def subsetTest (s : Sys F ι Bool) : Event F ι Bool → Bool
  | .advance p =>
    match nextJob (s.passes p), mergedJob (s.passes !p) with
    | some job, some other =>
      Passes.jobKey other ≠ Passes.jobKey job || other.objs.all (· ∈ job.objs)
    | _, _ => true
  | _ => true

theorem mergesSafely_of_subsetTest (s : Sys F ι Bool) (e : Event F ι Bool)
    (h : subsetTest s e = true) : MergesSafely s e := by
  cases e with
  | advance p =>
    refine safe_of_subset fun job hjob q other hq hk o ho => ?_
    have hqp : q = !p := by
      by_contra hne
      have heq : q = p := by cases q <;> cases p <;> simp_all
      subst heq
      cases hpass : s.passes q <;> rw [hpass] at hq hjob <;> simp [mergedJob, nextJob] at hq hjob
    subst hqp
    simp only [subsetTest, hjob, hq, Bool.or_eq_true, decide_eq_true_eq, List.all_eq_true] at h
    exact (h.resolve_left (not_not_intro hk)) o ho
  | build w schema points => trivial
  | stage w => trivial
  | record w => trivial
  | commit w => trivial
  | abandon w => trivial
  | promote table col fromType toType => trivial
  | begin p measurement => trivial

/-- A write call from its first step to the manifest. -/
def ingest {κ : Type} (w : Bool) (time : Time) : List (Event ℤ Bool κ) :=
  [.build w cpuSchema [cpuPoint time 1], .stage w, .record w]

/-- Both passes list the same object, merge it one after the other and remove it. -/
def sameGroup : List (Event ℤ Bool Bool) :=
  ingest false 0 ++ [.begin false none, .advance false, .begin true none, .advance true,
    .advance false, .advance true] ++ List.replicate 6 (.advance false) ++
    List.replicate 6 (.advance true)

theorem sameGroup_kept :
    (Runs.exec (step (fun _ => 0) true) (start 1) sameGroup).isSome = true ∧
      Runs.Always (step (fun _ => 0) true) Kept (start 1) sameGroup :=
  ⟨by decide +kernel, always_kept (fun _ => 0) 1 sameGroup
    ((Runs.along_of_check (by decide +kernel)).mono mergesSafely_of_subsetTest)⟩

/-- The test for a key that was recorded and that no listed object holds. -/
def lost (s : Sys F ι κ) (table : Str) (k : Key) : Bool :=
  s.recorded.any (fun b => decide (b.table = table) && b.records.any fun r => decide (r.key = k)) &&
    (heldRows s.world.cold table).all fun r => decide (r.key ≠ k)

theorem not_kept_of_lost {s : Sys F ι κ} {table : Str} {k : Key} (h : lost s table k = true) :
    ¬Kept s := by
  intro hkept
  simp only [lost, Bool.and_eq_true, List.any_eq_true, List.all_eq_true, decide_eq_true_eq] at h
  obtain ⟨⟨b, hb, htable, r, hr, rfl⟩, hnone⟩ := h
  obtain ⟨newest, hnewest⟩ := exists_newest s.recorded table r ⟨b, hb, htable, hr⟩
  have hheld := hkept table r.key newest hnewest
  exact hnone newest ((mem_heldRows_iff _ _ _).mpr hheld) hnewest.2.1

/-- The first pass lists one object, the second pass two; the second merges
before the first and removes after it. -/
def crossedMerges : List (Event ℤ Bool Bool) :=
  ingest false 0 ++ [.begin false none, .advance false] ++ ingest true 1 ++
    [.begin true none, .advance true, .advance true, .advance false] ++
    List.replicate 8 (.advance true) ++ List.replicate 6 (.advance false)

/-- Both passes end without an error and a row that was recorded is gone. -/
theorem crossedMerges_lost : ∃ (es : List (Event ℤ Bool Bool)) (s : Sys ℤ Bool Bool),
    Runs.exec (step (fun _ => 0) true) (start 1) es = some s ∧
      (∀ p, s.passes p = .ended true) ∧ ¬Kept s := by
  have hrun : (Runs.exec (step (fun _ => 0) true) (start 1) crossedMerges).any
      (fun s => (s.passes false).succeeded && (s.passes true).succeeded &&
        lost s "cpu".toList ⟨1, 0⟩) = true := by decide +kernel
  obtain ⟨s, hs, htests⟩ := (Option.any_eq_true _ _).mp hrun
  simp only [Bool.and_eq_true] at htests
  obtain ⟨⟨hfirst, hsecond⟩, hlost⟩ := htests
  refine ⟨crossedMerges, s, hs, ?_, not_kept_of_lost hlost⟩
  intro p
  cases p with
  | false => exact Pass.ended_of_succeeded hfirst
  | true => exact Pass.ended_of_succeeded hsecond

end TimescaleLp.Custody
