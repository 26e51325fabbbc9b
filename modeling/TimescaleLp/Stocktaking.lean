import TimescaleLp.UpkeepReads

/-!
What `status` reports while maintenance goes on. An object is stored before it is
listed and listed as what it is; only a pass that removes what it has merged leaves
an entry without a file, for the time of one call. So at any other moment the
numbers reported are those of a scan of the objects.
-/
namespace TimescaleLp.Stocktaking

open Vault ColdStore Tiering Upkeep Summaries
open Sequence (exportKeys)
open Schedule (Change change_of_step cold_stage)

variable {F ι μ : Type}

/-- The object whose file a pass has deleted and whose entry it drops next. -/
def forgotten : Pass → Option Str
  | .forgetting _ o _ _ _ => some o.objectKey
  | _ => none

/-- A listed object has a file, unless it is being forgotten or an export. -/
def Backed (c : Cold (Value F)) (pass : Pass) : Prop :=
  ∀ k ∉ exportKeys, forgotten pass ≠ some k → ∀ e, c.manifest.get? k = some e →
    ∃ rows, c.files k = some rows

/-- What is reported of a group is what a scan of its objects gives, unless one of
them is being forgotten or an export. -/
def Truthful (s : Upkeep F ι μ) : Prop :=
  ∀ st ∈ status s.sys.world.cold,
    (∀ o ∈ objects s.sys.world.cold st.measurement (some st.kind),
      o.objectKey ∉ exportKeys ∧ forgotten (s.sys.passes ()) ≠ some o.objectKey) →
    ∃ rows, Scanned s.sys.world.cold st rows

section Cold

variable {c c' : Cold (Value F)} {recorded : List (Batch F)} {pass pass' : Pass}

theorem Backed.of_none (h : Backed c pass) (hnone : forgotten pass = none) :
    Backed c pass' := by
  intro k hk _ e he
  exact h k hk (by simp [hnone]) e he

theorem Backed.writeTable (h : Backed c pass) (hnone : forgotten pass = none) (out : Str)
    (rows : List (Row (Value F))) : Backed (ColdStore.writeTable c out rows) pass' := by
  intro k hk _ e he
  rw [files_writeTable]
  split
  · exact ⟨rows, rfl⟩
  · exact h k hk (by simp [hnone]) e he

theorem Backed.record (h : Backed c pass) {new : ObjectMeta} {rows : List (Row (Value F))}
    (hfile : c.files new.objectKey = some rows) : Backed (ColdStore.record c new) pass := by
  intro k hk hne e he
  by_cases hkey : k = new.objectKey
  · subst hkey
    exact ⟨rows, hfile⟩
  · rw [get?_record_of_ne c new hkey] at he
    exact h k hk hne e he

theorem Backed.step (h : Backed c pass) (hlog : LogOk recorded) (hok : PassOk c recorded pass)
    (hstep : Passes.step c pass = some (pass', c')) : Backed c' pass' := by
  cases pass with
  | idle => contradiction
  | listing todo => cases todo <;> cases hstep <;> exact h.of_none rfl
  | merging m groups todo =>
    cases groups with
    | nil =>
      cases hstep
      exact h.of_none rfl
    | cons g groups =>
      obtain ⟨day, objs⟩ := g
      simp only [Passes.step] at hstep
      split at hstep
      · cases hstep
        exact h.of_none rfl
      · rename_i c₁ n hmerge
        cases hstep
        obtain ⟨rows, -, rfl, -⟩ := Engine.compact_some hmerge
        exact h.writeTable rfl _ _
  | recording job n groups todo =>
    cases hstep
    obtain ⟨rows, hrows⟩ := Dangling.exists_output hlog hok.1
    exact (h.record hrows).of_none rfl
  | removing job rest groups todo =>
    cases rest with
    | nil =>
      cases hstep
      exact h.of_none rfl
    | cons o rest =>
      cases hstep
      intro k hk hne e he
      have hother : k ≠ o.objectKey := fun heq => hne (congrArg some heq.symm)
      rw [files_delete, if_neg hother]
      exact h k hk (by simp [forgotten]) e he
  | forgetting job o rest groups todo =>
    cases hstep
    intro k hk _ e he
    rw [get?_forget] at he
    split at he
    · contradiction
    · rename_i hother
      exact h k hk (fun heq => hother (Option.some.inj heq).symm) e he
  | ended ok => contradiction

end Cold

variable [DecidableEq ι] [DecidableEq μ] [Numerics F] {digest : Str → ℕ}

section Sys

variable {s t : Sys F ι Unit} {e : TimescaleLp.Event F ι Unit}

omit [DecidableEq μ] in
theorem backed_change (hbacked : Backed s.world.cold (s.passes ())) (hledger : Ledger s)
    (hvault : Vault.Inv exportKeys s.world.cold s.recorded s.passes)
    (hstaged : ∀ w b, s.writers w = .staged b → s.world.cold.files b.key = some b.records)
    (h : Change true s e t) : Backed t.world.cold (t.passes ()) := by
  cases h with
  | @staged w b hb hon =>
    intro k hk hne e he
    rw [cold_stage, files_stage]
    split
    · exact ⟨_, rfl⟩
    · exact hbacked k hk hne e he
  | recorded hb => exact hbacked.record (hstaged _ _ hb)
  | @began p measurement hp =>
    have hnone : forgotten (s.passes p) = none := by
      generalize s.passes p = pass at hp
      cases pass <;> simp_all [Pass.resting, forgotten]
    exact hbacked.of_none hnone
  | @advanced p pass c hp =>
    have hnext := hbacked.step hledger.log (hvault.working _) hp
    rwa [← Function.update_self p pass s.passes] at hnext
  | built hidle hn hdrawn => exact hbacked
  | refused hn => exact hbacked
  | committed hb ht => exact hbacked
  | abandoned => exact hbacked
  | promoted => exact hbacked

end Sys

section Run

variable {s t : Upkeep F ι μ}

structure Inv (s : Upkeep F ι μ) : Prop where
  upkeep : Upkeep.Inv s
  backed : Backed s.sys.world.cold (s.sys.passes ())

omit [DecidableEq ι] [DecidableEq μ] [Numerics F] in
theorem start_inv {n : ℕ} (hn : 1 ≤ n) : Inv (start n : Upkeep F ι μ) where
  upkeep := Upkeep.start_inv hn
  backed k _ _ e he := by simp [start, Schedule.start, ColdStore.empty] at he

theorem step_inv {e : Upkeep.Event F ι μ} (hs : Inv s) (hstep : step digest s e = some t) :
    Inv t where
  upkeep := Upkeep.step_inv digest hs.upkeep hstep
  backed := by
    cases e with
    | sys e =>
      obtain ⟨sys, hsys, rfl⟩ := Option.map_eq_some_iff.mp hstep
      exact backed_change hs.backed hs.upkeep.ledger hs.upkeep.vault hs.upkeep.staged
        (change_of_step digest true hsys)
    | begin q tables =>
      simp only [step] at hstep
      split at hstep
      · cases hstep
        exact hs.backed
      · contradiction
    | fail q =>
      simp only [step] at hstep
      split at hstep
      · contradiction
      · cases hstep
        exact hs.backed
    | advance q eligible =>
      obtain ⟨⟨sweep, w⟩, hsweep, rfl⟩ := Option.map_eq_some_iff.mp hstep
      intro k hk hne e he
      obtain ⟨hfiles, hmanifest⟩ := same_sweep hsweep k hk
      obtain ⟨rows, hrows⟩ := hs.backed k hk hne e (hmanifest ▸ he)
      exact ⟨rows, hfiles.trans hrows⟩

omit [DecidableEq ι] [DecidableEq μ] [Numerics F] in
/-- An object that is listed is listed as what it is. -/
theorem exact_of_listed (hs : Upkeep.Inv s) {k : Str} {e : ManifestRow} (hk : k ∉ exportKeys)
    (he : s.sys.world.cold.manifest.get? k = some e) {rows : List (Row (Value F))}
    (hrows : s.sys.world.cold.files k = some rows) : Exact e rows := by
  cases hs.vault.entries k e he with
  | staging b hb hbk hmeta =>
    subst hbk hmeta
    rw [hs.vault.stagingFiles b hb rows hrows]
    exact ⟨rfl, bounded_stagingMeta (hs.ledger.log.nonempty b hb),
      hs.ledger.keys b (hs.ledger.recorded b hb)⟩
  | cold day a hday hkind hck =>
    subst hck
    obtain ⟨rs, hrs, hexact⟩ := hs.described.listed _ day a e hday hk he
    cases hrs.symm.trans hrows
    exact hexact

omit [DecidableEq ι] [DecidableEq μ] [Numerics F] in
theorem truthful_of_inv (hs : Inv s) : Truthful s := by
  intro st hst hgroup
  refine exists_scanned hst fun o ho => ?_
  obtain ⟨hk, hne⟩ := hgroup o ho
  have he := ((mem_objects_iff _ _ _ o).mp ho).1
  obtain ⟨rows, hrows⟩ := hs.backed _ hk hne _ he
  exact ⟨rows, hrows, exact_of_listed hs.upkeep hk he hrows⟩

/-- Through every interleaving of write calls, one compactor and eviction sweeps, the
numbers that are reported are true. -/
theorem always_truthful {n : ℕ} (hn : 1 ≤ n) (es : List (Upkeep.Event F ι μ)) :
    Runs.Always (step digest) Truthful (start n) es :=
  Runs.always_of_invariant (fun _ _ _ hs h => step_inv hs h) (fun _ hs => truthful_of_inv hs)
    (start_inv hn)

/-- Two rows of a day, merged while the second of them is written. -/
def stocked : List (Upkeep.Event ℤ Bool Unit) :=
  ingested false 0 ++ ingested true 1 ++ merged ++ [.sys (.advance ()), .sys (.advance ())]

theorem stocked_truthful : (Runs.exec (step fun _ => 0) (start 1) stocked).map
      (fun s => status s.sys.world.cold) = some [⟨"cpu".toList, .cold, 1, 2, 0, 1⟩] ∧
    Runs.Always (step fun _ => 0) Truthful (start 1) stocked :=
  ⟨by decide +kernel, always_truthful le_rfl stocked⟩

end Run

end TimescaleLp.Stocktaking
