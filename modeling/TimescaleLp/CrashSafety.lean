import TimescaleLp.Custody
import TimescaleLp.Rerun

/-!
What a stopped pass can cost. The state the process leaves behind meets the
assumptions on recorded objects. A row is lost when its input starts earlier
than the one that names the output: that input is removed first, and the next
pass writes an output of the same name without the row.
-/
namespace TimescaleLp.CrashSafety

open ColdStore Restart

/-- Whatever state the process is in, its cold store is well formed. -/
theorem wf_of_inv {F ι κ : Type} {s : Sys F ι κ} (hs : Custody.Inv s) : Wf s.world.cold := by
  have hsource : ∀ k e, s.world.cold.manifest.get? k = some e → e.kind = .staging →
      ∃ b ∈ s.recorded, k = b.key ∧ e = b.stagingMeta.toManifestRow := by
    intro k e hk hkind
    cases hs.vault.entries k e hk with
    | staging b hb hkey he => exact ⟨b, hb, hkey, he⟩
    | cold day a hday hcold hkey =>
      rw [hkind] at hcold
      contradiction
  refine ⟨?_, ?_, ?_, ?_⟩
  · intro k e hk hkind
    obtain ⟨b, -, rfl, rfl⟩ := hsource k e hk hkind
    rfl
  · intro k e hk hkind
    cases hs.vault.entries k e hk with
    | staging b hb hkey he =>
      rw [he] at hkind
      contradiction
    | cold day a hday hcold hkey => exact ⟨day, a, hday, hkey⟩
  · intro k e k' e' hk hk' hkind hkind' _ hseq
    obtain ⟨b, hb, rfl, rfl⟩ := hsource k e hk hkind
    obtain ⟨b', hb', rfl, rfl⟩ := hsource k' e' hk' hkind'
    exact congrArg Batch.key (Vault.eq_of_minSeq hs.ledger.log hb hb' hseq)
  · intro m
    refine (Vault.distinct_rowsOf hs.ledger.log m).mono ?_
    exact (heldIn_mono _ m fun _ _ _ => trivial).trans (Custody.held_subset hs m)

universe u

variable {V : Type u} {c₀ : Cold V}

/-- Objects recorded in the order in which they start are secured, as long as
none of them is compacted yet. -/
theorem secured_of_ordered (hkind : ∀ k e, c₀.manifest.get? k = some e → e.kind = .staging)
    (hordered : ∀ k e k' e', c₀.manifest.get? k = some e → c₀.manifest.get? k' = some e' →
      e.minSeq ≤ e'.minSeq → e.rangeStart ≤ e'.rangeStart) {m : Str} {r : Row V}
    (hr : Winner c₀ m r) : Secured (Stuck c₀) c₀ m r := by
  obtain ⟨k, ⟨key, e, rows, hk, hm, -, hfile, hmem⟩, -⟩ := hr
  have ho : Listed c₀ m (dayOf e.rangeStart) ⟨e, key⟩ := ⟨hk, hm, hkind key e hk, rfl⟩
  refine .staged _ ⟨e, key⟩ ho ⟨rows, hfile, hmem⟩ (Or.inr fun f hf => ?_)
  exact hordered _ _ _ _ hf.listed.entry hk (hf.least _ ho)

/-- Passes that are stopped and rerun at will lose no row that a read returned
before the first of them, if each such row was secured then. -/
theorem always_readable (hwf : Wf c₀) (hsafe : ∀ m r, Winner c₀ m r → Secured (Stuck c₀) c₀ m r)
    (es : List Restart.Event) : Runs.Always Restart.step
      (fun s => ∀ m k r, Newest (held c₀ m) k r → r ∈ held s.1 m) (c₀, .idle) es :=
  Runs.always_of_invariant step_inv (fun _ h m k r hr => (h.secured m r ⟨k, hr⟩).held)
    ⟨hwf, fun _ _ hs => hs, fun _ => Set.Subset.refl _, hsafe, trivial⟩

/-- What two write calls leave in cold, one after the other. -/
def twoObjects (time time' : Time) : Cold (Value ℤ) :=
  match Runs.exec (Schedule.step (fun _ => 0) true) (Schedule.start 1)
      ((Custody.ingest false time ++ Custody.ingest true time' : List (Event ℤ Bool Unit))) with
  | some s => s.world.cold
  | none => ColdStore.empty

theorem wf_twoObjects (time time' : Time) : Wf (twoObjects time time') := by
  rw [twoObjects]
  split
  · rename_i s hs
    have hrun := Custody.always_inv (fun _ => 0) 1 (Custody.ingest false time ++
      Custody.ingest true time' : List (Event ℤ Bool Unit))
    exact wf_of_inv (hrun.last hs)
  · refine ⟨?_, ?_, ?_, ?_⟩ <;> simp [ColdStore.empty, Distinct, Versions.Distinct, heldIn]

/-- The second pass finds both objects again. -/
def stoppedBeforeRecord : List Restart.Event :=
  [.begin none, .advance, .advance, .stop, .begin none, .advance, .advance, .advance]

theorem twoObjects_readable :
    Runs.Always Restart.step
      (fun s => ∀ m k r, Newest (held (twoObjects 0 3600000000) m) k r → r ∈ held s.1 m)
      (twoObjects 0 3600000000, .idle) stoppedBeforeRecord := by
  have hentries : ∀ e ∈ (twoObjects 0 3600000000).manifest.entries,
      e.2.kind = .staging ∧ ∀ e' ∈ (twoObjects 0 3600000000).manifest.entries,
        e.2.minSeq ≤ e'.2.minSeq → e.2.rangeStart ≤ e'.2.rangeStart := by decide +kernel
  refine always_readable (wf_twoObjects _ _) (fun m r hr => secured_of_ordered ?_ ?_ hr) _
  · exact fun k e hk => (hentries (k, e) ((Dict.get?_eq_some_iff _ _ _).mp hk)).1
  · exact fun k e k' e' hk hk' => (hentries (k, e) ((Dict.get?_eq_some_iff _ _ _).mp hk)).2
      (k', e') ((Dict.get?_eq_some_iff _ _ _).mp hk')

/-- The first pass stops after it has removed one input. -/
def stoppedInRemoval : List Restart.Event :=
  [.begin none, .advance, .advance, .advance, .advance, .advance, .stop, .begin none, .advance,
    .advance]

/-- The object recorded second starts first, is removed first, and its row is
gone when the other object is merged alone. -/
theorem stoppedInRemoval_lost : ∃ c₀ : Cold (Value ℤ), Wf c₀ ∧ ∃ es s,
    Runs.exec Restart.step (c₀, .idle) es = some s ∧
      ∃ m k r, Newest (held c₀ m) k r ∧ r ∉ held s.1 m := by
  have hrun : (Runs.exec Restart.step (twoObjects 3600000000 0, .idle) stoppedInRemoval).any
      (fun s => (heldRows (twoObjects 3600000000 0) "cpu".toList).any (fun r => r.key = ⟨0, 0⟩) &&
        (heldRows s.1 "cpu".toList).all fun r => r.key ≠ ⟨0, 0⟩) = true := by decide +kernel
  obtain ⟨s, hs, htest⟩ := (Option.any_eq_true _ _).mp hrun
  simp only [Bool.and_eq_true, List.any_eq_true, List.all_eq_true, decide_eq_true_eq] at htest
  obtain ⟨⟨r, hr, hkey⟩, hnone⟩ := htest
  obtain ⟨newest, hnewest⟩ := exists_newest_held _ _ r ((mem_heldRows_iff _ _ _).mp hr)
  refine ⟨_, wf_twoObjects _ _, stoppedInRemoval, s, hs, "cpu".toList, r.key, newest, hnewest, ?_⟩
  exact fun hheld => hnone newest ((mem_heldRows_iff _ _ _).mpr hheld) (hnewest.2.1.trans hkey)

end TimescaleLp.CrashSafety
