import TimescaleLp.UpkeepReads

/-!
What a pass leaves behind. Write calls go on and sweeps work while the compactor
does, but nobody else removes a staging object. So no merge fails for a missing input,
and a pass over a measurement that has come to its end has merged and removed each
object that was recorded before it began, for good.
-/
namespace TimescaleLp.Clearance

open Vault ColdStore Tiering Upkeep
open Passes (jobKey jobMeta)
open Schedule (change_of_step cold_stage)
open Sequence (exportKeys)

variable {F ι μ : Type}

/-- The measurements that a pass has still to list. -/
def unlisted : Pass → List Str
  | .listing todo => todo
  | .merging _ _ todo => todo
  | .recording _ _ _ todo => todo
  | .removing _ _ _ todo => todo
  | .forgetting _ _ _ _ todo => todo
  | _ => []

/-- The pass will come to the object, or has merged it and not removed it yet. -/
def Ahead (pass : Pass) (o : ObjectMeta) : Prop :=
  o.measurement ∈ unlisted pass ∨ o ∈ Dangling.due pass

/-- Neither stored nor listed. -/
structure Gone (c : Cold (Value F)) (b : Batch F) : Prop where
  file : c.files b.key = none
  entry : c.manifest.get? b.key = none

/-- Staging objects are listed exactly while they are stored, but for the one that a pass
is about to forget; what a pass has still to merge is listed. -/
structure Tidy (c : Cold (Value F)) (log : List (Batch F)) (pass : Pass) : Prop where
  gone : ∀ b ∈ log, c.manifest.get? b.key = none → c.files b.key = none
  stored : ∀ b ∈ log, c.manifest.get? b.key ≠ none → c.files b.key = none →
    ∃ job rest groups todo, pass = .forgetting job b.stagingMeta rest groups todo
  due : Dangling.Due c pass
  unfailed : pass ≠ .ended false

section Pass

variable {c c' : Cold (Value F)} {log : List (Batch F)} {pass pass' : Pass} {b : Batch F}

theorem key_ne_jobKey (b : Batch F) (job : Job) : b.key ≠ jobKey job :=
  jobKey_eq job ▸ key_ne_coldKey b _ _ _

theorem Gone.pass_step (h : Gone c b) (hstep : Passes.step c pass = some (pass', c')) :
    Gone c' b := by
  cases pass with
  | idle => contradiction
  | listing todo => cases todo <;> cases hstep <;> exact h
  | merging m groups todo =>
    cases groups with
    | nil =>
      cases hstep
      exact h
    | cons g groups =>
      obtain ⟨day, objs⟩ := g
      simp only [Passes.step] at hstep
      split at hstep
      · cases hstep
        exact h
      · rename_i hmerge
        cases hstep
        obtain ⟨rows, -, rfl, -⟩ := Engine.compact_some hmerge
        exact ⟨(files_writeTable_of_ne _ _ (key_ne_coldKey b _ _ _)).trans h.file, h.entry⟩
  | recording job rows groups todo =>
    cases hstep
    exact ⟨h.file, (get?_record_of_ne _ _ (key_ne_jobKey b job)).trans h.entry⟩
  | removing job rest groups todo =>
    cases rest with
    | nil =>
      cases hstep
      exact h
    | cons o rest =>
      cases hstep
      refine ⟨?_, h.entry⟩
      rw [files_delete, h.file, ite_self]
  | forgetting job o rest groups todo =>
    cases hstep
    refine ⟨h.file, ?_⟩
    rw [get?_forget, h.entry, ite_self]
  | ended ok => contradiction

theorem key_ne_of_new (hlog : LogOk (log ++ [b])) (hnew : b ∉ log) {b' : Batch F} (hb' : b' ∈ log) :
    b'.key ≠ b.key := by
  intro hkey
  have heq := eq_of_key hlog (List.mem_append_left _ hb') (by simp) hkey
  exact hnew (heq ▸ hb')

/-- What is listed is stored before its own removal. -/
theorem Tidy.file_ne_none (h : Tidy c log pass) (hb : b ∈ log)
    (hentry : c.manifest.get? b.key ≠ none)
    (hpass : ∀ job rest groups todo, pass ≠ .forgetting job b.stagingMeta rest groups todo) :
    c.files b.key ≠ none := by
  intro hfile
  obtain ⟨job, rest, groups, todo, heq⟩ := h.stored b hb hentry hfile
  exact hpass job rest groups todo heq

theorem mem_measurements {k : Str} {e : ManifestRow} (h : c.manifest.get? k = some e) :
    e.measurement ∈ measurements c := by
  rw [measurements, List.mem_insertionSort, List.mem_dedup]
  exact List.mem_map_of_mem ((Dict.mem_values_iff _ _).mpr ⟨k, h⟩)

/-- The inputs of the next merge are there. -/
theorem Tidy.exists_compact {m day : Str} {objs : List ObjectMeta}
    {groups : List (Str × List ObjectMeta)} {todo : List Str}
    (h : Tidy c log (.merging m ((day, objs) :: groups) todo)) (hjob : JobOk log ⟨m, day, objs⟩) :
    ∃ rows, Engine.readParquet c (objs.map (·.objectKey)) = some rows := by
  refine Engine.exists_readParquet fun k hk => ?_
  obtain ⟨o, ho, rfl⟩ := List.mem_map.mp hk
  obtain ⟨b, hb, -, rfl⟩ := hjob.objs o ho
  have hdue : b.stagingMeta ∈ Dangling.due (.merging m ((day, objs) :: groups) todo) :=
    List.mem_flatMap.mpr ⟨(day, objs), List.mem_cons_self, ho⟩
  obtain ⟨e, he⟩ := h.due.listed _ hdue
  refine Option.ne_none_iff_exists'.mp (h.file_ne_none hb ?_ (by simp))
  rw [show c.manifest.get? b.key = some e from he]
  exact Option.some_ne_none e

/-- The object of a job with the key of a recorded batch is that batch's. -/
theorem eq_stagingMeta (hlog : LogOk log) {job : Job} (hjob : JobOk log job) {o : ObjectMeta}
    (ho : o ∈ job.objs) (hb : b ∈ log) (hkey : b.key = o.objectKey) : b.stagingMeta = o := by
  obtain ⟨b', hb', -, rfl⟩ := hjob.objs o ho
  rw [eq_of_key hlog hb hb' hkey]

theorem Tidy.pass_step (hlog : LogOk log) (h : Tidy c log pass) (hok : PassOk c log pass)
    (hstep : Passes.step c pass = some (pass', c')) : Tidy c' log pass' := by
  have hdue := h.due.step hstep
  cases pass with
  | idle => contradiction
  | listing todo =>
    have hstored : ∀ b ∈ log, c.manifest.get? b.key ≠ none → c.files b.key ≠ none :=
      fun b hb hentry => h.file_ne_none hb hentry (by simp)
    cases todo <;> cases hstep
    · exact ⟨h.gone, fun b hb he hf => absurd hf (hstored b hb he), hdue, by simp⟩
    · exact ⟨h.gone, fun b hb he hf => absurd hf (hstored b hb he), hdue, by simp⟩
  | merging m groups todo =>
    have hstored : ∀ b ∈ log, c.manifest.get? b.key ≠ none → c.files b.key ≠ none :=
      fun b hb hentry => h.file_ne_none hb hentry (by simp)
    cases groups with
    | nil =>
      cases hstep
      exact ⟨h.gone, fun b hb he hf => absurd hf (hstored b hb he), hdue, by simp⟩
    | cons g groups =>
      obtain ⟨day, objs⟩ := g
      obtain ⟨rows, hread⟩ := h.exists_compact (hok (day, objs) List.mem_cons_self)
      have hmerge : Engine.compact c (objs.map (·.objectKey)) (outKey m day objs) =
          some (writeTable c (outKey m day objs) (Engine.dedupRows rows),
            (Engine.dedupRows rows).length) := by
        rw [Engine.compact, hread]
        rfl
      rw [Passes.step, hmerge] at hstep
      cases hstep
      have hsame : ∀ b : Batch F, (writeTable c (outKey m day objs) (Engine.dedupRows rows)).files
          b.key = c.files b.key := fun b => files_writeTable_of_ne _ _ (key_ne_coldKey b _ _ _)
      exact ⟨fun b hb he => (hsame b).trans (h.gone b hb he),
        fun b hb he hf => absurd ((hsame b).symm.trans hf) (hstored b hb he), hdue, by simp⟩
  | recording job rows groups todo =>
    cases hstep
    have hsame : ∀ b : Batch F, (record c (jobMeta job rows)).manifest.get? b.key =
        c.manifest.get? b.key := fun b => get?_record_of_ne _ _ (key_ne_jobKey b job)
    refine ⟨fun b hb he => h.gone b hb ((hsame b).symm.trans he), fun b hb he hf => ?_, hdue, by simp⟩
    rw [hsame b] at he
    obtain ⟨job', rest, groups', todo', heq⟩ := h.stored b hb he hf
    contradiction
  | removing job rest groups todo =>
    have hstored : ∀ b ∈ log, c.manifest.get? b.key ≠ none → c.files b.key ≠ none :=
      fun b hb hentry => h.file_ne_none hb hentry (by simp)
    cases rest with
    | nil =>
      cases hstep
      exact ⟨h.gone, fun b hb he hf => absurd hf (hstored b hb he), hdue, by simp⟩
    | cons o rest =>
      cases hstep
      refine ⟨fun b hb he => ?_, fun b hb he hf => ?_, hdue, by simp⟩
      · rw [files_delete, h.gone b hb he, ite_self]
      · by_cases hkey : b.key = o.objectKey
        · have ho := hok.2.1.due o List.mem_cons_self
          rw [eq_stagingMeta hlog hok.1.ok ho hb hkey]
          exact ⟨job, rest, groups, todo, rfl⟩
        · rw [files_delete, if_neg hkey] at hf
          exact absurd hf (hstored b hb he)
  | forgetting job o rest groups todo =>
    cases hstep
    obtain ⟨hmerged, -, ⟨ho, hnone⟩, -⟩ := hok
    refine ⟨fun b hb he => ?_, fun b hb he hf => ?_, hdue, by simp⟩
    · by_cases hkey : b.key = o.objectKey
      · exact hkey ▸ hnone
      · rw [get?_forget, if_neg hkey] at he
        exact h.gone b hb he
    · by_cases hkey : b.key = o.objectKey
      · rw [get?_forget, if_pos hkey] at he
        contradiction
      · rw [get?_forget, if_neg hkey] at he
        obtain ⟨job', rest', groups', todo', heq⟩ := h.stored b hb he hf
        cases heq
        exact absurd rfl hkey
  | ended ok => contradiction

/-- A pass that does not fail comes to each object that is ahead of it. -/
theorem Ahead.step {o : ObjectMeta} (h : Ahead pass o)
    (hentry : c.manifest.get? o.objectKey = some o.toManifestRow) (hkind : o.kind = .staging)
    (hstep : Passes.step c pass = some (pass', c')) (hok : pass' ≠ .ended false) :
    Ahead pass' o ∨ c'.manifest.get? o.objectKey = none := by
  cases pass with
  | idle => contradiction
  | listing todo =>
    cases todo with
    | nil => simp [Ahead, unlisted, Dangling.due] at h
    | cons m todo =>
      cases hstep
      rcases h with h | h
      · rcases List.mem_cons.mp h with rfl | h
        · have ho : o ∈ objects c o.measurement (some .staging) :=
            (mem_objects_iff _ _ _ _).mpr ⟨hentry, rfl, Or.inr (congrArg some hkind.symm)⟩
          obtain ⟨objs, hobjs, hmem⟩ := Dict.exists_group (fun o => dayOf o.rangeStart) _ o ho
          exact Or.inl (Or.inr (List.mem_flatMap.mpr ⟨_, hobjs, hmem⟩))
        · exact Or.inl (Or.inl h)
      · simp [Dangling.due] at h
  | merging m groups todo =>
    cases groups with
    | nil =>
      cases hstep
      rcases h with h | h
      · exact Or.inl (Or.inl h)
      · simp [Dangling.due] at h
    | cons g groups =>
      obtain ⟨day, objs⟩ := g
      simp only [Passes.step] at hstep
      split at hstep
      · cases hstep
        contradiction
      · cases hstep
        exact Or.inl h
  | recording job rows groups todo =>
    cases hstep
    exact Or.inl h
  | removing job rest groups todo => cases rest <;> cases hstep <;> exact Or.inl h
  | forgetting job o' rest groups todo =>
    cases hstep
    rcases h with h | h
    · exact Or.inl (Or.inl h)
    · rcases List.mem_cons.mp h with rfl | h
      · right
        rw [get?_forget, if_pos rfl]
      · exact Or.inl (Or.inr h)
  | ended ok => contradiction

end Pass

section Sweep

variable {w w' : World (Value F)} {eligible : List (Time × Time)} {sweep sweep' : Sweep}

/-- A sweep drops no entry. -/
theorem listed_sweep (hstep : Sweeps.step w eligible sweep = some (sweep', w')) {k : Str}
    {e : ManifestRow} (he : w.cold.manifest.get? k = some e) :
    ∃ e', w'.cold.manifest.get? k = some e' := by
  cases sweep with
  | idle => contradiction
  | asking todo => cases todo <;> cases hstep <;> exact ⟨e, he⟩
  | listing table chunks todo =>
    cases hstep
    exact ⟨e, he⟩
  | sweeping table intervals chunks todo =>
    cases chunks with
    | nil =>
      cases hstep
      exact ⟨e, he⟩
    | cons chunk chunks =>
      simp only [Sweeps.step] at hstep
      split at hstep <;> cases hstep <;> exact ⟨e, he⟩
  | recording table chunk rows intervals chunks todo =>
    cases hstep
    exact Dangling.listed_record _ _ k e he
  | dropping table chunk intervals chunks todo =>
    cases hstep
    exact ⟨e, he⟩
  | ended ok => contradiction

end Sweep

variable [DecidableEq ι] [DecidableEq μ] [Numerics F] {digest : Str → ℕ}

section Step

variable {s t : Upkeep F ι μ} {e : Upkeep.Event F ι μ}

def compacts : Upkeep.Event F ι μ → Bool
  | .sys (.begin _ _) => true
  | .sys (.advance _) => true
  | _ => false

/-- What a step of anyone else leaves to the compactor. -/
structure Besides (s t : Upkeep F ι μ) : Prop where
  pass : t.sys.passes () = s.sys.passes ()
  recorded : ∀ b ∈ s.sys.recorded, b ∈ t.sys.recorded
  same : ∀ b ∈ s.sys.recorded, t.sys.world.cold.files b.key = s.sys.world.cold.files b.key ∧
    t.sys.world.cold.manifest.get? b.key = s.sys.world.cold.manifest.get? b.key
  listed : ∀ k e, s.sys.world.cold.manifest.get? k = some e →
    ∃ e', t.sys.world.cold.manifest.get? k = some e'
  new : ∀ b ∈ t.sys.recorded, b ∈ s.sys.recorded ∨
    t.sys.world.cold.files b.key ≠ none ∧ t.sys.world.cold.manifest.get? b.key ≠ none

/-- A step as the compactor sees it. -/
inductive Effect (s t : Upkeep F ι μ) : Upkeep.Event F ι μ → Prop
  | began {measurement} (hrest : (s.sys.passes ()).resting = true)
      (hpass : t.sys.passes () = Passes.begin s.sys.world.cold measurement)
      (hcold : t.sys.world.cold = s.sys.world.cold) (hlog : t.sys.recorded = s.sys.recorded) :
      Effect s t (.sys (.begin () measurement))
  | advanced (hlog : t.sys.recorded = s.sys.recorded)
      (hstep : Passes.step s.sys.world.cold (s.sys.passes ()) =
        some (t.sys.passes (), t.sys.world.cold)) : Effect s t (.sys (.advance ()))
  | besides {e : Upkeep.Event F ι μ} (he : compacts e = false) (h : Besides s t) : Effect s t e

omit [DecidableEq ι] [DecidableEq μ] [Numerics F] in
theorem besides_of_eq (hpass : t.sys.passes = s.sys.passes) (hlog : t.sys.recorded = s.sys.recorded)
    (hcold : t.sys.world.cold = s.sys.world.cold) : Besides s t where
  pass := by rw [hpass]
  recorded b hb := hlog ▸ hb
  same b _ := by rw [hcold]; exact ⟨rfl, rfl⟩
  listed k e he := ⟨e, hcold ▸ he⟩
  new b hb := Or.inl (hlog ▸ hb)

theorem effect_of_step (hs : Upkeep.Inv s) (hstep : step digest s e = some t) : Effect s t e := by
  cases e with
  | sys e =>
    obtain ⟨sys, hsys, rfl⟩ := Option.map_eq_some_iff.mp hstep
    cases change_of_step digest true hsys with
    | built hidle hn hdrawn => exact .besides rfl (besides_of_eq rfl rfl rfl)
    | refused hn => exact .besides rfl (besides_of_eq rfl rfl rfl)
    | committed hb ht => exact .besides rfl (besides_of_eq rfl rfl rfl)
    | abandoned => exact .besides rfl (besides_of_eq rfl rfl rfl)
    | promoted => exact .besides rfl (besides_of_eq rfl rfl rfl)
    | @began p measurement hp => exact .began hp (passes_advance _ _ _ _) rfl rfl
    | @advanced p pass c hp =>
      refine .advanced rfl (hp.trans ?_)
      exact congrArg (fun p => some (p, c)) (passes_advance s.sys p pass c).symm
    | @staged w b hb hon =>
      obtain ⟨hlog, hnew, -⟩ := pending_new hs.ledger hs.positive.2 (show _ = some b by rw [hb]; rfl)
      refine .besides rfl ⟨rfl, fun _ hb' => hb', fun b' hb' => ⟨?_, rfl⟩, fun _ e he => ⟨e, he⟩,
        fun _ hb' => Or.inl hb'⟩
      rw [cold_stage, files_stage, if_neg (key_ne_of_new hlog hnew hb')]
    | @recorded w b hb =>
      obtain ⟨hlog, hnew, -⟩ := pending_new hs.ledger hs.positive.2 (show _ = some b by rw [hb]; rfl)
      refine .besides rfl ⟨rfl, fun _ hb' => List.mem_append_left _ hb', fun b' hb' => ⟨rfl, ?_⟩,
        Dangling.listed_record _ _, fun b' hb' => ?_⟩
      · exact get?_record_of_ne _ b.stagingMeta (key_ne_of_new hlog hnew hb')
      · rcases List.mem_append.mp hb' with hb' | hb'
        · exact Or.inl hb'
        · cases List.mem_singleton.mp hb'
          exact Or.inr ⟨fun h => Option.some_ne_none _ ((hs.staged w b hb).symm.trans h),
            fun h => Option.some_ne_none _ ((get?_record_self _ b.stagingMeta).symm.trans h)⟩
  | begin q tables =>
    simp only [step] at hstep
    split at hstep
    · cases hstep
      exact .besides rfl (besides_of_eq rfl rfl rfl)
    · contradiction
  | fail q =>
    simp only [step] at hstep
    split at hstep
    · contradiction
    · cases hstep
      exact .besides rfl (besides_of_eq rfl rfl rfl)
  | advance q eligible =>
    obtain ⟨⟨sweep, w⟩, hsweep, rfl⟩ := Option.map_eq_some_iff.mp hstep
    refine .besides rfl ⟨rfl, fun _ hb => hb, fun b hb => ?_, fun k e he => ?_, fun _ hb => Or.inl hb⟩
    · exact same_sweep hsweep _ (hs.vault.outside b hb).key
    · exact listed_sweep hsweep he

end Step

section Run

variable {s t u : Upkeep F ι μ} {e : Upkeep.Event F ι μ} {b : Batch F}

structure Inv (s : Upkeep F ι μ) : Prop where
  upkeep : Upkeep.Inv s
  tidy : Tidy s.sys.world.cold s.sys.recorded (s.sys.passes ())

omit [DecidableEq ι] [DecidableEq μ] [Numerics F] in
theorem start_inv {n : ℕ} (hn : 1 ≤ n) : Inv (start n : Upkeep F ι μ) where
  upkeep := Upkeep.start_inv hn
  tidy := by
    refine ⟨?_, ?_, Dangling.due_nil rfl, ?_⟩ <;> simp [start, Schedule.start]

omit [DecidableEq ι] [DecidableEq μ] [Numerics F] in
theorem Tidy.besides (h : Tidy s.sys.world.cold s.sys.recorded (s.sys.passes ()))
    (hbesides : Besides s t) : Tidy t.sys.world.cold t.sys.recorded (t.sys.passes ()) where
  gone b hb he := by
    rcases hbesides.new b hb with hb | ⟨-, hlisted⟩
    · obtain ⟨hfile, hentry⟩ := hbesides.same b hb
      exact hfile.trans (h.gone b hb (hentry.symm.trans he))
    · exact absurd he hlisted
  stored b hb he hf := by
    rcases hbesides.new b hb with hb | ⟨hstored, -⟩
    · obtain ⟨hfile, hentry⟩ := hbesides.same b hb
      rw [hbesides.pass]
      exact h.stored b hb (hentry ▸ he) (hfile.symm.trans hf)
    · exact absurd hf hstored
  due := hbesides.pass ▸ h.due.mono (List.Sublist.refl _) hbesides.listed
  unfailed := hbesides.pass ▸ h.unfailed

omit [DecidableEq ι] [DecidableEq μ] [Numerics F] in
/-- A pass that begins finds everything stored that is listed. -/
theorem Tidy.began {c : Cold (Value F)} {log : List (Batch F)} {pass : Pass} (h : Tidy c log pass)
    (hrest : pass.resting = true) (measurement : Option Str) :
    Tidy c log (Passes.begin c measurement) where
  gone := h.gone
  stored b hb he hf := by
    obtain ⟨job, rest, groups, todo, rfl⟩ := h.stored b hb he hf
    contradiction
  due := Dangling.due_nil rfl
  unfailed := by simp [Passes.begin]

theorem step_inv (hs : Inv s) (hstep : step digest s e = some t) : Inv t where
  upkeep := Upkeep.step_inv digest hs.upkeep hstep
  tidy := by
    cases effect_of_step hs.upkeep hstep with
    | began hrest hpass hcold hlog =>
      rw [hpass, hcold, hlog]
      exact hs.tidy.began hrest _
    | advanced hlog hpass =>
      rw [hlog]
      exact hs.tidy.pass_step hs.upkeep.ledger.log (hs.upkeep.vault.working ()) hpass
    | besides _ hbesides => exact hs.tidy.besides hbesides

/-- The pass that goes on removes the object of the batch, or someone has. -/
structure Clears (s : Upkeep F ι μ) (b : Batch F) : Prop where
  recorded : b ∈ s.sys.recorded
  ahead : s.sys.world.cold.manifest.get? b.key = none ∨ Ahead (s.sys.passes ()) b.stagingMeta

omit [DecidableEq ι] [DecidableEq μ] [Numerics F] in
theorem not_ahead_of_resting {pass : Pass} (h : pass.resting = true) (o : ObjectMeta) :
    ¬Ahead pass o := by
  cases pass <;> simp_all [Pass.resting, Ahead, unlisted, Dangling.due]

omit [DecidableEq ι] [DecidableEq μ] [Numerics F] in
/-- The object of a recorded batch is listed as the batch. -/
theorem entry_of_listed (hs : Upkeep.Inv s) (hb : b ∈ s.sys.recorded) {e : ManifestRow}
    (he : s.sys.world.cold.manifest.get? b.key = some e) : e = b.stagingMeta.toManifestRow := by
  cases hs.vault.entries _ _ he with
  | staging b' hb' hk hmeta => rw [hmeta, eq_of_key hs.ledger.log hb hb' hk]
  | cold day a hday hkind hk => exact absurd hk (key_ne_coldKey b _ _ _)

omit [DecidableEq ι] [DecidableEq μ] [Numerics F] in
theorem Clears.gone (h : Clears s b) (hs : Inv s) (hrest : (s.sys.passes ()).resting = true) :
    Gone s.sys.world.cold b := by
  have hentry := h.ahead.resolve_right (not_ahead_of_resting hrest _)
  exact ⟨hs.tidy.gone b h.recorded hentry, hentry⟩

theorem gone_step (hs : Upkeep.Inv s) (hb : b ∈ s.sys.recorded) (h : Gone s.sys.world.cold b)
    (hstep : step digest s e = some t) : b ∈ t.sys.recorded ∧ Gone t.sys.world.cold b := by
  cases effect_of_step hs hstep with
  | began hrest hpass hcold hlog => exact ⟨hlog ▸ hb, hcold ▸ h⟩
  | advanced hlog hpass => exact ⟨hlog ▸ hb, h.pass_step hpass⟩
  | besides _ hbesides =>
    obtain ⟨hfile, hentry⟩ := hbesides.same b hb
    exact ⟨hbesides.recorded b hb, hfile.trans h.file, hentry.trans h.entry⟩

theorem Clears.step (h : Clears s b) (hs : Inv s) (hstep : step digest s e = some t) :
    Clears t b := by
  have ht := step_inv hs hstep
  cases hentry : s.sys.world.cold.manifest.get? b.key with
  | none =>
    obtain ⟨hb, hgone⟩ := gone_step hs.upkeep h.recorded
      ⟨hs.tidy.gone b h.recorded hentry, hentry⟩ hstep
    exact ⟨hb, Or.inl hgone.entry⟩
  | some e =>
    have hahead := h.ahead.resolve_left (by simp [hentry])
    rw [entry_of_listed hs.upkeep h.recorded hentry] at hentry
    cases effect_of_step hs.upkeep hstep with
    | began hrest hpass hcold hlog => exact absurd hahead (not_ahead_of_resting hrest _)
    | advanced hlog hpass =>
      exact ⟨hlog ▸ h.recorded, (hahead.step hentry rfl hpass ht.tidy.unfailed).symm⟩
    | besides _ hbesides =>
      exact ⟨hbesides.recorded b h.recorded, Or.inr (hbesides.pass ▸ hahead)⟩

/-- The call of `compact_once` is for the measurement of the batch, or for all. -/
def Wanted (measurement : Option Str) (b : Batch F) : Prop :=
  ∀ m, measurement = some m → m = [] ∨ m = b.table

omit [DecidableEq ι] [DecidableEq μ] [Numerics F] in
/-- A pass that begins will list the measurements that have objects. -/
theorem clears_begin (hs : Upkeep.Inv s) (hb : b ∈ s.sys.recorded) {measurement : Option Str}
    (hwanted : Wanted measurement b)
    (hpass : t.sys.passes () = Passes.begin s.sys.world.cold measurement)
    (hcold : t.sys.world.cold = s.sys.world.cold) (hlog : t.sys.recorded = s.sys.recorded) :
    Clears t b := by
  refine ⟨hlog ▸ hb, ?_⟩
  rw [hpass, hcold]
  cases hentry : s.sys.world.cold.manifest.get? b.key with
  | none => exact Or.inl rfl
  | some e =>
    have hlisted : b.table ∈ measurements s.sys.world.cold := by
      have hmem := mem_measurements hentry
      rwa [entry_of_listed hs hb hentry] at hmem
    refine Or.inr (Or.inl ?_)
    rcases measurement with _ | _ | ⟨ch, m⟩
    · exact hlisted
    · exact hlisted
    · obtain heq | heq := hwanted _ rfl
      · contradiction
      · exact List.mem_singleton.mpr heq.symm

theorem inv_exec {es : List (Upkeep.Event F ι μ)} (hs : Inv s)
    (h : Runs.exec (step digest) s es = some t) : Inv t :=
  Runs.exec_invariant (fun _ _ _ hs h => step_inv hs h) hs h

theorem clears_exec {es : List (Upkeep.Event F ι μ)} (hs : Inv s) (h : Clears s b)
    (hexec : Runs.exec (step digest) s es = some t) : Clears t b :=
  (Runs.exec_invariant (I := fun s => Inv s ∧ Clears s b)
    (fun _ _ _ hs h => ⟨step_inv hs.1 h, hs.2.step hs.1 h⟩) ⟨hs, h⟩ hexec).2

theorem gone_exec {es : List (Upkeep.Event F ι μ)} (hs : Upkeep.Inv s) (hb : b ∈ s.sys.recorded)
    (h : Gone s.sys.world.cold b) (hexec : Runs.exec (step digest) s es = some t) :
    Gone t.sys.world.cold b :=
  (Runs.exec_invariant (I := fun s => Upkeep.Inv s ∧ b ∈ s.sys.recorded ∧ Gone s.sys.world.cold b)
    (fun _ _ _ hs h => ⟨Upkeep.step_inv digest hs.1 h, gone_step hs.1 hs.2.1 hs.2.2 h⟩)
    ⟨hs, hb, h⟩ hexec).2.2

end Run

/-- Where no other call of it fails, a pass that has come to its end has not missed an
input, and each object that it was to merge and that was recorded before it began is gone
for good. -/
theorem cleared {n : ℕ} (hn : 1 ≤ n) {es es' es'' : List (Upkeep.Event F ι μ)}
    {s s' t u : Upkeep F ι μ} {measurement : Option Str} {ok : Bool}
    (hs : Runs.exec (step digest) (start n) es = some s)
    (hs' : step digest s (.sys (.begin () measurement)) = some s')
    (ht : Runs.exec (step digest) s' es' = some t) (hend : t.sys.passes () = .ended ok)
    (hu : Runs.exec (step digest) t es'' = some u) :
    ok = true ∧ ∀ b ∈ s.sys.recorded, Wanted measurement b → Gone u.sys.world.cold b := by
  have hinv := inv_exec (start_inv hn) hs
  have hinv' := step_inv hinv hs'
  have hinvt := inv_exec hinv' ht
  constructor
  · have hok := hinvt.tidy.unfailed
    rw [hend] at hok
    simpa using hok
  · intro b hb hwanted
    have hclears : Clears s' b := by
      cases effect_of_step hinv.upkeep hs' with
      | began hrest hpass hcold hlog => exact clears_begin hinv.upkeep hb hwanted hpass hcold hlog
      | besides he => contradiction
    have hlater := clears_exec hinv' hclears ht
    exact gone_exec hinvt.upkeep hlater.recorded (hlater.gone hinvt (by rw [hend]; rfl)) hu

/-- A second batch is recorded while a pass removes the first. -/
def swept : List (Upkeep.Event ℤ Bool Unit) :=
  List.replicate 4 (.sys (.advance ())) ++ ingested true 1 ++ List.replicate 4 (.sys (.advance ()))

theorem swept_cleared : ∃ (s s' t u : Upkeep ℤ Bool Unit) (b : Batch ℤ), b ∈ s.sys.recorded ∧
    Runs.exec (step fun _ => 0) (start 1) (ingested false 0) = some s ∧
    step (fun _ => 0) s (.sys (.begin () (some "cpu".toList))) = some s' ∧
    Runs.exec (step fun _ => 0) s' swept = some t ∧ t.sys.passes () = .ended true ∧
    Runs.exec (step fun _ => 0) t (ingested false 2) = some u ∧ Gone u.sys.world.cold b := by
  have hrun : (Runs.exec (step fun _ => 0) (start 1) (ingested false 0)).any (fun s =>
      s.sys.recorded.any (fun b => b.table = "cpu".toList) &&
      (step (fun _ => 0) s (.sys (.begin () (some "cpu".toList)))).any fun s' =>
        (Runs.exec (step fun _ => 0) s' swept).any fun t => (t.sys.passes ()).succeeded &&
          (Runs.exec (step fun _ => 0) t (ingested false 2)).isSome) = true := by decide +kernel
  obtain ⟨s, hs, hrest⟩ := (Option.any_eq_true _ _).mp hrun
  obtain ⟨hrecorded, hrest⟩ := Bool.and_eq_true_iff.mp hrest
  obtain ⟨b, hb, htable⟩ := List.any_eq_true.mp hrecorded
  obtain ⟨s', hs', hrest⟩ := (Option.any_eq_true _ _).mp hrest
  obtain ⟨t, ht, hrest⟩ := (Option.any_eq_true _ _).mp hrest
  obtain ⟨hend, hrest⟩ := Bool.and_eq_true_iff.mp hrest
  obtain ⟨u, hu⟩ := Option.isSome_iff_exists.mp hrest
  have hend := Pass.ended_of_succeeded hend
  refine ⟨s, s', t, u, b, hb, hs, hs', ht, hend, hu, ?_⟩
  refine (cleared le_rfl hs hs' ht hend hu).2 b hb fun m hm => Or.inr ?_
  cases hm
  exact (of_decide_eq_true htable).symm

end TimescaleLp.Clearance
