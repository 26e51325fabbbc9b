import TimescaleLp.Vault

/-!
The passes keep the invariant of the cold tier. A merge reads exactly the rows
its objects were recorded with. It may overwrite an older output of the same
name; the rows lost with that are covered as long as no pass still counts on
them, and from then on the output stands in for the inputs being removed.
-/
namespace TimescaleLp.Vault

open Schedule ColdStore Tiering Passes

variable {F κ : Type} {log : List (Batch F)} {foreign : Set Str}

section Merge

variable {c : Cold (Value F)} {passes : κ → Pass}

/-- The manifest answers a listing with objects that writers recorded. -/
theorem Inv.groupsOk (h : Inv foreign c log passes) (m : Str) :
    GroupsOk log m (planCompaction (objects c m (some .staging))).entries := by
  rintro ⟨day, objs⟩ hg
  obtain ⟨hobjs, hne⟩ := Dict.mem_groupBy_entries _ _ _ _ hg
  have hmem : ∀ o ∈ objs, o ∈ objects c m (some .staging) ∧ dayOf o.rangeStart = day := by
    intro o ho
    rw [hobjs] at ho
    simpa using List.mem_filter.mp ho
  obtain ⟨o, ho⟩ := List.exists_mem_of_ne_nil objs hne
  refine ⟨hne, (hmem o ho).2 ▸ slash_notMem_dayOf _, ?_⟩
  intro o ho
  obtain ⟨hget, hm, hkind⟩ := (mem_objects_iff c m _ o).mp (hmem o ho).1
  have hstaging : o.kind = .staging := by simpa [eq_comm] using hkind
  cases h.entries _ _ hget with
  | staging b hb hk he =>
    refine ⟨b, hb, ?_, ?_⟩
    · rw [← hm, he]
      rfl
    · obtain ⟨row, key⟩ := o
      simp only at hk he
      subst hk he
      rfl
  | cold day a hday hkind hk =>
    rw [hkind] at hstaging
    contradiction

theorem Inv.jobKey_notMem (h : Inv foreign c log passes) {job : Job} (hjob : JobOk log job) :
    jobKey job ∉ foreign := by
  obtain ⟨b, hb, -, -, hmin⟩ := hjob.first
  rw [jobKey_eq, ← hmin]
  exact (h.outside b hb).output _ _

/-- What the engine reads for a job are the rows of its batches. -/
theorem Inv.mem_read_iff (h : Inv foreign c log passes) {job : Job} (hjob : JobOk log job)
    {rows : List (Row (Value F))}
    (hread : Engine.readParquet c (job.objs.map (·.objectKey)) = some rows) (r : Row (Value F)) :
    r ∈ rows ↔ r ∈ jobRows log job := by
  constructor
  · intro hr
    obtain ⟨k, hk, rs, hrs, hmem⟩ := Engine.mem_readParquet c _ rows hread r hr
    obtain ⟨o, ho, rfl⟩ := List.mem_map.mp hk
    obtain ⟨b, hb, -, rfl⟩ := hjob.objs o ho
    exact ⟨b, hb, ho, h.stagingFiles b hb rs hrs ▸ hmem⟩
  · rintro ⟨b, hb, ho, hr⟩
    obtain ⟨rs, hrs, hsub⟩ := Engine.readParquet_exists c _ rows hread b.key
      (List.mem_map.mpr ⟨_, ho, rfl⟩)
    exact hsub r (h.stagingFiles b hb rs hrs ▸ hr)

/-- What a merge is about to overwrite is covered by what it writes. -/
theorem Inv.covers_output (h : Inv foreign c log passes) {job : Job} (hjob : JobOk log job)
    {rows : List (Row (Value F))}
    (hread : Engine.readParquet c (job.objs.map (·.objectKey)) = some rows)
    (hsafe : ∀ q other, mergedJob (passes q) = some other → jobKey other = jobKey job →
      Covers (jobRows log job) (jobRows log other)) :
    Covers (jobRows log job) (fileRows c (jobKey job)) := by
  obtain ⟨b, hb, ho, hm, hmin⟩ := hjob.first
  have hkey : jobKey job = coldKey b.table job.day b.minSeq := by rw [jobKey_eq, hm, hmin]
  obtain ⟨rs, hrs, -⟩ := Engine.readParquet_exists c _ rows hread b.key
    (List.mem_map.mpr ⟨_, ho, rfl⟩)
  rintro r ⟨old, hold, hr⟩
  obtain ⟨q, other, hq, hk, hsub⟩ := h.attended b hb job.day hjob.day (by simp [hrs])
    (by rw [← hkey]; simp [hold])
  rw [← hkey] at hk
  exact hsafe q other hq hk r (hsub (hk ▸ ⟨old, hold, hr⟩))

variable [DecidableEq κ]

theorem Inv.merge (h : Inv foreign c log passes) {p : κ} {job : Job} {rows : List (Row (Value F))}
    {n : ℕ} {groups : List (Str × List ObjectMeta)} {todo : List Str}
    (hp : mergedJob (passes p) = none) (hjob : JobOk log job)
    (hgroups : GroupsOk log job.measurement groups)
    (hread : Engine.readParquet c (job.objs.map (·.objectKey)) = some rows)
    (hsafe : ∀ q other, mergedJob (passes q) = some other → jobKey other = jobKey job →
      Covers (jobRows log job) (jobRows log other)) :
    Inv foreign (writeTable c (jobKey job) (Engine.dedupRows rows)) log
      (Function.update passes p (.recording job n groups todo)) := by
  have hself := mem_fileRows_writeTable c (jobKey job) (Engine.dedupRows rows)
  have hother : ∀ k, k ≠ jobKey job →
      (writeTable c (jobKey job) (Engine.dedupRows rows)).files k = c.files k :=
    fun k hk => files_writeTable_of_ne c _ hk
  have hkey : ∀ b : Batch F,
      (writeTable c (jobKey job) (Engine.dedupRows rows)).files b.key = c.files b.key :=
    fun b => hother _ (key_ne_coldKey b _ _ _)
  have hsub : fileRows (writeTable c (jobKey job) (Engine.dedupRows rows)) (jobKey job) ⊆
      jobRows log job := fun r hr =>
    (h.mem_read_iff hjob hread r).mp (Engine.dedupRows_subset rows r ((hself r).mp hr))
  have hnew : Covers (fileRows (writeTable c (jobKey job) (Engine.dedupRows rows)) (jobKey job))
      (jobRows log job) :=
    (Engine.dedupRows_covers rows).mono (fun r hr => (hself r).mpr hr)
      (fun r hr => (h.mem_read_iff hjob hread r).mpr hr)
  have hold := hnew.trans (h.covers_output hjob hread hsafe)
  refine ⟨h.outside, h.entries, ?_, ?_, ?_, ?_, ?_⟩
  · intro b hb rs hrs
    exact h.stagingFiles b hb rs (hkey b ▸ hrs)
  · intro m day a rs hday hout hrs
    by_cases hk : coldKey m day a = jobKey job
    · obtain ⟨rfl, -, rfl⟩ := coldKey_inj hday hjob.day (hk.trans (jobKey_eq job))
      have hin : ∀ r ∈ rs, r ∈ jobRows log job := fun r hr => hsub ⟨rs, hk ▸ hrs, hr⟩
      obtain ⟨b, hb, -, -, hmin⟩ := hjob.first
      refine ⟨?_, b, hb, hmin⟩
      intro r hr
      obtain ⟨b', hb', ho, hr⟩ := hin r hr
      obtain ⟨b'', hb'', hm, hmeta⟩ := hjob.objs _ ho
      exact ⟨b', hb', (congrArg (·.measurement) hmeta).trans hm, hr⟩
    · exact h.coldFiles m day a rs hday hout (hother _ hk ▸ hrs)
  · intro m
    refine Versions.Covers.trans ?_ (h.covers m)
    rintro r ⟨k, e, rs, hk, hm, hP, hrs, hr⟩
    by_cases hkk : k = jobKey job
    · subst hkk
      obtain ⟨s, ⟨rs', hrs', hs⟩, hkey', hver⟩ := hold r ⟨rs, hrs, hr⟩
      exact ⟨s, ⟨_, e, rs', hk, hm, hP, hrs', hs⟩, hkey', hver⟩
    · exact ⟨r, ⟨k, e, rs, hk, hm, hP, (hother k hkk).trans hrs, hr⟩, rfl, le_rfl⟩
  · intro q
    by_cases hq : q = p
    · subst hq
      rw [Function.update_self]
      exact ⟨⟨hjob, hnew⟩, hgroups⟩
    · rw [Function.update_of_ne hq]
      refine (h.working q).frame (fun _ hj => hj) ?_ (fun _ hl => hl) ?_
      · intro other hmerged hm
        refine ⟨hm.ok, ?_⟩
        by_cases hk : jobKey other = jobKey job
        · rw [hk]
          exact hnew.trans (hsafe q other hmerged hk)
        · rw [fileRows_congr (hother _ hk)]
          exact hm.covers
      · intro other hj o ho hnone
        obtain ⟨b, -, -, rfl⟩ := hj.objs o ho
        exact (hkey b).trans hnone
  · intro b hb day hday hfile hout
    by_cases hk : jobKey job = coldKey b.table day b.minSeq
    · exact ⟨p, job, by rw [Function.update_self]; rfl, hk, hsub⟩
    · rw [hkey] at hfile
      rw [hother _ (Ne.symm hk)] at hout
      obtain ⟨q, other, hq, hkq, hrows⟩ := h.attended b hb day hday hfile hout
      have hne : q ≠ p := by
        rintro rfl
        rw [hp] at hq
        contradiction
      refine ⟨q, other, by rw [Function.update_of_ne hne]; exact hq, hkq, ?_⟩
      rw [fileRows_congr (hother _ (fun heq => hk (heq.symm.trans hkq)))]
      exact hrows

end Merge

section Pass

variable [DecidableEq κ] {c : Cold (Value F)} {passes : κ → Pass}

/-- A move of a pass that merges the same job as before, or none when it was
merging none, changes nothing about who attends to what. -/
theorem Inv.move (h : Inv foreign c log passes) (hlog : LogOk log) (p : κ) (pass : Pass) (hok : PassOk c log pass)
    (hjob : ∀ job, mergedJob (passes p) = some job → mergedJob pass = some job ∨
      ∀ o ∈ job.objs, c.files o.objectKey = none) :
    Inv foreign c log (Function.update passes p pass) := by
  refine ⟨h.outside, h.entries, h.stagingFiles, h.coldFiles, h.covers, ?_, ?_⟩
  · intro q
    by_cases hq : q = p
    · subst hq
      rw [Function.update_self]
      exact hok
    · rw [Function.update_of_ne hq]
      exact h.working q
  · intro b hb day hday hfile hout
    obtain ⟨q, job, hq, hk, hrows⟩ := h.attended b hb day hday hfile hout
    by_cases hqp : q = p
    · subst hqp
      rcases hjob job hq with hsame | hgone
      · exact ⟨q, job, by rw [Function.update_self]; exact hsame, hk, hrows⟩
      · -- the smallest input of the job is the batch asked about
        have hok : JobOk log job := ((h.working q).merged hq).ok
        obtain ⟨b', hb', ho, -, hmin⟩ := hok.first
        have heq : b.minSeq = b'.minSeq := by
          rw [hmin]
          exact (coldKey_inj hday hok.day (hk.symm.trans (jobKey_eq job))).2.2
        rw [eq_of_minSeq hlog hb hb' heq] at hfile
        exact absurd (hgone _ ho) hfile
    · exact ⟨q, job, by rw [Function.update_of_ne hqp]; exact hq, hk, hrows⟩

omit [DecidableEq κ] in
theorem Inv.recordJob (h : Inv foreign c log passes) {job : Job} (hjob : JobOk log job) (n : ℕ) :
    Inv foreign (ColdStore.record c (jobMeta job n)) log passes ∧
      (ColdStore.record c (jobMeta job n)).manifest.get? (jobKey job) =
        some (jobMeta job n).toManifestRow := by
  have hold : ∀ old, c.manifest.get? (jobKey job) = some old →
      old.measurement = job.measurement ∧ old.kind = .cold := by
    intro old hold
    cases h.entries _ _ hold with
    | staging b hb hk he => exact absurd hk.symm (key_ne_coldKey b _ _ _)
    | cold day a hday hkind hk => exact ⟨(coldKey_inj hjob.day hday hk).1.symm, hkind⟩
  have hself : (ColdStore.record c (jobMeta job n)).manifest.get? (jobKey job) =
      some (jobMeta job n).toManifestRow := get?_record_new c (jobMeta job n) hold
  have hother : ∀ k, k ≠ jobKey job →
      (ColdStore.record c (jobMeta job n)).manifest.get? k = c.manifest.get? k :=
    fun k hk => get?_record_of_ne c (jobMeta job n) hk
  refine ⟨⟨h.outside, ?_, h.stagingFiles, h.coldFiles, ?_, ?_, h.attended⟩, hself⟩
  · intro k e hk
    by_cases hkk : k = jobKey job
    · subst hkk
      cases hself.symm.trans hk
      exact .cold job.day (minSeqOf job.objs) hjob.day rfl (jobKey_eq job)
    · exact h.entries k e (hother k hkk ▸ hk)
  · intro m
    refine (h.covers m).mono ?_ (Set.Subset.refl _)
    rintro r ⟨k, e, rows, hk, hm, hP, hrows, hr⟩
    by_cases hkk : k = jobKey job
    · subst hkk
      exact ⟨_, _, rows, hself, (hold e hk).1.symm.trans hm, hP, hrows, hr⟩
    · exact ⟨k, e, rows, (hother k hkk).trans hk, hm, hP, hrows, hr⟩
  · intro q
    refine (h.working q).frame (fun _ hj => hj) (fun _ _ hm => ⟨hm.ok, hm.covers⟩) ?_
      (fun _ _ _ _ hnone => hnone)
    rintro other ⟨e, he, hm⟩
    by_cases hk : jobKey other = jobKey job
    · rw [hk] at he ⊢
      exact ⟨_, hself, (hold e he).1.symm.trans hm⟩
    · exact ⟨e, (hother _ hk).trans he, hm⟩

omit [DecidableEq κ] in
/-- A merged and listed output makes up for the file of an input. -/
theorem Inv.delete (h : Inv foreign c log passes) (hlog : LogOk log) {job : Job}
    (hmerged : Merged c log job)
    (hlisted : ∃ e, c.manifest.get? (jobKey job) = some e ∧ e.measurement = job.measurement)
    {o : ObjectMeta} (ho : o ∈ job.objs) : Inv foreign (ColdStore.delete c o.objectKey) log passes := by
  obtain ⟨b, hb, hm, rfl⟩ := hmerged.ok.objs o ho
  have hother : ∀ k, k ≠ b.key → (ColdStore.delete c b.key).files k = c.files k := by
    intro k hk
    rw [files_delete, if_neg hk]
  have hcold : ∀ m day a, (ColdStore.delete c b.key).files (coldKey m day a) =
      c.files (coldKey m day a) := fun m day a => hother _ (key_ne_coldKey b m day a).symm
  have hfewer : ∀ k rows, (ColdStore.delete c b.key).files k = some rows →
      c.files k = some rows := by
    intro k rows hrows
    rw [files_delete] at hrows
    split at hrows
    · contradiction
    · exact hrows
  have hrows : ∀ other, fileRows (ColdStore.delete c b.key) (jobKey other) =
      fileRows c (jobKey other) := fun other => fileRows_congr (hcold _ _ _)
  refine ⟨h.outside, h.entries, ?_, ?_, ?_, ?_, ?_⟩
  · exact fun b' hb' rows hfile => h.stagingFiles b' hb' rows (hfewer _ _ hfile)
  · exact fun m day a rows hday hout hfile =>
      h.coldFiles m day a rows hday hout (hfewer _ _ hfile)
  · intro m
    refine Versions.Covers.trans ?_ (h.covers m)
    rintro r ⟨k, e, rows, hk, hem, hP, hfile, hr⟩
    by_cases hkb : k = b.key
    · subst hkb
      have hrow : r ∈ jobRows log job := ⟨b, hb, ho, h.stagingFiles b hb rows hfile ▸ hr⟩
      obtain ⟨s, ⟨out, hout, hs⟩, hkey, hver⟩ := hmerged.covers r hrow
      obtain ⟨e', he', hm'⟩ := hlisted
      have htable : e.measurement = b.table := by
        cases h.entries _ _ hk with
        | staging b' hb' hk' he => rw [he, eq_of_key hlog hb hb' hk']; rfl
        | cold day a _ _ hk' => exact absurd hk' (key_ne_coldKey b _ day a)
      have hkept : jobKey job ∉ foreign := h.jobKey_notMem hmerged.ok
      refine ⟨s, ⟨_, e', out, he', ?_, hkept, (hcold _ _ _).trans hout, hs⟩, hkey, hver⟩
      rw [hm', ← hm, ← htable, hem]
    · exact ⟨r, ⟨k, e, rows, hk, hem, hP, (hother k hkb).trans hfile, hr⟩, rfl, le_rfl⟩
  · intro q
    refine (h.working q).frame (fun _ hj => hj) ?_ (fun _ hl => hl) ?_
    · rintro other - hmerged'
      exact ⟨hmerged'.ok, hrows other ▸ hmerged'.covers⟩
    · intro other hj o' ho' hnone
      show (ColdStore.delete c b.key).files o'.objectKey = none
      rw [files_delete, hnone, ite_self]
  · intro b' hb' day hday hfile hout
    have hfile' : c.files b'.key ≠ none := by
      obtain ⟨rows, hfile⟩ := Option.ne_none_iff_exists'.mp hfile
      rw [hfewer _ _ hfile]
      simp
    obtain ⟨q, other, hq, hk, hsub⟩ := h.attended b' hb' day hday hfile' (hcold _ _ _ ▸ hout)
    exact ⟨q, other, hq, hk, (hrows other).symm ▸ hsub⟩

omit [DecidableEq κ] in
/-- The entry of a file that is gone lists nothing. -/
theorem Inv.forget (h : Inv foreign c log passes) {b : Batch F} (hnone : c.files b.key = none) :
    Inv foreign (ColdStore.forget c b.key) log passes := by
  have hfewer : ∀ k e, (ColdStore.forget c b.key).manifest.get? k = some e →
      c.manifest.get? k = some e := by
    intro k e hk
    rw [get?_forget] at hk
    split at hk
    · contradiction
    · exact hk
  refine ⟨h.outside, fun k e hk => h.entries k e (hfewer k e hk), h.stagingFiles, h.coldFiles,
    ?_, ?_, h.attended⟩
  · intro m
    refine (h.covers m).mono ?_ (Set.Subset.refl _)
    rintro r ⟨k, e, rows, hk, hm, hP, hfile, hr⟩
    have hne : k ≠ b.key := by
      rintro rfl
      rw [hnone] at hfile
      contradiction
    exact ⟨k, e, rows, by rw [get?_forget, if_neg hne]; exact hk, hm, hP, hfile, hr⟩
  · intro q
    refine (h.working q).frame (fun _ hj => hj) (fun _ _ hm => ⟨hm.ok, hm.covers⟩) ?_
      (fun _ _ _ _ hn => hn)
    rintro other ⟨e, he, hm⟩
    have hne : jobKey other ≠ b.key := (key_ne_coldKey b _ _ _).symm
    exact ⟨e, by rw [get?_forget, if_neg hne]; exact he, hm⟩

/-- The job a pass merges next. -/
def nextJob : Pass → Option Job
  | .merging m ((day, objs) :: _) _ => some ⟨m, day, objs⟩
  | _ => none

/-- What a pass merges now has the rows, or newer ones, of every job with the
same output whose inputs another pass may still remove. -/
def Safe (log : List (Batch F)) (passes : κ → Pass) (p : κ) : Prop :=
  ∀ job, nextJob (passes p) = some job → ∀ q other, mergedJob (passes q) = some other →
    jobKey other = jobKey job → Covers (jobRows log job) (jobRows log other)

theorem Inv.step (h : Inv foreign c log passes) (hlog : LogOk log) {p : κ} (hsafe : Safe log passes p)
    {pass : Pass} {c' : Cold (Value F)} (hstep : Passes.step c (passes p) = some (pass, c')) :
    Inv foreign c' log (Function.update passes p pass) := by
  have hok := h.working p
  have hjob := h.move hlog p
  unfold Safe at hsafe
  generalize hpass : passes p = current at hstep hok hjob hsafe
  cases current with
  | idle => contradiction
  | listing todo =>
    cases todo with
    | nil =>
      cases hstep
      exact hjob _ trivial (by simp [mergedJob])
    | cons m todo =>
      cases hstep
      exact hjob _ (h.groupsOk m) (by simp [mergedJob])
  | merging m groups todo =>
    cases groups with
    | nil =>
      cases hstep
      exact hjob _ trivial (by simp [mergedJob])
    | cons g groups =>
      obtain ⟨day, objs⟩ := g
      have hgroups : GroupsOk log m groups := fun g hg => hok g (List.mem_cons_of_mem _ hg)
      simp only [Passes.step] at hstep
      split at hstep
      · cases hstep
        exact hjob _ trivial (by simp [mergedJob])
      · rename_i c₁ n hmerge
        cases hstep
        obtain ⟨rows, hread, rfl, -⟩ := Engine.compact_some hmerge
        exact h.merge (by rw [hpass]; rfl) (hok (day, objs) List.mem_cons_self) hgroups hread
          (hsafe _ rfl)
  | recording job rows groups todo =>
    cases hstep
    obtain ⟨hmerged, hgroups⟩ := hok
    obtain ⟨h', hlisted⟩ := h.recordJob hmerged.ok rows
    refine h'.move hlog p _ ⟨⟨hmerged.ok, hmerged.covers⟩, ?_, hgroups⟩ ?_
    · exact ⟨⟨_, hlisted, rfl⟩, fun o ho => ho, fun o ho => Or.inl ho⟩
    · exact fun job' hj => Or.inl (by rw [hpass] at hj; exact hj)
  | removing job rest groups todo =>
    obtain ⟨hmerged, hdrop, hgroups⟩ := hok
    cases rest with
    | nil =>
      cases hstep
      refine hjob _ hgroups ?_
      rintro job' hj
      cases hj
      exact Or.inr fun o ho => (hdrop.gone o ho).resolve_left List.not_mem_nil
    | cons o rest =>
      cases hstep
      have h' := h.delete hlog hmerged hdrop.listed (hdrop.due o List.mem_cons_self)
      have hok' := h'.working p
      rw [hpass] at hok'
      obtain ⟨hmerged', hdrop', hgroups'⟩ := hok'
      have hnone : (ColdStore.delete c o.objectKey).files o.objectKey = none := by
        rw [files_delete, if_pos rfl]
      refine h'.move hlog p _ ⟨hmerged', ⟨hdrop'.listed, ?_, ?_⟩, ⟨?_, hnone⟩, hgroups'⟩ ?_
      · exact fun o' ho' => hdrop'.due o' (List.mem_cons_of_mem o ho')
      · intro o' ho'
        rcases hdrop'.gone o' ho' with hmem | hgone
        · rcases List.mem_cons.mp hmem with rfl | hmem
          · exact Or.inr hnone
          · exact Or.inl hmem
        · exact Or.inr hgone
      · exact hdrop'.due o List.mem_cons_self
      · exact fun job' hj => Or.inl (by rw [hpass] at hj; exact hj)
  | forgetting job o rest groups todo =>
    cases hstep
    obtain ⟨hmerged, -, ⟨ho, hnone⟩, -⟩ := hok
    obtain ⟨b, -, -, rfl⟩ := hmerged.ok.objs o ho
    have h' := h.forget hnone
    have hok' := h'.working p
    rw [hpass] at hok'
    obtain ⟨hmerged', hdrop', -, hgroups'⟩ := hok'
    refine h'.move hlog p _ ⟨hmerged', hdrop', hgroups'⟩ ?_
    exact fun job' hj => Or.inl (by rw [hpass] at hj; exact hj)
  | ended ok => contradiction

omit [DecidableEq κ] in
/-- With one compactor no other pass holds a merged object. -/
theorem safe_of_subsingleton [Subsingleton κ] (log : List (Batch F)) (passes : κ → Pass) (p : κ) :
    Safe log passes p := by
  intro job hjob q other hq
  rw [Subsingleton.elim q p] at hq
  cases hpass : passes p <;> rw [hpass] at hq hjob <;> simp [mergedJob, nextJob] at hq hjob

omit [DecidableEq κ] in
/-- No pass touches a foreign object. -/
theorem Inv.foreign_step (h : Inv foreign c log passes) {p : κ} {k : Str} (hk : k ∈ foreign)
    {pass : Pass} {c' : Cold (Value F)} (hstep : Passes.step c (passes p) = some (pass, c')) :
    c'.files k = c.files k ∧ c'.manifest.get? k = c.manifest.get? k := by
  have hok := h.working p
  have hout : ∀ job, JobOk log job → k ≠ jobKey job := by
    rintro job hjob rfl
    exact h.jobKey_notMem hjob hk
  have hobj : ∀ job, JobOk log job → ∀ o ∈ job.objs, k ≠ o.objectKey := by
    rintro job hjob o ho rfl
    obtain ⟨b, hb, -, rfl⟩ := hjob.objs o ho
    exact (h.outside b hb).key hk
  generalize passes p = current at hstep hok
  cases current with
  | idle => contradiction
  | listing todo => cases todo <;> cases hstep <;> exact ⟨rfl, rfl⟩
  | merging m groups todo =>
    cases groups with
    | nil =>
      cases hstep
      exact ⟨rfl, rfl⟩
    | cons g groups =>
      obtain ⟨day, objs⟩ := g
      have hne : k ≠ outKey m day objs := hout _ (hok (day, objs) List.mem_cons_self)
      simp only [Passes.step] at hstep
      split at hstep
      · cases hstep
        exact ⟨rfl, rfl⟩
      · rename_i c₁ n hmerge
        cases hstep
        obtain ⟨rows, -, rfl, -⟩ := Engine.compact_some hmerge
        exact ⟨files_writeTable_of_ne c _ hne, rfl⟩
  | recording job rows groups todo =>
    cases hstep
    exact ⟨rfl, get?_record_of_ne c (jobMeta job rows) (hout job hok.1.ok)⟩
  | removing job rest groups todo =>
    cases rest with
    | nil =>
      cases hstep
      exact ⟨rfl, rfl⟩
    | cons o rest =>
      cases hstep
      obtain ⟨hmerged, hdrop, -⟩ := hok
      have hne := hobj job hmerged.ok o (hdrop.due o List.mem_cons_self)
      exact ⟨by rw [files_delete, if_neg hne], rfl⟩
  | forgetting job o rest groups todo =>
    cases hstep
    obtain ⟨hmerged, -, ⟨ho, -⟩, -⟩ := hok
    exact ⟨rfl, by rw [get?_forget, if_neg (hobj job hmerged.ok o ho)]⟩
  | ended ok => contradiction

omit [DecidableEq κ] in
/-- No pass touches the file of a batch that is not recorded. -/
theorem Inv.files_step (h : Inv foreign c log passes) {p : κ} {b : Batch F}
    (hlog : LogOk (log ++ [b])) (hb : b ∉ log) {pass : Pass} {c' : Cold (Value F)}
    (hstep : Passes.step c (passes p) = some (pass, c')) :
    c'.files b.key = c.files b.key := by
  have hok := h.working p
  generalize passes p = current at hstep hok
  cases current with
  | idle => contradiction
  | listing todo => cases todo <;> cases hstep <;> rfl
  | merging m groups todo =>
    cases groups with
    | nil =>
      cases hstep
      rfl
    | cons g groups =>
      obtain ⟨day, objs⟩ := g
      simp only [Passes.step] at hstep
      split at hstep
      · cases hstep
        rfl
      · rename_i c₁ n hmerge
        cases hstep
        obtain ⟨rows, -, rfl, -⟩ := Engine.compact_some hmerge
        have hne : b.key ≠ outKey m day objs := key_ne_coldKey b _ _ _
        exact files_writeTable_of_ne c _ hne
  | recording job rows groups todo =>
    cases hstep
    rfl
  | removing job rest groups todo =>
    cases rest with
    | nil =>
      cases hstep
      rfl
    | cons o rest =>
      cases hstep
      obtain ⟨hmerged, hdrop, -⟩ := hok
      obtain ⟨b', hb', -, rfl⟩ := hmerged.ok.objs o (hdrop.due o List.mem_cons_self)
      have hne : b.key ≠ b'.key := (key_ne_of_notMem hlog hb hb').symm
      show (ColdStore.delete c b'.key).files b.key = c.files b.key
      rw [files_delete, if_neg hne]
  | forgetting job o rest groups todo =>
    cases hstep
    rfl
  | ended ok => contradiction

end Pass

section Alone

variable {c c' : Cold (Value F)} {pass pass' : Pass}

theorem Inv.stepAlone (h : Inv foreign c log fun _ : Unit => pass) (hlog : LogOk log)
    (hstep : Passes.step c pass = some (pass', c')) : Inv foreign c' log fun _ : Unit => pass' := by
  have hnext := h.step hlog (safe_of_subsingleton log _ ()) hstep
  rwa [show Function.update (fun _ : Unit => pass) () pass' = fun _ => pass' from
    funext fun _ => Function.update_self _ _ _] at hnext

theorem Inv.moveAlone (h : Inv foreign c log fun _ : Unit => pass) (hlog : LogOk log)
    (hnone : mergedJob pass = none) (hok : PassOk c log pass') :
    Inv foreign c log fun _ : Unit => pass' := by
  have hnext := h.move hlog () pass' hok (by simp [hnone])
  rwa [show Function.update (fun _ : Unit => pass) () pass' = fun _ => pass' from
    funext fun _ => Function.update_self _ _ _] at hnext

theorem Inv.begin (h : Inv foreign c log fun _ : Unit => .idle) (hlog : LogOk log)
    (measurement : Option Str) : Inv foreign c log fun _ : Unit => Passes.begin c measurement :=
  h.moveAlone hlog rfl trivial

/-- A pass that runs alone keeps the invariant and leaves foreign objects alone. -/
theorem Inv.steps (hsteps : Steps pass c pass' c') (hlog : LogOk log)
    (h : Inv foreign c log fun _ : Unit => pass) :
    Inv foreign c' log (fun _ : Unit => pass') ∧ ∀ k ∈ foreign,
      c'.files k = c.files k ∧ c'.manifest.get? k = c.manifest.get? k := by
  induction hsteps with
  | refl => exact ⟨h, fun _ _ => ⟨rfl, rfl⟩⟩
  | head hstep _ ih =>
    obtain ⟨h', hforeign⟩ := ih (h.stepAlone hlog hstep)
    refine ⟨h', fun k hk => ?_⟩
    obtain ⟨hfiles, hentry⟩ := h.foreign_step (p := ()) hk hstep
    exact ⟨(hforeign k hk).1.trans hfiles, (hforeign k hk).2.trans hentry⟩

theorem Inv.compactOnce (h : Inv foreign c log fun _ : Unit => .idle) (hlog : LogOk log)
    (measurement : Option Str) :
    Inv foreign (Tiering.compactOnce measurement c).1 log (fun _ : Unit => .idle) ∧
      ∀ k ∈ foreign, (Tiering.compactOnce measurement c).1.files k = c.files k ∧
        (Tiering.compactOnce measurement c).1.manifest.get? k = c.manifest.get? k := by
  obtain ⟨hend, hforeign⟩ := Inv.steps (steps_compactOnce measurement c) hlog
    (h.begin hlog measurement)
  exact ⟨hend.moveAlone hlog rfl trivial, hforeign⟩

end Alone

end TimescaleLp.Vault
