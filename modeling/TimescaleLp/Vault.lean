import TimescaleLp.Schedule

/-!
The cold tier under concurrent writers and passes. The batches recorded so far
are what cold has to answer for. Their sequence numbers keep object keys apart,
so that each entry and each file has one source; a file of a recorded batch that
is gone never comes back, and what a pass has merged stays at its key while the
pass removes the inputs.
-/
namespace TimescaleLp.Vault

open Schedule ColdStore Tiering Passes

variable {F κ : Type} {log : List (Batch F)} {foreign : Set Str}

/-- Batches drawn from one counter. -/
structure LogOk (log : List (Batch F)) : Prop where
  nonempty : ∀ b ∈ log, b.records ≠ []
  seqs : ∀ b ∈ log, ∀ b' ∈ log, ∀ r ∈ b.records, ∀ r' ∈ b'.records, r.seq = r'.seq →
    b = b' ∧ r = r'

theorem LogOk.mono {log' : List (Batch F)} (h : LogOk log) (hsub : ∀ b ∈ log', b ∈ log) :
    LogOk log' where
  nonempty b hb := h.nonempty b (hsub b hb)
  seqs b hb b' hb' := h.seqs b (hsub b hb) b' (hsub b' hb')

theorem eq_of_minSeq (h : LogOk log) {b b' : Batch F} (hb : b ∈ log) (hb' : b' ∈ log)
    (heq : b.minSeq = b'.minSeq) : b = b' := by
  obtain ⟨r, hr, hseq⟩ := Batches.minSeq_mem (h.nonempty b hb)
  obtain ⟨r', hr', hseq'⟩ := Batches.minSeq_mem (h.nonempty b' hb')
  exact (h.seqs b hb b' hb' r hr r' hr' (hseq.trans (heq.trans hseq'.symm))).1

theorem eq_of_key (h : LogOk log) {b b' : Batch F} (hb : b ∈ log) (hb' : b' ∈ log)
    (heq : b.key = b'.key) : b = b' :=
  eq_of_minSeq h hb hb' (stagingKey_inj heq).2.1

/-- A batch whose numbers no recorded batch has can join the log. -/
theorem LogOk.append {b : Batch F} {lo hi : ℕ} (h : LogOk log) (hdrawn : b.Drawn lo hi)
    (hapart : ∀ b' ∈ log, ∀ r' ∈ b'.records, ∀ r ∈ b.records, r'.seq ≠ r.seq) :
    LogOk (log ++ [b]) ∧ b ∉ log := by
  refine ⟨⟨?_, ?_⟩, ?_⟩
  · intro b' hb'
    rcases List.mem_append.mp hb' with hb' | hb'
    · exact h.nonempty b' hb'
    · exact List.mem_singleton.mp hb' ▸ hdrawn.nonempty
  · intro b₁ h₁ b₂ h₂ r₁ hr₁ r₂ hr₂ heq
    rcases List.mem_append.mp h₁ with h₁ | h₁ <;> rcases List.mem_append.mp h₂ with h₂ | h₂
    · exact h.seqs b₁ h₁ b₂ h₂ r₁ hr₁ r₂ hr₂ heq
    · cases List.mem_singleton.mp h₂
      exact absurd heq (hapart b₁ h₁ r₁ hr₁ r₂ hr₂)
    · cases List.mem_singleton.mp h₁
      exact absurd heq.symm (hapart b₂ h₂ r₂ hr₂ r₁ hr₁)
    · cases List.mem_singleton.mp h₁
      cases List.mem_singleton.mp h₂
      exact ⟨rfl, hdrawn.distinct r₁ hr₁ r₂ hr₂ heq⟩
  · intro hb
    obtain ⟨r, hr⟩ := List.exists_mem_of_ne_nil _ hdrawn.nonempty
    exact hapart b hb r hr r hr rfl

theorem distinct_rowsOf (h : LogOk log) (table : Str) : Distinct (rowsOf log table) := by
  rintro r ⟨b, hb, -, hr⟩ r' ⟨b', hb', -, hr'⟩ - hseq
  exact (h.seqs b hb b' hb' r hr r' hr' hseq).2

/-- The rows of the staging objects of a job. -/
def jobRows (log : List (Batch F)) (job : Job) : Set (Row (Value F)) :=
  {r | ∃ b ∈ log, b.stagingMeta ∈ job.objs ∧ r ∈ b.records}

/-- The job is a group of objects that writers recorded for its measurement. -/
structure JobOk (log : List (Batch F)) (job : Job) : Prop where
  nonempty : job.objs ≠ []
  day : '/' ∉ job.day
  objs : ∀ o ∈ job.objs, ∃ b ∈ log, b.table = job.measurement ∧ o = b.stagingMeta

/-- The job's output holds, for each row of its inputs, one at least as new. -/
structure Merged (c : Cold (Value F)) (log : List (Batch F)) (job : Job) : Prop where
  ok : JobOk log job
  covers : Covers (fileRows c (jobKey job)) (jobRows log job)

/-- The output is listed, and the inputs no longer due have no file. -/
structure Dropping (c : Cold (Value F)) (job : Job) (rest : List ObjectMeta) : Prop where
  listed : ∃ e, c.manifest.get? (jobKey job) = some e ∧ e.measurement = job.measurement
  due : ∀ o ∈ rest, o ∈ job.objs
  gone : ∀ o ∈ job.objs, o ∈ rest ∨ c.files o.objectKey = none

def GroupsOk (log : List (Batch F)) (m : Str) (groups : List (Str × List ObjectMeta)) : Prop :=
  ∀ g ∈ groups, JobOk log ⟨m, g.1, g.2⟩

def PassOk (c : Cold (Value F)) (log : List (Batch F)) : Pass → Prop
  | .merging m groups _ => GroupsOk log m groups
  | .recording job _ groups _ => Merged c log job ∧ GroupsOk log job.measurement groups
  | .removing job rest groups _ =>
    Merged c log job ∧ Dropping c job rest ∧ GroupsOk log job.measurement groups
  | .forgetting job o rest groups _ =>
    Merged c log job ∧ Dropping c job rest ∧ (o ∈ job.objs ∧ c.files o.objectKey = none) ∧
      GroupsOk log job.measurement groups
  | _ => True

/-- The job a pass has merged and whose inputs it may still have to remove. -/
def mergedJob : Pass → Option Job
  | .recording job _ _ _ => some job
  | .removing job _ _ _ => some job
  | .forgetting job _ _ _ _ => some job
  | _ => none

/-- Where a manifest entry comes from: the staging object of a recorded batch,
or a merge. -/
inductive EntryOk (log : List (Batch F)) (k : Str) (e : ManifestRow) : Prop
  | staging (b : Batch F) (hb : b ∈ log) (hk : k = b.key) (he : e = b.stagingMeta.toManifestRow)
  | cold (day : Str) (a : ℕ) (hday : '/' ∉ day) (hkind : e.kind = .cold)
      (hk : k = coldKey e.measurement day a)

/-- While the first input of a merged object is still there, a pass that merged
the object is removing its inputs. -/
def Attended (c : Cold (Value F)) (log : List (Batch F)) (passes : κ → Pass) (b : Batch F)
    (day : Str) : Prop :=
  c.files b.key ≠ none → c.files (coldKey b.table day b.minSeq) ≠ none →
    ∃ p job, mergedJob (passes p) = some job ∧ jobKey job = coldKey b.table day b.minSeq ∧
      fileRows c (jobKey job) ⊆ jobRows log job

/-- No writer stages to a foreign key and no merge of its batch writes to one. -/
structure Outside (foreign : Set Str) (b : Batch F) : Prop where
  key : b.key ∉ foreign
  output : ∀ m day, coldKey m day b.minSeq ∉ foreign

/-- The rows of a measurement that writers and passes are answerable for. -/
def kept (foreign : Set Str) (c : Cold (Value F)) (m : Str) : Set (Row (Value F)) :=
  heldIn c m fun k _ => k ∉ foreign

/-- Foreign keys are those that someone else stores objects at. -/
structure Inv (foreign : Set Str) (c : Cold (Value F)) (log : List (Batch F))
    (passes : κ → Pass) : Prop where
  outside : ∀ b ∈ log, Outside foreign b
  entries : ∀ k e, c.manifest.get? k = some e → EntryOk log k e
  stagingFiles : ∀ b ∈ log, ∀ rows, c.files b.key = some rows → rows = b.records
  coldFiles : ∀ m day a rows, '/' ∉ day → coldKey m day a ∉ foreign →
    c.files (coldKey m day a) = some rows →
      (∀ r ∈ rows, r ∈ rowsOf log m) ∧ ∃ b ∈ log, b.minSeq = a
  covers : ∀ m, Covers (kept foreign c m) (rowsOf log m)
  working : ∀ p, PassOk c log (passes p)
  attended : ∀ b ∈ log, ∀ day, '/' ∉ day → Attended c log passes b day

/-- What cold holds of a measurement, foreign objects apart, was recorded. -/
theorem Inv.kept_subset {c : Cold (Value F)} {passes : κ → Pass} (h : Inv foreign c log passes)
    (m : Str) : kept foreign c m ⊆ rowsOf log m := by
  rintro r ⟨k, e, rows, hk, hm, hout, hfile, hr⟩
  cases h.entries k e hk with
  | staging b hb hkey he =>
    subst hkey he
    exact ⟨b, hb, hm, h.stagingFiles b hb rows hfile ▸ hr⟩
  | cold day a hday _ hkey =>
    subst hkey
    exact hm ▸ (h.coldFiles _ day a rows hday hout hfile).1 r hr

theorem outside_empty {b : Batch F} : Outside ∅ b := ⟨Set.notMem_empty _, fun _ _ => Set.notMem_empty _⟩

/-- An empty store owes nothing. -/
theorem empty_inv {passes : κ → Pass} (hpasses : ∀ p, PassOk (F := F) ColdStore.empty [] (passes p)) :
    Inv (F := F) foreign ColdStore.empty [] passes where
  outside := by simp
  entries := by simp [ColdStore.empty]
  stagingFiles := by simp
  coldFiles := by simp [ColdStore.empty]
  covers m := by
    rintro r ⟨b, hb, -⟩
    simp at hb
  working := hpasses
  attended := by simp

theorem JobOk.mono {log' : List (Batch F)} {job : Job} (h : JobOk log job)
    (hsub : ∀ b ∈ log, b ∈ log') : JobOk log' job where
  nonempty := h.nonempty
  day := h.day
  objs o ho := by
    obtain ⟨b, hb, hm, heq⟩ := h.objs o ho
    exact ⟨b, hsub b hb, hm, heq⟩

theorem jobKey_eq (job : Job) : jobKey job = coldKey job.measurement job.day (minSeqOf job.objs) :=
  rfl

theorem key_ne_coldKey (b : Batch F) (m day : Str) (a : ℕ) : b.key ≠ coldKey m day a :=
  stagingKey_ne_coldKey _ _ _ _ _ _

/-- The input with the smallest sequence number names the output. -/
theorem JobOk.first {job : Job} (h : JobOk log job) : ∃ b ∈ log, b.stagingMeta ∈ job.objs ∧
    b.table = job.measurement ∧ b.minSeq = minSeqOf job.objs := by
  obtain ⟨o, ho, hmin⟩ := minSeqOf_mem h.nonempty
  obtain ⟨b, hb, hm, rfl⟩ := h.objs o ho
  exact ⟨b, hb, ho, hm, hmin⟩

/-- A new batch is in no job. -/
theorem jobRows_append {job : Job} (h : JobOk log job) (b : Batch F)
    (hlog : LogOk (log ++ [b])) : jobRows (log ++ [b]) job = jobRows log job := by
  ext r
  constructor
  · rintro ⟨b', hb', ho, hr⟩
    obtain ⟨b'', hb'', -, hmeta⟩ := h.objs _ ho
    have heq : b' = b'' := eq_of_key hlog hb' (List.mem_append_left _ hb'')
      (congrArg ObjectMeta.objectKey hmeta)
    exact ⟨b', heq ▸ hb'', ho, hr⟩
  · rintro ⟨b', hb', ho, hr⟩
    exact ⟨b', List.mem_append_left _ hb', ho, hr⟩

/-- What a step has to leave alone for a pass to go on. -/
theorem PassOk.frame {c c' : Cold (Value F)} {log' : List (Batch F)} {pass : Pass}
    (h : PassOk c log pass) (hjob : ∀ job, JobOk log job → JobOk log' job)
    (hmerged : ∀ job, mergedJob pass = some job → Merged c log job → Merged c' log' job)
    (hlisted : ∀ job, (∃ e, c.manifest.get? (jobKey job) = some e ∧ e.measurement = job.measurement) →
      ∃ e, c'.manifest.get? (jobKey job) = some e ∧ e.measurement = job.measurement)
    (hgone : ∀ job, JobOk log job → ∀ o ∈ job.objs, c.files o.objectKey = none →
      c'.files o.objectKey = none) : PassOk c' log' pass := by
  have hgroups : ∀ m groups, GroupsOk log m groups → GroupsOk log' m groups :=
    fun m groups hok g hg => hjob _ (hok g hg)
  have hdrop : ∀ job rest, JobOk log job → Dropping c job rest → Dropping c' job rest :=
    fun job rest hok hd => ⟨hlisted job hd.listed, hd.due,
      fun o ho => (hd.gone o ho).imp_right (hgone job hok o ho)⟩
  cases pass with
  | idle => trivial
  | listing todo => trivial
  | merging m groups todo => exact hgroups m groups h
  | recording job rows groups todo => exact ⟨hmerged job rfl h.1, hgroups _ groups h.2⟩
  | removing job rest groups todo =>
    exact ⟨hmerged job rfl h.1, hdrop job rest h.1.ok h.2.1, hgroups _ groups h.2.2⟩
  | forgetting job o rest groups todo =>
    obtain ⟨hm, hd, ⟨ho, hnone⟩, hg⟩ := h
    exact ⟨hmerged job rfl hm, hdrop job rest hm.ok hd, ⟨ho, hgone job hm.ok o ho hnone⟩,
      hgroups _ groups hg⟩
  | ended ok => trivial

theorem PassOk.merged {c : Cold (Value F)} {pass : Pass} {job : Job} (h : PassOk c log pass)
    (hjob : mergedJob pass = some job) : Merged c log job := by
  cases pass with
  | idle => contradiction
  | listing todo => contradiction
  | merging m groups todo => contradiction
  | recording job' rows groups todo =>
    cases hjob
    exact h.1
  | removing job' rest groups todo =>
    cases hjob
    exact h.1
  | forgetting job' o rest groups todo =>
    cases hjob
    exact h.1
  | ended ok => contradiction

section Stage

variable {c : Cold (Value F)} {passes : κ → Pass} {b : Batch F}

theorem files_stage (k : Str) :
    (Store.stage b c).files k = if k = b.key then some b.records else c.files k :=
  files_writeTable _ _ _ _

/-- The key of a batch that is not recorded is not listed. -/
theorem Inv.unlisted (h : Inv foreign c log passes) (hlog : LogOk (log ++ [b])) (hb : b ∉ log) :
    c.manifest.get? b.key = none := by
  by_contra hne
  obtain ⟨e, he⟩ := Option.ne_none_iff_exists'.mp hne
  cases h.entries _ _ he with
  | staging b' hb' hk _ =>
    have heq : b = b' :=
      eq_of_key hlog (by simp) (List.mem_append_left _ hb') hk
    exact hb (heq ▸ hb')
  | cold day a _ _ hk => exact key_ne_coldKey b _ day a hk

theorem key_ne_of_notMem (hlog : LogOk (log ++ [b])) (hb : b ∉ log) {b' : Batch F}
    (hb' : b' ∈ log) : b'.key ≠ b.key := by
  intro hk
  have heq : b' = b := eq_of_key hlog (List.mem_append_left _ hb') (by simp) hk
  exact hb (heq ▸ hb')

/-- Writing the staging object of a new batch touches nothing that is listed. -/
theorem Inv.stage (h : Inv foreign c log passes) (hlog : LogOk (log ++ [b])) (hb : b ∉ log) :
    Inv foreign (Store.stage b c) log passes := by
  have hkey : ∀ b' ∈ log, (Store.stage b c).files b'.key = c.files b'.key := by
    intro b' hb'
    rw [files_stage, if_neg (key_ne_of_notMem hlog hb hb')]
  have hcold : ∀ m day a, (Store.stage b c).files (coldKey m day a) = c.files (coldKey m day a) := by
    intro m day a
    rw [files_stage, if_neg (key_ne_coldKey b m day a).symm]
  have hrows : ∀ job, fileRows (Store.stage b c) (jobKey job) = fileRows c (jobKey job) :=
    fun job => fileRows_congr (hcold _ _ _)
  refine ⟨h.outside, h.entries, ?_, ?_, ?_, ?_, ?_⟩
  · intro b' hb' rows hfile
    exact h.stagingFiles b' hb' rows (hkey b' hb' ▸ hfile)
  · intro m day a rows hday hout hfile
    exact h.coldFiles m day a rows hday hout (hcold m day a ▸ hfile)
  · intro m
    refine (h.covers m).mono ?_ (Set.Subset.refl _)
    rintro r ⟨k, e, rows, hk, hm, hP, hfile, hr⟩
    have hne : k ≠ b.key := by
      rintro rfl
      rw [h.unlisted hlog hb] at hk
      contradiction
    exact ⟨k, e, rows, hk, hm, hP, by rw [files_stage, if_neg hne]; exact hfile, hr⟩
  · intro p
    refine (h.working p).frame (fun _ hj => hj) ?_ (fun _ hl => hl) ?_
    · rintro job - hm
      exact ⟨hm.ok, hrows job ▸ hm.covers⟩
    · intro job hj o ho hnone
      obtain ⟨b', hb', -, rfl⟩ := hj.objs o ho
      exact (hkey b' hb').trans hnone
  · intro b' hb' day hday hfile hout
    rw [hkey b' hb'] at hfile
    rw [hcold] at hout
    obtain ⟨p, job, hp, hk, hsub⟩ := h.attended b' hb' day hday hfile hout
    exact ⟨p, job, hp, hk, hrows job ▸ hsub⟩

/-- Recording a staged batch makes its rows readable. -/
theorem Inv.record (h : Inv foreign c log passes) (hlog : LogOk (log ++ [b])) (hb : b ∉ log)
    (hout : Outside foreign b) (hfile : c.files b.key = some b.records) :
    Inv foreign (ColdStore.record c b.stagingMeta) (log ++ [b]) passes := by
  have hself : (ColdStore.record c b.stagingMeta).manifest.get? b.key =
      some b.stagingMeta.toManifestRow :=
    get?_record_new c b.stagingMeta fun old hold => by
      rw [show b.stagingMeta.objectKey = b.key from rfl, h.unlisted hlog hb] at hold
      contradiction
  have hother : ∀ k, k ≠ b.key →
      (ColdStore.record c b.stagingMeta).manifest.get? k = c.manifest.get? k :=
    fun k hk => get?_record_of_ne c b.stagingMeta hk
  have hmem : ∀ b' ∈ log, b' ∈ log ++ [b] := fun b' hb' => List.mem_append_left _ hb'
  have hsub : ∀ m, rowsOf log m ⊆ rowsOf (log ++ [b]) m := by
    rintro m r ⟨b', hb', hm, hr⟩
    exact ⟨b', hmem b' hb', hm, hr⟩
  refine ⟨?_, ?_, ?_, ?_, ?_, ?_, ?_⟩
  · intro b' hb'
    rcases List.mem_append.mp hb' with hb' | hb'
    · exact h.outside b' hb'
    · exact List.mem_singleton.mp hb' ▸ hout
  · intro k e hk
    by_cases hkb : k = b.key
    · subst hkb
      rw [hself] at hk
      cases hk
      exact .staging b (by simp) rfl rfl
    · rw [hother k hkb] at hk
      cases h.entries k e hk with
      | staging b' hb' hk he => exact .staging b' (hmem b' hb') hk he
      | cold day a hday hkind hk => exact .cold day a hday hkind hk
  · intro b' hb' rows hrows
    rcases List.mem_append.mp hb' with hb' | hb'
    · exact h.stagingFiles b' hb' rows hrows
    · cases List.mem_singleton.mp hb'
      exact Option.some.inj (hrows.symm.trans hfile)
  · intro m day a rows hday hkey hrows
    obtain ⟨hin, b', hb', ha⟩ := h.coldFiles m day a rows hday hkey hrows
    exact ⟨fun r hr => hsub m (hin r hr), b', hmem b' hb', ha⟩
  · intro m
    rw [rowsOf_append]
    apply Versions.Covers.union
    · refine (h.covers m).mono ?_ (Set.Subset.refl _)
      rintro r ⟨k, e, rows, hk, hm, hP, hrows, hr⟩
      have hne : k ≠ b.key := by
        rintro rfl
        rw [h.unlisted hlog hb] at hk
        contradiction
      exact ⟨k, e, rows, (hother k hne).trans hk, hm, hP, hrows, hr⟩
    · apply Versions.covers_of_subset
      rintro r ⟨hm, hr⟩
      exact ⟨b.key, _, b.records, hself, hm, hout.key, hfile, hr⟩
  · intro p
    refine (h.working p).frame (fun _ hj => hj.mono hmem) ?_ ?_ (fun _ _ _ _ hnone => hnone)
    · rintro job - hm
      exact ⟨hm.ok.mono hmem, jobRows_append hm.ok b hlog ▸ hm.covers⟩
    · rintro job ⟨e, he, hm⟩
      exact ⟨e, (hother _ (key_ne_coldKey b _ _ _).symm).trans he, hm⟩
  · intro b' hb' day hday hfile' hmerged
    rcases List.mem_append.mp hb' with hb' | hb'
    · obtain ⟨p, job, hp, hk, hrows⟩ := h.attended b' hb' day hday hfile' hmerged
      refine ⟨p, job, hp, hk, hrows.trans ?_⟩
      rintro r ⟨b'', hb'', ho, hr⟩
      exact ⟨b'', hmem b'' hb'', ho, hr⟩
    · -- the batch is new, so no merge has used its number yet
      cases List.mem_singleton.mp hb'
      obtain ⟨rows, hrows⟩ := Option.ne_none_iff_exists'.mp hmerged
      obtain ⟨-, b'', hb'', ha⟩ := h.coldFiles _ _ _ rows hday (hout.output _ _) hrows
      exact absurd (eq_of_minSeq hlog (hmem b'' hb'') (by simp) ha ▸ hb'') hb

/-- Someone else writes and lists a foreign object. -/
theorem Inv.writeForeign (h : Inv foreign c log passes) {m day : Str} {a : ℕ} (hday : '/' ∉ day)
    (hforeign : coldKey m day a ∈ foreign) (rows : List (Row (Value F))) {new : ObjectMeta}
    (hkey : new.objectKey = coldKey m day a) (hm : new.measurement = m) (hkind : new.kind = .cold) :
    Inv foreign (ColdStore.record (writeTable c (coldKey m day a) rows) new) log passes := by
  have hold : ∀ old, c.manifest.get? new.objectKey = some old →
      old.measurement = new.measurement ∧ old.kind = new.kind := by
    intro old hold
    rw [hkey] at hold
    cases h.entries _ _ hold with
    | staging b hb hk he => exact absurd hk.symm (key_ne_coldKey b _ _ _)
    | cold day' a' hday' hkind' hk =>
      exact ⟨(coldKey_inj hday' hday hk.symm).1.trans hm.symm, hkind'.trans hkind.symm⟩
  have hself : (ColdStore.record (writeTable c (coldKey m day a) rows) new).manifest.get?
      (coldKey m day a) = some new.toManifestRow := by
    rw [← hkey]
    exact get?_record_new _ new hold
  have hother : ∀ k, k ≠ coldKey m day a →
      (ColdStore.record (writeTable c (coldKey m day a) rows) new).manifest.get? k =
        c.manifest.get? k := fun k hk => get?_record_of_ne _ new (hkey ▸ hk)
  have hfiles : ∀ k, k ∉ foreign →
      (ColdStore.record (writeTable c (coldKey m day a) rows) new).files k = c.files k := by
    intro k hk
    rw [files_record, files_writeTable, if_neg]
    rintro rfl
    exact hk hforeign
  have hout : ∀ job, JobOk log job → jobKey job ∉ foreign := by
    intro job hjob
    obtain ⟨b, hb, -, -, hmin⟩ := hjob.first
    rw [jobKey_eq, ← hmin]
    exact (h.outside b hb).output _ _
  refine ⟨h.outside, ?_, ?_, ?_, ?_, ?_, ?_⟩
  · intro k e hk
    by_cases hkk : k = coldKey m day a
    · subst hkk
      cases hself.symm.trans hk
      exact .cold day a hday hkind (by rw [← hm])
    · exact h.entries k e (hother k hkk ▸ hk)
  · exact fun b hb rs hrs => h.stagingFiles b hb rs (hfiles _ (h.outside b hb).key ▸ hrs)
  · exact fun m' day' a' rs hday' hk hrs =>
      h.coldFiles m' day' a' rs hday' hk (hfiles _ hk ▸ hrs)
  · intro m'
    refine (h.covers m').mono ?_ (Set.Subset.refl _)
    rintro r ⟨k, e, rs, hk, hem, hP, hrs, hr⟩
    have hne : k ≠ coldKey m day a := fun heq => hP (heq ▸ hforeign)
    exact ⟨k, e, rs, (hother k hne).trans hk, hem, hP, (hfiles k hP).trans hrs, hr⟩
  · intro p
    refine (h.working p).frame (fun _ hj => hj) ?_ ?_ ?_
    · rintro job - hmerged
      refine ⟨hmerged.ok, ?_⟩
      rw [fileRows_congr (hfiles _ (hout job hmerged.ok))]
      exact hmerged.covers
    · rintro job ⟨e, he, hem⟩
      by_cases hk : jobKey job = coldKey m day a
      · rw [hk] at he ⊢
        rw [← hkey] at he
        exact ⟨_, hself, (hold e he).1.symm.trans hem⟩
      · exact ⟨e, (hother _ hk).trans he, hem⟩
    · intro job hjob o ho hnone
      obtain ⟨b, hb, -, rfl⟩ := hjob.objs o ho
      exact (hfiles _ (h.outside b hb).key).trans hnone
  · intro b hb day' hday' hfile hmerged
    have hkey' := (h.outside b hb).output b.table day'
    rw [hfiles _ (h.outside b hb).key] at hfile
    rw [hfiles _ hkey'] at hmerged
    obtain ⟨p, job, hp, hk, hsub⟩ := h.attended b hb day' hday' hfile hmerged
    refine ⟨p, job, hp, hk, ?_⟩
    rw [fileRows_congr (hfiles _ (hk ▸ hkey'))]
    exact hsub

end Stage

end TimescaleLp.Vault
