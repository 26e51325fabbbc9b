import TimescaleLp.Restart

/-!
Each call of a pass keeps every secured row secured. The step that matters is the
removal of the input that names the output: until then the name can come up
again, from then on it cannot, and the inputs removed before it are those that
start earlier.
-/
namespace TimescaleLp.Restart

open ColdStore Tiering Passes

universe u

variable {V : Type u} {stuck : Str → Str → Prop} {c₀ c : Cold V}

theorem jobKey_eq (job : Job) : jobKey job = coldKey job.measurement job.day (minSeqOf job.objs) :=
  rfl

/-- A name that is the output of the job is that of one of its objects. -/
theorem Listed.of_jobKey {m day : Str} {f : ObjectMeta} {job : Job} (hf : Listed c m day f)
    (hslash : '/' ∉ job.day) (hk : coldKey m day f.minSeq = jobKey job) :
    m = job.measurement ∧ day = job.day ∧ f.minSeq = minSeqOf job.objs :=
  coldKey_inj (hf.day ▸ slash_notMem_dayOf _) hslash (hk.trans (jobKey_eq job))

theorem cold_key_ne {k : Str} {e : ManifestRow} {m day : Str} {o : ObjectMeta} (hwf : Wf c)
    (hk : c.manifest.get? k = some e) (hkind : e.kind = .cold) (ho : Listed c m day o) :
    k ≠ o.objectKey := by
  obtain ⟨day', a, -, rfl⟩ := hwf.cold k e hk hkind
  exact (ho.key_ne_coldKey hwf _ _ _).symm

theorem groupsOk_listing (c : Cold V) (m : Str) :
    GroupsOk c m (planCompaction (objects c m (some .staging))).entries := by
  refine ⟨(planCompaction (objects c m (some .staging))).nodup, ?_⟩
  rintro ⟨day, objs⟩ hg
  obtain ⟨hobjs, hne⟩ := Dict.mem_groupBy_entries _ _ _ _ hg
  have hmem : ∀ o, o ∈ objs ↔ Listed c m day o := by
    intro o
    rw [hobjs, List.mem_filter, mem_objects_iff]
    constructor
    · rintro ⟨⟨hget, hm, hkind⟩, hday⟩
      exact ⟨hget, hm, by simpa [eq_comm] using hkind, by simpa using hday⟩
    · intro ho
      exact ⟨⟨ho.entry, ho.measurement, Or.inr (by rw [ho.staging])⟩, by simpa using ho.day⟩
  obtain ⟨o, ho⟩ := List.exists_mem_of_ne_nil objs hne
  refine ⟨hne, ((hmem o).mp ho).day ▸ slash_notMem_dayOf _, hmem, ?_, ?_⟩
  · rw [hobjs]
    exact (objects_nodup c m _).sublist List.filter_sublist
  · rw [hobjs]
    exact (objects_sorted c m _).sublist List.filter_sublist


section Merge

variable {m day : Str} {objs : List ObjectMeta} {rows : List (Row V)}

theorem quiet_writeTable (hwf : Wf c) (m' day' : Str) (a : ℕ) (rows : List (Row V)) :
    Quiet c (writeTable c (coldKey m' day' a) rows) where
  listed _ _ _ := ⟨fun h => ⟨h.entry, h.measurement, h.staging, h.day⟩,
    fun h => ⟨h.entry, h.measurement, h.staging, h.day⟩⟩
  files _ _ _ ho := files_writeTable_of_ne c _ (ho.key_ne_coldKey hwf _ _ _)

/-- What the engine reads are the rows of the group's files. -/
theorem mem_read (hobjs : GroupOk c m day objs)
    (hread : Engine.readParquet c (objs.map (·.objectKey)) = some rows) (r : Row V) (hr : r ∈ rows) :
    ∃ o, Listed c m day o ∧ r ∈ fileRows c o.objectKey := by
  obtain ⟨k, hk, rs, hrs, hmem⟩ := Engine.mem_readParquet c _ rows hread r hr
  obtain ⟨o, ho, rfl⟩ := List.mem_map.mp hk
  exact ⟨o, (hobjs.mem_iff o).mp ho, rs, hrs, hmem⟩

theorem file_of_read (hobjs : GroupOk c m day objs)
    (hread : Engine.readParquet c (objs.map (·.objectKey)) = some rows) {o : ObjectMeta}
    (ho : Listed c m day o) :
    ∃ rs, c.files o.objectKey = some rs ∧ ∀ r ∈ rs, r ∈ rows :=
  Engine.readParquet_exists c _ rows hread o.objectKey
    (List.mem_map_of_mem ((hobjs.mem_iff o).mpr ho))

/-- A group that was merged was not stuck. -/
theorem not_stuck_of_read (hobjs : GroupOk c m day objs)
    (hread : Engine.readParquet c (objs.map (·.objectKey)) = some rows) : ¬Stuck c m day := by
  rintro ⟨o, ho, hnone⟩
  obtain ⟨rs, hrs, -⟩ := file_of_read hobjs hread ho
  rw [hnone] at hrs
  contradiction

theorem Listed.held {o : ObjectMeta} {r : Row V} (ho : Listed c m day o)
    (hr : r ∈ fileRows c o.objectKey) : r ∈ held c m ∧ r ∈ heldIn c m fun _ e => e.kind = .staging := by
  obtain ⟨rows, hrows, hr⟩ := hr
  exact ⟨⟨_, _, rows, ho.entry, ho.measurement, trivial, hrows, hr⟩,
    ⟨_, _, rows, ho.entry, ho.measurement, ho.staging, hrows, hr⟩⟩

theorem held_of_read (hobjs : GroupOk c m day objs)
    (hread : Engine.readParquet c (objs.map (·.objectKey)) = some rows) {r : Row V} (hr : r ∈ rows) :
    r ∈ held c m ∧ r ∈ heldIn c m fun _ e => e.kind = .staging := by
  obtain ⟨o, ho, hr⟩ := mem_read hobjs hread r hr
  exact ho.held hr

/-- The object with the smallest number names the output. -/
theorem exists_mayName (hobjs : GroupOk c m day objs)
    (hread : Engine.readParquet c (objs.map (·.objectKey)) = some rows) :
    ∃ f, MayName c m day f ∧ coldKey m day f.minSeq = outKey m day objs := by
  obtain ⟨f, hf, hmin⟩ := minSeqOf_mem hobjs.nonempty
  have hfl := (hobjs.mem_iff f).mp hf
  obtain ⟨rs, hrs, -⟩ := file_of_read hobjs hread hfl
  refine ⟨f, ⟨hfl, by simp [hrs], ?_⟩, by rw [hmin]; rfl⟩
  intro g hg hlt
  have hle := minSeqOf_le ((hobjs.mem_iff g).mpr hg)
  omega

/-- A winner among the inputs is the row that the merge keeps for its key. -/
theorem mem_dedupRows_of_winner (hwf : Wf c) (hsub : held c m ⊆ held c₀ m)
    (hobjs : GroupOk c m day objs)
    (hread : Engine.readParquet c (objs.map (·.objectKey)) = some rows) {r : Row V}
    (hwin : Winner c₀ m r) {o : ObjectMeta} (ho : Listed c m day o)
    (hr : r ∈ fileRows c o.objectKey) : r ∈ Engine.dedupRows rows := by
  obtain ⟨k, hnewest⟩ := hwin
  obtain ⟨rs, hrs, hin⟩ := file_of_read hobjs hread ho
  obtain ⟨rs', hrs', hr⟩ := hr
  cases hrs.symm.trans hrs'
  obtain ⟨s, hs, hkey, hle⟩ := Engine.dedupRows_covers rows r (hin r hr)
  have hsrow := held_of_read hobjs hread (Engine.dedupRows_subset rows s hs)
  have hge : s.seq ≤ r.seq := hnewest.2.2 s (hsub hsrow.1) (hkey.trans hnewest.2.1)
  have hrrow := held_of_read hobjs hread (hin r hr)
  have heq : s = r := hwf.distinct m s hsrow.2 r hrrow.2 hkey (le_antisymm hge hle)
  exact heq ▸ hs

theorem Inv.merge {groups : List (Str × List ObjectMeta)} {todo : List Str} (n : ℕ)
    (h : Inv stuck c₀ (c, .merging m ((day, objs) :: groups) todo))
    (hread : Engine.readParquet c (objs.map (·.objectKey)) = some rows) :
    Inv stuck c₀ (writeTable c (outKey m day objs) (Engine.dedupRows rows),
      .recording ⟨m, day, objs⟩ n groups todo) := by
  obtain ⟨hwf, hstuck, hsub, hsec, hdays, hgroups⟩ := h
  have hobjs : GroupOk c m day objs := hgroups (day, objs) List.mem_cons_self
  have hfree : ¬stuck m day := fun hs => not_stuck_of_read hobjs hread (hstuck m day hs)
  have hquiet : Quiet c (writeTable c (outKey m day objs) (Engine.dedupRows rows)) :=
    quiet_writeTable hwf m day _ _
  have hself := mem_fileRows_writeTable c (outKey m day objs) (Engine.dedupRows rows)
  have hother : ∀ k, k ≠ outKey m day objs →
      (writeTable c (outKey m day objs) (Engine.dedupRows rows)).files k = c.files k :=
    fun k hk => files_writeTable_of_ne c _ hk
  have hold : fileRows (writeTable c (outKey m day objs) (Engine.dedupRows rows))
      (outKey m day objs) ⊆ held c₀ m := fun r hr =>
    hsub m (held_of_read hobjs hread (Engine.dedupRows_subset rows r ((hself r).mp hr))).1
  refine ⟨?_, ?_, ?_, ?_, ⟨hobjs.nonempty, hobjs.slash, hfree, fun o ho => ho, ?_,
    hobjs.nodup, hobjs.sorted, ?_⟩,
    hold, (List.nodup_cons.mp hdays).1, ?_⟩
  · refine hwf.shrink ?_ hwf.cold
    intro k e hk hkind
    have hne : k ≠ outKey m day objs := by
      rw [hwf.staging k e hk hkind]
      exact stagingKey_ne_coldKey _ _ _ _ _ _
    exact ⟨hk, (fileRows_congr (hother k hne)).subset⟩
  · exact fun m' day' hs => hquiet.remain (hstuck m' day' hs)
  · rintro m' r ⟨k, e, rs, hk, hm, hP, hrs, hr⟩
    by_cases hkk : k = outKey m day objs
    · subst hkk
      cases hm.symm.trans (hwf.output hobjs.slash hk).1
      exact hold ⟨rs, hrs, hr⟩
    · exact hsub m' ⟨k, e, rs, hk, hm, hP, hother k hkk ▸ hrs, hr⟩
  · intro m' r hr
    refine hquiet.secured (hsec m' r hr) ?_
    intro k e hk hm hkind hmem hsafe
    have hne : k ≠ outKey m day objs := by
      -- the object with the smallest number would name this output
      rintro rfl
      cases hm.symm.trans (hwf.output hobjs.slash hk).1
      obtain ⟨f, hf, hname⟩ := exists_mayName hobjs hread
      exact hfree (hsafe day f hf hname)
    exact ⟨e, hk, hm, hkind, by rw [fileRows_congr (hother k hne)]; exact hmem⟩
  · exact fun o => (hobjs.mem_iff o).trans (hquiet.listed m day o).symm
  · intro r hwin ⟨o, ho, hr⟩
    have hol := (hobjs.mem_iff o).mp ho
    rw [fileRows_congr (hquiet.files m day o hol)] at hr
    exact (hself r).mpr (mem_dedupRows_of_winner hwf (hsub m) hobjs hread hwin hol hr)
  · exact GroupsOk.congr ⟨(List.nodup_cons.mp hdays).2,
      fun g hg => hgroups g (List.mem_cons_of_mem _ hg)⟩ fun _ _ o => hquiet.listed m _ o

end Merge

section Record

variable {job : Job}

variable (job) in
/-- Recording an output changes its own entry only. -/
theorem get?_record_jobMeta (hwf : Wf c) (hslash : '/' ∉ job.day) (n : ℕ) (k : Str) :
    (record c (jobMeta job n)).manifest.get? k =
      if k = jobKey job then some (jobMeta job n).toManifestRow else c.manifest.get? k := by
  split
  · rename_i hk
    subst hk
    exact get?_record_new c (jobMeta job n) fun old hold => hwf.output hslash hold
  · rename_i hk
    exact get?_record_of_ne c (jobMeta job n) hk

theorem quiet_record (hwf : Wf c) (hslash : '/' ∉ job.day) (n : ℕ) :
    Quiet c (record c (jobMeta job n)) where
  listed m day o := by
    have hget := get?_record_jobMeta job hwf hslash n o.objectKey
    constructor
    · intro ho
      have hne : o.objectKey ≠ jobKey job := by
        intro hk
        have hentry := ho.entry
        rw [hget, if_pos hk] at hentry
        have hkind := congrArg ManifestRow.kind (Option.some.inj hentry)
        rw [ho.staging] at hkind
        contradiction
      rw [if_neg hne] at hget
      exact ⟨hget ▸ ho.entry, ho.measurement, ho.staging, ho.day⟩
    · intro ho
      have hne : o.objectKey ≠ jobKey job := ho.key_ne_coldKey hwf _ _ _
      rw [if_neg hne] at hget
      exact ⟨hget.trans ho.entry, ho.measurement, ho.staging, ho.day⟩
  files m day o ho := rfl

theorem Inv.record {groups : List (Str × List ObjectMeta)} {todo : List Str} {n : ℕ}
    (h : Inv stuck c₀ (c, .recording job n groups todo)) :
    Inv stuck c₀ (record c (jobMeta job n), .removing job job.objs groups todo) := by
  obtain ⟨hwf, hstuck, hsub, hsec, hmerged, hold, hnew, hgroups⟩ := h
  have hquiet : Quiet c (ColdStore.record c (jobMeta job n)) := quiet_record hwf hmerged.slash n
  have hget := get?_record_jobMeta job hwf hmerged.slash n
  have hself : (ColdStore.record c (jobMeta job n)).manifest.get? (jobKey job) =
      some (jobMeta job n).toManifestRow := (hget _).trans (if_pos rfl)
  refine ⟨?_, ?_, ?_, ?_, ?_, ⟨_, hself, rfl, rfl⟩, hnew, ?_⟩
  · refine hwf.shrink ?_ ?_
    · intro k e hk hkind
      rw [hget] at hk
      split at hk
      · cases hk
        contradiction
      · exact ⟨hk, Set.Subset.refl _⟩
    · intro k e hk hkind
      rw [hget] at hk
      split at hk
      · rename_i hkk
        cases hk
        exact ⟨job.day, _, hmerged.slash, hkk⟩
      · exact hwf.cold k e hk hkind
  · exact fun m day hs => hquiet.remain (hstuck m day hs)
  · rintro m r ⟨k, e, rows, hk, hm, hP, hrows, hr⟩
    replace hk : (ColdStore.record c (jobMeta job n)).manifest.get? k = some e := hk
    rw [hget] at hk
    split at hk
    · rename_i hkk
      cases hk
      subst hkk
      exact hm ▸ hold ⟨rows, hrows, hr⟩
    · exact hsub m ⟨k, e, rows, hk, hm, hP, hrows, hr⟩
  · intro m r hr
    refine hquiet.secured (hsec m r hr) ?_
    intro k e hk hm hkind hmem _
    by_cases hkk : k = jobKey job
    · subst hkk
      exact ⟨_, hself, (hwf.output hmerged.slash hk).1.symm.trans hm, rfl, hmem⟩
    · exact ⟨e, (hget k).trans ((if_neg hkk).trans hk), hm, hkind, hmem⟩
  · exact ⟨hmerged.nonempty, hmerged.slash, hmerged.free, hmerged.due,
      fun o => (hmerged.mem_iff o).trans (hquiet.listed _ _ o).symm, hmerged.nodup,
      hmerged.sorted, hmerged.output⟩
  · exact hgroups.congr fun _ _ o => hquiet.listed _ _ o

end Record

section Remove

variable {job : Job} {o : ObjectMeta} {rest : List ObjectMeta}

/-- The next object to go is in the order of listing before the others. -/
theorem Merged.head_le (h : Merged stuck c₀ c job (o :: rest)) {f : ObjectMeta} (hf : f ∈ rest) :
    o.rangeStart ≤ f.rangeStart ∧ (o.rangeStart = f.rangeStart → o.minSeq ≤ f.minSeq) := by
  rcases (List.pairwise_cons.mp h.sorted).1 f hf with hlt | ⟨heq, hle⟩
  · exact ⟨le_of_lt hlt, fun heq => absurd heq (ne_of_lt hlt)⟩
  · exact ⟨le_of_eq heq, fun _ => hle⟩

/-- When the next object to go has the smallest number left, it is the only one
that can name the output of the job. -/
theorem Merged.eq_head (h : Merged stuck c₀ c job (o :: rest)) (hwf : Wf c)
    (hleast : ∀ g ∈ rest, o.minSeq ≤ g.minSeq) {m day : Str} {f : ObjectMeta}
    (hf : Listed c m day f) (hk : coldKey m day f.minSeq = jobKey job) : f = o := by
  obtain ⟨rfl, rfl, hmin⟩ := hf.of_jobKey h.slash hk
  have ho : o ∈ o :: rest := List.mem_cons_self
  have hle : f.minSeq ≤ o.minSeq := hmin ▸ minSeqOf_le (h.due o ho)
  have hge : o.minSeq ≤ f.minSeq := by
    rcases List.mem_cons.mp ((h.mem_iff f).mpr hf) with rfl | hf
    · exact le_rfl
    · exact hleast f hf
  exact hf.eq_of_minSeq hwf ((h.mem_iff o).mp ho) (le_antisymm hle hge)

/-- If the object with the smallest number starts no later than the next object
to go, it is that object. -/
theorem Merged.least_head (h : Merged stuck c₀ c job (o :: rest))
    (hfirst : ∀ f, First c job.measurement job.day f → f.rangeStart ≤ o.rangeStart) :
    ∀ g ∈ rest, o.minSeq ≤ g.minSeq := by
  obtain ⟨f, hf, hmin⟩ := minSeqOf_mem (List.cons_ne_nil o rest)
  have hleast : ∀ g ∈ o :: rest, f.minSeq ≤ g.minSeq := fun g hg => hmin ▸ minSeqOf_le hg
  have hle := hfirst f ⟨(h.mem_iff f).mp hf, fun g hg => hleast g ((h.mem_iff g).mpr hg)⟩
  intro g hg
  rcases List.mem_cons.mp hf with rfl | hfr
  · exact hleast g (List.mem_cons_of_mem _ hg)
  · have hhead := h.head_le hfr
    exact (hhead.2 (le_antisymm hhead.1 hle)).trans (hleast g (List.mem_cons_of_mem _ hg))

/-- Once the object that names the output has no file or no entry, a winner of
the group is safe in the output. -/
theorem Merged.secured_output {c' : Cold V} (h : Merged stuck c₀ c job (o :: rest)) (hwf : Wf c)
    (hleast : ∀ g ∈ rest, o.minSeq ≤ g.minSeq) {r : Row V} (hr : Winner c₀ job.measurement r)
    (hin : ∃ g ∈ o :: rest, r ∈ fileRows c g.objectKey) (hlisted : OutputListed c' job)
    (hfile : c'.files (jobKey job) = c.files (jobKey job))
    (hgone : ∀ day f, MayName c' job.measurement day f →
      Listed c job.measurement day f ∧ f ≠ o) : Secured stuck c' job.measurement r := by
  obtain ⟨e, he, hm, hkind⟩ := hlisted
  refine .compacted _ e he hm hkind ?_ ?_
  · rw [fileRows_congr hfile]
    exact h.output r hr hin
  · intro day f hf hk
    obtain ⟨hl, hne⟩ := hgone day f hf
    exact absurd (h.eq_head hwf hleast hl hk) hne

theorem listed_delete (k : Str) (m day : Str) (f : ObjectMeta) :
    Listed (delete c k) m day f ↔ Listed c m day f :=
  ⟨fun h => ⟨h.entry, h.measurement, h.staging, h.day⟩,
    fun h => ⟨h.entry, h.measurement, h.staging, h.day⟩⟩

theorem fileRows_delete_subset (k a : Str) : fileRows (delete c k) a ⊆ fileRows c a := by
  rintro r ⟨rows, hrows, hr⟩
  rw [files_delete] at hrows
  split at hrows
  · contradiction
  · exact ⟨rows, hrows, hr⟩

theorem mayName_of_delete {k m day : Str} {f : ObjectMeta} (h : MayName (delete c k) m day f) :
    MayName c m day f ∧ f.objectKey ≠ k := by
  have hfile := h.exists_file
  rw [files_delete] at hfile
  split at hfile
  · contradiction
  · rename_i hne
    exact ⟨⟨(listed_delete k m day f).mp h.listed, hfile,
      fun g hg => h.before g ((listed_delete k m day g).mpr hg)⟩, hne⟩

theorem Merged.secured_delete (h : Merged stuck c₀ c job (o :: rest)) (hwf : Wf c)
    (hlisted : OutputListed c job) {m : Str} {r : Row V} (hr : Winner c₀ m r)
    (hs : Secured stuck c m r) : Secured stuck (delete c o.objectKey) m r := by
  have ho : Listed c job.measurement job.day o := (h.mem_iff o).mp List.mem_cons_self
  have hother : ∀ k, k ≠ o.objectKey → (delete c o.objectKey).files k = c.files k := by
    intro k hk
    rw [files_delete, if_neg hk]
  cases hs with
  | compacted k e hk hm hkind hmem hsafe =>
    refine .compacted k e hk hm hkind ?_ fun day f hf => hsafe day f (mayName_of_delete hf).1
    rw [fileRows_congr (hother k (cold_key_ne hwf hk hkind ho))]
    exact hmem
  | staged day o' ho' hmem hfirst =>
    by_cases hoo : o' = o
    · subst hoo
      have hm : m = job.measurement := ho'.measurement.symm.trans ho.measurement
      have hday : day = job.day := ho'.day.symm.trans ho.day
      subst hm hday
      have hleast := h.least_head (hfirst.resolve_left h.free)
      refine h.secured_output hwf hleast hr ⟨o', List.mem_cons_self, hmem⟩ hlisted ?_ ?_
      · exact hother _ (ho.key_ne_coldKey hwf _ _ _).symm
      · intro day f hf
        obtain ⟨hf', hne⟩ := mayName_of_delete hf
        exact ⟨hf'.listed, fun heq => hne (congrArg _ heq)⟩
    · have hne : o'.objectKey ≠ o.objectKey := fun hk => hoo (ho'.eq_of_key ho hk)
      refine .staged day o' ((listed_delete _ _ _ _).mpr ho') ?_ ?_
      · rw [fileRows_congr (hother _ hne)]
        exact hmem
      · refine hfirst.imp_right fun hall f hf => hall f ⟨(listed_delete _ _ _ _).mp hf.listed, ?_⟩
        exact fun g hg => hf.least g ((listed_delete _ _ _ _).mpr hg)

theorem Inv.delete {groups : List (Str × List ObjectMeta)} {todo : List Str}
    (h : Inv stuck c₀ (c, .removing job (o :: rest) groups todo)) :
    Inv stuck c₀ (delete c o.objectKey, .forgetting job o rest groups todo) := by
  obtain ⟨hwf, hstuck, hsub, hsec, hmerged, hlisted, hnew, hgroups⟩ := h
  have ho : Listed c job.measurement job.day o := (hmerged.mem_iff o).mp List.mem_cons_self
  have hnone : (ColdStore.delete c o.objectKey).files o.objectKey = none := by
    rw [files_delete, if_pos rfl]
  refine ⟨?_, ?_, ?_, ?_, ⟨hmerged.nonempty, hmerged.slash, hmerged.free, hmerged.due, ?_,
    hmerged.nodup, hmerged.sorted, ?_⟩, ⟨hlisted, hnone⟩, hnew, ?_⟩
  · exact hwf.shrink (fun k e hk _ => ⟨hk, fileRows_delete_subset _ _⟩) hwf.cold
  · intro m day hs
    obtain ⟨g, hg, hg'⟩ := hstuck m day hs
    refine ⟨g, (listed_delete _ _ _ _).mpr hg, ?_⟩
    rw [files_delete, hg', ite_self]
  · rintro m r ⟨k, e, rows, hk, hm, hP, hrows, hr⟩
    obtain ⟨rows', hrows', hr'⟩ := fileRows_delete_subset _ _ ⟨rows, hrows, hr⟩
    exact hsub m ⟨k, e, rows', hk, hm, hP, hrows', hr'⟩
  · exact fun m r hr => hmerged.secured_delete hwf hlisted hr (hsec m r hr)
  · exact fun g => (hmerged.mem_iff g).trans (listed_delete _ _ _ _).symm
  · rintro r hr ⟨g, hg, hmem⟩
    have hne : jobKey job ≠ o.objectKey := (ho.key_ne_coldKey hwf _ _ _).symm
    have hkept : (ColdStore.delete c o.objectKey).files (jobKey job) = c.files (jobKey job) := by
      rw [files_delete, if_neg hne]
    rw [fileRows_congr hkept]
    exact hmerged.output r hr ⟨g, hg, fileRows_delete_subset _ _ hmem⟩
  · exact hgroups.congr fun _ _ g => listed_delete _ _ _ g

theorem listed_forget {m' day' : Str} (ho : Listed c m' day' o) (m day : Str) (f : ObjectMeta) :
    Listed (forget c o.objectKey) m day f ↔ Listed c m day f ∧ f ≠ o := by
  constructor
  · intro h
    have hentry := h.entry
    rw [get?_forget] at hentry
    split at hentry
    · contradiction
    · rename_i hne
      exact ⟨⟨hentry, h.measurement, h.staging, h.day⟩, fun heq => hne (congrArg _ heq)⟩
  · rintro ⟨h, hne⟩
    refine ⟨?_, h.measurement, h.staging, h.day⟩
    rw [get?_forget, if_neg fun hk => hne (h.eq_of_key ho hk)]
    exact h.entry

theorem Merged.secured_forget (h : Merged stuck c₀ c job (o :: rest)) (hwf : Wf c)
    (hlisted : OutputListed c job) (hnone : c.files o.objectKey = none) {m : Str} {r : Row V}
    (hr : Winner c₀ m r) (hs : Secured stuck c m r) :
    Secured stuck (forget c o.objectKey) m r := by
  have ho : Listed c job.measurement job.day o := (h.mem_iff o).mp List.mem_cons_self
  have hcold : ∀ k e, c.manifest.get? k = some e → e.kind = .cold →
      (forget c o.objectKey).manifest.get? k = some e := by
    intro k e hk hkind
    rw [get?_forget, if_neg (cold_key_ne hwf hk hkind ho)]
    exact hk
  cases hs with
  | compacted k e hk hm hkind hmem hsafe =>
    refine .compacted k e (hcold k e hk hkind) hm hkind hmem ?_
    intro day f hf
    obtain ⟨hfl, hfo⟩ := (listed_forget ho m day f).mp hf.listed
    refine hsafe day f ⟨hfl, hf.exists_file, ?_⟩
    intro g hg hlt
    by_cases hgo : g = o
    · subst hgo
      have hm : m = job.measurement := hg.measurement.symm.trans ho.measurement
      have hday : day = job.day := hg.day.symm.trans ho.day
      subst hm hday
      exact (h.head_le ((List.mem_cons.mp ((h.mem_iff f).mpr hfl)).resolve_left hfo)).1
    · exact hf.before g ((listed_forget ho m day g).mpr ⟨hg, hgo⟩) hlt
  | staged day o' ho' hmem hfirst =>
    have hoo : o' ≠ o := by
      rintro rfl
      obtain ⟨rows, hrows, -⟩ := hmem
      rw [hnone] at hrows
      contradiction
    have hstays : Listed (forget c o.objectKey) m day o' := (listed_forget ho m day o').mpr ⟨ho', hoo⟩
    -- a new smallest number is one that was there before, unless `o` had it
    have hkeep : (∀ f, First (forget c o.objectKey) m day f → First c m day f) →
        Secured stuck (forget c o.objectKey) m r := fun hf =>
      .staged day o' hstays hmem (hfirst.imp_right fun hall f hf' => hall f (hf f hf'))
    by_cases hmd : m = job.measurement ∧ day = job.day
    · obtain ⟨rfl, rfl⟩ := hmd
      by_cases hleast : ∀ g ∈ rest, o.minSeq ≤ g.minSeq
      · obtain ⟨e, he, hm, hkind⟩ := hlisted
        refine h.secured_output hwf hleast hr ⟨o', (h.mem_iff o').mpr ho', hmem⟩
          ⟨e, hcold _ e he hkind, hm, hkind⟩ rfl ?_
        exact fun day f hf => (listed_forget ho _ day f).mp hf.listed
      · push Not at hleast
        obtain ⟨g, hg, hlt⟩ := hleast
        have hgl := (h.mem_iff g).mp (List.mem_cons_of_mem _ hg)
        have hgo : g ≠ o := fun heq => by
          rw [heq] at hlt
          omega
        refine hkeep fun f hf => ⟨((listed_forget ho _ _ f).mp hf.listed).1, ?_⟩
        intro x hx
        by_cases hxo : x = o
        · have hle := hf.least g ((listed_forget ho _ _ g).mpr ⟨hgl, hgo⟩)
          rw [hxo]
          omega
        · exact hf.least x ((listed_forget ho _ _ x).mpr ⟨hx, hxo⟩)
    · have hne : ∀ x, Listed c m day x → x ≠ o := by
        rintro x hx rfl
        exact hmd ⟨hx.measurement.symm.trans ho.measurement, hx.day.symm.trans ho.day⟩
      refine hkeep fun f hf => ⟨((listed_forget ho m day f).mp hf.listed).1, ?_⟩
      exact fun x hx => hf.least x ((listed_forget ho m day x).mpr ⟨hx, hne x hx⟩)

theorem Inv.forget {groups : List (Str × List ObjectMeta)} {todo : List Str}
    (h : Inv stuck c₀ (c, .forgetting job o rest groups todo)) :
    Inv stuck c₀ (forget c o.objectKey, .removing job rest groups todo) := by
  obtain ⟨hwf, hstuck, hsub, hsec, hmerged, ⟨hlisted, hnone⟩, hnew, hgroups⟩ := h
  have ho : Listed c job.measurement job.day o := (hmerged.mem_iff o).mp List.mem_cons_self
  have hfewer : ∀ k e, (ColdStore.forget c o.objectKey).manifest.get? k = some e →
      c.manifest.get? k = some e := by
    intro k e hk
    rw [get?_forget] at hk
    split at hk
    · contradiction
    · exact hk
  have hrest : ∀ g, g ∈ rest ↔ Listed (ColdStore.forget c o.objectKey) job.measurement job.day g := by
    intro g
    rw [listed_forget ho, ← hmerged.mem_iff, List.mem_cons]
    constructor
    · intro hg
      refine ⟨Or.inr hg, ?_⟩
      rintro rfl
      exact (List.nodup_cons.mp hmerged.nodup).1 hg
    · rintro ⟨rfl | hg, hne⟩
      · exact absurd rfl hne
      · exact hg
  refine ⟨?_, ?_, ?_, ?_, ⟨hmerged.nonempty, hmerged.slash, hmerged.free, ?_, hrest,
    (List.nodup_cons.mp hmerged.nodup).2, (List.pairwise_cons.mp hmerged.sorted).2, ?_⟩, ?_, hnew, ?_⟩
  · exact hwf.shrink (fun k e hk _ => ⟨hfewer k e hk, Set.Subset.refl _⟩)
      fun k e hk => hwf.cold k e (hfewer k e hk)
  · intro m day hs
    obtain ⟨g, hg, hg'⟩ := hstuck m day hs
    refine ⟨g, (listed_forget ho m day g).mpr ⟨hg, ?_⟩, hg'⟩
    rintro rfl
    have hm : m = job.measurement := hg.measurement.symm.trans ho.measurement
    have hday : day = job.day := hg.day.symm.trans ho.day
    exact hmerged.free (hm ▸ hday ▸ hs)
  · rintro m r ⟨k, e, rows, hk, hm, hP, hrows, hr⟩
    exact hsub m ⟨k, e, rows, hfewer k e hk, hm, hP, hrows, hr⟩
  · exact fun m r hr => hmerged.secured_forget hwf hlisted hnone hr (hsec m r hr)
  · exact fun g hg => hmerged.due g (List.mem_cons_of_mem _ hg)
  · rintro r hr ⟨g, hg, hmem⟩
    exact hmerged.output r hr ⟨g, List.mem_cons_of_mem _ hg, hmem⟩
  · obtain ⟨e, he, hm, hkind⟩ := hlisted
    refine ⟨e, ?_, hm, hkind⟩
    rw [get?_forget, if_neg (cold_key_ne hwf he hkind ho)]
    exact he
  · refine hgroups.congr fun day hday g => ?_
    rw [listed_forget ho]
    refine and_iff_left_of_imp ?_
    rintro hg rfl
    exact hnew ((hg.day.symm.trans ho.day) ▸ hday)

end Remove

section Run

/-- A pass that goes nowhere with the same store. -/
theorem Inv.move {pass pass' : Pass} (h : Inv stuck c₀ (c, pass)) (hok : PassOk stuck c₀ c pass') :
    Inv stuck c₀ (c, pass') :=
  ⟨h.wf, h.remain, h.sub, h.secured, hok⟩

theorem Inv.advance {pass pass' : Pass} {c' : Cold V} (h : Inv stuck c₀ (c, pass))
    (hstep : Passes.step c pass = some (pass', c')) : Inv stuck c₀ (c', pass') := by
  cases pass with
  | idle => contradiction
  | listing todo =>
    cases todo with
    | nil =>
      cases hstep
      exact h.move trivial
    | cons m todo =>
      cases hstep
      exact h.move (groupsOk_listing c m)
  | merging m groups todo =>
    cases groups with
    | nil =>
      cases hstep
      exact h.move trivial
    | cons g groups =>
      obtain ⟨day, objs⟩ := g
      simp only [Passes.step] at hstep
      split at hstep
      · cases hstep
        exact h.move trivial
      · rename_i c₁ n hmerge
        cases hstep
        obtain ⟨rows, hread, rfl, -⟩ := Engine.compact_some hmerge
        exact h.merge n hread
  | recording job n groups todo =>
    cases hstep
    exact h.record
  | removing job rest groups todo =>
    cases rest with
    | nil =>
      cases hstep
      exact h.move h.working.2.2.2
    | cons o rest =>
      cases hstep
      exact h.delete
  | forgetting job o rest groups todo =>
    cases hstep
    exact h.forget
  | ended ok => contradiction

theorem step_inv (s : Cold V × Pass) (e : Event) (t : Cold V × Pass) (h : Inv stuck c₀ s)
    (hstep : step s e = some t) : Inv stuck c₀ t := by
  cases e with
  | begin measurement =>
    simp only [step] at hstep
    split at hstep
    · cases hstep
      exact h.move trivial
    · contradiction
  | advance =>
    obtain ⟨⟨pass, c'⟩, hp, rfl⟩ := Option.map_eq_some_iff.mp hstep
    exact h.advance hp
  | stop =>
    cases hstep
    exact h.move trivial

end Run

end TimescaleLp.Restart
