import TimescaleLp.Custody

/-!
Manifest entries without a file. Write-through and a merge store the object
before they list it, but a pass deletes the file of a merged object before it
drops the entry, so between the two calls the manifest lists a missing object.
Nothing else does: the manifest is sound exactly until a pass removes the first
of the objects it has merged.
-/
namespace TimescaleLp.Dangling

open Schedule Vault ColdStore Tiering Passes Custody

variable {F ι : Type}

/-- Each listed object can be read. -/
def Backed {V : Type} (c : Cold V) : Prop :=
  ∀ k e, c.manifest.get? k = some e → ∃ rows, c.files k = some rows

/-- The staging objects a pass has listed and still counts on. -/
def due : Pass → List ObjectMeta
  | .merging _ groups _ => groups.flatMap Prod.snd
  | .recording job _ groups _ => job.objs ++ groups.flatMap Prod.snd
  | .removing _ rest groups _ => rest ++ groups.flatMap Prod.snd
  | .forgetting _ o rest groups _ => o :: rest ++ groups.flatMap Prod.snd
  | _ => []

/-- The pass is about to delete the file of an object it has merged. -/
def removes : Pass → Bool
  | .removing _ (_ :: _) _ _ => true
  | _ => false

/-- The step does not start to remove a merged object. -/
def Retains (s : Sys F ι Unit) : Event F ι Unit → Prop
  | .advance p => removes (s.passes p) = false
  | _ => True

/-- What is due is in the manifest, each object once. -/
structure Due {V : Type} (c : Cold V) (pass : Pass) : Prop where
  listed : ∀ o ∈ due pass, ∃ e, c.manifest.get? o.objectKey = some e
  distinct : ((due pass).map ObjectMeta.objectKey).Nodup

structure Inv (s : Sys F ι Unit) : Prop where
  custody : Custody.Inv s
  due : Due s.world.cold (s.passes ())

section Cold

variable {V : Type} {c c' : Cold V} {pass pass' : Pass}

theorem due_nil (h : due pass = []) : Due c pass where
  listed := by simp [h]
  distinct := by simp [h]

theorem Due.mono (h : Due c pass) (hdue : (due pass').Sublist (due pass))
    (hlisted : ∀ k e, c.manifest.get? k = some e → ∃ e', c'.manifest.get? k = some e') :
    Due c' pass' where
  listed o ho := by
    obtain ⟨e, he⟩ := h.listed o (hdue.subset ho)
    exact hlisted _ e he
  distinct := h.distinct.sublist (hdue.map _)

theorem listed_record (c : Cold V) (new : ObjectMeta) (k : Str) (e : ManifestRow)
    (h : c.manifest.get? k = some e) : ∃ e', (record c new).manifest.get? k = some e' := by
  by_cases hk : k = new.objectKey
  · subst hk
    exact ⟨_, get?_record_self c new⟩
  · exact ⟨e, (get?_record_of_ne c new hk).trans h⟩

/-- What a listing plans to merge. -/
theorem due_plan (c : Cold V) (m : Str) (todo : List Str) :
    Due c (.merging m (planCompaction (objects c m (some .staging))).entries todo) where
  listed o ho := by
    obtain ⟨⟨day, objs⟩, hg, ho⟩ := List.mem_flatMap.mp ho
    rw [(Dict.mem_groupBy_entries _ _ day objs hg).1] at ho
    exact ⟨_, ((mem_objects_iff c m _ o).mp (List.mem_filter.mp ho).1).1⟩
  distinct := Dict.nodup_map_groupBy _ _ _ (objectKeys_nodup c m _)

/-- The object that is forgotten is not due again. -/
theorem Due.forget {job : Job} {o : ObjectMeta} {rest : List ObjectMeta}
    {groups : List (Str × List ObjectMeta)} {todo : List Str}
    (h : Due c (.forgetting job o rest groups todo)) :
    Due (forget c o.objectKey) (.removing job rest groups todo) where
  listed o' ho' := by
    have hne : o'.objectKey ≠ o.objectKey := by
      intro heq
      have hnodup := h.distinct
      simp only [due, List.cons_append, List.map_cons, List.nodup_cons] at hnodup
      exact hnodup.1 (heq ▸ List.mem_map_of_mem ho')
    rw [get?_forget, if_neg hne]
    exact h.listed o' (List.mem_cons_of_mem o ho')
  distinct := (List.nodup_cons.mp h.distinct).2

theorem Due.step (h : Due c pass) (hstep : Passes.step c pass = some (pass', c')) :
    Due c' pass' := by
  cases pass with
  | idle => contradiction
  | listing todo =>
    cases todo with
    | nil =>
      cases hstep
      exact due_nil rfl
    | cons m todo =>
      cases hstep
      exact due_plan c m todo
  | merging m groups todo =>
    cases groups with
    | nil =>
      cases hstep
      exact due_nil rfl
    | cons g groups =>
      obtain ⟨day, objs⟩ := g
      simp only [Passes.step] at hstep
      split at hstep
      · cases hstep
        exact due_nil rfl
      · rename_i c₁ n hmerge
        cases hstep
        obtain ⟨rows, -, rfl, -⟩ := Engine.compact_some hmerge
        exact h.mono (List.Sublist.refl _) fun k e he => ⟨e, he⟩
  | recording job rows groups todo =>
    cases hstep
    exact h.mono (List.Sublist.refl _) (listed_record c _)
  | removing job rest groups todo =>
    cases rest with
    | nil =>
      cases hstep
      exact h.mono (List.Sublist.refl _) fun k e he => ⟨e, he⟩
    | cons o rest =>
      cases hstep
      exact h.mono (List.Sublist.refl _) fun k e he => ⟨e, he⟩
  | forgetting job o rest groups todo =>
    cases hstep
    exact h.forget
  | ended ok => contradiction

theorem Backed.mono (h : Backed c) (hmanifest : ∀ k e, c'.manifest.get? k = some e →
      ∃ e', c.manifest.get? k = some e')
    (hfiles : ∀ k rows, c.files k = some rows → ∃ rows', c'.files k = some rows') : Backed c' := by
  intro k e he
  obtain ⟨e', he'⟩ := hmanifest k e he
  obtain ⟨rows, hrows⟩ := h k e' he'
  exact hfiles k rows hrows

theorem Backed.writeTable (h : Backed c) (k : Str) (rows : List (Row V)) :
    Backed (writeTable c k rows) := by
  refine h.mono (fun a e he => ⟨e, he⟩) fun a rows' hrows' => ?_
  rw [files_writeTable]
  split
  · exact ⟨rows, rfl⟩
  · exact ⟨rows', hrows'⟩

/-- An object that is stored can be listed. -/
theorem Backed.record (h : Backed c) {new : ObjectMeta} {rows : List (Row V)}
    (hfile : c.files new.objectKey = some rows) : Backed (record c new) := by
  intro k e he
  by_cases hk : k = new.objectKey
  · subst hk
    exact ⟨rows, hfile⟩
  · rw [get?_record_of_ne c new hk] at he
    exact h k e he

theorem Backed.forget (h : Backed c) (k : Str) : Backed (forget c k) := by
  refine h.mono (fun a e he => ?_) fun a rows hrows => ⟨rows, hrows⟩
  rw [get?_forget] at he
  split at he
  · contradiction
  · exact ⟨e, he⟩

end Cold

section Step

variable {c c' : Cold (Value F)} {pass pass' : Pass} {log : List (Batch F)}

/-- The output of a merge is stored. -/
theorem exists_output {job : Job} (hlog : LogOk log) (h : Merged c log job) :
    ∃ rows, c.files (jobKey job) = some rows := by
  obtain ⟨b, hb, ho, -⟩ := h.ok.first
  obtain ⟨r, hr⟩ := List.exists_mem_of_ne_nil _ (hlog.nonempty b hb)
  obtain ⟨s, ⟨rows, hrows, -⟩, -⟩ := h.covers r ⟨b, hb, ho, hr⟩
  exact ⟨rows, hrows⟩

/-- A step of the pass keeps the manifest sound exactly if it removes nothing. -/
theorem backed_step_iff (hbacked : Backed c) (hdue : Due c pass) (hlog : LogOk log)
    (hok : PassOk c log pass) (hstep : Passes.step c pass = some (pass', c')) :
    Backed c' ↔ removes pass = false := by
  cases pass with
  | idle => contradiction
  | listing todo => cases todo <;> cases hstep <;> exact iff_of_true hbacked rfl
  | merging m groups todo =>
    refine iff_of_true ?_ rfl
    cases groups with
    | nil =>
      cases hstep
      exact hbacked
    | cons g groups =>
      obtain ⟨day, objs⟩ := g
      simp only [Passes.step] at hstep
      split at hstep
      · cases hstep
        exact hbacked
      · rename_i c₁ n hmerge
        cases hstep
        obtain ⟨rows, -, rfl, -⟩ := Engine.compact_some hmerge
        exact hbacked.writeTable _ _
  | recording job rows groups todo =>
    cases hstep
    obtain ⟨rows', hrows'⟩ := exists_output hlog hok.1
    exact iff_of_true (hbacked.record hrows') rfl
  | removing job rest groups todo =>
    cases rest with
    | nil =>
      cases hstep
      exact iff_of_true hbacked rfl
    | cons o rest =>
      cases hstep
      refine iff_of_false ?_ (by simp [removes])
      intro hbacked'
      obtain ⟨e, he⟩ := hdue.listed o List.mem_cons_self
      obtain ⟨rows', hrows'⟩ := hbacked' o.objectKey e he
      rw [files_delete, if_pos rfl] at hrows'
      contradiction
  | forgetting job o rest groups todo =>
    cases hstep
    exact iff_of_true (hbacked.forget _) rfl
  | ended ok => contradiction

variable [DecidableEq ι] [Numerics F] {s t : Sys F ι Unit} {e : Event F ι Unit}

theorem change_due (hs : Due s.world.cold (s.passes ())) (h : Change true s e t) :
    Due t.world.cold (t.passes ()) := by
  cases h with
  | built hidle hn hdrawn => exact hs
  | refused hn => exact hs
  | staged hb hon => exact hs.mono (List.Sublist.refl _) fun k e he => ⟨e, he⟩
  | recorded hb => exact hs.mono (List.Sublist.refl _) (listed_record _ _)
  | committed hb ht => exact hs
  | abandoned => exact hs
  | promoted => exact hs
  | began hp => exact due_nil rfl
  | advanced hp => exact hs.step hp

theorem step_inv {digest : Str → ℕ} (hs : Inv s) (h : step digest true s e = some t) : Inv t where
  custody := Custody.step_inv digest hs.custody h
  due := change_due hs.due (change_of_step _ _ h)

theorem change_backed_iff (hs : Inv s) (hbacked : Backed s.world.cold) (h : Change true s e t) :
    Backed t.world.cold ↔ Retains s e := by
  cases h with
  | built hidle hn hdrawn => exact iff_of_true hbacked trivial
  | refused hn => exact iff_of_true hbacked trivial
  | staged hb hon => exact iff_of_true (hbacked.writeTable _ _) trivial
  | recorded hb => exact iff_of_true (hbacked.record (hs.custody.staged _ _ hb)) trivial
  | committed hb ht => exact iff_of_true hbacked trivial
  | abandoned => exact iff_of_true hbacked trivial
  | promoted => exact iff_of_true hbacked trivial
  | began hp => exact iff_of_true hbacked trivial
  | advanced hp =>
    exact backed_step_iff hbacked hs.due hs.custody.ledger.log (hs.custody.vault.working _) hp

end Step

theorem start_inv (n : ℕ) : Inv (start n : Sys F ι Unit) where
  custody := Custody.start_inv n
  due := due_nil rfl

section Run

variable [DecidableEq ι] [Numerics F]

/-- Every listed object is in the store throughout a run exactly if no pass of
the run gets as far as removing a merged object. -/
theorem always_backed_iff (digest : Str → ℕ) (n : ℕ) (es : List (Event F ι Unit)) :
    Runs.Always (step digest true) (fun s => Backed s.world.cold) (start n) es ↔
      Runs.Along (step digest true) Retains (start n) es := by
  refine Runs.always_iff_along (I := Inv) ?_ ?_ (start_inv n) ?_
  · exact fun s e t hs h => step_inv hs h
  · exact fun s e t hs hbacked h => change_backed_iff hs hbacked (change_of_step _ _ h)
  · intro k e he
    simp [start, ColdStore.empty] at he

end Run

/-- One write call, then a pass up to the deletion of the file it has merged. -/
def removedFile : List (Event ℤ Bool Unit) :=
  ingest false 0 ++ .begin () none :: List.replicate 4 (.advance ())

theorem removedFile_dangling : ¬∀ es : List (Event ℤ Bool Unit),
    Runs.Always (step (fun _ => 0) true) (fun s => Backed s.world.cold) (start 1) es := by
  intro h
  have hrun : (Runs.exec (step (fun _ => 0) true) (start 1) removedFile).any
      (fun s => s.world.cold.manifest.keys.any fun k => (s.world.cold.files k).isNone) = true := by
    decide +kernel
  obtain ⟨s, hs, hany⟩ := (Option.any_eq_true _ _).mp hrun
  obtain ⟨k, hk, hnone⟩ := List.any_eq_true.mp hany
  obtain ⟨e, he⟩ := (Dict.mem_keys_iff _ _).mp hk
  obtain ⟨rows, hrows⟩ := (h removedFile).last hs k e he
  rw [hrows] at hnone
  contradiction

end TimescaleLp.Dangling
