import TimescaleLp.Schedule

/-!
Commit order against sequence order. Sequence numbers are drawn before a call
waits for the object store and the connection pool, and the upsert overwrites
whatever it finds. The hot row of a key is therefore the one committed last,
which is the newest exactly when commits of a key follow the order of the draws.
-/
namespace TimescaleLp.CommitOrder

open Schedule Batches

variable {F ι κ : Type}

/-- The hot row of a key carries the highest sequence number committed for it. -/
def HotNewest (s : Sys F ι κ) : Prop :=
  ∀ table k r, Newest (rowsOf s.committed table) k r →
    ∃ stored, (s.world.hot table).get? k = some stored ∧ stored.seq = r.seq

/-- No call committed before holds a higher sequence number for a key of the batch. -/
def InOrder (writeThroughOn : Bool) (s : Sys F ι κ) : Event F ι κ → Prop
  | .commit w => ∀ b, ready writeThroughOn (s.writers w) = some b → ∀ r ∈ b.records,
      ∀ r' ∈ rowsOf s.committed b.table, r'.key = r.key → r'.seq ≤ r.seq
  | _ => True

/-- Hot rows and committed rows have the same keys, and a hot row carries the
sequence number of a committed one. -/
structure Inv (s : Sys F ι κ) : Prop where
  hot_committed : ∀ table k stored, (s.world.hot table).get? k = some stored →
    ∃ r ∈ rowsOf s.committed table, r.key = k ∧ r.seq = stored.seq
  committed_hot : ∀ table, ∀ r ∈ rowsOf s.committed table,
    ∃ stored, (s.world.hot table).get? r.key = some stored
  keys : ∀ w b, holds (s.writers w) = some b → (b.records.map Row.key).Nodup

theorem start_inv (n : ℕ) : Inv (start n : Sys F ι κ) where
  hot_committed := by simp [start]
  committed_hot := by simp [start, rowsOf]
  keys := by simp [start, holds]

theorem HotNewest.le {s : Sys F ι κ} (h : HotNewest s) {table : Str} {r : Row (Value F)}
    (hr : r ∈ rowsOf s.committed table) {stored : Stored (Value F)}
    (hstored : (s.world.hot table).get? r.key = some stored) : r.seq ≤ stored.seq := by
  obtain ⟨newest, hnewest⟩ := exists_newest s.committed table r hr
  obtain ⟨stored', hstored', hseq⟩ := h table r.key newest hnewest
  cases hstored.symm.trans hstored'
  exact hseq ▸ hnewest.2.2 r hr rfl

/-- Under the invariant, being newest means that no committed row is newer. -/
theorem hotNewest_iff {s : Sys F ι κ} (hs : Inv s) : HotNewest s ↔
    ∀ table, ∀ r ∈ rowsOf s.committed table, ∀ stored,
      (s.world.hot table).get? r.key = some stored → r.seq ≤ stored.seq := by
  refine ⟨fun h table r hr stored hstored => h.le hr hstored, ?_⟩
  rintro h table k r ⟨hr, rfl, hmax⟩
  obtain ⟨stored, hstored⟩ := hs.committed_hot table r hr
  obtain ⟨r', hr', hkey, hseq⟩ := hs.hot_committed table r.key stored hstored
  exact ⟨stored, hstored, le_antisymm (hseq ▸ hmax r' hr' hkey) (h table r hr stored hstored)⟩

/-- The test for a hot row that is older than a committed one. -/
def stale (s : Sys F ι κ) (table : Str) (k : Key) : Bool :=
  ((s.world.hot table).get? k).any fun stored =>
    s.committed.any fun b => decide (b.table = table) &&
      b.records.any fun r => decide (r.key = k) && decide (stored.seq < r.seq)

theorem not_hotNewest_of_stale {s : Sys F ι κ} {table : Str} {k : Key}
    (h : stale s table k = true) : ¬HotNewest s := by
  intro hnewest
  obtain ⟨stored, hstored, hany⟩ := (Option.any_eq_true _ _).mp h
  simp only [List.any_eq_true, Bool.and_eq_true, decide_eq_true_eq] at hany
  obtain ⟨b, hb, htable, r, hr, rfl, hlt⟩ := hany
  have hle := hnewest.le ⟨b, hb, htable, hr⟩ hstored
  omega

section Commit

variable [DecidableEq ι] {s : Sys F ι κ} {w : ι} {b : Batch F}
  {t : Table (Value F)}

theorem commit_inv (hs : Inv s) (hkeys : (b.records.map Row.key).Nodup)
    (ht : Store.commit b (s.world.hot b.table) = some t) : Inv (commit s w b t) where
  hot_committed := by
    intro table k stored hstored
    show ∃ r ∈ rowsOf (s.committed ++ [b]) table, _
    rw [rowsOf_append]
    rcases get?_hot_commit hkeys ht table k with ⟨r, hr, htable, hkey, hget⟩ | ⟨-, hget⟩
    · cases hget.symm.trans hstored
      exact ⟨r, Or.inr ⟨htable, hr⟩, hkey, rfl⟩
    · obtain ⟨r, hr, hkey, hseq⟩ := hs.hot_committed table k stored (hget ▸ hstored)
      exact ⟨r, Or.inl hr, hkey, hseq⟩
  committed_hot := by
    intro table r hr
    replace hr : r ∈ rowsOf (s.committed ++ [b]) table := hr
    rw [rowsOf_append] at hr
    rcases get?_hot_commit hkeys ht table r.key with ⟨r', -, -, -, hget⟩ | ⟨hnone, hget⟩
    · exact ⟨_, hget⟩
    · rw [hget]
      rcases hr with hr | ⟨htable, hr⟩
      · exact hs.committed_hot table r hr
      · exact absurd rfl (hnone htable r hr)
  keys := forall_holds_update hs.keys w .idle (by simp [holds])

/-- A commit keeps every hot row newest exactly if it comes in order. -/
theorem commit_hotNewest_iff {writeThroughOn : Bool} (hs : Inv s) (hP : HotNewest s)
    (hkeys : (b.records.map Row.key).Nodup)
    (hb : ready writeThroughOn (s.writers w) = some b)
    (ht : Store.commit b (s.world.hot b.table) = some t) :
    HotNewest (commit s w b t) ↔ InOrder writeThroughOn s (.commit w) := by
  have hs' : Inv (commit s w b t) := commit_inv hs hkeys ht
  rw [hotNewest_iff hs] at hP
  rw [hotNewest_iff hs']
  constructor
  · intro h b' hb' r hr r' hr' hkey
    cases hb.symm.trans hb'
    rcases get?_hot_commit hkeys ht b.table r.key (w := w) with
      ⟨r'', hr'', -, hkey'', hget⟩ | ⟨hnone, -⟩
    · have hsame : r'' = r := List.inj_on_of_nodup_map hkeys hr'' hr hkey''
      subst hsame
      have hold : r' ∈ rowsOf (s.committed ++ [b]) b.table := by
        rw [rowsOf_append]
        exact Or.inl hr'
      exact h b.table r' hold _ (hkey ▸ hget)
    · exact absurd rfl (hnone rfl r hr)
  · intro horder table r hr stored hstored
    replace hr : r ∈ rowsOf (s.committed ++ [b]) table := hr
    rw [rowsOf_append] at hr
    rcases get?_hot_commit hkeys ht table r.key (w := w) with
      ⟨r', hr', htable, hkey, hget⟩ | ⟨hnone, hget⟩
    · cases hget.symm.trans hstored
      rcases hr with hr | ⟨-, hr⟩
      · exact horder b hb r' hr' r (htable ▸ hr) hkey.symm
      · rw [List.inj_on_of_nodup_map hkeys hr hr' hkey.symm]
        exact le_rfl
    · rcases hr with hr | ⟨htable, hr⟩
      · exact hP table r hr stored (hget ▸ hstored)
      · exact absurd rfl (hnone htable r hr)

end Commit

/-- Both properties speak of sequence numbers only. -/
theorem inv_of_seqs {s t : Sys F ι κ} (hs : Inv s) (hcommitted : t.committed = s.committed)
    (hseq : ∀ table k, ((t.world.hot table).get? k).map Stored.seq =
      ((s.world.hot table).get? k).map Stored.seq)
    (hkeys : ∀ w b, holds (t.writers w) = some b → (b.records.map Row.key).Nodup) : Inv t where
  hot_committed := by
    intro table k stored hstored
    have h := hseq table k
    rw [hstored, Option.map_some, eq_comm, Option.map_eq_some_iff] at h
    obtain ⟨old, hold, hsame⟩ := h
    rw [hcommitted, ← hsame]
    exact hs.hot_committed table k old hold
  committed_hot := by
    intro table r hr
    rw [hcommitted] at hr
    obtain ⟨old, hold⟩ := hs.committed_hot table r hr
    have h := hseq table r.key
    rw [hold, Option.map_some, Option.map_eq_some_iff] at h
    obtain ⟨stored, hstored, -⟩ := h
    exact ⟨stored, hstored⟩
  keys := hkeys

theorem hotNewest_of_seqs {s t : Sys F ι κ} (h : HotNewest s)
    (hcommitted : t.committed = s.committed)
    (hseq : ∀ table k, ((t.world.hot table).get? k).map Stored.seq =
      ((s.world.hot table).get? k).map Stored.seq) : HotNewest t := by
  intro table k r hr
  rw [hcommitted] at hr
  obtain ⟨old, hold, hr⟩ := h table k r hr
  have hmap := hseq table k
  rw [hold, Option.map_some, Option.map_eq_some_iff] at hmap
  obtain ⟨stored, hstored, hsame⟩ := hmap
  exact ⟨stored, hstored, hsame.trans hr⟩

section Run

variable [DecidableEq ι] [DecidableEq κ] [Numerics F] (digest : Str → ℕ) (writeThroughOn : Bool)

theorem change_inv {s t : Sys F ι κ} {e : Event F ι κ} (hs : Inv s)
    (h : Change writeThroughOn s e t) : Inv t := by
  cases h with
  | built hidle hn hdrawn =>
    refine inv_of_seqs hs rfl (fun _ _ => rfl) (forall_holds_update hs.keys _ _ ?_)
    rintro b hb
    cases hb
    exact hdrawn.keys
  | refused hn => exact inv_of_seqs hs rfl (fun _ _ => rfl) hs.keys
  | staged hb hon =>
    refine inv_of_seqs hs rfl (fun _ _ => rfl) (forall_holds_update hs.keys _ _ ?_)
    rintro b hb'
    exact hs.keys _ b (by rw [hb]; exact hb')
  | recorded hb =>
    refine inv_of_seqs hs rfl (fun _ _ => rfl) (forall_holds_update hs.keys _ _ ?_)
    rintro b hb'
    exact hs.keys _ b (by rw [hb]; exact hb')
  | committed hb ht => exact commit_inv hs (hs.keys _ _ (holds_of_ready _ hb)) ht
  | abandoned =>
    exact inv_of_seqs hs rfl (fun _ _ => rfl) (forall_holds_update hs.keys _ _ (by simp [holds]))
  | promoted => exact inv_of_seqs hs rfl (seq_hot_promote _ _ _ _ _) hs.keys
  | began hp => exact inv_of_seqs hs rfl (fun _ _ => rfl) hs.keys
  | advanced hp => exact inv_of_seqs hs rfl (fun _ _ => rfl) hs.keys

theorem change_hotNewest_iff {s t : Sys F ι κ} {e : Event F ι κ} (hs : Inv s) (hP : HotNewest s)
    (h : Change writeThroughOn s e t) : HotNewest t ↔ InOrder writeThroughOn s e := by
  cases h with
  | committed hb ht =>
    exact commit_hotNewest_iff hs hP (hs.keys _ _ (holds_of_ready _ hb)) hb ht
  | built => exact iff_of_true (hotNewest_of_seqs hP rfl fun _ _ => rfl) trivial
  | refused => exact iff_of_true (hotNewest_of_seqs hP rfl fun _ _ => rfl) trivial
  | staged => exact iff_of_true (hotNewest_of_seqs hP rfl fun _ _ => rfl) trivial
  | recorded => exact iff_of_true (hotNewest_of_seqs hP rfl fun _ _ => rfl) trivial
  | abandoned => exact iff_of_true (hotNewest_of_seqs hP rfl fun _ _ => rfl) trivial
  | promoted => exact iff_of_true (hotNewest_of_seqs hP rfl (seq_hot_promote _ _ _ _ _)) trivial
  | began => exact iff_of_true (hotNewest_of_seqs hP rfl fun _ _ => rfl) trivial
  | advanced => exact iff_of_true (hotNewest_of_seqs hP rfl fun _ _ => rfl) trivial

/-- The hot rows are newest throughout a run exactly if every commit of the run
comes after the commits of its keys with lower sequence numbers only. -/
theorem always_hotNewest_iff (n : ℕ) (es : List (Event F ι κ)) :
    Runs.Always (step digest writeThroughOn) HotNewest (start n) es ↔
      Runs.Along (step digest writeThroughOn) (InOrder writeThroughOn) (start n) es := by
  refine Runs.always_iff_along (I := Inv) ?_ ?_ (start_inv n) ?_
  · exact fun s e t hs h => change_inv writeThroughOn hs (change_of_step _ _ h)
  · exact fun s e t hs hP h => change_hotNewest_iff writeThroughOn hs hP (change_of_step _ _ h)
  · rintro table k r ⟨hr, -, -⟩
    simp [start, rowsOf] at hr

end Run

/-- Two calls write a field of one key; the one that drew first commits last. -/
def crossedCommits : List (Event ℤ Bool Unit) :=
  [.build false cpuSchema [cpuPoint 0 1], .build true cpuSchema [cpuPoint 0 2], .commit true,
    .commit false]

theorem crossedCommits_stale : ¬∀ es : List (Event ℤ Bool Unit),
    Runs.Always (step (fun _ => 0) false) HotNewest (start 1) es := by
  intro h
  have hrun : (Runs.exec (step (fun _ => 0) false) (start 1) crossedCommits).any
      (stale · "cpu".toList ⟨0, 0⟩) = true := by decide +kernel
  obtain ⟨s, hs, hstale⟩ := (Option.any_eq_true _ _).mp hrun
  exact not_hotNewest_of_stale hstale ((h crossedCommits).last hs)

end TimescaleLp.CommitOrder
