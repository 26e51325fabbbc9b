import TimescaleLp.Upkeep

/-!
Reads beside maintenance. A read of cold shows the newest version recorded, with hot
or without it; one that was planned earlier shows a version of some moment in between,
as the log only grows and objects are written once.
-/
namespace TimescaleLp.Upkeep

open Schedule Vault ColdStore Tiering Passes Sequence Replicas

variable {F ι μ : Type} [DecidableEq ι] [DecidableEq μ] [Numerics F] (digest : Str → ℕ)

section Run

variable {s t : Upkeep F ι μ}

omit [DecidableEq ι] [DecidableEq μ] [Numerics F] in
/-- The file of an object that was listed at some time. -/
theorem echoes_file (ht : Inv t) {recorded : List (Batch F)} {k : Str} {e : ManifestRow}
    (he : EntryOk recorded k e) (hrecorded : ∀ b ∈ recorded, b ∈ t.sys.recorded)
    {rows : List (Row (Value F))} (hrows : t.sys.world.cold.files k = some rows) :
    Echoes Row.key Row.seq {r | r ∈ rows} (t.log e.measurement) := by
  cases he with
  | staging b hb hk hmeta =>
    subst hk hmeta
    rw [ht.vault.stagingFiles b (hrecorded b hb) rows hrows]
    exact echoes_of_subset fun r hr => ⟨b, hrecorded b hb, rfl, hr⟩
  | cold day a hday hkind hk =>
    subst hk
    by_cases hexport : coldKey e.measurement day a ∈ exportKeys
    · obtain ⟨_, _, _, hk⟩ := hexport
      obtain rfl := coldKey_inj_seq hk
      exact ht.exported _ day rows hday hrows
    · exact echoes_of_subset (ht.vault.coldFiles _ day a rows hday hexport hrows).1

omit [DecidableEq ι] [DecidableEq μ] [Numerics F] in
theorem echoes_held (hs : Inv s) (table : Str) :
    Echoes Row.key Row.seq (held s.sys.world.cold table) (s.log table) := by
  rintro r ⟨k, e, rows, he, hm, -, hrows, hr⟩
  exact hm ▸ echoes_file hs (hs.vault.entries k e he) (fun _ hb => hb) hrows r hr

omit [DecidableEq ι] [DecidableEq μ] [Numerics F] in
theorem echoes_hot (hs : Inv s) (table : Str) :
    Echoes Row.key Row.seq {r | r ∈ Table.rows (s.sys.world.hot table)} (s.log table) :=
  fun r hr => hs.hot table r.key r.stored ((Table.mem_rows_iff _ r).mp hr)

omit [DecidableEq ι] [DecidableEq μ] [Numerics F] in
/-- A row of the log is covered by an object that no sweep writes and that pruning
keeps for each window with its time. -/
theorem exists_selected (hs : Inv s) {table : Str} {r : Row (Value F)} (hr : r ∈ s.log table)
    {start stop : Option Time} (hwindow : Pruning.InWindow start stop r.key.time) :
    ∃ o ∈ selectOverlapping (objects s.sys.world.cold table none) start stop,
      o.objectKey ∉ exportKeys ∧ ∃ rows, s.sys.world.cold.files o.objectKey = some rows ∧
        ∃ r' ∈ rows, r'.key = r.key ∧ r.seq ≤ r'.seq := by
  obtain ⟨r', ⟨k, e, rows, he, hm, hk, hrows, hr'⟩, hkey, hseq⟩ := hs.vault.covers table r hr
  have hwithin : Pruning.Within e rows := by
    cases hs.vault.entries k e he with
    | staging b hb hbk hmeta =>
      subst hbk hmeta
      rw [hs.vault.stagingFiles b hb rows hrows]
      exact Pruning.within_stagingMeta b
    | cold day a hday hkind hck =>
      subst hck
      obtain ⟨rs, hrs, hexact⟩ := hs.described.listed _ day a e hday hk he
      cases hrs.symm.trans hrows
      exact hexact.within
  have ho : ObjectMeta.mk e k ∈ objects s.sys.world.cold table none :=
    (mem_objects_iff _ _ _ _).mpr ⟨he, hm, Or.inl rfl⟩
  refine ⟨_, Pruning.mem_selectOverlapping ho hwithin hr' ?_, hk, rows, hrows, r', hr', hkey, hseq⟩
  rwa [hkey]

omit [DecidableEq ι] [DecidableEq μ] [Numerics F] in
theorem durable_of_inv (hs : Inv s) : Durable s where
  reads tier htier table start stop k hwindow := by
    refine Echoes.readsAs ?_ ?_
    · refine ((echoes_hot hs table).union (echoes_held hs table)).mono ?_ (Set.Subset.refl _)
      rintro r (⟨-, hr⟩ | ⟨-, o, ho, rows, hrows, hr⟩)
      · exact Or.inl hr
      · obtain ⟨he, hm, -⟩ := (mem_objects_iff _ _ _ _).mp (List.mem_of_mem_filter ho)
        exact Or.inr ⟨_, _, rows, he, hm, trivial, hrows, hr⟩
    · rintro t ht rfl
      obtain ⟨o, ho, -, rows, hrows, r, hr, hkey, hseq⟩ := exists_selected hs ht hwindow
      exact ⟨r, Or.inr ⟨htier, o, ho, rows, hrows, hr⟩, hkey, hseq⟩
  kept table k r hr := by
    have hcovers := hs.vault.covers table
    obtain ⟨r', hr', hkey, hseq⟩ := hcovers r hr.1
    have hlog := hs.vault.kept_subset table hr'
    have heq : r' = r := distinct_rowsOf hs.ledger.log table r' hlog r hr.1 hkey
      (le_antisymm (hr.2.2 r' hlog (hkey.trans hr.2.1)) hseq)
    obtain ⟨key, e, rows, he, hm, -, hrows, hmem⟩ := heq ▸ hr'
    exact ⟨key, e, rows, he, hm, trivial, hrows, hmem⟩

/-- What a later state has kept: the log, and the merged objects. -/
structure Later (s t : Upkeep F ι μ) : Prop where
  recorded : ∀ b ∈ s.sys.recorded, b ∈ t.sys.recorded
  merged : ∀ m day a rows, '/' ∉ day → coldKey m day a ∉ exportKeys →
    s.sys.world.cold.files (coldKey m day a) = some rows →
      t.sys.world.cold.files (coldKey m day a) = some rows

omit [DecidableEq ι] [DecidableEq μ] [Numerics F] in
theorem Later.trans {u : Upkeep F ι μ} (h : Later s t) (h' : Later t u) : Later s u where
  recorded b hb := h'.recorded b (h.recorded b hb)
  merged m day a rows hday hk hrows :=
    h'.merged m day a rows hday hk (h.merged m day a rows hday hk hrows)

omit [DecidableEq ι] [DecidableEq μ] [Numerics F] in
/-- A sweep writes and lists exported objects only. -/
theorem same_sweep {w w' : World (Value F)} {eligible : List (Time × Time)} {sweep sweep' : Sweep}
    (hstep : Sweeps.step w eligible sweep = some (sweep', w')) :
    ∀ k ∉ exportKeys, w'.cold.files k = w.cold.files k ∧
      w'.cold.manifest.get? k = w.cold.manifest.get? k := by
  intro k hk
  have hother : ∀ table time, k ≠ exportKey table time := by
    rintro table time rfl
    exact hk (exportKey_mem table time)
  cases sweep with
  | idle => contradiction
  | asking todo => cases todo <;> cases hstep <;> exact ⟨rfl, rfl⟩
  | listing table chunks todo =>
    cases hstep
    exact ⟨rfl, rfl⟩
  | sweeping table intervals chunks todo =>
    cases chunks with
    | nil =>
      cases hstep
      exact ⟨rfl, rfl⟩
    | cons chunk chunks =>
      simp only [Sweeps.step] at hstep
      split at hstep
      · cases hstep
        exact ⟨rfl, rfl⟩
      · cases hstep
        exact ⟨files_writeTable_of_ne _ _ (hother table chunk.1), rfl⟩
  | recording table chunk rows intervals chunks todo =>
    cases hstep
    exact ⟨rfl, get?_record_of_ne _ _ (hother table chunk.1)⟩
  | dropping table chunk intervals chunks todo =>
    cases hstep
    exact ⟨rfl, rfl⟩
  | ended ok => contradiction

theorem later_step {e : Event F ι μ} (hs : Inv s) (hstep : step digest s e = some t) :
    Later s t := by
  have hstill : ∀ q sweep, Later s (move s q sweep s.sys.world) :=
    fun _ _ => ⟨fun _ hb => hb, fun _ _ _ _ _ _ hrows => hrows⟩
  cases e with
  | sys e =>
    obtain ⟨sys, hsys, rfl⟩ := Option.map_eq_some_iff.mp hstep
    have hchange := change_of_step digest true hsys
    exact ⟨recorded_change hchange, fun _ _ _ _ _ _ hrows => merged_change hs.vault hchange hrows⟩
  | begin q tables =>
    simp only [step] at hstep
    split at hstep
    · cases hstep
      exact hstill _ _
    · contradiction
  | fail q =>
    simp only [step] at hstep
    split at hstep
    · contradiction
    · cases hstep
      exact hstill _ _
  | advance q eligible =>
    obtain ⟨⟨sweep, w⟩, hsweep, rfl⟩ := Option.map_eq_some_iff.mp hstep
    exact ⟨fun _ hb => hb, fun _ _ _ _ _ hk hrows => (same_sweep hsweep _ hk).1.trans hrows⟩

theorem later_exec {es : List (Event F ι μ)} (hs : Inv s)
    (h : Runs.exec (step digest) s es = some t) : Later s t := by
  induction es generalizing s with
  | nil => exact Option.some.inj h ▸ ⟨fun _ hb => hb, fun _ _ _ _ _ _ hrows => hrows⟩
  | cons e es ih =>
    obtain ⟨u, hu, ht⟩ := Runs.exec_cons h
    exact (later_step digest hs hu).trans (ih (step_inv digest hs hu) ht)

omit [DecidableEq ι] [DecidableEq μ] [Numerics F] in
/-- A listed object that is no export keeps its rows while it has a file. -/
theorem same_rows (hs : Inv s) (ht : Inv t) (hlater : Later s t) {k : Str} {e : ManifestRow}
    (he : s.sys.world.cold.manifest.get? k = some e) (hk : k ∉ exportKeys)
    {rows : List (Row (Value F))} (hrows : s.sys.world.cold.files k = some rows) :
    t.sys.world.cold.files k = some rows ∨
      e.kind = .staging ∧ t.sys.world.cold.files k = none := by
  cases hs.vault.entries k e he with
  | staging b hb hbk hmeta =>
    subst hbk hmeta
    cases hfile : t.sys.world.cold.files b.key with
    | none => exact Or.inr ⟨rfl, rfl⟩
    | some rows' =>
      rw [ht.vault.stagingFiles b (hlater.recorded b hb) rows' hfile,
        hs.vault.stagingFiles b hb rows hrows]
      exact Or.inl rfl
  | cold day a hday hkind hck =>
    subst hck
    exact Or.inl (hlater.merged _ day a rows hday hk hrows)

section Read

open Queries

variable {planned current : Service F} {q : Request} {table : Str} {rows : List (Row (Value F))}

omit [DecidableEq ι] [DecidableEq μ] [Numerics F] in
/-- What a query reads of an object it listed when it was planned. -/
theorem mem_rows_of_selected (hread : union current (refs planned q table) = some rows)
    {o : ObjectMeta} (ho : o ∈ selectOverlapping (objects planned.cold table none) q.start q.stop) :
    ∃ rs, current.cold.files o.objectKey = some rs ∧ ∀ r ∈ rs, r ∈ rows := by
  have href := (mem_refs_iff (s := planned) q table _).mpr
    (Or.inr ⟨List.ne_nil_of_mem ho, rfl⟩)
  obtain ⟨all, hall⟩ := exists_readRef hread _ href
  obtain ⟨rs, hrs, hsub⟩ := Engine.readParquet_exists _ _ all hall _ (List.mem_map_of_mem ho)
  exact ⟨rs, hrs, fun r hr => (mem_union_iff hread r).mpr ⟨_, href, all, hall, hsub r hr⟩⟩

omit [DecidableEq ι] [DecidableEq μ] [Numerics F] in
theorem between_of_later (hs : Inv s) (ht : Inv t) (hlater : Later s t)
    (hplanned : planned.toWorld = s.sys.world) (hcurrent : current.toWorld = t.sys.world)
    (hread : union current (refs planned q table) = some rows) {k : Key}
    (hwindow : Pruning.InWindow q.start q.stop k.time) :
    Between Row.key Row.seq {r | r ∈ rows} (s.log table) (t.log table) k := by
  refine between_of_covers ?_ ?_
  · intro r hr
    obtain ⟨ref, href, rs, hrs, hmem⟩ := (mem_union_iff hread r).mp hr
    rcases (mem_refs_iff q table ref).mp href with ⟨-, rfl⟩ | ⟨-, rfl⟩
    · have hhot := mem_readRef_hot hrs ▸ hmem
      rw [hcurrent] at hhot
      exact echoes_hot ht table r hhot
    · obtain ⟨key, hkey, file, hfile, hr⟩ := Engine.mem_readParquet _ _ rs hrs r hmem
      obtain ⟨o, ho, rfl⟩ := List.mem_map.mp hkey
      obtain ⟨he, hm, -⟩ := (mem_objects_iff _ _ _ _).mp (List.mem_of_mem_filter ho)
      rw [hplanned] at he
      rw [hcurrent] at hfile
      exact hm ▸ echoes_file ht (hs.vault.entries _ _ he) hlater.recorded hfile r hr
  · rintro r hr rfl
    obtain ⟨o, ho, hk, file, hfile, r', hr', hkey, hseq⟩ := exists_selected hs hr hwindow
    rw [← hplanned] at ho
    obtain ⟨rs, hrs, hsub⟩ := mem_rows_of_selected hread ho
    rw [hcurrent] at hrs
    have he := ((mem_objects_iff _ _ _ _).mp (List.mem_of_mem_filter ho)).1
    rw [hplanned] at he
    rcases same_rows hs ht hlater he hk hfile with hsame | ⟨-, hnone⟩
    · cases hsame.symm.trans hrs
      exact ⟨r', hsub r' hr', hkey, hseq⟩
    · exact absurd (hnone.symm.trans hrs) (by simp)

end Read

end Run

section Always

variable {n : ℕ}

/-- Through every interleaving of write calls, one compactor and eviction sweeps,
reads of cold and of both tiers show the newest version recorded. -/
theorem always_durable (hn : 1 ≤ n) (es : List (Event F ι μ)) :
    Runs.Always (step digest) Durable (start n) es :=
  Runs.always_of_invariant (fun _ _ _ hs h => step_inv digest hs h) (fun _ hs => durable_of_inv hs)
    (start_inv hn)

def ingested (w : Bool) (time : Time) : List (Event ℤ Bool Unit) :=
  (Custody.ingest w time ++ [TimescaleLp.Event.commit w]).map .sys

def day : Time × Time := (0, 86400000000)

/-- A row is written after the chunk has been exported and before it is dropped. -/
def raced : List (Event ℤ Bool Unit) :=
  ingested false 0 ++ [.begin () ["cpu".toList], .advance () [day], .advance () [],
    .advance () []] ++ ingested true 1 ++ [.advance () [], .advance () []]

theorem raced_durable : (Runs.exec (step fun _ => 0) (start 1) raced).any
      (fun s => (s.sys.world.hot "cpu".toList).entries.isEmpty) = true ∧
    Runs.Always (step fun _ => 0) Durable (start 1) raced :=
  ⟨by decide +kernel, always_durable (fun _ => 0) le_rfl raced⟩

/-- A query that was planned in one state and runs in a later one, when it does not
fail, reads each key in its window as a version of some moment in between. -/
theorem read_between (hn : 1 ≤ n) {es es' : List (Event F ι μ)} {s t : Upkeep F ι μ}
    (hs : Runs.exec (step digest) (start n) es = some s)
    (ht : Runs.exec (step digest) s es' = some t) {planned current : Service F}
    (hplanned : planned.toWorld = s.sys.world) (hcurrent : current.toWorld = t.sys.world)
    {q : Request} {table : Str} {rows : List (Row (Value F))}
    (hread : Queries.union current (Queries.refs planned q table) = some rows) {k : Key}
    (hwindow : Pruning.InWindow q.start q.stop k.time) :
    Between Row.key Row.seq {r | r ∈ rows} (s.log table) (t.log table) k := by
  have hinv := Runs.exec_invariant (fun _ _ _ hs h => step_inv digest hs h) (start_inv hn) hs
  have hinv' := Runs.exec_invariant (fun _ _ _ hs h => step_inv digest hs h) hinv ht
  exact between_of_later hinv hinv' (later_exec digest hinv ht) hplanned hcurrent hread hwindow

def cpuService (s : Upkeep ℤ Bool Unit) : Service ℤ :=
  ⟨s.sys.world, Dict.single "cpu".toList Dict.empty, Dict.empty⟩

/-- The query reads at the end what it planned before the sweep. -/
theorem raced_read : ∃ (s t : Upkeep ℤ Bool Unit) (rows : List (Row (Value ℤ))),
    Runs.exec (step fun _ => 0) (start 1) (ingested false 0) = some s ∧
      Runs.exec (step fun _ => 0) s (raced.drop 4) = some t ∧ rows.isEmpty = false ∧
        ∀ k, Between Row.key Row.seq {r | r ∈ rows} (s.log "cpu".toList) (t.log "cpu".toList) k := by
  have hrun : (Runs.exec (step fun _ => 0) (start 1) (ingested false 0)).any (fun s =>
      (Runs.exec (step fun _ => 0) s (raced.drop 4)).any fun t =>
        (Queries.union (cpuService t) (Queries.refs (cpuService s) ⟨.all, none, none⟩
          "cpu".toList)).any fun rows => !rows.isEmpty) = true := by decide +kernel
  obtain ⟨s, hs, hrest⟩ := (Option.any_eq_true _ _).mp hrun
  obtain ⟨t, ht, hrest⟩ := (Option.any_eq_true _ _).mp hrest
  obtain ⟨rows, hread, hrows⟩ := (Option.any_eq_true _ _).mp hrest
  refine ⟨s, t, rows, hs, ht, by simpa using hrows, fun k => ?_⟩
  exact read_between (fun _ => 0) le_rfl hs ht rfl rfl hread ⟨by simp, by simp⟩

/-- Objects are written once: one that is listed and no export has the same rows in
every later state, or it was a staging object and its file is gone. -/
theorem written_once (hn : 1 ≤ n) {es es' : List (Event F ι μ)} {s t : Upkeep F ι μ}
    (hs : Runs.exec (step digest) (start n) es = some s)
    (ht : Runs.exec (step digest) s es' = some t) {k : Str} {e : ManifestRow}
    (he : s.sys.world.cold.manifest.get? k = some e) (hk : k ∉ exportKeys)
    {rows : List (Row (Value F))} (hrows : s.sys.world.cold.files k = some rows) :
    t.sys.world.cold.files k = some rows ∨
      e.kind = .staging ∧ t.sys.world.cold.files k = none := by
  have hinv := Runs.exec_invariant (fun _ _ _ hs h => step_inv digest hs h) (start_inv hn) hs
  have hinv' := Runs.exec_invariant (fun _ _ _ hs h => step_inv digest hs h) hinv ht
  exact same_rows hinv hinv' (later_exec digest hinv ht) he hk hrows

def merged : List (Event ℤ Bool Unit) :=
  .sys (.begin () none) :: List.replicate 6 (.sys (.advance ()))

/-- The staging object of a point before and after the compactor. -/
theorem merged_once : ∃ (s t : Upkeep ℤ Bool Unit) (e : ManifestRow) (rows : List (Row (Value ℤ))),
    Runs.exec (step fun _ => 0) (start 1) (ingested false 0) = some s ∧
      Runs.exec (step fun _ => 0) s merged = some t ∧
        (t.sys.world.cold.files (stagingKey "cpu".toList 1 1) = some rows ∨
          e.kind = .staging ∧ t.sys.world.cold.files (stagingKey "cpu".toList 1 1) = none) := by
  have hrun : (Runs.exec (step fun _ => 0) (start 1) (ingested false 0)).any (fun s =>
      (Runs.exec (step fun _ => 0) s merged).isSome &&
        (s.sys.world.cold.manifest.get? (stagingKey "cpu".toList 1 1)).isSome &&
          (s.sys.world.cold.files (stagingKey "cpu".toList 1 1)).isSome) = true := by decide +kernel
  obtain ⟨s, hs, hrest⟩ := (Option.any_eq_true _ _).mp hrun
  simp only [Bool.and_eq_true, Option.isSome_iff_exists] at hrest
  obtain ⟨⟨⟨t, ht⟩, e, he⟩, rows, hrows⟩ := hrest
  have hk : stagingKey "cpu".toList 1 1 ∉ exportKeys := by
    rintro ⟨table, day, -, hk⟩
    exact stagingKey_ne_coldKey _ _ _ _ _ _ hk
  exact ⟨s, t, e, rows, hs, ht, written_once (fun _ => 0) le_rfl hs ht he hk hrows⟩

end Always

end TimescaleLp.Upkeep
