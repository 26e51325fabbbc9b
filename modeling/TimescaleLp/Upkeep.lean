import TimescaleLp.Dangling
import TimescaleLp.Pruning
import TimescaleLp.Queries
import TimescaleLp.Replicas
import TimescaleLp.Summaries
import TimescaleLp.Sweeps

/-!
Maintenance beside writes. Any number of write calls with write-through on, one
compactor and any number of eviction sweeps are interleaved at their awaits, and
sweeps drop and export chunks while writes go on. Hot is a cache then: the recorded
batches are a log, and cold, with hot or without it, is a replica of the log.
-/
namespace TimescaleLp

/-- The process with its sweeps. -/
structure Upkeep (F ι μ : Type) where
  sys : Sys F ι Unit
  sweeps : μ → Sweep

namespace Upkeep

open Schedule Vault ColdStore Tiering Passes Sequence Replicas

/-- A step of a write call or of the compactor, or of a sweep. A sweep can end with
an exception between any two of its calls. -/
inductive Event (F ι μ : Type)
  | sys (e : TimescaleLp.Event F ι Unit)
  | begin (q : μ) (tables : List Str)
  | advance (q : μ) (eligible : List (Time × Time))
  | fail (q : μ)

variable {F ι μ : Type}

def start (n : ℕ) : Upkeep F ι μ where
  sys := Schedule.start n
  sweeps := fun _ => .idle

/-- A sweep moves on, over the stores it leaves. -/
def move [DecidableEq μ] (s : Upkeep F ι μ) (q : μ) (sweep : Sweep) (w : World (Value F)) :
    Upkeep F ι μ where
  sys := { s.sys with world := w }
  sweeps := Function.update s.sweeps q sweep

variable [DecidableEq ι] [DecidableEq μ] [Numerics F] (digest : Str → ℕ)

def step (s : Upkeep F ι μ) : Event F ι μ → Option (Upkeep F ι μ)
  | .sys e => (Schedule.step digest true s.sys e).map fun sys => { s with sys := sys }
  | .begin q tables =>
    if (s.sweeps q).resting then some (move s q (.asking tables) s.sys.world) else none
  | .advance q eligible =>
    (Sweeps.step s.sys.world eligible (s.sweeps q)).map fun (sweep, w) => move s q sweep w
  | .fail q => if (s.sweeps q).resting then none else some (move s q (.ended false) s.sys.world)

/-- The log: the rows of the batches recorded so far. -/
def log (s : Upkeep F ι μ) (table : Str) : Set (Row (Value F)) := rowsOf s.sys.recorded table

/-- Queries of the cold tier and of both, over any window, read for each key in the
window the newest version of the log, and cold has the row it was written as. -/
structure Durable (s : Upkeep F ι μ) : Prop where
  reads : ∀ tier, tier ≠ .hot → ∀ table start stop (k : Key), Pruning.InWindow start stop k.time →
    ReadsAs Row.key Row.seq (viewRows s.sys.world tier table start stop) (s.log table) k
  kept : ∀ table k r, Newest (s.log table) k r → r ∈ held s.sys.world.cold table

/-- Merged objects are listed as what they are. One that has been written and is
about to be recorded is not listed yet. -/
structure Described (c : Cold (Value F)) (pass : Pass) : Prop where
  listed : ∀ m day a e, '/' ∉ day → coldKey m day a ∉ exportKeys →
    c.manifest.get? (coldKey m day a) = some e →
      ∃ rows, c.files (coldKey m day a) = some rows ∧ Summaries.Exact e rows
  output : ∀ new, Pruning.pending pass = some new → c.manifest.get? new.objectKey = none ∧
    ∀ rows, c.files new.objectKey = some rows → Summaries.Exact new.toManifestRow rows

structure Inv (s : Upkeep F ι μ) : Prop where
  ledger : Ledger s.sys
  positive : 1 ≤ s.sys.world.nextSeq ∧ ∀ b ∈ s.sys.drawn, ∀ r ∈ b.records, 1 ≤ r.seq
  staged : ∀ w b, s.sys.writers w = .staged b → s.sys.world.cold.files b.key = some b.records
  vault : Vault.Inv exportKeys s.sys.world.cold s.sys.recorded s.sys.passes
  hot : ∀ table k stored, (s.sys.world.hot table).get? k = some stored →
    ∃ r ∈ s.log table, r.key = k ∧ r.seq = stored.seq
  exported : ∀ table day rows, '/' ∉ day →
    s.sys.world.cold.files (coldKey table day 0) = some rows →
      Echoes Row.key Row.seq {r | r ∈ rows} (s.log table)
  described : Described s.sys.world.cold (s.sys.passes ())

omit [DecidableEq ι] [DecidableEq μ] [Numerics F] in
theorem start_inv {n : ℕ} (hn : 1 ≤ n) : Inv (start n : Upkeep F ι μ) where
  ledger := (Custody.start_inv n).ledger
  positive := ⟨hn, by simp [start, Schedule.start]⟩
  staged := by simp [start, Schedule.start]
  vault := Vault.empty_inv fun _ => trivial
  hot := by simp [start, Schedule.start]
  exported table day rows _ hrows := by simp [start, Schedule.start, ColdStore.empty] at hrows
  described := by
    refine ⟨fun m day a e _ _ he => ?_, fun new hnew => ?_⟩
    · simp [start, Schedule.start, ColdStore.empty] at he
    · simp [start, Schedule.start, Pruning.pending] at hnew

section Cold

variable {c c' : Cold (Value F)} {recorded : List (Batch F)} {pass pass' : Pass}

omit [DecidableEq ι] [DecidableEq μ] [Numerics F] in
/-- Nobody but a sweep has a stake in the exported objects. -/
theorem vault_frame (h : Vault.Inv exportKeys c recorded fun _ : Unit => pass)
    (hsame : ∀ k ∉ exportKeys, c'.files k = c.files k ∧ c'.manifest.get? k = c.manifest.get? k)
    (hentries : ∀ k ∈ exportKeys, ∀ e, c'.manifest.get? k = some e → EntryOk recorded k e)
    (hlisted : ∀ k ∈ exportKeys, ∀ e, c.manifest.get? k = some e →
      ∃ e', c'.manifest.get? k = some e' ∧ e'.measurement = e.measurement) :
    Vault.Inv exportKeys c' recorded fun _ : Unit => pass := by
  have hkey : ∀ b ∈ recorded, c'.files b.key = c.files b.key :=
    fun b hb => (hsame _ (h.outside b hb).key).1
  have hjob : ∀ job, JobOk recorded job → jobKey job ∉ exportKeys := fun _ => h.jobKey_notMem
  refine ⟨h.outside, ?_, ?_, ?_, ?_, ?_, ?_⟩
  · intro k e he
    by_cases hk : k ∈ exportKeys
    · exact hentries k hk e he
    · exact h.entries k e ((hsame k hk).2 ▸ he)
  · exact fun b hb rows hrows => h.stagingFiles b hb rows (hkey b hb ▸ hrows)
  · exact fun m day a rows hday hk hrows =>
      h.coldFiles m day a rows hday hk ((hsame _ hk).1 ▸ hrows)
  · intro m
    refine (h.covers m).mono ?_ (Set.Subset.refl _)
    rintro r ⟨k, e, rows, he, hm, hk, hrows, hr⟩
    exact ⟨k, e, rows, (hsame k hk).2.trans he, hm, hk, (hsame k hk).1.trans hrows, hr⟩
  · intro p
    refine (h.working p).frame (fun _ hok => hok) ?_ ?_ ?_
    · rintro job - hmerged
      refine ⟨hmerged.ok, ?_⟩
      rw [fileRows_congr (hsame _ (hjob job hmerged.ok)).1]
      exact hmerged.covers
    · rintro job ⟨e, he, hm⟩
      by_cases hk : jobKey job ∈ exportKeys
      · obtain ⟨e', he', hm'⟩ := hlisted _ hk e he
        exact ⟨e', he', hm'.trans hm⟩
      · exact ⟨e, (hsame _ hk).2.trans he, hm⟩
    · intro job hok o ho hnone
      obtain ⟨b, hb, -, rfl⟩ := hok.objs o ho
      exact (hkey b hb).trans hnone
  · intro b hb day hday hfile hmerged
    have hout := (h.outside b hb).output b.table day
    rw [hkey b hb] at hfile
    rw [(hsame _ hout).1] at hmerged
    obtain ⟨p, job, hp, hk, hsub⟩ := h.attended b hb day hday hfile hmerged
    refine ⟨p, job, hp, hk, ?_⟩
    rw [fileRows_congr (hsame _ (hk ▸ hout)).1]
    exact hsub

/-- Merged objects and their entries stay as they are. -/
def SameMerged (c c' : Cold (Value F)) : Prop :=
  ∀ m day a, '/' ∉ day → coldKey m day a ∉ exportKeys →
    c'.files (coldKey m day a) = c.files (coldKey m day a) ∧
      c'.manifest.get? (coldKey m day a) = c.manifest.get? (coldKey m day a)

omit [DecidableEq ι] [DecidableEq μ] [Numerics F] in
/-- What a pass has merged goes to an object of its own. -/
theorem pending_key (h : Vault.Inv exportKeys c recorded fun _ : Unit => pass) {new : ObjectMeta}
    (hnew : Pruning.pending pass = some new) : ∃ m day a, '/' ∉ day ∧
      coldKey m day a ∉ exportKeys ∧ new.objectKey = coldKey m day a := by
  have hok := h.working ()
  cases pass with
  | recording job rows groups todo =>
    cases hnew
    exact ⟨_, _, _, hok.1.ok.day, h.jobKey_notMem hok.1.ok, rfl⟩
  | _ => contradiction

omit [DecidableEq ι] [DecidableEq μ] [Numerics F] in
theorem Described.frame (h : Described c pass) (hvault : Vault.Inv exportKeys c recorded fun _ : Unit => pass)
    (hsame : SameMerged c c') : Described c' pass where
  listed m day a e hday hk he := by
    obtain ⟨hfiles, hmanifest⟩ := hsame m day a hday hk
    rw [hfiles]
    exact h.listed m day a e hday hk (hmanifest ▸ he)
  output new hnew := by
    obtain ⟨m, day, a, hday, hk, hkey⟩ := pending_key hvault hnew
    obtain ⟨hfiles, hmanifest⟩ := hsame m day a hday hk
    rw [hkey, hfiles, hmanifest, ← hkey]
    exact h.output new hnew

omit [DecidableEq ι] [DecidableEq μ] [Numerics F] in
theorem Described.move (h : Described c pass) (hpass' : Pruning.pending pass' = none) : Described c pass' where
  listed := h.listed
  output new hnew := by simp [hpass'] at hnew

omit [DecidableEq ι] [DecidableEq μ] [Numerics F] in
theorem sameMerged_delete (b : Batch F) : SameMerged c (ColdStore.delete c b.key) := by
  intro m day a _ _
  refine ⟨?_, rfl⟩
  rw [files_delete, if_neg (key_ne_coldKey b m day a).symm]

omit [DecidableEq ι] [DecidableEq μ] [Numerics F] in
theorem sameMerged_forget (b : Batch F) : SameMerged c (ColdStore.forget c b.key) := by
  intro m day a _ _
  refine ⟨rfl, ?_⟩
  rw [get?_forget, if_neg (key_ne_coldKey b m day a).symm]

omit [DecidableEq ι] [DecidableEq μ] [Numerics F] in
/-- The only compactor never writes an object twice: the input that names an object
is gone once its inputs have been removed. -/
theorem merge_fresh (hvault : Vault.Inv exportKeys c recorded fun _ : Unit => pass)
    (hpass : mergedJob pass = none) {job : Job} (hjob : JobOk recorded job)
    {rows : List (Row (Value F))}
    (hread : Engine.readParquet c (job.objs.map (·.objectKey)) = some rows) :
    c.files (jobKey job) = none := by
  obtain ⟨b, hb, ho, hm, hmin⟩ := hjob.first
  obtain ⟨rs, hrs, -⟩ := Engine.readParquet_exists c _ rows hread b.key
    (List.mem_map.mpr ⟨_, ho, rfl⟩)
  by_contra hfile
  have hout : coldKey b.table job.day b.minSeq = jobKey job := by rw [hm, hmin, jobKey_eq]
  obtain ⟨p, other, hp, -⟩ := hvault.attended b hb job.day hjob.day (by simp [hrs])
    (by rwa [hout])
  rw [hpass] at hp
  contradiction

omit [DecidableEq ι] [DecidableEq μ] [Numerics F] in
theorem Described.step (h : Described c pass) (hlog : LogOk recorded)
    (hvault : Vault.Inv exportKeys c recorded fun _ : Unit => pass)
    (hstep : Passes.step c pass = some (pass', c')) : Described c' pass' := by
  have hok := hvault.working ()
  cases pass with
  | idle => contradiction
  | listing todo => cases todo <;> cases hstep <;> exact h.move rfl
  | merging m groups todo =>
    cases groups with
    | nil =>
      cases hstep
      exact h.move rfl
    | cons g groups =>
      obtain ⟨day, objs⟩ := g
      simp only [Passes.step] at hstep
      split at hstep
      · cases hstep
        exact h.move rfl
      · rename_i c₁ n hmerge
        cases hstep
        obtain ⟨rows, hread, rfl, rfl⟩ := Engine.compact_some hmerge
        have hjob := hok (day, objs) List.mem_cons_self
        have hfresh := merge_fresh hvault rfl hjob hread
        have hunlisted : c.manifest.get? (outKey m day objs) = none := by
          by_contra hne
          obtain ⟨e, he⟩ := Option.ne_none_iff_exists'.mp hne
          obtain ⟨rs, hrs, -⟩ := h.listed m day _ e hjob.day (hvault.jobKey_notMem hjob) he
          exact absurd (hfresh.symm.trans hrs) (by simp)
        refine ⟨fun m' day' a e hday hk he => ?_, fun new hnew => ?_⟩
        · have hkey : coldKey m' day' a ≠ outKey m day objs := by
            intro heq
            exact absurd ((heq ▸ he).symm.trans hunlisted) (by simp)
          rw [files_writeTable_of_ne _ _ hkey]
          exact h.listed m' day' a e hday hk he
        · cases hnew
          refine ⟨hunlisted, fun rows' hrows => ?_⟩
          rw [show (jobMeta ⟨m, day, objs⟩ _).objectKey = outKey m day objs from rfl,
            files_writeTable, if_pos rfl] at hrows
          cases hrows
          exact Summaries.exact_jobMeta hlog hjob (hvault.mem_read_iff hjob hread)
  | recording job n groups todo =>
    cases hstep
    obtain ⟨hunlisted, hexact⟩ := h.output _ rfl
    refine ⟨fun m day a e hday hk he => ?_, fun new hnew => by contradiction⟩
    by_cases hkey : coldKey m day a = (jobMeta job n).objectKey
    · obtain ⟨rows, hrows⟩ := Dangling.exists_output hlog hok.1
      rw [hkey, get?_record_self, hunlisted] at he
      cases he
      rw [hkey]
      exact ⟨rows, hrows, hexact rows hrows⟩
    · rw [get?_record_of_ne c _ hkey] at he
      exact h.listed m day a e hday hk he
  | removing job rest groups todo =>
    cases rest with
    | nil =>
      cases hstep
      exact h.move rfl
    | cons o rest =>
      cases hstep
      obtain ⟨b, -, -, rfl⟩ := hok.1.ok.objs o (hok.2.1.due o List.mem_cons_self)
      exact (h.frame hvault (sameMerged_delete b)).move rfl
  | forgetting job o rest groups todo =>
    cases hstep
    obtain ⟨b, -, -, rfl⟩ := hok.1.ok.objs o hok.2.2.1.1
    exact (h.frame hvault (sameMerged_forget b)).move rfl
  | ended ok => contradiction

omit [DecidableEq ι] [DecidableEq μ] [Numerics F] in
theorem merged_stays (hvault : Vault.Inv exportKeys c recorded fun _ : Unit => pass)
    (hstep : Passes.step c pass = some (pass', c')) {m day : Str} {a : ℕ}
    {rows : List (Row (Value F))} (hrows : c.files (coldKey m day a) = some rows) :
    c'.files (coldKey m day a) = some rows := by
  have hok := hvault.working ()
  cases pass with
  | idle => contradiction
  | listing todo => cases todo <;> cases hstep <;> exact hrows
  | merging m' groups todo =>
    cases groups with
    | nil =>
      cases hstep
      exact hrows
    | cons g groups =>
      obtain ⟨day', objs⟩ := g
      simp only [Passes.step] at hstep
      split at hstep
      · cases hstep
        exact hrows
      · rename_i c₁ n hmerge
        cases hstep
        obtain ⟨merged, hread, rfl, -⟩ := Engine.compact_some hmerge
        have hfresh := merge_fresh hvault rfl (hok (day', objs) List.mem_cons_self) hread
        rwa [files_writeTable_of_ne]
        intro heq
        exact absurd ((heq ▸ hrows).symm.trans hfresh) (by simp)
  | recording job n groups todo =>
    cases hstep
    exact hrows
  | removing job rest groups todo =>
    cases rest with
    | nil =>
      cases hstep
      exact hrows
    | cons o rest =>
      cases hstep
      obtain ⟨b, -, -, rfl⟩ := hok.1.ok.objs o (hok.2.1.due o List.mem_cons_self)
      rwa [show (Batch.stagingMeta b).objectKey = b.key from rfl, files_delete,
        if_neg (key_ne_coldKey b m day a).symm]
  | forgetting job o rest groups todo =>
    cases hstep
    exact hrows
  | ended ok => contradiction

end Cold

section Sys

variable {s t : Sys F ι Unit} {e : TimescaleLp.Event F ι Unit}

omit [DecidableEq ι] [DecidableEq μ] [Numerics F] in
theorem passes_advance (s : Sys F ι Unit) (p : Unit) (pass : Pass) (c : Cold (Value F)) :
    (Schedule.advance s p pass c).passes () = pass := by
  rw [Schedule.advance]
  exact Function.update_self p pass s.passes

omit [DecidableEq μ] in
theorem ledger_change (hs : Ledger s) (h : Change true s e t) : Ledger t := by
  cases h with
  | built hidle hn hdrawn => exact hs.build hn hdrawn
  | refused hn => exact hs.frame rfl rfl hn (fun _ _ hb => hb) hs.logged
  | @staged w b hb hon =>
    refine hs.move (.staged b) rfl rfl rfl rfl ?_ (by simp)
    rw [hb]
    exact fun _ hb' => hb'
  | recorded hb => exact hs.record hb
  | committed hb ht => exact hs.move .idle rfl rfl rfl rfl (by simp [Writer.pending]) (by simp)
  | abandoned => exact hs.move .idle rfl rfl rfl rfl (by simp [Writer.pending]) (by simp)
  | promoted => exact hs.frame rfl rfl le_rfl (fun _ _ hb => hb) hs.logged
  | began hp => exact hs.frame rfl rfl le_rfl (fun _ _ hb => hb) hs.logged
  | advanced hp => exact hs.frame rfl rfl le_rfl (fun _ _ hb => hb) hs.logged

omit [DecidableEq μ] in
/-- Batches stay in the log. -/
theorem recorded_change (h : Change true s e t) : ∀ b ∈ s.recorded, b ∈ t.recorded := by
  cases h with
  | recorded hb => exact fun b' hb' => List.mem_append_left _ hb'
  | built hidle hn hdrawn => exact fun _ hb' => hb'
  | refused hn => exact fun _ hb' => hb'
  | staged hb hon => exact fun _ hb' => hb'
  | committed hb ht => exact fun _ hb' => hb'
  | abandoned => exact fun _ hb' => hb'
  | promoted => exact fun _ hb' => hb'
  | began hp => exact fun _ hb' => hb'
  | advanced hp => exact fun _ hb' => hb'

omit [DecidableEq μ] in
theorem positive_change
    (hs : 1 ≤ s.world.nextSeq ∧ ∀ b ∈ s.drawn, ∀ r ∈ b.records, 1 ≤ r.seq)
    (h : Change true s e t) :
    1 ≤ t.world.nextSeq ∧ ∀ b ∈ t.drawn, ∀ r ∈ b.records, 1 ≤ r.seq := by
  cases h with
  | built hidle hn hdrawn =>
    refine ⟨hs.1.trans hn, fun b' hb' r hr => ?_⟩
    rcases List.mem_append.mp hb' with hb' | hb'
    · exact hs.2 b' hb' r hr
    · cases List.mem_singleton.mp hb'
      exact hs.1.trans (hdrawn.seqs r hr).1
  | refused hn => exact ⟨hs.1.trans hn, hs.2⟩
  | staged hb hon => exact hs
  | recorded hb => exact hs
  | committed hb ht => exact hs
  | abandoned => exact hs
  | promoted => exact hs
  | began hp => exact hs
  | advanced hp => exact hs

omit [DecidableEq μ] in
/-- A hot row has the key and the number of a row that was recorded before. -/
theorem hot_change (hledger : Ledger s)
    (hs : ∀ table k stored, (s.world.hot table).get? k = some stored →
      ∃ r ∈ rowsOf s.recorded table, r.key = k ∧ r.seq = stored.seq) (h : Change true s e t) :
    ∀ table k stored, (t.world.hot table).get? k = some stored →
      ∃ r ∈ rowsOf t.recorded table, r.key = k ∧ r.seq = stored.seq := by
  intro table k stored hstored
  have hkept : ∀ stored', (s.world.hot table).get? k = some stored' →
      stored'.seq = stored.seq → ∃ r ∈ rowsOf t.recorded table, r.key = k ∧ r.seq = stored.seq := by
    intro stored' hstored' hseq
    obtain ⟨r, ⟨b, hb, htable, hr⟩, hkey, hrseq⟩ := hs table k stored' hstored'
    exact ⟨r, ⟨b, recorded_change h b hb, htable, hr⟩, hkey, hrseq.trans hseq⟩
  cases h with
  | built hidle hn hdrawn => exact hkept stored hstored rfl
  | refused hn => exact hkept stored hstored rfl
  | staged hb hon => exact hkept stored hstored rfl
  | recorded hb => exact hkept stored hstored rfl
  | @committed w b table' hb ht =>
    have hw : s.writers w = .recorded b := by
      generalize s.writers w = x at hb
      cases x <;> simp_all [ready]
    have hrec := hledger.logged w b hw
    have hkeys := hledger.keys b (hledger.recorded b hrec)
    rcases get?_hot_commit hkeys ht table k with ⟨r, hr, htable, hkey, hget⟩ | ⟨-, hget⟩
    · cases hget.symm.trans hstored
      exact ⟨r, ⟨b, hrec, htable, hr⟩, hkey, rfl⟩
    · exact hkept stored (hget ▸ hstored) rfl
  | abandoned => exact hkept stored hstored rfl
  | @promoted table' col fromType toType =>
    have hmap := seq_hot_promote s table' col fromType toType table k
    rw [hstored, Option.map_some, eq_comm, Option.map_eq_some_iff] at hmap
    obtain ⟨old, hold, hseq⟩ := hmap
    exact hkept old hold hseq
  | began hp => exact hkept stored hstored rfl
  | advanced hp => exact hkept stored hstored rfl

omit [DecidableEq ι] [DecidableEq μ] [Numerics F] in
/-- A batch that is staged or recorded next is new, and no export uses its keys. -/
theorem pending_new (hledger : Ledger s) (hpositive : ∀ b ∈ s.drawn, ∀ r ∈ b.records, 1 ≤ r.seq)
    {w : ι} {b : Batch F} (hb : (s.writers w).pending = some b) :
    LogOk (s.recorded ++ [b]) ∧ b ∉ s.recorded ∧ Outside exportKeys b := by
  obtain ⟨hlog, hnew⟩ := hledger.log_append hb
  have hdrawn := (hledger.pending w b hb).1
  exact ⟨hlog, hnew, outside_exportKeys (hledger.drawn.nonempty b hdrawn) (hpositive b hdrawn)⟩

omit [DecidableEq μ] in
theorem staged_change (hledger : Ledger s)
    (hvault : Vault.Inv exportKeys s.world.cold s.recorded s.passes)
    (hs : ∀ w b, s.writers w = .staged b → s.world.cold.files b.key = some b.records)
    (h : Change true s e t) :
    ∀ w b, t.writers w = .staged b → t.world.cold.files b.key = some b.records := by
  cases h with
  | built hidle hn hdrawn => exact Custody.staged_update (by simp) fun w' _ => hs w'
  | refused hn => exact hs
  | @staged w b hb hon =>
    have hpend : (s.writers w).pending = some b := by rw [hb]; rfl
    refine Custody.staged_update ?_ ?_
    · rintro b' ⟨⟩
      rw [cold_stage, files_stage, if_pos rfl]
    · intro w' hw b' hb'
      have hpend' : (s.writers w').pending = some b' := by rw [hb']; rfl
      have hne : b'.key ≠ b.key := by
        intro hk
        have heq := eq_of_key hledger.drawn (hledger.pending w' b' hpend').1
          (hledger.pending w b hpend).1 hk
        exact hw (hledger.owner w' w b (heq ▸ hpend') hpend)
      rw [cold_stage, files_stage, if_neg hne]
      exact hs w' b' hb'
  | recorded hb => exact Custody.staged_update (by simp) fun w' _ => hs w'
  | committed hb ht => exact Custody.staged_update (by simp) fun w' _ => hs w'
  | abandoned => exact Custody.staged_update (by simp) fun w' _ => hs w'
  | promoted => exact hs
  | began hp => exact hs
  | @advanced p pass c hp =>
    intro w b hb
    replace hb : s.writers w = .staged b := hb
    have hpend : (s.writers w).pending = some b := by rw [hb]; rfl
    obtain ⟨hlog, hnew⟩ := hledger.log_append hpend
    exact (hvault.files_step hlog hnew hp).trans (hs w b hb)

omit [DecidableEq μ] in
theorem vault_change (hledger : Ledger s)
    (hpositive : ∀ b ∈ s.drawn, ∀ r ∈ b.records, 1 ≤ r.seq)
    (hstaged : ∀ w b, s.writers w = .staged b → s.world.cold.files b.key = some b.records)
    (hs : Vault.Inv exportKeys s.world.cold s.recorded s.passes) (h : Change true s e t) :
    Vault.Inv exportKeys t.world.cold t.recorded t.passes := by
  cases h with
  | built hidle hn hdrawn => exact hs
  | refused hn => exact hs
  | @staged w b hb hon =>
    obtain ⟨hlog, hnew, -⟩ := pending_new hledger hpositive (show _ = some b by rw [hb]; rfl)
    exact hs.stage hlog hnew
  | @recorded w b hb =>
    obtain ⟨hlog, hnew, hout⟩ := pending_new hledger hpositive (show _ = some b by rw [hb]; rfl)
    exact hs.record hlog hnew hout (hstaged w b hb)
  | committed hb ht => exact hs
  | abandoned => exact hs
  | promoted => exact hs
  | @began p measurement hp =>
    refine hs.move hledger.log p (Passes.begin s.world.cold measurement) trivial fun job hjob => ?_
    generalize s.passes p = pass at hp hjob
    cases pass <;> simp [Pass.resting, mergedJob] at hp hjob
  | advanced hp => exact hs.step hledger.log (safe_of_subsingleton _ _ _) hp

omit [DecidableEq μ] in
/-- No write call and no pass touches an exported object. -/
theorem exported_change (hledger : Ledger s)
    (hpositive : ∀ b ∈ s.drawn, ∀ r ∈ b.records, 1 ≤ r.seq)
    (hs : Vault.Inv exportKeys s.world.cold s.recorded s.passes) (h : Change true s e t) :
    ∀ k ∈ exportKeys, t.world.cold.files k = s.world.cold.files k := by
  intro k hk
  cases h with
  | @staged w b hb hon =>
    obtain ⟨-, -, hout⟩ := pending_new hledger hpositive (show _ = some b by rw [hb]; rfl)
    exact (stage_foreign _ hout k hk).1
  | advanced hp => exact (hs.foreign_step hk hp).1
  | built hidle hn hdrawn => rfl
  | refused hn => rfl
  | recorded hb => rfl
  | committed hb ht => rfl
  | abandoned => rfl
  | promoted => rfl
  | began hp => rfl

omit [DecidableEq μ] in
theorem described_change (hs : Described s.world.cold (s.passes ())) (hledger : Ledger s)
    (hvault : Vault.Inv exportKeys s.world.cold s.recorded s.passes) (h : Change true s e t) :
    Described t.world.cold (t.passes ()) := by
  cases h with
  | @staged w b hb hon =>
    refine hs.frame hvault fun m day a _ _ => ⟨?_, rfl⟩
    rw [cold_stage, files_stage, if_neg (key_ne_coldKey b m day a).symm]
  | @recorded w b hb =>
    refine hs.frame hvault fun m day a _ _ => ⟨rfl, ?_⟩
    exact get?_record_of_ne _ b.stagingMeta (key_ne_coldKey b m day a).symm
  | @began p measurement hp =>
    exact hs.move rfl
  | @advanced p pass c hp =>
    have hnext := hs.step hledger.log hvault hp
    rwa [← Function.update_self p pass s.passes] at hnext
  | built hidle hn hdrawn => exact hs
  | refused hn => exact hs
  | committed hb ht => exact hs
  | abandoned => exact hs
  | promoted => exact hs

omit [DecidableEq μ] in
/-- A merged object stays as it is. -/
theorem merged_change (hvault : Vault.Inv exportKeys s.world.cold s.recorded s.passes)
    (h : Change true s e t) {m day : Str} {a : ℕ} {rows : List (Row (Value F))}
    (hrows : s.world.cold.files (coldKey m day a) = some rows) :
    t.world.cold.files (coldKey m day a) = some rows := by
  cases h with
  | @staged w b hb hon =>
    rwa [cold_stage, files_stage, if_neg (key_ne_coldKey b m day a).symm]
  | advanced hp => exact merged_stays hvault hp hrows
  | built hidle hn hdrawn => exact hrows
  | refused hn => exact hrows
  | recorded hb => exact hrows
  | committed hb ht => exact hrows
  | abandoned => exact hrows
  | promoted => exact hrows
  | began hp => exact hrows

end Sys

section Sweep

variable {s : Upkeep F ι μ} {q : μ} {sweep : Sweep} {w : World (Value F)}

omit [DecidableEq ι] [Numerics F] in
/-- A sweep takes hot rows away, and writes and lists exported objects only. -/
theorem Inv.move (hs : Inv s) (hseq : w.nextSeq = s.sys.world.nextSeq)
    (hhot : ∀ table k stored, (w.hot table).get? k = some stored →
      (s.sys.world.hot table).get? k = some stored)
    (hsame : ∀ k ∉ exportKeys, w.cold.files k = s.sys.world.cold.files k ∧
      w.cold.manifest.get? k = s.sys.world.cold.manifest.get? k)
    (hentries : ∀ k ∈ exportKeys, ∀ e, w.cold.manifest.get? k = some e →
      EntryOk s.sys.recorded k e)
    (hlisted : ∀ k ∈ exportKeys, ∀ e, s.sys.world.cold.manifest.get? k = some e →
      ∃ e', w.cold.manifest.get? k = some e' ∧ e'.measurement = e.measurement)
    (hexported : ∀ table day rows, '/' ∉ day → w.cold.files (coldKey table day 0) = some rows →
      Echoes Row.key Row.seq {r | r ∈ rows} (s.log table)) : Inv (move s q sweep w) where
  ledger := hs.ledger.frame rfl rfl hseq.ge (fun _ _ hb => hb) hs.ledger.logged
  positive := ⟨hs.positive.1.trans hseq.ge, hs.positive.2⟩
  staged w' b hb := by
    have hpend : (s.sys.writers w').pending = some b := by
      rw [show s.sys.writers w' = .staged b from hb]
      rfl
    have hout := (pending_new hs.ledger hs.positive.2 hpend).2.2
    exact (hsame _ hout.key).1.trans (hs.staged w' b hb)
  vault := by
    have hvault : Vault.Inv exportKeys s.sys.world.cold s.sys.recorded
        fun _ : Unit => s.sys.passes () := hs.vault
    exact vault_frame hvault hsame hentries hlisted
  hot table k stored hstored := hs.hot table k stored (hhot table k stored hstored)
  exported := hexported
  described := hs.described.frame hs.vault fun m day a _ hk => hsame _ hk

omit [DecidableEq ι] [Numerics F] in
theorem Inv.still (hs : Inv s) : Inv (Upkeep.move s q sweep s.sys.world) :=
  hs.move rfl (fun _ _ _ h => h) (fun _ _ => ⟨rfl, rfl⟩) (fun _ _ e he => hs.vault.entries _ e he)
    (fun _ _ e he => ⟨e, he, rfl⟩) hs.exported

omit [DecidableEq ι] [Numerics F] in
theorem Inv.drop (hs : Inv s) (table : Str) (chunk : Time × Time) :
    Inv (Upkeep.move s q sweep (Sweeps.drop s.sys.world table chunk)) := by
  refine hs.move rfl ?_ (fun _ _ => ⟨rfl, rfl⟩) (fun _ _ e he => hs.vault.entries _ e he)
    (fun _ _ e he => ⟨e, he, rfl⟩) hs.exported
  intro table' k stored hstored
  replace hstored : (Function.update s.sys.world.hot table
    (dropChunk (s.sys.world.hot table) chunk.1 chunk.2) table').get? k = some stored := hstored
  by_cases htable : table' = table
  · subst htable
    rw [Function.update_self, Eviction.get?_dropChunk] at hstored
    split at hstored
    · contradiction
    · exact hstored
  · rwa [Function.update_of_ne htable] at hstored

omit [DecidableEq ι] [Numerics F] in
theorem Inv.export (hs : Inv s) (table : Str) (chunk : Time × Time) :
    Inv (Upkeep.move s q sweep (Sweeps.exported s.sys.world table chunk)) := by
  refine hs.move rfl (fun _ _ _ h => h) ?_ (fun _ _ e he => hs.vault.entries _ e he)
    (fun _ _ e he => ⟨e, he, rfl⟩) ?_
  · intro k hk
    refine ⟨files_writeTable_of_ne _ _ fun heq => hk ?_, rfl⟩
    rw [heq]
    exact exportKey_mem table chunk.1
  · intro table' day rows hday hrows
    by_cases hkey : coldKey table' day 0 = exportKey table chunk.1
    · obtain ⟨rfl, -, -⟩ := coldKey_inj hday (slash_notMem_dayOf _) hkey
      rw [show (Sweeps.exported s.sys.world table' chunk).cold = writeTable s.sys.world.cold
        (exportKey table' chunk.1) (Engine.hotRange (s.sys.world.hot table') chunk.1 chunk.2) from rfl,
        files_writeTable, if_pos hkey] at hrows
      cases hrows
      intro r hr
      exact hs.hot table' r.key r.stored ((Engine.mem_hotRange_iff _ _ _ r).mp hr).1
    · exact hs.exported table' day rows hday (by rwa [← files_writeTable_of_ne _ _ hkey])

omit [DecidableEq ι] [Numerics F] in
theorem Inv.record (hs : Inv s) (table : Str) (chunk : Time × Time) (rows : ℕ) :
    Inv (Upkeep.move s q sweep (Sweeps.recorded s.sys.world table chunk rows)) := by
  have hold : ∀ old, s.sys.world.cold.manifest.get? (exportKey table chunk.1) = some old →
      old.measurement = table ∧ old.kind = .cold := by
    intro old hold
    cases hs.vault.entries _ _ hold with
    | staging b hb hk he => exact absurd hk.symm (key_ne_coldKey b _ _ _)
    | cold day a hday hkind hk =>
      exact ⟨(coldKey_inj hday (slash_notMem_dayOf _) hk.symm).1, hkind⟩
  have hself := get?_record_new s.sys.world.cold (Sweeps.exportMeta table chunk rows) hold
  have hother : ∀ k, k ≠ exportKey table chunk.1 →
      (Sweeps.recorded s.sys.world table chunk rows).cold.manifest.get? k =
        s.sys.world.cold.manifest.get? k := fun k hk => get?_record_of_ne _ _ hk
  refine hs.move rfl (fun _ _ _ h => h) ?_ ?_ ?_ hs.exported
  · intro k hk
    refine ⟨rfl, hother k fun heq => hk ?_⟩
    rw [heq]
    exact exportKey_mem table chunk.1
  · intro k _ e he
    by_cases hk : k = exportKey table chunk.1
    · subst hk
      cases hself.symm.trans he
      exact .cold (dayOf chunk.1) 0 (slash_notMem_dayOf _) rfl rfl
    · exact hs.vault.entries k e (hother k hk ▸ he)
  · intro k _ e he
    by_cases hk : k = exportKey table chunk.1
    · subst hk
      exact ⟨_, hself, (hold e he).1.symm⟩
    · exact ⟨e, (hother k hk).trans he, rfl⟩

end Sweep

section Run

variable {s t : Upkeep F ι μ}

theorem step_inv {e : Event F ι μ} (hs : Inv s) (hstep : step digest s e = some t) : Inv t := by
  cases e with
  | sys e =>
    obtain ⟨sys, hsys, rfl⟩ := Option.map_eq_some_iff.mp hstep
    have hchange := change_of_step digest true hsys
    refine ⟨ledger_change hs.ledger hchange, positive_change hs.positive hchange,
      staged_change hs.ledger hs.vault hs.staged hchange,
      vault_change hs.ledger hs.positive.2 hs.staged hs.vault hchange,
      hot_change hs.ledger hs.hot hchange, ?_, described_change hs.described hs.ledger hs.vault hchange⟩
    intro table day rows hday hrows
    have hkey : coldKey table day 0 ∈ exportKeys := ⟨table, day, hday, rfl⟩
    have hsame := exported_change hs.ledger hs.positive.2 hs.vault hchange _ hkey
    refine (hs.exported table day rows hday (hsame ▸ hrows)).mono (Set.Subset.refl _) ?_
    rintro r ⟨b, hb, htable, hr⟩
    exact ⟨b, recorded_change hchange b hb, htable, hr⟩
  | begin q tables =>
    simp only [step] at hstep
    split at hstep
    · cases hstep
      exact hs.still
    · contradiction
  | fail q =>
    simp only [step] at hstep
    split at hstep
    · contradiction
    · cases hstep
      exact hs.still
  | advance q eligible =>
    obtain ⟨⟨sweep, w⟩, hsweep, rfl⟩ := Option.map_eq_some_iff.mp hstep
    generalize s.sweeps q = current at hsweep
    cases current with
    | idle => contradiction
    | asking todo =>
      cases todo with
      | nil =>
        cases hsweep
        exact hs.still
      | cons table todo =>
        cases hsweep
        exact hs.still
    | listing table chunks todo =>
      cases hsweep
      exact hs.still
    | sweeping table intervals chunks todo =>
      cases chunks with
      | nil =>
        cases hsweep
        exact hs.still
      | cons chunk chunks =>
        simp only [Sweeps.step] at hsweep
        split at hsweep
        · cases hsweep
          exact hs.drop table chunk
        · cases hsweep
          exact hs.export table chunk
    | recording table chunk rows intervals chunks todo =>
      cases hsweep
      exact hs.record table chunk rows
    | dropping table chunk intervals chunks todo =>
      cases hsweep
      exact hs.drop table chunk
    | ended ok => contradiction

end Run

end Upkeep

end TimescaleLp
