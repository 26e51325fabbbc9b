import TimescaleLp.EngineText
import TimescaleLp.UpkeepReads

/-!
The texts of a run. Tables and the root of the store have names without quotes, and
then so has every object that is ever listed. Through every interleaving of writes,
merges and sweeps the texts that the engine is sent mean the views, the merges and the
exports of the service, with the freedom that the database has. It keeps the keys and the
versions of rows and converts their cells, so the stores it works on are alike to those of
the run and not the same.
-/
namespace TimescaleLp.UpkeepTexts

open ColdStore Tiering Passes Queries Calendar Lexing Ranking Vault EngineText Conversions

variable {F ι μ : Type}

section Unquoted

/-- Objects and measurements of the manifest are without quotes. -/
def Listed (c : Cold (Value F)) : Prop :=
  ∀ k e, c.manifest.get? k = some e → '\'' ∉ k ∧ '\'' ∉ e.measurement

def GroupsUnquoted (m : Str) (groups : List (Str × List ObjectMeta)) : Prop :=
  ∀ g ∈ groups, '\'' ∉ m ∧ '\'' ∉ g.1

def PassUnquoted : Pass → Prop
  | .merging m groups _ => GroupsUnquoted m groups
  | .recording job _ groups _ =>
    ('\'' ∉ job.measurement ∧ '\'' ∉ job.day) ∧ GroupsUnquoted job.measurement groups
  | .removing job _ groups _ => GroupsUnquoted job.measurement groups
  | .forgetting job _ _ groups _ => GroupsUnquoted job.measurement groups
  | _ => True

/-- The tables that a sweep has still to do. -/
def tablesOf : Sweep → List Str
  | .asking todo => todo
  | .listing table _ todo => table :: todo
  | .sweeping table _ _ todo => table :: todo
  | .recording table _ _ _ _ todo => table :: todo
  | .dropping table _ _ _ todo => table :: todo
  | _ => []

structure Unquoted (s : Upkeep F ι μ) : Prop where
  drawn : ∀ b ∈ s.sys.drawn, '\'' ∉ b.table
  listed : Listed s.sys.world.cold
  pass : PassUnquoted (s.sys.passes ())
  sweeps : ∀ q, ∀ table ∈ tablesOf (s.sweeps q), '\'' ∉ table

/-- The tables of writes and sweeps have names without quotes. -/
def Given : Upkeep.Event F ι μ → Prop
  | .sys (.build _ schema _) => '\'' ∉ schema.table
  | .begin _ tables => ∀ table ∈ tables, '\'' ∉ table
  | _ => True

theorem quote_notMem_coldKey {m day : Str} (hm : '\'' ∉ m) (hday : '\'' ∉ day) (a : ℕ) :
    '\'' ∉ coldKey m day a := by
  simp [coldKey, hm, hday, Names.notMem_zeroPad]

theorem quote_notMem_key {b : Batch F} (hb : '\'' ∉ b.table) : '\'' ∉ b.key := by
  simp [Batch.key, stagingKey, hb, Names.notMem_zeroPad]

variable {c c' : Cold (Value F)}

theorem Listed.record (h : Listed c) {new : ObjectMeta} (hkey : '\'' ∉ new.objectKey)
    (hm : '\'' ∉ new.measurement) : Listed (ColdStore.record c new) := by
  refine Dict.forall_set h ⟨hkey, ?_⟩
  cases hold : c.manifest.get? new.objectKey with
  | none => exact hm
  | some old => exact (h _ old hold).2

theorem Listed.forget (h : Listed c) (key : Str) : Listed (ColdStore.forget c key) := by
  intro k e he
  rw [get?_forget] at he
  split at he
  · contradiction
  · exact h k e he

/-- A measurement that has objects is that of an entry. -/
theorem Listed.groups (h : Listed c) (m : Str) :
    GroupsUnquoted m (planCompaction (objects c m (some .staging))).entries := by
  intro g hg
  obtain ⟨hgroup, hne⟩ := Dict.mem_groupBy_entries _ _ _ _ hg
  obtain ⟨o, ho⟩ := List.exists_mem_of_ne_nil _ hne
  rw [hgroup, List.mem_filter] at ho
  obtain ⟨he, hm, -⟩ := (mem_objects_iff _ _ _ _).mp ho.1
  have hday : dayOf o.rangeStart = g.1 := by simpa using ho.2
  exact ⟨hm ▸ (h _ _ he).2, hday ▸ quote_notMem_dayOf _⟩

theorem GroupsUnquoted.tail {m : Str} {g : Str × List ObjectMeta} {groups : List (Str × List ObjectMeta)}
    (h : GroupsUnquoted m (g :: groups)) : GroupsUnquoted m groups :=
  fun g' hg' => h g' (List.mem_cons_of_mem g hg')

theorem pass_step {p p' : Pass} (h : Listed c) (hp : PassUnquoted p)
    (hstep : Passes.step c p = some (p', c')) : Listed c' ∧ PassUnquoted p' := by
  cases p with
  | idle => contradiction
  | listing todo =>
    cases todo with
    | nil =>
      cases hstep
      exact ⟨h, trivial⟩
    | cons m todo =>
      cases hstep
      exact ⟨h, h.groups m⟩
  | merging m groups todo =>
    cases groups with
    | nil =>
      cases hstep
      exact ⟨h, trivial⟩
    | cons g groups =>
      obtain ⟨day, objs⟩ := g
      simp only [Passes.step] at hstep
      split at hstep
      · cases hstep
        exact ⟨h, trivial⟩
      · rename_i hmerge
        cases hstep
        obtain ⟨rows, -, rfl, -⟩ := Engine.compact_some hmerge
        exact ⟨h, hp (day, objs) List.mem_cons_self, hp.tail⟩
  | recording job rows groups todo =>
    cases hstep
    obtain ⟨⟨hm, hday⟩, hgroups⟩ := hp
    exact ⟨h.record (quote_notMem_coldKey hm hday _) hm, hgroups⟩
  | removing job rest groups todo =>
    cases rest with
    | nil =>
      cases hstep
      exact ⟨h, hp⟩
    | cons o rest =>
      cases hstep
      exact ⟨h, hp⟩
  | forgetting job o rest groups todo =>
    cases hstep
    exact ⟨h.forget _, hp⟩
  | ended ok => contradiction

theorem sweep_step {w w' : World (Value F)} {q q' : Sweep} {eligible : List (Time × Time)}
    (h : Listed w.cold) (hq : ∀ table ∈ tablesOf q, '\'' ∉ table)
    (hstep : Sweeps.step w eligible q = some (q', w')) :
    Listed w'.cold ∧ ∀ table ∈ tablesOf q', '\'' ∉ table := by
  cases q with
  | idle => contradiction
  | asking todo =>
    cases todo with
    | nil =>
      cases hstep
      exact ⟨h, by simp [tablesOf]⟩
    | cons table todo =>
      cases hstep
      refine ⟨h, fun t ht => hq t ?_⟩
      split at ht
      · exact List.mem_cons_of_mem table ht
      · exact ht
  | listing table chunks todo =>
    cases hstep
    exact ⟨h, hq⟩
  | sweeping table intervals chunks todo =>
    cases chunks with
    | nil =>
      cases hstep
      exact ⟨h, fun t ht => hq t (List.mem_cons_of_mem table ht)⟩
    | cons chunk chunks =>
      simp only [Sweeps.step] at hstep
      split at hstep
      · cases hstep
        exact ⟨h, hq⟩
      · cases hstep
        exact ⟨h, hq⟩
  | recording table chunk rows intervals chunks todo =>
    cases hstep
    have htable := hq table List.mem_cons_self
    exact ⟨h.record (quote_notMem_coldKey htable (quote_notMem_dayOf _) _) htable, hq⟩
  | dropping table chunk intervals chunks todo =>
    cases hstep
    exact ⟨h, hq⟩
  | ended ok => contradiction

end Unquoted

section Runs

variable [DecidableEq ι] [DecidableEq μ] [Numerics F] (digest : Str → ℕ)
  {s t : Upkeep F ι μ} {e : Upkeep.Event F ι μ}

omit [DecidableEq μ] in
/-- A batch that is new is one of the table that was asked for. -/
theorem drawn_step {s t : Sys F ι Unit} {e : TimescaleLp.Event F ι Unit}
    (hstep : Schedule.step digest true s e = some t) : ∀ b ∈ t.drawn, b ∈ s.drawn ∨
      ∃ w schema points, e = .build w schema points ∧ b.table = schema.table := by
  have hchange := Schedule.change_of_step digest true hstep
  cases e with
  | build w schema points =>
    clear hchange
    intro b hb
    cases hw : s.writers w <;> simp only [Schedule.step, hw, reduceCtorEq] at hstep
    cases points with
    | nil => simp at hstep
    | cons p ps =>
      cases hbuild : Store.buildBatch digest schema (p :: ps) s.world.nextSeq with
      | mk n res =>
        cases res with
        | error e =>
          simp only [hbuild, Option.some.injEq] at hstep
          subst hstep
          exact Or.inl hb
        | ok b' =>
          simp only [hbuild, Option.some.injEq] at hstep
          subst hstep
          rcases List.mem_append.mp hb with hb | hb
          · exact Or.inl hb
          · cases List.mem_singleton.mp hb
            obtain ⟨sources, hbuilt⟩ := Columns.exists_built digest hbuild
            exact Or.inr ⟨w, schema, p :: ps, rfl, hbuilt.table⟩
  | _ =>
    cases hchange
    all_goals exact fun b hb => Or.inl hb

omit [DecidableEq μ] in
theorem cold_step {s t : Sys F ι Unit} {e : TimescaleLp.Event F ι Unit} (hledger : Ledger s)
    (hdrawn : ∀ b ∈ s.drawn, '\'' ∉ b.table) (h : Listed s.world.cold)
    (hpass : PassUnquoted (s.passes ())) (hstep : Schedule.step digest true s e = some t) :
    Listed t.world.cold ∧ PassUnquoted (t.passes ()) := by
  cases Schedule.change_of_step digest true hstep with
  | built hidle hn hdrawn => exact ⟨h, hpass⟩
  | refused hn => exact ⟨h, hpass⟩
  | staged hb hon => exact ⟨h, hpass⟩
  | @recorded w b hb =>
    have htable := hdrawn b (hledger.pending w b (by rw [hb]; rfl)).1
    exact ⟨h.record (quote_notMem_key htable) htable, hpass⟩
  | committed hb ht => exact ⟨h, hpass⟩
  | abandoned => exact ⟨h, hpass⟩
  | promoted => exact ⟨h, hpass⟩
  | began hp =>
    rw [Upkeep.passes_advance]
    exact ⟨h, trivial⟩
  | advanced hp =>
    rw [Upkeep.passes_advance]
    exact pass_step h hpass hp

omit [DecidableEq ι] [Numerics F] in
theorem sweeps_move (hs : ∀ q, ∀ table ∈ tablesOf (s.sweeps q), '\'' ∉ table) (q : μ) (sweep : Sweep)
    (hsweep : ∀ table ∈ tablesOf sweep, '\'' ∉ table) (w : World (Value F)) :
    ∀ q', ∀ table ∈ tablesOf ((Upkeep.move s q sweep w).sweeps q'), '\'' ∉ table := by
  intro q' table htable
  change table ∈ tablesOf (Function.update s.sweeps q sweep q') at htable
  rw [Function.update_apply] at htable
  split at htable
  · exact hsweep table htable
  · exact hs q' table htable

theorem unquoted_step (hinv : Upkeep.Inv s) (hs : Unquoted s) (hgiven : Given e)
    (hstep : Upkeep.step digest s e = some t) : Unquoted t := by
  cases e with
  | sys e =>
    obtain ⟨sys, hsys, rfl⟩ := Option.map_eq_some_iff.mp hstep
    obtain ⟨hlisted, hpass⟩ := cold_step digest hinv.ledger hs.drawn hs.listed hs.pass hsys
    refine ⟨fun b hb => ?_, hlisted, hpass, hs.sweeps⟩
    rcases drawn_step digest hsys b hb with hb | ⟨w, schema, points, rfl, htable⟩
    · exact hs.drawn b hb
    · rw [htable]
      exact hgiven
  | begin q tables =>
    simp only [Upkeep.step] at hstep
    split at hstep
    · cases hstep
      exact ⟨hs.drawn, hs.listed, hs.pass, sweeps_move hs.sweeps q (.asking tables) hgiven _⟩
    · contradiction
  | fail q =>
    simp only [Upkeep.step] at hstep
    split at hstep
    · contradiction
    · cases hstep
      exact ⟨hs.drawn, hs.listed, hs.pass, sweeps_move hs.sweeps q _ (by simp [tablesOf]) _⟩
  | advance q eligible =>
    obtain ⟨⟨sweep, w⟩, hsweep, rfl⟩ := Option.map_eq_some_iff.mp hstep
    obtain ⟨hlisted, htables⟩ := sweep_step hs.listed (hs.sweeps q) hsweep
    exact ⟨hs.drawn, hlisted, hs.pass, sweeps_move hs.sweeps q sweep htables w⟩

end Runs

section Executed

variable (converts : Cells (Value F) → Cells (Value F) → Prop)

/-- Of each key the view gives one row, and a newest one, with cells that were converted
any number of times. -/
structure Presents (rows : Set (Row (Value F))) (shown : List (Key × Cells (Value F))) : Prop where
  nodup : (shown.map Prod.fst).Nodup
  complete : ∀ r ∈ rows, r.key ∈ shown.map Prod.fst
  sound : ∀ k cells, (k, cells) ∈ shown → ∃ r, Newest rows k r ∧
    Relation.ReflTransGen converts r.cells cells

/-- What the engine makes of the texts that it can be sent in a state, on stores whose
cells were converted by earlier reads. What it writes is again alike to what the step of
the service writes. -/
structure Executed (root tsdbSchema : Str) (coldRowGroupSize : ℕ) (s : Upkeep F ι μ) : Prop where
  views : ∀ current : Service F, AlikeStores converts s.sys.world current.toWorld →
    ∀ q table refs, (table, refs) ∈ (viewSpecs current q).entries → refs ≠ [] → ∃ v,
      (lex (buildFederatedViewSql tsdbSchema table (refs.map (refText root tsdbSchema)))).bind
          readView = some v ∧ v.schema = tsdbSchema ∧ v.view = table ∧
        ((∃ shown, v.Shows converts root tsdbSchema current shown) ↔ union current refs ≠ none) ∧
        ∀ shown, v.Shows converts root tsdbSchema current shown →
          Presents converts (viewRows s.sys.world q.tier.tier table q.start q.stop) shown
  merges : ∀ current : Service F, AlikeStores converts s.sys.world current.toWorld →
    ∀ m day objs groups todo, s.sys.passes () = .merging m ((day, objs) :: groups) todo → ∃ stmt,
      (lex (compactSql coldRowGroupSize (objs.map fun o => uri root o.objectKey)
          (uri root (outKey m day objs)))).bind readCopy = some stmt ∧
        ((∃ c', stmt.Writes converts root tsdbSchema current c') ↔
          Engine.readParquet s.sys.world.cold (objs.map (·.objectKey)) ≠ none) ∧
        ∀ c', stmt.Writes converts root tsdbSchema current c' → ∃ n cold,
          Passes.step s.sys.world.cold (s.sys.passes ()) =
              some (.recording ⟨m, day, objs⟩ n groups todo, cold) ∧
            AlikeStores converts { s.sys.world with cold := cold }
              { current.toWorld with cold := c' }
  exports : ∀ current : Service F, AlikeStores converts s.sys.world current.toWorld →
    ∀ q table intervals chunk chunks todo,
      s.sweeps q = .sweeping table intervals (chunk :: chunks) todo →
      current.catalog.contains table = true → Dated chunk.1 → Dated chunk.2 → ∃ stmt,
        (lex (exportSql (hotRef tsdbSchema table) (uri root (exportKey table chunk.1)) chunk.1
            chunk.2)).bind readCopy = some stmt ∧
          (∃ c', stmt.Writes converts root tsdbSchema current c') ∧
          ∀ c', stmt.Writes converts root tsdbSchema current c' →
            AlikeStores converts (Sweeps.exported s.sys.world table chunk)
              { current.toWorld with cold := c' }

variable {converts} {s : Upkeep F ι μ} {root : Str} (tsdbSchema : Str)

theorem nameable_of_mem_refs {current : Service F} (h : Listed current.cold) {q : Request}
    {table : Str} : ∀ ref ∈ refs current q table, Nameable ref := by
  intro ref href
  rcases (mem_refs_iff q table ref).mp href with ⟨-, rfl⟩ | ⟨hne, rfl⟩
  · trivial
  · refine ⟨by simpa using hne, fun k hk => ?_⟩
    obtain ⟨o, ho, rfl⟩ := List.mem_map.mp hk
    exact (h _ _ ((mem_objects_iff _ _ _ _).mp (List.mem_of_mem_filter ho)).1).1

theorem exists_firsts (htotal : ∀ cells, ∃ cells', converts cells cells')
    (rows : List (Row (Value F))) : ∃ result, Firsts converts rows result := by
  obtain ⟨read, hread⟩ : ∃ read, List.Forall₂ (Converted converts) rows read := by
    induction rows with
    | nil => exact ⟨[], .nil⟩
    | cons r rows ih =>
      obtain ⟨read, hread⟩ := ih
      obtain ⟨cells, hcells⟩ := htotal r.cells
      exact ⟨⟨r.key, r.seq, cells⟩ :: read, .cons ⟨rfl, rfl, hcells⟩ hread⟩
  exact ⟨_, read, _, hread, numbering_number, rfl⟩

/-- Whichever of the rows of a version are numbered first, and however converted. -/
theorem presents_firsts {versions : Set (Row (Value F))} {rows result : List (Row (Value F))}
    (hsound : ∀ r' ∈ rows, ∃ r ∈ versions, Converted (Relation.ReflTransGen converts) r r')
    (hcomplete : ∀ r ∈ versions, ∃ r' ∈ rows, Converted (Relation.ReflTransGen converts) r r')
    (h : Firsts converts rows result) :
    Presents converts versions (result.map fun r => (r.key, r.cells)) := by
  obtain ⟨read, out, hread, hout, rfl⟩ := h
  have halike : Alike converts rows read := (Alike.refl rows).read hread
  refine ⟨?_, fun r hr => ?_, fun k cells hmem => ?_⟩
  · rw [List.map_map]
    exact hout.keys_nodup
  · obtain ⟨r', hr', hconverted⟩ := hcomplete r hr
    obtain ⟨r'', hr'', hconverted'⟩ := halike.mem_left hr'
    obtain ⟨first, hfirst, hkey⟩ := hout.exists_first hr''
    rw [List.map_map]
    exact List.mem_map.mpr ⟨first, hfirst, hkey.trans (hconverted'.key.trans hconverted.key)⟩
  · obtain ⟨first, hfirst, heq⟩ := List.mem_map.mp hmem
    cases heq
    have hnewest := hout.newest hfirst
    obtain ⟨r', hr', hconverted'⟩ := halike.mem_right hnewest.1
    obtain ⟨r, hr, hconverted⟩ := hsound r' hr'
    have hchain := hconverted.trans hconverted'
    refine ⟨r, ⟨hr, hchain.key.symm, fun t ht hkey => ?_⟩, hchain.cells⟩
    obtain ⟨t', ht', hthen⟩ := hcomplete t ht
    obtain ⟨t'', ht'', hthen'⟩ := halike.mem_left ht'
    have hle := hnewest.2.2 t'' ht'' ((hthen.trans hthen').key.trans hkey)
    rwa [(hthen.trans hthen').seq, hchain.seq] at hle

omit tsdbSchema in
theorem Listed.of_alike {current : Service F} (h : Listed s.sys.world.cold)
    (halike : AlikeStores converts s.sys.world current.toWorld) : Listed current.cold := by
  intro k e he
  rw [halike.manifest] at he
  exact h k e he

/-- What a pass is about to merge is a job of recorded objects, without quotes. -/
theorem job_of_merging (hinv : Upkeep.Inv s) (hs : Unquoted s) {m day : Str}
    {objs : List ObjectMeta} {groups : List (Str × List ObjectMeta)} {todo : List Str}
    (hpass : s.sys.passes () = .merging m ((day, objs) :: groups) todo) :
    JobOk s.sys.recorded ⟨m, day, objs⟩ ∧ ('\'' ∉ m ∧ '\'' ∉ day) ∧
      ∀ k ∈ objs.map (·.objectKey), '\'' ∉ k := by
  have hworking := hinv.vault.working ()
  have hunquoted := hs.pass
  rw [hpass] at hworking hunquoted
  have hjob : JobOk s.sys.recorded ⟨m, day, objs⟩ := hworking (day, objs) List.mem_cons_self
  refine ⟨hjob, hunquoted (day, objs) List.mem_cons_self, fun k hk => ?_⟩
  obtain ⟨o, ho, rfl⟩ := List.mem_map.mp hk
  obtain ⟨b, hb, -, rfl⟩ := hjob.objs o ho
  exact quote_notMem_key (hs.drawn b (hinv.ledger.recorded b hb))

/-- The rows that a merge reads have versions of their own. -/
theorem distinct_of_read (hinv : Upkeep.Inv s) {job : Job} (hjob : JobOk s.sys.recorded job)
    {rows : List (Row (Value F))}
    (hrows : Engine.readParquet s.sys.world.cold (job.objs.map (·.objectKey)) = some rows) :
    Versions.Distinct Row.key Row.seq {r | r ∈ rows} := by
  intro r hr r' hr' _ hseq
  obtain ⟨b, hb, -, hrb⟩ := (hinv.vault.mem_read_iff hjob hrows r).mp hr
  obtain ⟨b', hb', -, hrb'⟩ := (hinv.vault.mem_read_iff hjob hrows r').mp hr'
  exact (hinv.ledger.drawn.seqs b (hinv.ledger.recorded b hb) b' (hinv.ledger.recorded b' hb')
    r hrb r' hrb' hseq).2

theorem executed (htotal : ∀ cells, ∃ cells', converts cells cells') (hinv : Upkeep.Inv s)
    (hs : Unquoted s) (hroot : '\'' ∉ root) (coldRowGroupSize : ℕ) :
    Executed converts root tsdbSchema coldRowGroupSize s where
  views current halike q table refs' href hne := by
    obtain ⟨table', -, heq⟩ := List.mem_map.mp href
    cases heq
    obtain ⟨v, hread, hschema, hview, hshows⟩ := exists_viewStatement converts hroot
      tsdbSchema table hne (nameable_of_mem_refs (hs.listed.of_alike halike))
    refine ⟨v, hread, hschema, hview, ⟨?_, ?_⟩, ?_⟩
    · rintro ⟨shown, hshown⟩ hnone
      obtain ⟨rows, -, hrows, -⟩ := (hshows current shown).mp hshown
      exact absurd (hnone.symm.trans hrows) (by simp)
    · intro hsome
      obtain ⟨rows, hrows⟩ := Option.ne_none_iff_exists'.mp hsome
      obtain ⟨result, hresult⟩ := exists_firsts htotal rows
      exact ⟨_, (hshows current _).mpr ⟨rows, result, hrows, hresult, rfl⟩⟩
    · intro shown hshown
      obtain ⟨rows, result, hrows, hresult, rfl⟩ := (hshows current shown).mp hshown
      have hmem := mem_viewRows_iff q table hrows
      refine presents_firsts (fun r' hr' => ?_) (fun r hr => ?_) hresult
      · exact halike.viewRows_right ((hmem r').mp hr')
      · obtain ⟨r', hr', hconverted⟩ := halike.viewRows_left hr
        exact ⟨r', (hmem r').mpr hr', hconverted⟩
  merges current halike m day objs groups todo hpass := by
    obtain ⟨hjob, hpart, hkeys⟩ := job_of_merging hinv hs hpass
    obtain ⟨stmt, hread, hwrites⟩ := exists_mergeStatement converts hroot tsdbSchema
      coldRowGroupSize (by simpa using hjob.nonempty) hkeys
      (quote_notMem_coldKey hpart.1 hpart.2 (minSeqOf objs))
    rw [List.map_map] at hread
    refine ⟨stmt, hread, ⟨?_, ?_⟩, ?_⟩
    · rintro ⟨c', hc'⟩
      obtain ⟨rows', -, hrows', -⟩ := (hwrites current c').mp hc'
      obtain ⟨rows, hrows, -⟩ := halike.read_right hrows'
      rw [hrows]
      exact Option.some_ne_none rows
    · intro hsome
      obtain ⟨rows, hrows⟩ := Option.ne_none_iff_exists'.mp hsome
      obtain ⟨rows', hrows'⟩ := halike.readable hrows
      obtain ⟨result, hresult⟩ := exists_firsts htotal rows'
      exact ⟨_, (hwrites current _).mpr ⟨rows', result, hrows', hresult, rfl⟩⟩
    · intro c' hc'
      obtain ⟨rows', result, hrows', ⟨read, out, hconverted, hout, rfl⟩, rfl⟩ :=
        (hwrites current c').mp hc'
      obtain ⟨rows, hrows, hsame⟩ := halike.read_right hrows'
      have hdistinct := distinct_of_read hinv hjob hrows
      refine ⟨(Engine.dedupRows rows).length, _, ?_,
        halike.writeTable _ ((hsame.read hconverted).firsts hout hdistinct)⟩
      rw [hpass]
      simp only [Passes.step, Engine.compact, hrows, Option.map_some]
      rfl
  exports current halike q table intervals chunk chunks todo hsweep hknown hstart hstop := by
    have htable : '\'' ∉ table := by
      refine hs.sweeps q table ?_
      rw [hsweep]
      exact List.mem_cons_self
    obtain ⟨stmt, hread, hwrites⟩ := exists_exportStatement converts hroot tsdbSchema
      table (quote_notMem_coldKey htable (quote_notMem_dayOf chunk.1) 0) hstart hstop
    refine ⟨stmt, hread, ⟨_, (hwrites current _).mpr ⟨hknown, _, List.Perm.refl _, rfl⟩⟩, ?_⟩
    intro c' hc'
    obtain ⟨-, result, hperm, rfl⟩ := (hwrites current c').mp hc'
    rw [halike.hot] at hperm
    exact halike.writeTable _ (alike_of_perm hperm)

variable [DecidableEq ι] [DecidableEq μ] [Numerics F] (digest : Str → ℕ)

/-- In every state of a run. -/
theorem always_executed (htotal : ∀ cells, ∃ cells', converts cells cells')
    (hroot : '\'' ∉ root) (coldRowGroupSize : ℕ) {n : ℕ} (hn : 1 ≤ n)
    {es : List (Upkeep.Event F ι μ)} (hgiven : ∀ e ∈ es, Given e) :
    Runs.Always (Upkeep.step digest) (Executed converts root tsdbSchema coldRowGroupSize)
      (Upkeep.start n) es := by
  refine Runs.always_of_along (I := fun s => Upkeep.Inv s ∧ Unquoted s) (G := fun _ e => Given e)
    ?_ ?_ ⟨Upkeep.start_inv hn, ?_⟩ (Runs.along_of_forall (fun e he _ => hgiven e he) _)
  · rintro s e t ⟨hinv, hs⟩ he hstep
    exact ⟨Upkeep.step_inv digest hinv hstep, unquoted_step digest hinv hs he hstep⟩
  · rintro s ⟨hinv, hs⟩
    exact executed tsdbSchema htotal hinv hs hroot coldRowGroupSize
  · refine ⟨?_, ?_, trivial, ?_⟩
    · simp [Upkeep.start, Schedule.start]
    · intro k e he
      simp [Upkeep.start, Schedule.start, ColdStore.empty] at he
    · simp [Upkeep.start, tablesOf]

/-- Two batches are merged after a sweep. -/
def merged : List (Upkeep.Event ℤ Bool Unit) :=
  Upkeep.raced ++ [.sys (.begin () none), .sys (.advance ()), .sys (.advance ())]

/-- A read may add the day that a path names. -/
def addsDay (cells cells' : Cells (Value ℤ)) : Prop :=
  cells' = cells ∨ ∃ day, cells' = Function.update cells "dt".toList (some (.str day))

theorem merged_executed : (Runs.exec (Upkeep.step fun _ => 0) (Upkeep.start 1) merged).any
      (fun s => (s.sys.world.cold.files (coldKey "cpu".toList (dayOf 0) 1)).isSome) = true ∧
    Runs.Always (Upkeep.step fun _ => 0)
      (Executed addsDay "s3://cold".toList "lp".toList 131072) (Upkeep.start 1) merged := by
  refine ⟨by decide +kernel, always_executed "lp".toList (fun _ => 0)
    (fun cells => ⟨cells, Or.inl rfl⟩) (by decide) 131072 le_rfl ?_⟩
  simp [merged, Upkeep.raced, Upkeep.ingested, Custody.ingest, Given, Schedule.cpuSchema]

end Executed

end TimescaleLp.UpkeepTexts
