import TimescaleLp.Passes
import TimescaleLp.Runs

/-!
Compaction passes that stop at any point and are run again. One compactor works
alone on whatever was recorded. The name of an output is taken from the inputs
that are left, so a later pass can come back to a name an earlier one used; a
row is safe in an output whose name cannot come up again, and in an input that
is removed after the one that names the output.
-/
namespace TimescaleLp.Restart

open ColdStore Tiering Passes

universe u

variable {V : Type u}

inductive Event
  | begin (measurement : Option Str)
  | advance
  | stop

/-- The cold store and the one pass at work. A stop is a crash or an exception
of any call the pass makes. -/
def step (s : Cold V × Pass) : Event → Option (Cold V × Pass)
  | .begin measurement =>
    if s.2.resting then some (s.1, Passes.begin s.1 measurement) else none
  | .advance => (Passes.step s.1 s.2).map fun (pass, c) => (c, pass)
  | .stop => some (s.1, .ended false)

/-- What recording leaves in the manifest: object keys carry the numbers of
their entries, and sequence numbers are drawn once. -/
structure Wf (c : Cold V) : Prop where
  staging : ∀ k e, c.manifest.get? k = some e → e.kind = .staging →
    k = stagingKey e.measurement e.minSeq e.maxSeq
  cold : ∀ k e, c.manifest.get? k = some e → e.kind = .cold →
    ∃ day a, '/' ∉ day ∧ k = coldKey e.measurement day a
  minSeq : ∀ k e k' e', c.manifest.get? k = some e → c.manifest.get? k' = some e' →
    e.kind = .staging → e'.kind = .staging → e.measurement = e'.measurement →
    e.minSeq = e'.minSeq → k = k'
  distinct : ∀ m, Distinct (heldIn c m fun _ e => e.kind = .staging)

/-- A staging object of a measurement and a day. -/
structure Listed (c : Cold V) (m day : Str) (o : ObjectMeta) : Prop where
  entry : c.manifest.get? o.objectKey = some o.toManifestRow
  measurement : o.measurement = m
  staging : o.kind = .staging
  day : dayOf o.rangeStart = day

/-- A listed object of the group has no file, so that the group cannot be merged. -/
def Stuck (c : Cold V) (m day : Str) : Prop := ∃ o, Listed c m day o ∧ c.files o.objectKey = none

/-- The object can come to be the one that names the output: all objects of its
group with smaller numbers are removed before it. -/
structure MayName (c : Cold V) (m day : Str) (f : ObjectMeta) : Prop where
  listed : Listed c m day f
  exists_file : c.files f.objectKey ≠ none
  before : ∀ g, Listed c m day g → g.minSeq < f.minSeq → g.rangeStart ≤ f.rangeStart

/-- The object with the smallest number in its group. -/
structure First (c : Cold V) (m day : Str) (f : ObjectMeta) : Prop where
  listed : Listed c m day f
  least : ∀ g, Listed c m day g → f.minSeq ≤ g.minSeq

/-- Where no pass can lose the row: a compacted object at a name that no group
can come to use, or a staging object that starts no earlier than the one that
names its group's output. Stuck groups do no harm. -/
inductive Secured (stuck : Str → Str → Prop) (c : Cold V) (m : Str) (r : Row V) : Prop
  | compacted (k : Str) (e : ManifestRow) (hk : c.manifest.get? k = some e)
      (hm : e.measurement = m) (hkind : e.kind = .cold) (hr : r ∈ fileRows c k)
      (hsafe : ∀ day f, MayName c m day f → coldKey m day f.minSeq = k → stuck m day)
  | staged (day : Str) (o : ObjectMeta) (ho : Listed c m day o) (hr : r ∈ fileRows c o.objectKey)
      (hfirst : stuck m day ∨ ∀ f, First c m day f → f.rangeStart ≤ o.rangeStart)

/-- The rows that reads of the store return. -/
def Winner (c : Cold V) (m : Str) (r : Row V) : Prop := ∃ k, Newest (held c m) k r

theorem Secured.held {stuck : Str → Str → Prop} {c : Cold V} {m : Str} {r : Row V}
    (h : Secured stuck c m r) : r ∈ held c m := by
  cases h with
  | compacted k e hk hm _ hr _ =>
    obtain ⟨rows, hrows, hr⟩ := hr
    exact ⟨k, e, rows, hk, hm, trivial, hrows, hr⟩
  | staged day o ho hr _ =>
    obtain ⟨rows, hrows, hr⟩ := hr
    exact ⟨o.objectKey, _, rows, ho.entry, ho.measurement, trivial, hrows, hr⟩

section Wf

variable {c : Cold V} {m day : Str}

theorem Listed.key {o : ObjectMeta} (ho : Listed c m day o) (h : Wf c) :
    o.objectKey = stagingKey o.measurement o.minSeq o.maxSeq :=
  h.staging _ _ ho.entry ho.staging

theorem Listed.key_ne_coldKey {o : ObjectMeta} (ho : Listed c m day o) (h : Wf c)
    (m' day' : Str) (a : ℕ) : o.objectKey ≠ coldKey m' day' a := by
  rw [ho.key h]
  exact stagingKey_ne_coldKey _ _ _ _ _ _

/-- What is listed at the name of an output is an output of that measurement. -/
theorem Wf.output {e : ManifestRow} {a : ℕ} (h : Wf c) (hslash : '/' ∉ day)
    (hk : c.manifest.get? (coldKey m day a) = some e) : e.measurement = m ∧ e.kind = .cold := by
  cases hkind : e.kind with
  | staging => exact absurd (h.staging _ e hk hkind).symm (stagingKey_ne_coldKey _ _ _ _ _ _)
  | cold =>
    obtain ⟨day', a', hday', hkey⟩ := h.cold _ e hk hkind
    exact ⟨(coldKey_inj hslash hday' hkey).1.symm, rfl⟩

/-- A key lists one object. -/
theorem Listed.eq_of_key {m' day' : Str} {o o' : ObjectMeta} (ho : Listed c m day o)
    (ho' : Listed c m' day' o') (hk : o.objectKey = o'.objectKey) : o = o' := by
  have hrow : o.toManifestRow = o'.toManifestRow :=
    Option.some.inj (ho.entry.symm.trans (hk ▸ ho'.entry))
  obtain ⟨row, key⟩ := o
  obtain ⟨row', key'⟩ := o'
  simp only at hk hrow
  rw [hk, hrow]

theorem Listed.eq_of_minSeq {day' : Str} {o o' : ObjectMeta} (h : Wf c) (ho : Listed c m day o)
    (ho' : Listed c m day' o') (hseq : o.minSeq = o'.minSeq) : o = o' :=
  ho.eq_of_key ho' (h.minSeq _ _ _ _ ho.entry ho'.entry ho.staging ho'.staging
    (ho.measurement.trans ho'.measurement.symm) hseq)

/-- Staging objects can only become fewer; new entries are outputs. -/
theorem Wf.shrink {c' : Cold V} (h : Wf c)
    (hstaging : ∀ k e, c'.manifest.get? k = some e → e.kind = .staging →
      c.manifest.get? k = some e ∧ fileRows c' k ⊆ fileRows c k)
    (hcold : ∀ k e, c'.manifest.get? k = some e → e.kind = .cold →
      ∃ day a, '/' ∉ day ∧ k = coldKey e.measurement day a) : Wf c' where
  staging k e hk hkind := h.staging k e (hstaging k e hk hkind).1 hkind
  cold := hcold
  minSeq k e k' e' hk hk' hkind hkind' :=
    h.minSeq k e k' e' (hstaging k e hk hkind).1 (hstaging k' e' hk' hkind').1 hkind hkind'
  distinct m := by
    refine (h.distinct m).mono ?_
    rintro r ⟨k, e, rows, hk, hm, hkind, hrows, hr⟩
    obtain ⟨hk', hsub⟩ := hstaging k e hk hkind
    obtain ⟨rows', hrows', hr'⟩ := hsub ⟨rows, hrows, hr⟩
    exact ⟨k, e, rows', hk', hm, hkind, hrows', hr'⟩

end Wf

/-- The group is what is listed for its day, in the order of listing. -/
structure GroupOk (c : Cold V) (m day : Str) (objs : List ObjectMeta) : Prop where
  nonempty : objs ≠ []
  slash : '/' ∉ day
  mem_iff : ∀ o, o ∈ objs ↔ Listed c m day o
  nodup : objs.Nodup
  sorted : objs.Pairwise listOrder

def GroupsOk (c : Cold V) (m : Str) (groups : List (Str × List ObjectMeta)) : Prop :=
  (groups.map Prod.fst).Nodup ∧ ∀ g ∈ groups, GroupOk c m g.1 g.2

/-- A merged job of which `rest` is still listed. Every row that a read returned
at the start and that an input still has is in the output as well. -/
structure Merged (stuck : Str → Str → Prop) (c₀ c : Cold V) (job : Job) (rest : List ObjectMeta) :
    Prop where
  nonempty : job.objs ≠ []
  slash : '/' ∉ job.day
  free : ¬stuck job.measurement job.day
  due : ∀ o ∈ rest, o ∈ job.objs
  mem_iff : ∀ o, o ∈ rest ↔ Listed c job.measurement job.day o
  nodup : rest.Nodup
  sorted : rest.Pairwise listOrder
  output : ∀ r, Winner c₀ job.measurement r → (∃ o ∈ rest, r ∈ fileRows c o.objectKey) →
    r ∈ fileRows c (jobKey job)

def OutputListed (c : Cold V) (job : Job) : Prop :=
  ∃ e, c.manifest.get? (jobKey job) = some e ∧ e.measurement = job.measurement ∧ e.kind = .cold

def PassOk (stuck : Str → Str → Prop) (c₀ c : Cold V) : Pass → Prop
  | .merging m groups _ => GroupsOk c m groups
  | .recording job _ groups _ => Merged stuck c₀ c job job.objs ∧
      fileRows c (jobKey job) ⊆ held c₀ job.measurement ∧
      job.day ∉ groups.map Prod.fst ∧ GroupsOk c job.measurement groups
  | .removing job rest groups _ => Merged stuck c₀ c job rest ∧ OutputListed c job ∧
      job.day ∉ groups.map Prod.fst ∧ GroupsOk c job.measurement groups
  | .forgetting job o rest groups _ => Merged stuck c₀ c job (o :: rest) ∧
      (OutputListed c job ∧ c.files o.objectKey = none) ∧
      job.day ∉ groups.map Prod.fst ∧ GroupsOk c job.measurement groups
  | _ => True

structure Inv (stuck : Str → Str → Prop) (c₀ : Cold V) (s : Cold V × Pass) : Prop where
  wf : Wf s.1
  remain : ∀ m day, stuck m day → Stuck s.1 m day
  sub : ∀ m, held s.1 m ⊆ held c₀ m
  secured : ∀ m r, Winner c₀ m r → Secured stuck s.1 m r
  working : PassOk stuck c₀ s.1 s.2

section Quiet

variable {stuck : Str → Str → Prop} {c₀ c c' : Cold V}

/-- Nothing changes for the staging objects. -/
structure Quiet (c c' : Cold V) : Prop where
  listed : ∀ m day o, Listed c' m day o ↔ Listed c m day o
  files : ∀ m day o, Listed c m day o → c'.files o.objectKey = c.files o.objectKey

theorem Quiet.mayName (h : Quiet c c') {m day : Str} {f : ObjectMeta}
    (hf : MayName c' m day f) : MayName c m day f where
  listed := (h.listed m day f).mp hf.listed
  exists_file := by
    rw [← h.files m day f ((h.listed m day f).mp hf.listed)]
    exact hf.exists_file
  before g hg := hf.before g ((h.listed m day g).mpr hg)

theorem Quiet.remain (h : Quiet c c') {m day : Str} (hs : Stuck c m day) : Stuck c' m day := by
  obtain ⟨o, ho, hnone⟩ := hs
  exact ⟨o, (h.listed m day o).mpr ho, (h.files m day o ho).trans hnone⟩

theorem GroupsOk.congr {m : Str} {groups : List (Str × List ObjectMeta)} (h : GroupsOk c m groups)
    (hl : ∀ day ∈ groups.map Prod.fst, ∀ o, Listed c' m day o ↔ Listed c m day o) :
    GroupsOk c' m groups := by
  refine ⟨h.1, fun g hg => ?_⟩
  obtain ⟨hne, hslash, hmem, hnodup, hsorted⟩ := h.2 g hg
  exact ⟨hne, hslash,
    fun o => (hmem o).trans (hl g.1 (List.mem_map_of_mem hg) o).symm, hnodup, hsorted⟩

/-- A secured row stays secured while outputs keep their entries and the row. -/
theorem Quiet.secured (h : Quiet c c') {m : Str} {r : Row V} (hs : Secured stuck c m r)
    (hout : ∀ k e, c.manifest.get? k = some e → e.measurement = m → e.kind = .cold →
      r ∈ fileRows c k → (∀ day f, MayName c m day f → coldKey m day f.minSeq = k → stuck m day) →
      ∃ e', c'.manifest.get? k = some e' ∧ e'.measurement = m ∧ e'.kind = .cold ∧
        r ∈ fileRows c' k) : Secured stuck c' m r := by
  cases hs with
  | compacted k e hk hm hkind hr hsafe =>
    obtain ⟨e', hk', hm', hkind', hr'⟩ := hout k e hk hm hkind hr hsafe
    exact .compacted k e' hk' hm' hkind' hr' fun day f hf => hsafe day f (h.mayName hf)
  | staged day o ho hr hfirst =>
    refine .staged day o ((h.listed m day o).mpr ho) ?_ ?_
    · rw [fileRows_congr (h.files m day o ho)]
      exact hr
    · refine hfirst.imp_right fun hall f hf => hall f ⟨(h.listed m day f).mp hf.listed, ?_⟩
      exact fun g hg => hf.least g ((h.listed m day g).mpr hg)

end Quiet

end TimescaleLp.Restart
