import TimescaleLp.Dict
import TimescaleLp.Names

/-!
The relations that the service creates in its schema. Tables and indexes share
one namespace of 63-byte names, and `IF NOT EXISTS` asks for a relation of any
kind. The suffix of an index is cut off a long table name, in whole or in part,
so an index may be taken for created when a table or the index of another table
has its name.
-/
namespace TimescaleLp.RelationNames

open Names

/-- `MANIFEST` -/
def manifestName : Str := "_cold_objects".toList

def rangeIndexName : Str := manifestName ++ "_range_idx".toList

def uniqueSuffix : Str := "_time_taghash_uidx".toList

def uniqueIndexName (table : Str) : Str := table ++ uniqueSuffix

/-- What stands under a name. -/
inductive Relation
  | hypertable
  | uniqueIndex (table : Str)
  | manifest
  | rangeIndex
  -- an index that the database names itself
  | implicitIndex
deriving DecidableEq

/-- The relations of a schema by their stored names. -/
abbrev Namespace := Dict Str Relation

/-- `CREATE ... IF NOT EXISTS` -/
def createIfNotExists (ns : Namespace) (name : Str) (r : Relation) : Namespace :=
  if ns.contains (pgIdent name) then ns else ns.set (pgIdent name) r

/-- The transaction of `_create_or_load`; only a hypertable passes its statements
between the two that name something. -/
def createOrLoad (table : Str) (ns : Namespace) : Option Namespace :=
  let ns := createIfNotExists ns table .hypertable
  if ns.get? (pgIdent table) = some .hypertable then
    some (createIfNotExists ns (uniqueIndexName table) (.uniqueIndex table))
  else none

/-- `ensure_manifest`, two statements without a transaction. The second one names
columns that only the manifest has. The index of the primary key is left out, as is the
one that a new hypertable gets on its time: the database names them. -/
def ensureManifest (ns : Namespace) : Namespace :=
  let ns := createIfNotExists ns manifestName .manifest
  if ns.get? (pgIdent manifestName) = some .manifest then
    createIfNotExists ns rangeIndexName .rangeIndex
  else ns

/-- The start of the cold store, or the first use of a measurement. -/
inductive Event
  | manifest
  | create (table : Str)
deriving DecidableEq

/-- A call that fails leaves the namespace as it was. -/
def step (ns : Namespace) : Event → Namespace
  | .manifest => ensureManifest ns
  | .create table => (createOrLoad table ns).getD ns

def run (events : List Event) : Namespace := events.foldl step Dict.empty

/-- The relations that two tables and the manifest are meant to bring. -/
def plan (table table' : Str) : List (Str × Relation) :=
  [(pgIdent table, .hypertable), (pgIdent table', .hypertable),
    (pgIdent (uniqueIndexName table), .uniqueIndex table),
    (pgIdent (uniqueIndexName table'), .uniqueIndex table'),
    (pgIdent manifestName, .manifest), (pgIdent rangeIndexName, .rangeIndex)]

/-- The relations of two tables have distinct names, and whatever the order in
which they are created, each table that is asked for has its unique index. -/
structure NoClash (table table' : Str) : Prop where
  distinct : ((plan table table').map Prod.fst).Nodup
  indexed : ∀ events, (∀ e ∈ events, e = .manifest ∨ e = .create table ∨ e = .create table') →
    ∀ t, .create t ∈ events →
      (run events).get? (pgIdent (uniqueIndexName t)) = some (.uniqueIndex t)

/-- A table whose index has its own name, a table under an internal name, and a
second table that is the first with so much of the suffix that it is the name of
an index or that what is left of both suffixes is the same. -/
def Clashes (table table' : Str) : Prop :=
  table.length = 63 ∨ table = manifestName ∨ table = rangeIndexName ∨
    table' = table ++ uniqueSuffix ∨
    table' = table ++ "_time".toList ∧ 61 ≤ table'.length ∨
    table' = table ++ "_time_taghash".toList ∧ 62 ≤ table'.length

instance (table table' : Str) : Decidable (Clashes table table') := by
  unfold Clashes
  infer_instance

section Names
variable {t t' : Str}

theorem length_uniqueSuffix : uniqueSuffix.length = 18 := by decide

theorem pgIdent_eq_self (h : t.length ≤ 63) : pgIdent t = t := List.take_of_length_le h

theorem length_pgIdent_uniqueIndexName (t : Str) :
    (pgIdent (uniqueIndexName t)).length = min 63 (t.length + 18) := by
  rw [pgIdent, List.length_take, uniqueIndexName, List.length_append, length_uniqueSuffix]

/-- A table has the name of its own index when nothing of the suffix is left. -/
theorem eq_own_index_iff (h : t.length ≤ 63) :
    t = pgIdent (uniqueIndexName t) ↔ t.length = 63 := by
  constructor
  · intro heq
    have hlen := length_pgIdent_uniqueIndexName t
    rw [← heq] at hlen
    omega
  · intro hlen
    rw [pgIdent, uniqueIndexName, List.take_append_of_le_length hlen.ge, List.take_of_length_le h]

/-- A shorter name that is the name of an index is its whole name. -/
theorem eq_index_iff (h : t'.length < 63) :
    t' = pgIdent (uniqueIndexName t) ↔ t' = t ++ uniqueSuffix := by
  constructor
  · intro heq
    rw [heq] at h
    rw [heq, pgIdent_of_length_lt h]
    rfl
  · intro heq
    have hident : pgIdent (uniqueIndexName t) = uniqueIndexName t :=
      pgIdent_eq_self (by rw [uniqueIndexName, ← heq]; omega)
    rw [hident]
    exact heq

theorem index_ne_manifest (t : Str) : pgIdent (uniqueIndexName t) ≠ pgIdent manifestName := by
  intro heq
  have hlen := congrArg List.length heq
  rw [length_pgIdent_uniqueIndexName] at hlen
  have hmanifest : (pgIdent manifestName).length = 13 := by decide
  omega

theorem index_ne_rangeIndex (t : Str) : pgIdent (uniqueIndexName t) ≠ pgIdent rangeIndexName := by
  intro heq
  have hlen := congrArg List.length heq
  rw [length_pgIdent_uniqueIndexName] at hlen
  have hrange : (pgIdent rangeIndexName).length = 23 := by decide
  have hfull : t ++ uniqueSuffix = pgIdent rangeIndexName :=
    ((eq_index_iff (by omega)).mp heq.symm).symm
  have hsuffix := congrArg (List.drop 5) hfull
  rw [List.drop_left' (by omega)] at hsuffix
  exact absurd hsuffix (by decide)

theorem pgIdent_uniqueIndexName (h : t.length ≤ 63) :
    pgIdent (uniqueIndexName t) = t ++ uniqueSuffix.take (63 - t.length) := by
  rw [pgIdent, uniqueIndexName, List.take_append, List.take_of_length_le h]

/-- Where the suffix goes on behind a part of it as it starts. -/
theorem take_suffix_iff {d k : ℕ} (hd : 1 ≤ d) (hk : 1 ≤ k) :
    uniqueSuffix.take (d + k) = uniqueSuffix.take d ++ uniqueSuffix.take k ↔
      d = 5 ∧ k ≤ 2 ∨ d = 13 ∧ k = 1 := by
  have hshort : ∀ d ∈ List.range' 1 17, ∀ k ∈ List.range' 1 17,
      (uniqueSuffix.take (d + k) = uniqueSuffix.take d ++ uniqueSuffix.take k ↔
        d = 5 ∧ k ≤ 2 ∨ d = 13 ∧ k = 1) := by
    decide +kernel
  by_cases hsum : d + k ≤ 18
  · exact hshort d (List.mem_range'_1.mpr (by omega)) k (List.mem_range'_1.mpr (by omega))
  · refine iff_of_false (fun heq => ?_) (by omega)
    have hlen := congrArg List.length heq
    rw [List.length_append, List.length_take, List.length_take, List.length_take,
      length_uniqueSuffix] at hlen
    omega

/-- Two indexes have one name when the longer table name takes over what is cut
off the suffix behind the shorter one. -/
theorem index_eq_index_iff (hlen : t'.length < 63) (hle : t.length ≤ t'.length) (hne : t ≠ t') :
    pgIdent (uniqueIndexName t) = pgIdent (uniqueIndexName t') ↔
      t' = t ++ "_time".toList ∧ 61 ≤ t'.length ∨
        t' = t ++ "_time_taghash".toList ∧ 62 ≤ t'.length := by
  have hparts : ("_time".toList = uniqueSuffix.take 5) ∧
      "_time_taghash".toList = uniqueSuffix.take 13 := by decide
  rw [pgIdent_uniqueIndexName (hle.trans hlen.le), pgIdent_uniqueIndexName hlen.le, hparts.1,
    hparts.2]
  -- behind the shorter name both indexes go on with a part of the suffix
  have hoverlap : ∀ d, 1 ≤ d → t'.length = t.length + d →
      (t ++ uniqueSuffix.take (63 - t.length) =
        t ++ uniqueSuffix.take d ++ uniqueSuffix.take (63 - t'.length) ↔
        d = 5 ∧ 61 ≤ t'.length ∨ d = 13 ∧ 62 ≤ t'.length) := by
    intro d hd hlength
    have hrest : 63 - t.length = d + (63 - t'.length) := by omega
    rw [List.append_assoc, List.append_cancel_left_eq, hrest, take_suffix_iff hd (by omega)]
    omega
  obtain ⟨d, hd⟩ := Nat.exists_eq_add_of_le hle
  constructor
  · intro heq
    have htaken := congrArg (List.take t'.length) heq
    rw [List.take_left, List.take_append, List.take_of_length_le hle, List.take_take,
      show min (t'.length - t.length) (63 - t.length) = d by omega] at htaken
    have hpos : 1 ≤ d := by
      by_contra hzero
      rw [show d = 0 by omega, List.take_zero, List.append_nil] at htaken
      exact hne htaken
    conv at heq => rhs; lhs; rw [← htaken]
    rcases (hoverlap d hpos hd).mp heq with ⟨rfl, hlong⟩ | ⟨rfl, hlong⟩
    · exact Or.inl ⟨htaken.symm, hlong⟩
    · exact Or.inr ⟨htaken.symm, hlong⟩
  · intro h
    have hback : ∀ d, (d = 5 ∧ 61 ≤ t'.length ∨ d = 13 ∧ 62 ≤ t'.length) →
        t' = t ++ uniqueSuffix.take d →
        t ++ uniqueSuffix.take (63 - t.length) = t' ++ uniqueSuffix.take (63 - t'.length) := by
      intro d hd heq
      have hlength : t'.length = t.length + d := by
        rw [heq, List.length_append, List.length_take, length_uniqueSuffix]
        omega
      have hover := (hoverlap d (by omega) hlength).mpr hd
      rwa [← heq] at hover
    rcases h with ⟨heq, hlong⟩ | ⟨heq, hlong⟩
    · exact hback 5 (Or.inl ⟨rfl, hlong⟩) heq
    · exact hback 13 (Or.inr ⟨rfl, hlong⟩) heq

theorem index_eq_iff (hlt : t.length < 63) (hlt' : t'.length < 63) (hne : t ≠ t') :
    pgIdent (uniqueIndexName t) = pgIdent (uniqueIndexName t') ↔
      (t' = t ++ "_time".toList ∧ 61 ≤ t'.length ∨
        t' = t ++ "_time_taghash".toList ∧ 62 ≤ t'.length) ∨
      (t = t' ++ "_time".toList ∧ 61 ≤ t.length ∨
        t = t' ++ "_time_taghash".toList ∧ 62 ≤ t.length) := by
  have hshorter : ∀ {u v : Str} (part : Str), u.length ≤ v.length → part ≠ [] → u ≠ v ++ part := by
    intro u v part hle hpart heq
    have hlength := congrArg List.length heq
    rw [List.length_append] at hlength
    have hpos := List.length_pos_iff.mpr hpart
    omega
  have hparts : "_time".toList ≠ [] ∧ "_time_taghash".toList ≠ [] := by decide
  rcases le_total t.length t'.length with hle | hle
  · rw [index_eq_index_iff hlt' hle hne]
    simp only [hshorter _ hle hparts.1, hshorter _ hle hparts.2, false_and, or_false]
  · rw [eq_comm, index_eq_index_iff hlt hle hne.symm]
    simp only [hshorter _ hle hparts.1, hshorter _ hle hparts.2, false_and, false_or]

/-- The names are distinct but for the ways in which one of the tables clashes. -/
theorem nodup_plan_iff (hlen : t.length ≤ 63) (hlen' : t'.length ≤ 63) (hne : t ≠ t') :
    ((plan t t').map Prod.fst).Nodup ↔ ¬Clashes t t' ∧ ¬Clashes t' t := by
  have hmanifest : pgIdent manifestName = manifestName := by decide
  have hrange : pgIdent rangeIndexName = rangeIndexName := by decide
  have hinternal : manifestName ≠ rangeIndexName := by decide
  have hnodup : ((plan t t').map Prod.fst).Nodup ↔
      (t ≠ pgIdent (uniqueIndexName t) ∧ t ≠ pgIdent (uniqueIndexName t') ∧ t ≠ manifestName ∧
        t ≠ rangeIndexName) ∧
      (t' ≠ pgIdent (uniqueIndexName t) ∧ t' ≠ pgIdent (uniqueIndexName t') ∧ t' ≠ manifestName ∧
        t' ≠ rangeIndexName) ∧ pgIdent (uniqueIndexName t) ≠ pgIdent (uniqueIndexName t') := by
    have hfixed := fun u => hmanifest ▸ index_ne_manifest u
    have hfixed' := fun u => hrange ▸ index_ne_rangeIndex u
    simp only [plan, List.map_cons, List.map_nil, List.nodup_cons, List.mem_cons, List.not_mem_nil,
      or_false, not_or, List.nodup_nil, and_true, hmanifest, hrange, pgIdent_eq_self hlen,
      pgIdent_eq_self hlen', hfixed, hfixed', hinternal, hne, ne_eq, not_false_eq_true, true_and]
  rw [hnodup]
  by_cases hlong : t.length = 63 ∨ t'.length = 63
  · refine iff_of_false ?_ ?_
    · intro ⟨⟨hown, _⟩, ⟨_, hown', _⟩, _⟩
      exact hlong.elim (fun h => hown ((eq_own_index_iff hlen).mpr h))
        fun h => hown' ((eq_own_index_iff hlen').mpr h)
    · intro ⟨hclash, hclash'⟩
      exact hlong.elim (fun h => hclash (Or.inl h)) fun h => hclash' (Or.inl h)
  · obtain ⟨hlt, hlt'⟩ := not_or.mp hlong
    have hlt : t.length < 63 := lt_of_le_of_ne hlen hlt
    have hlt' : t'.length < 63 := lt_of_le_of_ne hlen' hlt'
    simp only [ne_eq, eq_own_index_iff hlen, eq_own_index_iff hlen', eq_index_iff hlt,
      eq_index_iff hlt', index_eq_iff hlt hlt' hne, Clashes, hlt.ne, hlt'.ne, not_or,
      not_false_eq_true, true_and]
    constructor
    · intro ⟨⟨hfull, hmanifest, hrange⟩, ⟨hfull', hmanifest', hrange'⟩, hcut, hcut'⟩
      exact ⟨⟨hmanifest, hrange, hfull', hcut⟩, hmanifest', hrange', hfull, hcut'⟩
    · intro ⟨⟨hmanifest, hrange, hfull', hcut⟩, hmanifest', hrange', hfull, hcut'⟩
      exact ⟨⟨hfull, hmanifest, hrange⟩, ⟨hfull', hmanifest', hrange'⟩, hcut, hcut'⟩

end Names

section Plan
variable {relations : List (Str × Relation)} {ns ns' : Namespace}

/-- Every relation is one of those meant, under its own name. -/
def Follows (relations : List (Str × Relation)) (ns : Namespace) : Prop :=
  ∀ name r, ns.get? name = some r → (name, r) ∈ relations

/-- Nothing is dropped or replaced. -/
def Keeps (ns ns' : Namespace) : Prop := ∀ name r, ns.get? name = some r → ns'.get? name = some r

theorem Keeps.trans {ns'' : Namespace} (h : Keeps ns ns') (h' : Keeps ns' ns'') : Keeps ns ns'' :=
  fun name r hget => h' name r (h name r hget)

theorem keeps_createIfNotExists (ns : Namespace) (name : Str) (r : Relation) :
    Keeps ns (createIfNotExists ns name r) := by
  intro name' r' hget
  unfold createIfNotExists
  split
  · exact hget
  · rename_i habsent
    rw [Dict.get?_set, if_neg, hget]
    intro heq
    rw [Dict.contains, ← heq, hget] at habsent
    exact habsent rfl

/-- With distinct names a relation that is meant is there after its statement. -/
theorem follows_createIfNotExists (hrelations : (relations.map Prod.fst).Nodup)
    (h : Follows relations ns) {name : Str} {r : Relation} (hmem : (pgIdent name, r) ∈ relations) :
    Follows relations (createIfNotExists ns name r) ∧
      (createIfNotExists ns name r).get? (pgIdent name) = some r := by
  unfold createIfNotExists
  split
  · rename_i hcontains
    obtain ⟨r', hget⟩ := Option.isSome_iff_exists.mp hcontains
    have hsame := List.inj_on_of_nodup_map hrelations (h _ _ hget) hmem rfl
    cases hsame
    exact ⟨h, hget⟩
  · refine ⟨?_, Dict.get?_set_self _ _ _⟩
    intro name' r' hget
    rw [Dict.get?_set] at hget
    split at hget
    · rename_i heq
      cases hget
      exact heq ▸ hmem
    · exact h name' r' hget

/-- The relations of a table are meant. -/
def Includes (relations : List (Str × Relation)) (table : Str) : Prop :=
  (pgIdent table, .hypertable) ∈ relations ∧
    (pgIdent (uniqueIndexName table), .uniqueIndex table) ∈ relations

/-- The first use of a table does not fail and leaves it with its index. -/
theorem createOrLoad_of_follows (hrelations : (relations.map Prod.fst).Nodup)
    (h : Follows relations ns) {table : Str} (htable : Includes relations table) :
    ∃ ns', createOrLoad table ns = some ns' ∧ Follows relations ns' ∧ Keeps ns ns' ∧
      ns'.get? (pgIdent (uniqueIndexName table)) = some (.uniqueIndex table) := by
  obtain ⟨hfollows, hget⟩ := follows_createIfNotExists hrelations h htable.1
  obtain ⟨hfollows', hindex⟩ := follows_createIfNotExists hrelations hfollows htable.2
  have hkeeps := (keeps_createIfNotExists ns table .hypertable).trans
    (keeps_createIfNotExists _ (uniqueIndexName table) (.uniqueIndex table))
  exact ⟨_, if_pos hget, hfollows', hkeeps, hindex⟩

theorem ensureManifest_of_follows (hrelations : (relations.map Prod.fst).Nodup)
    (h : Follows relations ns) (hmanifest : (pgIdent manifestName, .manifest) ∈ relations)
    (hrange : (pgIdent rangeIndexName, .rangeIndex) ∈ relations) :
    Follows relations (ensureManifest ns) ∧ Keeps ns (ensureManifest ns) := by
  obtain ⟨hfollows, hget⟩ := follows_createIfNotExists hrelations h hmanifest
  obtain ⟨hfollows', _⟩ := follows_createIfNotExists hrelations hfollows hrange
  rw [ensureManifest, if_pos hget]
  exact ⟨hfollows', (keeps_createIfNotExists ns manifestName .manifest).trans
    (keeps_createIfNotExists _ rangeIndexName .rangeIndex)⟩

variable {t t' : Str}

theorem step_plan (hplan : ((plan t t').map Prod.fst).Nodup) (h : Follows (plan t t') ns) {e : Event}
    (he : e = .manifest ∨ e = .create t ∨ e = .create t') :
    Follows (plan t t') (step ns e) ∧ Keeps ns (step ns e) ∧
      ∀ u, e = .create u →
        (step ns e).get? (pgIdent (uniqueIndexName u)) = some (.uniqueIndex u) := by
  cases e with
  | manifest =>
    obtain ⟨hfollows, hkeeps⟩ := ensureManifest_of_follows hplan h (by simp [plan]) (by simp [plan])
    exact ⟨hfollows, hkeeps, fun u hu => nomatch hu⟩
  | create u =>
    have hu : Includes (plan t t') u := by
      rcases he with he | he | he
      · contradiction
      · cases he
        simp [Includes, plan]
      · cases he
        simp [Includes, plan]
    obtain ⟨ns', hstep, hfollows, hkeeps, hindex⟩ := createOrLoad_of_follows hplan h hu
    have hns : step ns (.create u) = ns' := by rw [step, hstep, Option.getD_some]
    rw [hns]
    refine ⟨hfollows, hkeeps, ?_⟩
    intro v hv
    cases hv
    exact hindex

/-- What a call has installed stays until the end of the run. -/
theorem run_plan (hplan : ((plan t t').map Prod.fst).Nodup) (h : Follows (plan t t') ns)
    {events : List Event} (hevents : ∀ e ∈ events, e = .manifest ∨ e = .create t ∨ e = .create t') :
    Keeps ns (events.foldl step ns) ∧ ∀ u, .create u ∈ events →
      (events.foldl step ns).get? (pgIdent (uniqueIndexName u)) = some (.uniqueIndex u) := by
  induction events generalizing ns with
  | nil => exact ⟨fun _ _ hget => hget, fun u hu => absurd hu List.not_mem_nil⟩
  | cons e events ih =>
    obtain ⟨he, hrest⟩ := List.forall_mem_cons.mp hevents
    obtain ⟨hfollows, hkeeps, hindex⟩ := step_plan hplan h he
    obtain ⟨hkeeps', hindexes⟩ := ih hfollows hrest
    rw [List.foldl_cons]
    refine ⟨hkeeps.trans hkeeps', ?_⟩
    intro u hu
    rcases List.mem_cons.mp hu with heq | hu
    · exact hkeeps' _ _ (hindex u heq.symm)
    · exact hindexes u hu

end Plan

theorem length_measurementTable (name : Str) : (measurementTable name).length ≤ 63 := by
  rw [measurementTable, safeIdent]
  exact List.length_take_le _ _

/-- The tables of two measurements and the manifest get along exactly when
neither table clashes with the other. -/
theorem noClash_iff {name name' : Str} (hne : measurementTable name ≠ measurementTable name') :
    NoClash (measurementTable name) (measurementTable name') ↔
      ¬Clashes (measurementTable name) (measurementTable name') ∧
        ¬Clashes (measurementTable name') (measurementTable name) := by
  have hplan := nodup_plan_iff (length_measurementTable name) (length_measurementTable name') hne
  constructor
  · intro h
    exact hplan.mp h.distinct
  · intro h
    refine ⟨hplan.mpr h, fun events hevents => ?_⟩
    exact (run_plan (hplan.mpr h) (fun name r hget => by simp at hget) hevents).2

theorem noClash_plain :
    NoClash (measurementTable "CPU/Load".toList) (measurementTable "cpu_load_time".toList) :=
  (noClash_iff (by decide)).mpr (by decide)

/-- A measurement with a long name: its index is skipped without an error. -/
theorem clash_long : ∃ name name', measurementTable name ≠ measurementTable name' ∧
    ¬NoClash (measurementTable name) (measurementTable name') ∧
      (run [.create (measurementTable name)]).get? (pgIdent (uniqueIndexName (measurementTable name))) =
        some .hypertable := by
  refine ⟨List.replicate 63 'a', ['m'], by decide, ?_, by decide⟩
  intro h
  exact absurd h.distinct (by decide)

end TimescaleLp.RelationNames
