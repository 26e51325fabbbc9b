import Mathlib.Data.Fintype.Sets
import TimescaleLp.Alters
import TimescaleLp.Columns
import TimescaleLp.Schedule

/-!
The temp table of a write call. A call coerces its rows to the types of the
cached schema and reads the types again, after it has waited for cold storage
and for a connection, when it creates its temp table. All calls of a measurement
share the schema object, so a promotion in between makes the two disagree.
-/
namespace TimescaleLp

/-- A write call of the measurement, between two awaits. The call that holds the
lock has the statements of its migration still to run. -/
inductive Caller (F : Type)
  | idle
  | waiting (points : List (Point F))
  | migrating (points : List (Point F)) (rest : List Schema.Migration)
  | built (sources : List (Str × Store.Source)) (b : Batch F)
  | created (sources : List (Str × Store.Source)) (declared : List (Str × PgType))

/-- The columns of rows that are built and have no temp table yet. -/
def Caller.cols {F : Type} : Caller F → List Str
  | .built _ b => b.cols
  | _ => []

/-- The calls of one measurement with the schema object they share. -/
structure Shared (F ι : Type) where
  schema : TableSchema
  nextSeq : ℕ
  lock : Option ι
  calls : ι → Caller F

namespace TempTable

open Names Schema Store Promotion Naming Alters Batches Columns

variable {F ι : Type}

/-- The first cached field with the column. -/
def owner (schema : TableSchema) (col : Str) : Option (Str × (Str × PgType)) :=
  schema.fieldCols.entries.find? fun e => e.2.1 = col

/-- `_col_type_for` -/
def colTypeFor (col : Str) (schema : TableSchema) : PgType :=
  if col = "time".toList then .other "TIMESTAMPTZ".toList
  else if col = "tag_hash".toList ∨ col = "seq".toList then .bigint
  else if "t_".toList <+: col then .text
  else ((owner schema col).map fun e => e.2.2).getD .text

/-- The columns of every batch, with their types. -/
def fixedTypes : List (Str × PgType) :=
  [("time".toList, .other "TIMESTAMPTZ".toList), ("tag_hash".toList, .bigint),
    ("seq".toList, .bigint)]

/-- The columns of the temp table, with the types declared for them. -/
def declaredTypes (schema : TableSchema) (cols : List Str) : List (Str × PgType) :=
  (fixedTypes.map Prod.fst ++ cols).map fun c => (c, colTypeFor c schema)

def coercedType : Source → PgType
  | .tag _ => .text
  | .field _ colType => colType

/-- The columns of a batch with the types its rows were coerced to. -/
def coercedTypes (sources : List (Str × Source)) : List (Str × PgType) :=
  fixedTypes ++ sources.map fun e => (e.1, coercedType e.2)

inductive Event (F ι : Type)
  | enter (w : ι) (points : List (Point F))
  | acquire (w : ι)
  | statement (w : ι)
  | finish (w : ι)
  | fail (w : ι)
  | create (w : ι)
  | leave (w : ι)

def issued (schema : TableSchema) (points : List (Point F)) : List Migration :=
  migrations schema (tagNames points) (fieldSamples points)

/-- A schema as the cache holds it: columns of tags start with `t_`, those of
fields with `f_`. -/
structure Prefixed (schema : TableSchema) : Prop where
  tags : ∀ t col, schema.tagCols.get? t = some col → "t_".toList <+: col
  fields : ∀ f e, schema.fieldCols.get? f = some e → "f_".toList <+: e.1

def start (schema : {schema // Prefixed schema}) : Shared F ι where
  schema := schema
  nextSeq := 1
  lock := none
  calls := fun _ => .idle

/-- Each created temp table has the types that the rows were coerced to. -/
def Agreed (s : Shared F ι) : Prop :=
  ∀ w sources declared, s.calls w = .created sources declared → declared = coercedTypes sources

/-- The points whose rows an event builds. -/
def building (s : Shared F ι) : Event F ι → Option (List (Point F))
  | .enter _ points =>
    if needsUpdate s.schema (tagNames points) (fieldSamples points) then none else some points
  | .acquire w =>
    match s.calls w with
    | .waiting points => if issued s.schema points = [] then some points else none
    | _ => none
  | .finish w =>
    match s.calls w with
    | .migrating points [] => some points
    | _ => none
  | _ => none

/-- The field that an event promotes. -/
def promoting (s : Shared F ι) : Event F ι → Option Str
  | .statement w =>
    match s.calls w with
    | .migrating _ (.widen f _ _ _ :: _) => some f
    | _ => none
  | _ => none

/-- When rows are built, the first cached field with the column of a field has
its type; a promotion is of no field that a built batch has a column of. -/
structure Steady (s : Shared F ι) (e : Event F ι) : Prop where
  own : ∀ points ∈ building s e, ∀ f ∈ (fieldSamples points).keys,
    ∀ r ∈ s.schema.fieldCols.get? f, (owner s.schema r.1).map (·.2.2) = some r.2
  fixed : ∀ f ∈ promoting s e, ∀ w, ∀ c ∈ (s.calls w).cols,
    (owner s.schema c).map Prod.fst ≠ some f

instance [Fintype ι] (s : Shared F ι) (e : Event F ι) : Decidable (Steady s e) :=
  decidable_of_iff
    ((∀ points ∈ building s e, ∀ f ∈ (fieldSamples points).keys,
      ∀ r ∈ s.schema.fieldCols.get? f, (owner s.schema r.1).map (·.2.2) = some r.2) ∧
      ∀ f ∈ promoting s e, ∀ w, ∀ c ∈ (s.calls w).cols,
        (owner s.schema c).map Prod.fst ≠ some f)
    ⟨fun h => ⟨h.1, h.2⟩, fun h => ⟨h.own, h.fixed⟩⟩

/-- What the schema declares for a column is what its source is coerced to. -/
def Declares (schema : TableSchema) : Str × Source → Prop
  | (c, .tag _) => "t_".toList <+: c
  | (c, .field _ ty) => "f_".toList <+: c ∧ (owner schema c).map (·.2.2) = some ty

structure Inv (s : Shared F ι) : Prop where
  prefixed : Prefixed s.schema
  built : ∀ w sources b, s.calls w = .built sources b →
    b.cols = sources.map Prod.fst ∧ ∀ e ∈ sources, Declares s.schema e
  created : Agreed s
  migrating : ∀ w points rest, s.calls w = .migrating points rest → s.lock = some w ∧
    ∃ base done, issued base points = done ++ rest ∧ s.schema = noted base done

theorem start_inv (schema : {schema // Prefixed schema}) : Inv (start schema : Shared F ι) where
  prefixed := schema.property
  built := by simp [start]
  created := by simp [Agreed, start]
  migrating := by simp [start]

section Types

variable {schema : TableSchema}

theorem colTypeFor_of_tag {c : Str} (h : "t_".toList <+: c) : colTypeFor c schema = .text := by
  obtain ⟨rest, rfl⟩ := h
  rfl

theorem colTypeFor_of_field {c : Str} (h : "f_".toList <+: c) :
    colTypeFor c schema = ((owner schema c).map fun e => e.2.2).getD .text := by
  obtain ⟨rest, rfl⟩ := h
  rfl

theorem Declares.colTypeFor {e : Str × Source} (h : Declares schema e) :
    colTypeFor e.1 schema = coercedType e.2 := by
  obtain ⟨c, source⟩ := e
  cases source with
  | tag t => exact colTypeFor_of_tag h
  | field f ty => rw [colTypeFor_of_field h.1, h.2, Option.getD_some, coercedType]

/-- A temp table whose columns are still declared as they were coerced. -/
theorem declaredTypes_eq {sources : List (Str × Source)} (h : ∀ e ∈ sources, Declares schema e) :
    declaredTypes schema (sources.map Prod.fst) = coercedTypes sources := by
  have hfixed : fixedTypes.map (fun e => (e.1, TempTable.colTypeFor e.1 schema)) = fixedTypes := rfl
  rw [declaredTypes, coercedTypes, List.map_append, List.map_map, List.map_map]
  refine congrArg₂ _ hfixed (List.map_congr_left fun e he => ?_)
  rw [Function.comp_apply, (h e he).colTypeFor]

end Types

section Statement

variable {schema base : TableSchema} {points : List (Point F)} {done rest : List Migration}
  {mg : Migration}

theorem noted_single (schema : TableSchema) (mg : Migration) :
    (noted schema [mg]).fieldCols =
      (recordOf mg).elim schema.fieldCols fun r => schema.fieldCols.set r.1 r.2 := by
  cases mg <;> rfl

/-- A statement keeps the types of the columns of a batch, unless it promotes the
field that one of them is found under. -/
theorem Declares.noted {e : Str × Source} (h : Declares schema e)
    (hentry : ∀ f new old, recordOf mg = some (f, new) → schema.fieldCols.get? f = some old →
      old.1 = new.1 ∧ (old = new ∨ (owner schema e.1).map Prod.fst ≠ some f)) :
    Declares (noted schema [mg]) e := by
  obtain ⟨c, source⟩ := e
  cases source with
  | tag t => exact h
  | field f ty =>
    obtain ⟨hcol, howner⟩ := h
    refine ⟨hcol, ?_⟩
    cases hrecord : recordOf mg with
    | none =>
      rw [owner, noted_single, hrecord]
      exact howner
    | some r =>
      obtain ⟨g, new⟩ := r
      obtain ⟨found, hfound, rfl⟩ := Option.map_eq_some_iff.mp howner
      have hset := Dict.find?_set schema.fieldCols (fun e => decide (e.2.1 = c)) (k := g) (v := new)
        (fun old hold => by simp only [(hentry g new old hrecord hold).1]) hfound
      rw [owner, noted_single, hrecord, Option.elim_some, hset, Option.map_some]
      split
      · rename_i hg
        have hget : schema.fieldCols.get? g = some found.2 :=
          (Dict.get?_eq_some_iff _ _ _).mpr (hg ▸ List.mem_of_find?_eq_some hfound)
        rcases (hentry g new found.2 hrecord hget).2 with hsame | hother
        · rw [hsame]
        · rw [hfound] at hother
          exact absurd (congrArg some hg) hother
      · rfl

theorem prefixed_noted (h : Prefixed schema)
    (hentry : ∀ f new, recordOf mg = some (f, new) → "f_".toList <+: new.1) :
    Prefixed (noted schema [mg]) := by
  constructor
  · intro t col hcol
    rw [get?_noted_tagCols] at hcol
    split at hcol
    · cases hcol
      exact List.prefix_append _ _
    · exact h.tags t col hcol
  · intro f e he
    rw [noted_single] at he
    cases hrecord : recordOf mg with
    | none =>
      rw [hrecord] at he
      exact h.fields f e he
    | some r =>
      rw [hrecord, Option.elim_some] at he
      exact Dict.forall_set (P := fun _ e => "f_".toList <+: e.1) h.fields
        (hentry r.1 _ hrecord) f e he

/-- The column that the next statement lists for its field. -/
theorem prefix_of_pending (hissued : issued base points = done ++ mg :: rest)
    (hnoted : Prefixed (noted base done)) {f : Str} {e : Str × PgType}
    (h : recordOf mg = some (f, e)) : "f_".toList <+: e.1 := by
  cases mg with
  | addTag t => contradiction
  | addField f' ty =>
    cases h
    exact List.prefix_append _ _
  | widen f' col a b =>
    cases h
    have hmem : Migration.widen f col a b ∈ issued base points := by
      rw [hissued]
      exact List.mem_append_right _ List.mem_cons_self
    have hran : ∀ mg' ∈ done, mg' ∈ issued base points := by
      intro mg' hmg'
      rw [hissued]
      exact List.mem_append_left _ hmg'
    obtain ⟨-, -, hget, -⟩ := (widen_mem_migrations_iff _ _ _ _).mp hmem
    rcases get?_noted_or hran hmem rfl with hnew | hold
    · exact hnoted.fields f _ hnew
    · exact hnoted.fields f (col, a) (hold.trans hget)

end Statement

variable [DecidableEq ι]

def goTo (s : Shared F ι) (w : ι) (x : Caller F) : Shared F ι :=
  { s with calls := Function.update s.calls w x }

variable [Numerics F] (digest : Str → ℕ)

/-- `_ensure_schema` returns, and the call builds its rows without an await. -/
def returned (s : Shared F ι) (w : ι) (points : List (Point F)) : Shared F ι :=
  match columnSources s.schema (tagNames points) (fieldSamples points).keys,
    buildBatch digest s.schema points s.nextSeq with
  | some sources, (n, .ok b) => goTo { s with nextSeq := n } w (.built sources b)
  | _, (n, _) => goTo { s with nextSeq := n } w .idle

/-- The code between two awaits. A temp table is refused when two of its columns
are one identifier. -/
def step (s : Shared F ι) : Event F ι → Option (Shared F ι)
  | .enter w points =>
    match s.calls w, points with
    | .idle, _ :: _ =>
      if needsUpdate s.schema (tagNames points) (fieldSamples points) then
        some (goTo s w (.waiting points))
      else some (returned digest s w points)
    | _, _ => none
  | .acquire w =>
    match s.calls w, s.lock with
    | .waiting points, none =>
      match issued s.schema points with
      | [] => some (returned digest s w points)
      | mg :: rest => some (goTo { s with lock := some w } w (.migrating points (mg :: rest)))
    | _, _ => none
  | .statement w =>
    match s.calls w with
    | .migrating points (mg :: rest) =>
      some (goTo { s with schema := noted s.schema [mg] } w (.migrating points rest))
    | _ => none
  | .finish w =>
    match s.calls w with
    | .migrating points [] => some (returned digest { s with lock := none } w points)
    | _ => none
  | .fail w =>
    match s.calls w with
    | .migrating _ _ => some (goTo { s with lock := none } w .idle)
    | _ => none
  | .create w =>
    match s.calls w with
    | .built sources b =>
      if (b.cols.map pgIdent).Nodup then
        some (goTo s w (.created sources (declaredTypes s.schema b.cols)))
      else some (goTo s w .idle)
    | _ => none
  | .leave w =>
    match s.calls w with
    | .built _ _ => some (goTo s w .idle)
    | .created _ _ => some (goTo s w .idle)
    | _ => none

/-- What a step does to the shared state. -/
inductive Change (s : Shared F ι) : Event F ι → Shared F ι → Prop
  | waits {w points} (hidle : s.calls w = .idle) :
    Change s (.enter w points) (goTo s w (.waiting points))
  | returns {e w points lock} (hbuilding : building s e = some points)
    (hlock : lock = s.lock ∨ s.calls w = .migrating points []) :
    Change s e (returned digest { s with lock := lock } w points)
  | begins {w points} (hfree : s.lock = none) :
    Change s (.acquire w)
      (goTo { s with lock := some w } w (.migrating points (issued s.schema points)))
  | states {w points mg rest} (hnext : s.calls w = .migrating points (mg :: rest)) :
    Change s (.statement w)
      (goTo { s with schema := noted s.schema [mg] } w (.migrating points rest))
  | fails {w points rest} (hheld : s.calls w = .migrating points rest) :
    Change s (.fail w) (goTo { s with lock := none } w .idle)
  | creates {w sources b} (hbuilt : s.calls w = .built sources b) :
    Change s (.create w) (goTo s w (.created sources (declaredTypes s.schema b.cols)))
  | leaves {e w} : Change s e (goTo s w .idle)

theorem change_of_step {s t : Shared F ι} {e : Event F ι} (h : step digest s e = some t) :
    Change digest s e t := by
  cases e with
  | enter w points =>
    simp only [step] at h
    split at h
    · rename_i p ps hidle
      split at h
      · exact Option.some.inj h ▸ .waits hidle
      · rename_i hnew
        exact Option.some.inj h ▸ .returns (if_neg hnew) (Or.inl rfl)
    · contradiction
  | acquire w =>
    simp only [step] at h
    split at h
    · rename_i points hwaiting hfree
      split at h
      · rename_i hnone
        exact Option.some.inj h ▸ .returns (by simp [building, hwaiting, hnone]) (Or.inl rfl)
      · rename_i mg rest hissued
        exact Option.some.inj h ▸ hissued ▸ .begins hfree
    · contradiction
  | statement w =>
    simp only [step] at h
    split at h
    · rename_i points mg rest hnext
      exact Option.some.inj h ▸ .states hnext
    · contradiction
  | finish w =>
    simp only [step] at h
    split at h
    · rename_i points hdone
      exact Option.some.inj h ▸ .returns (by simp [building, hdone]) (Or.inr hdone)
    · contradiction
  | fail w =>
    simp only [step] at h
    split at h
    · rename_i points rest hheld
      exact Option.some.inj h ▸ .fails hheld
    · contradiction
  | create w =>
    simp only [step] at h
    split at h
    · rename_i sources b hbuilt
      split at h
      · exact Option.some.inj h ▸ .creates hbuilt
      · exact Option.some.inj h ▸ .leaves
    · contradiction
  | leave w =>
    simp only [step] at h
    split at h
    · exact Option.some.inj h ▸ .leaves
    · exact Option.some.inj h ▸ .leaves
    · contradiction

section Inv

variable {s t : Shared F ι}

omit [Numerics F] in
/-- A step of one call that leaves the schema object alone. -/
theorem Inv.moved (hs : Inv s) {w : ι} {x : Caller F} (lock : Option ι)
    (hlock : ∀ w', w' ≠ w → s.lock = some w' → lock = some w')
    (hbuilt : ∀ sources b, x = .built sources b →
      b.cols = sources.map Prod.fst ∧ ∀ e ∈ sources, Declares s.schema e)
    (hcreated : ∀ sources declared, x = .created sources declared →
      declared = coercedTypes sources)
    (hmigrating : ∀ points rest, x = .migrating points rest → lock = some w ∧
      ∃ base done, issued base points = done ++ rest ∧ s.schema = noted base done)
    (n : ℕ) : Inv (goTo { s with nextSeq := n, lock := lock } w x) where
  prefixed := hs.prefixed
  built w' sources b hw' := by
    rcases Runs.update_cases hw' with ⟨rfl, hx⟩ | ⟨-, hw'⟩
    · exact hbuilt sources b hx
    · exact hs.built w' sources b hw'
  created w' sources declared hw' := by
    rcases Runs.update_cases hw' with ⟨rfl, hx⟩ | ⟨-, hw'⟩
    · exact hcreated sources declared hx
    · exact hs.created w' sources declared hw'
  migrating w' points rest hw' := by
    rcases Runs.update_cases hw' with ⟨rfl, hx⟩ | ⟨hne, hw'⟩
    · exact hmigrating points rest hx
    · obtain ⟨hheld, hpending⟩ := hs.migrating w' points rest hw'
      exact ⟨hlock w' hne hheld, hpending⟩

omit [Numerics F] [DecidableEq ι] in
/-- Only the call that holds the lock is migrating. -/
theorem Inv.holder (hs : Inv s) {w w' : ι} {points : List (Point F)} {rest : List Migration}
    (h : s.calls w = .migrating points rest) (hheld : s.lock = some w') : w' = w :=
  Option.some.inj (hheld.symm.trans (hs.migrating w points rest h).1)

omit [Numerics F] [DecidableEq ι] in
/-- The rows of a batch are built with the types the schema lists. -/
theorem declares_of_returned (hs : Inv s) {points : List (Point F)}
    (hown : ∀ f ∈ (fieldSamples points).keys, ∀ r ∈ s.schema.fieldCols.get? f,
      (owner s.schema r.1).map (·.2.2) = some r.2)
    {sources : List (Str × Source)} (hsources : columnSources s.schema (tagNames points)
      (fieldSamples points).keys = some sources) : ∀ e ∈ sources, Declares s.schema e := by
  rintro ⟨c, source⟩ he
  rcases (mem_columnSources_iff hsources _).mp he with ⟨t, -, hcol, rfl⟩ | ⟨f, hf, ty, hcol, rfl⟩
  · exact hs.prefixed.tags t c hcol
  · exact ⟨hs.prefixed.fields f (c, ty) hcol, hown f hf (c, ty) hcol⟩

theorem returned_inv (hs : Inv s) {w : ι} {points : List (Point F)} {lock : Option ι}
    (hlock : ∀ w', w' ≠ w → s.lock = some w' → lock = some w')
    (hown : ∀ f ∈ (fieldSamples points).keys, ∀ r ∈ s.schema.fieldCols.get? f,
      (owner s.schema r.1).map (·.2.2) = some r.2) :
    Inv (returned digest { s with lock := lock } w points) := by
  simp only [returned]
  split
  · rename_i sources n b hsources hbuild
    refine hs.moved lock hlock ?_ (by simp) (by simp) n
    intro sources' b' heq
    cases heq
    obtain ⟨sources', rows, hsources', -, rfl⟩ := buildBatch_ok digest hbuild
    cases hsources.symm.trans hsources'
    exact ⟨rfl, declares_of_returned hs hown hsources⟩
  · exact hs.moved lock hlock (by simp) (by simp) (by simp) _

omit [Numerics F] in
/-- The next statement of the call that holds the lock. -/
theorem statement_inv (hs : Inv s) {w : ι} {points : List (Point F)} {mg : Migration}
    {rest : List Migration} (hnext : s.calls w = .migrating points (mg :: rest))
    (hfixed : ∀ f col a b, mg = .widen f col a b → ∀ w', ∀ c ∈ (s.calls w').cols,
      (owner s.schema c).map Prod.fst ≠ some f) :
    Inv (goTo { s with schema := noted s.schema [mg] } w (.migrating points rest)) := by
  obtain ⟨hheld, base, done, hissued, hschema⟩ := hs.migrating w points _ hnext
  refine ⟨?_, ?_, ?_, ?_⟩
  · refine prefixed_noted hs.prefixed fun f e hrecord => ?_
    exact prefix_of_pending hissued (hschema ▸ hs.prefixed) hrecord
  · intro w' sources b hw'
    obtain ⟨-, hbuilt⟩ := (Runs.update_cases hw').resolve_left (by simp)
    obtain ⟨hcols, hdeclares⟩ := hs.built w' sources b hbuilt
    refine ⟨hcols, fun e he => (hdeclares e he).noted fun f new old hrecord hold => ?_⟩
    rw [hschema] at hold
    obtain ⟨hcol, hsame | ⟨col, a, b', hwiden⟩⟩ := entry_of_pending hissued hrecord hold
    · exact ⟨hcol, Or.inl hsame⟩
    · refine ⟨hcol, Or.inr (hfixed f col a b' hwiden w' e.1 ?_)⟩
      rw [hbuilt, Caller.cols, hcols]
      exact List.mem_map_of_mem he
  · intro w' sources declared hw'
    obtain ⟨-, hold⟩ := (Runs.update_cases hw').resolve_left (by simp)
    exact hs.created w' sources declared hold
  · intro w' points' rest' hw'
    rcases Runs.update_cases hw' with ⟨rfl, heq⟩ | ⟨hne, hw'⟩
    · cases heq
      refine ⟨hheld, base, done ++ [mg], by rw [hissued, List.append_assoc]; rfl, ?_⟩
      exact hschema ▸ (noted_append base done [mg]).symm
    · exact absurd (hs.holder hnext (hs.migrating w' _ _ hw').1) hne

theorem step_inv (hs : Inv s) {e : Event F ι} (hsteady : Steady s e)
    (h : step digest s e = some t) : Inv t := by
  have hkeep : ∀ w w', w' ≠ w → s.lock = some w' → s.lock = some w' := fun _ _ _ h => h
  cases change_of_step digest h with
  | @waits w points hidle => exact hs.moved s.lock (hkeep w) (by simp) (by simp) (by simp) _
  | @returns e w points lock hbuilding hlock =>
    refine returned_inv digest hs (fun w' hne hheld => ?_) (hsteady.own points hbuilding)
    rcases hlock with rfl | hmigrating
    · exact hheld
    · exact absurd (hs.holder hmigrating hheld) hne
  | @begins w points hfree =>
    refine hs.moved (some w) (fun w' _ hheld => ?_) (by simp) (by simp) ?_ _
    · rw [hfree] at hheld
      contradiction
    · intro points' rest heq
      cases heq
      exact ⟨rfl, s.schema, [], rfl, rfl⟩
  | @states w points mg rest hnext =>
    refine statement_inv hs hnext fun f col a b hwiden => hsteady.fixed f ?_
    rw [promoting, hnext, hwiden, Option.mem_some_iff]
  | @fails w points rest hheld =>
    refine hs.moved none (fun w' hne hlock => ?_) (by simp) (by simp) (by simp) _
    exact absurd (hs.holder hheld hlock) hne
  | @creates w sources b hbuilt =>
    obtain ⟨hcols, hdeclares⟩ := hs.built w sources b hbuilt
    refine hs.moved s.lock (hkeep w) (by simp) ?_ (by simp) _
    intro sources' declared heq
    cases heq
    rw [hcols]
    exact declaredTypes_eq hdeclares
  | @leaves e w => exact hs.moved s.lock (hkeep w) (by simp) (by simp) (by simp) _

end Inv

/-- Every temp table of a run has the types its rows were coerced to, when no
promotion changes a column of rows that wait for theirs. -/
theorem always_agreed_of_steady (schema : {schema // Prefixed schema})
    (es : List (Event F ι)) (h : Runs.Along (step digest) Steady (start schema) es) :
    Runs.Always (step digest) Agreed (start schema) es :=
  Runs.always_of_along (I := Inv) (fun _ _ _ hs hsteady hst => step_inv digest hs hsteady hst)
    (fun _ hs => hs.created) (start_inv schema) h

theorem cpuSchema_prefixed : Prefixed Schedule.cpuSchema where
  tags t col h := by simp [Schedule.cpuSchema] at h
  fields f e h := by
    cases Dict.eq_of_get?_single h
    decide

def textPoint : Point ℤ :=
  ⟨"cpu".toList, Dict.empty, Dict.single "a".toList (.str "x".toList), 1⟩

/-- A call with a text for the field, which promotes its column. -/
def promotion (w : Bool) : List (Event ℤ Bool) :=
  [.enter w [textPoint], .acquire w, .statement w]

/-- The promotion runs before the rows of the other call are built. -/
theorem promotedBefore_agreed : Runs.Always (step fun _ => 0) Agreed
    (start ⟨Schedule.cpuSchema, cpuSchema_prefixed⟩)
    (promotion true ++ [.finish true, .enter false [Schedule.cpuPoint 0 1], .create false]) :=
  always_agreed_of_steady _ _ _ (by decide +kernel)

/-- The promotion runs while the rows of the other call wait for their temp table. -/
theorem promotedBetween_disagrees : ¬∀ es : List (Event ℤ Bool), Runs.Always (step fun _ => 0)
    Agreed (start ⟨Schedule.cpuSchema, cpuSchema_prefixed⟩) es := by
  intro h
  have hrun : (Runs.exec (step fun _ => 0) (start ⟨Schedule.cpuSchema, cpuSchema_prefixed⟩)
      ([.enter false [Schedule.cpuPoint 0 1]] ++ promotion true ++ [.create false])).any (fun s =>
        match s.calls false with
        | .created sources declared => decide (declared ≠ coercedTypes sources)
        | _ => false) = true := by
    decide +kernel
  obtain ⟨s, hs, htest⟩ := (Option.any_eq_true _ _).mp hrun
  split at htest
  · rename_i sources declared hcreated
    exact of_decide_eq_true htest ((h _).last hs false sources declared hcreated)
  · exact absurd htest Bool.false_ne_true

end TempTable

end TimescaleLp
