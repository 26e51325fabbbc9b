import TimescaleLp.Listings
import TimescaleLp.Runs

/-!
Deletes beside writes of one measurement. A write extends the cached schema
object under the lock of the measurement. A delete that finds no cached schema
reads the columns without the lock and stores what it has read.
-/
namespace TimescaleLp

/-- What a write asks of the schema, its names in sanitized form. -/
structure SchemaRequest (F : Type) where
  tagNames : List Str
  samples : Dict Str (Value F)
  sanitary : Listings.Sanitary tagNames samples

/-- The locked part of an `_ensure_schema` call, between two awaits. -/
inductive Update (F : Type)
  | loading (q : SchemaRequest F)
  | migrating (obj : ℕ) (rest : List Schema.Migration)
  | committed (obj : ℕ)

inductive DeleteCall
  | idle
  | loading
  | loaded (rows : Dict Str PgType)

/-- The table of a measurement, the schema objects made for it, the one in the
cache, and the calls. `columns` has the statements of the open transaction. -/
structure MeasurementState (F ι κ : Type) where
  columns : Dict Str PgType
  committed : Dict Str PgType
  objects : ℕ → TableSchema
  size : ℕ
  cache : Option ℕ
  waiting : ι → Option (SchemaRequest F)
  held : Option (Update F)
  deletes : κ → DeleteCall

namespace DeleteRace

open Names Schema Promotion Alters Listings

variable {F ι κ : Type}

inductive Event (F ι κ : Type)
  | enter (w : ι) (q : SchemaRequest F)
  | acquire (w : ι)
  | load
  | statement
  | commit
  | finish
  | delete (k : κ)
  | introspect (k : κ)
  | store (k : κ)

/-- The service has started, and the table has some columns. -/
def start (columns : {columns // Known columns}) : MeasurementState F ι κ where
  columns := columns
  committed := columns
  objects := fun _ => loaded [] Dict.empty
  size := 0
  cache := none
  waiting := fun _ => none
  held := none
  deletes := fun _ => .idle

def issued (q : SchemaRequest F) (schema : TableSchema) : List Migration :=
  migrations schema q.tagNames q.samples

def allocate (s : MeasurementState F ι κ) (schema : TableSchema) : MeasurementState F ι κ :=
  { s with objects := Function.update s.objects s.size schema, size := s.size + 1 }

/-- A call that has nothing to change stores the object at once. -/
def begin (s : MeasurementState F ι κ) (r : ℕ) : List Migration → MeasurementState F ι κ
  | [] => { s with cache := some r, held := none }
  | mg :: rest => { s with held := some (.migrating r (mg :: rest)) }

/-- The cached schema agrees with the database. -/
def Agreed (s : MeasurementState F ι κ) : Prop :=
  ∀ r, s.cache = some r → Agrees (s.objects r) s.columns

/-- A column that is cached stays so. -/
def Keeps (s t : MeasurementState F ι κ) : Prop :=
  ∀ r, s.cache = some r → ∃ r', t.cache = some r' ∧
    ∀ col ty, Lists (s.objects r) col ty → ∃ ty', Lists (t.objects r') col ty'

/-- What a delete has read is not out of date. -/
structure Current (s : MeasurementState F ι κ) (rows : Dict Str PgType) : Prop where
  types : ∀ c ty, "f_".toList <+: c → rows.get? c = some ty → s.columns.get? c = some ty
  listed : ∀ r, s.cache = some r → ∀ col ty, Lists (s.objects r) col ty →
    (rows.get? col).isSome = true

/-- A statement for the object `r` while `c` is cached. A promotion is of an entry
of the cached object, whose column no other entry has with another type. A column
that is cut, when it is added, is not there with another type. -/
structure Harmless (s : MeasurementState F ι κ) (r : ℕ) (mg : Migration) (c : ℕ) : Prop where
  promoted : isWiden mg = true → ∀ col ty, Lists (s.objects c) col ty →
    pgIdent col = pgIdent (target mg).1 → ty = (target mg).2 ∨ c = r ∧ col = (target mg).1
  added : isWiden mg = false → c = r → 63 ≤ (target mg).1.length →
    ∀ ty, s.columns.get? (pgIdent (target mg).1) = some ty → ty = (target mg).2

/-- The object `r` is stored: the columns of it that may be cut agree with the
database, and it has all of those that are cached. -/
structure Complete (s : MeasurementState F ι κ) (r : ℕ) : Prop where
  types : ∀ col ty, 63 ≤ col.length → Lists (s.objects r) col ty →
    s.columns.get? (pgIdent col) = some ty
  listed : ∀ c, s.cache = some c → ∀ col ty, 63 ≤ col.length → Lists (s.objects c) col ty →
    ∃ ty', Lists (s.objects r) col ty'

def InStep (s : MeasurementState F ι κ) : Event F ι κ → Prop
  | .statement => ∀ r mg rest, s.held = some (.migrating r (mg :: rest)) →
    ∀ c, s.cache = some c → Harmless s r mg c
  | .finish => ∀ r, s.held = some (.committed r) → Complete s r
  | .store k => ∀ rows, s.deletes k = .loaded rows → Current s rows
  | _ => True

/-- Columns read earlier: all of them are still there. -/
structure Older (rows columns : Dict Str PgType) : Prop where
  known : Known rows
  still : ∀ c, (rows.get? c).isSome = true → (columns.get? c).isSome = true

theorem Older.refl {columns : Dict Str PgType} (h : Known columns) : Older columns columns :=
  ⟨h, fun _ h => h⟩

theorem Older.altered {rows columns : Dict Str PgType} (h : Older rows columns) (mg : Migration) :
    Older rows (altered columns mg) :=
  ⟨h.known, fun c hc => isSome_altered (h.still c hc) mg⟩

/-- The rest of a migration that the object is under. -/
def Pending (F : Type) (schema : TableSchema) (rest : List Migration) : Prop :=
  ∃ (base : TableSchema) (q : SchemaRequest F) (done : List Migration),
    Plain base ∧ issued q base = done ++ rest ∧ schema = noted base done

/-- What holds while the lock is free or a write is in its locked part. -/
def Phase (s : MeasurementState F ι κ) : Option (Update F) → Prop
  | none => s.committed = s.columns ∧ ∀ r, s.cache = some r → Follows (s.objects r) s.columns
  | some (.loading _) => s.committed = s.columns ∧
    ∀ r, s.cache = some r → ∀ col ty, Lists (s.objects r) col ty → pgIdent col = col
  | some (.migrating r rest) =>
    r < s.size ∧ Follows (s.objects r) s.columns ∧ Pending F (s.objects r) rest
  | some (.committed r) =>
    s.committed = s.columns ∧ r < s.size ∧ Follows (s.objects r) s.columns

structure Inv (s : MeasurementState F ι κ) : Prop where
  known : Known s.columns
  older : Older s.committed s.columns
  rows : ∀ k rows, s.deletes k = .loaded rows → Older rows s.columns
  plain : ∀ r, Plain (s.objects r)
  bound : ∀ r, s.cache = some r → r < s.size
  phase : Phase s s.held
  untouched : s.held = none → s.cache = none → ∀ k rows, s.deletes k = .loaded rows →
    rows = s.columns

theorem start_inv (columns : {columns // Known columns}) :
    Inv (start columns : MeasurementState F ι κ) where
  known := columns.property
  older := .refl columns.property
  rows := by simp [start]
  plain r := plain_loaded [] Dict.empty
  bound := by simp [start]
  phase := ⟨rfl, by simp [start]⟩
  untouched := by simp [start]

section Objects

variable {s : MeasurementState F ι κ}

theorem allocate_old (schema : TableSchema) {r : ℕ} (hr : r < s.size) :
    (allocate s schema).objects r = s.objects r :=
  Function.update_of_ne hr.ne _ _

theorem allocate_new (s : MeasurementState F ι κ) (schema : TableSchema) :
    (allocate s schema).objects s.size = schema :=
  Function.update_self _ _ _

theorem plain_update (h : ∀ r, Plain (s.objects r)) {r : ℕ} {schema : TableSchema}
    (hplain : Plain schema) : ∀ r', Plain (Function.update s.objects r schema r') := by
  intro r'
  rcases eq_or_ne r' r with rfl | hne
  · rwa [Function.update_self]
  · rw [Function.update_of_ne hne]
    exact h r'

/-- A schema that was read agrees with the database, if its fields still do. -/
theorem agrees_loaded_iff (m : Str) (hs : Inv s) {rows : Dict Str PgType}
    (holder : Older rows s.columns) :
    Agrees (loaded m rows) s.columns ↔
      ∀ c ty, "f_".toList <+: c → rows.get? c = some ty → s.columns.get? c = some ty := by
  constructor
  · intro h c ty hc hget
    have hagrees := h c ty ((lists_loaded_iff holder.known m c ty).mpr ⟨Or.inr hc, hget⟩)
    rwa [holder.known.idents c ty hget] at hagrees
  · intro h col ty hlists
    obtain ⟨hcolumn, hget⟩ := (lists_loaded_iff holder.known m col ty).mp hlists
    rw [holder.known.idents col ty hget]
    rcases hcolumn with htag | hfield
    · obtain ⟨ty', hnow⟩ := Option.isSome_iff_exists.mp (holder.still col (by rw [hget]; rfl))
      rw [hnow, hs.known.tags col ty' htag hnow, holder.known.tags col ty htag hget]
    · exact h col ty hfield hget

theorem Pending.next {schema : TableSchema} {mg : Migration} {rest : List Migration}
    (h : Pending F schema (mg :: rest)) (hplain : Plain schema) :
    Next schema mg ∧ Pending F (noted schema [mg]) rest := by
  obtain ⟨base, q, done, hbase, hissued, rfl⟩ := h
  refine ⟨next_of_issued hplain hbase q.sanitary hissued, base, q, done ++ [mg], hbase, ?_, ?_⟩
  · rw [hissued, List.append_assoc]
    rfl
  · rw [noted_append]

theorem Pending.issued {schema : TableSchema} (h : Plain schema) (q : SchemaRequest F) :
    Pending F schema (DeleteRace.issued q schema) :=
  ⟨schema, q, [], h, rfl, rfl⟩

/-- A step that leaves the columns and the objects in use alone. -/
theorem Phase.moved {t : MeasurementState F ι κ} {u : Option (Update F)} (h : Phase s u)
    (hcommitted : t.committed = s.committed) (hcolumns : t.columns = s.columns)
    (hsize : s.size ≤ t.size) (hobjects : ∀ r < s.size, t.objects r = s.objects r)
    (hfree : u = none → ∀ r, t.cache = some r → Follows (t.objects r) s.columns)
    (hloading : ∀ r, t.cache = some r → ∀ col ty, Lists (t.objects r) col ty → pgIdent col = col) :
    Phase t u := by
  cases u with
  | none =>
    refine ⟨hcommitted.trans (h.1.trans hcolumns.symm), fun r hr => ?_⟩
    rw [hcolumns]
    exact hfree rfl r hr
  | some u =>
    cases u with
    | loading q => exact ⟨hcommitted.trans (h.1.trans hcolumns.symm), hloading⟩
    | migrating r rest =>
      obtain ⟨hr, hfollows, hpending⟩ := h
      refine ⟨hr.trans_le hsize, ?_, ?_⟩
      · rw [hobjects r hr, hcolumns]
        exact hfollows
      · rw [hobjects r hr]
        exact hpending
    | committed r =>
      obtain ⟨hsettled, hr, hfollows⟩ := h
      refine ⟨hcommitted.trans (hsettled.trans hcolumns.symm), hr.trans_le hsize, ?_⟩
      rw [hobjects r hr, hcolumns]
      exact hfollows

/-- The object of a call, once the call knows which statements it issues. -/
theorem begin_inv {r : ℕ} (hknown : Known s.columns) (hsettled : s.committed = s.columns)
    (hrows : ∀ k rows, s.deletes k = .loaded rows → Older rows s.columns)
    (hplain : ∀ r, Plain (s.objects r)) (hbound : ∀ r, s.cache = some r → r < s.size)
    (hr : r < s.size) (hfollows : Follows (s.objects r) s.columns) (q : SchemaRequest F) :
    Inv (begin s r (issued q (s.objects r))) := by
  have hpending := Pending.issued (hplain r) q
  have holder : Older s.committed s.columns := by
    rw [hsettled]
    exact .refl hknown
  cases hissued : issued q (s.objects r) with
  | nil =>
    exact ⟨hknown, holder, hrows, hplain, by simp [begin, hr], ⟨hsettled, by simpa [begin]⟩,
      by simp [begin]⟩
  | cons mg rest =>
    rw [hissued] at hpending
    exact ⟨hknown, holder, hrows, hplain, hbound, ⟨hr, hfollows, hpending⟩, by simp [begin]⟩

/-- A delete that is not out of date stores a schema that keeps up with the table. -/
theorem follows_of_current (m : Str) (hs : Inv s) (hfree : s.held = none) {k : κ}
    {rows : Dict Str PgType} (hrows : s.deletes k = .loaded rows) (hcurrent : Current s rows) :
    Follows (loaded m rows) s.columns := by
  have hknown := (hs.rows k rows hrows).known
  cases hcached : s.cache with
  | none =>
    rw [← hs.untouched hfree hcached k rows hrows]
    exact follows_loaded hknown m
  | some r =>
    have hphase := hs.phase
    rw [hfree] at hphase
    refine ⟨fun col ty _ hlists => ?_, fun c ty hshort hcolumn hget => ?_⟩
    · have hagrees := (agrees_loaded_iff m hs (hs.rows k rows hrows)).mpr hcurrent.types
      rw [← hknown.idents col ty ((lists_loaded_iff hknown m col ty).mp hlists).2]
      exact hagrees col ty hlists
    · obtain ⟨ty', hlists⟩ := (hphase.2 r hcached).all c ty hshort hcolumn hget
      obtain ⟨ty'', hread⟩ := Option.isSome_iff_exists.mp (hcurrent.listed r hcached c ty' hlists)
      exact ⟨ty'', (lists_loaded_iff hknown m c ty'').mpr ⟨hcolumn, hread⟩⟩

end Objects

variable [DecidableEq ι] [DecidableEq κ] (m : Str)

/-- The code between two awaits. A delete reads committed columns only, and the
statements of an open transaction are not among them. -/
def step (s : MeasurementState F ι κ) : Event F ι κ → Option (MeasurementState F ι κ)
  | .enter w q =>
    match s.waiting w with
    | some _ => none
    | none =>
      match s.cache with
      | none => some { s with waiting := Function.update s.waiting w (some q) }
      | some r =>
        if needsUpdate (s.objects r) q.tagNames q.samples then
          some { s with waiting := Function.update s.waiting w (some q) }
        else some s
  | .acquire w =>
    match s.waiting w, s.held with
    | some q, none =>
      let waiting := Function.update s.waiting w none
      match s.cache with
      | none => some { s with waiting := waiting, held := some (.loading q) }
      | some r => some (begin { s with waiting := waiting } r (issued q (s.objects r)))
    | _, _ => none
  | .load =>
    match s.held with
    | some (.loading q) =>
      let schema := loaded m s.committed
      some (begin (allocate s schema) s.size (issued q schema))
    | _ => none
  | .statement =>
    match s.held with
    | some (.migrating r (mg :: rest)) =>
      some { s with
        columns := altered s.columns mg
        objects := Function.update s.objects r (noted (s.objects r) [mg])
        held := some (.migrating r rest) }
    | _ => none
  | .commit =>
    match s.held with
    | some (.migrating r []) =>
      some { s with committed := s.columns, held := some (.committed r) }
    | _ => none
  | .finish =>
    match s.held with
    | some (.committed r) => some { s with cache := some r, held := none }
    | _ => none
  | .delete k =>
    match s.deletes k, s.cache with
    | .idle, some _ => some s
    | .idle, none => some { s with deletes := Function.update s.deletes k .loading }
    | _, _ => none
  | .introspect k =>
    match s.deletes k with
    | .loading => some { s with deletes := Function.update s.deletes k (.loaded s.committed) }
    | _ => none
  | .store k =>
    match s.deletes k with
    | .loaded rows =>
      let deletes := Function.update s.deletes k .idle
      some { allocate s (loaded m rows) with cache := some s.size, deletes := deletes }
    | _ => none

def Keeping (s : MeasurementState F ι κ) (e : Event F ι κ) : Prop :=
  ∀ t, step m s e = some t → Keeps s t

section Change

variable {s t : MeasurementState F ι κ} {e : Event F ι κ}

/-- What a step does. -/
inductive Change (s : MeasurementState F ι κ) : Event F ι κ → MeasurementState F ι κ → Prop
  | waits {w q f} : Change s (.enter w q) { s with waiting := f }
  | misses {w q f} (hfree : s.held = none) (hnone : s.cache = none) :
    Change s (.acquire w) { s with waiting := f, held := some (.loading q) }
  | hits {w f r} {q : SchemaRequest F} (hfree : s.held = none) (hcached : s.cache = some r) :
    Change s (.acquire w) (begin { s with waiting := f } r (issued q (s.objects r)))
  | loads {q} (hheld : s.held = some (.loading q)) :
    Change s .load (begin (allocate s (loaded m s.committed)) s.size
      (issued q (loaded m s.committed)))
  | states {r mg rest} (hheld : s.held = some (.migrating r (mg :: rest))) :
    Change s .statement { s with
      columns := altered s.columns mg
      objects := Function.update s.objects r (noted (s.objects r) [mg])
      held := some (.migrating r rest) }
  | commits {r} (hheld : s.held = some (.migrating r [])) :
    Change s .commit { s with committed := s.columns, held := some (.committed r) }
  | finishes {r} (hheld : s.held = some (.committed r)) :
    Change s .finish { s with cache := some r, held := none }
  | deletes {k d} (hsame : ∀ k rows, d k = .loaded rows → s.deletes k = .loaded rows) :
    Change s (.delete k) { s with deletes := d }
  | introspects {k} :
    Change s (.introspect k)
      { s with deletes := Function.update s.deletes k (.loaded s.committed) }
  | stores {k rows} (hrows : s.deletes k = .loaded rows) :
    Change s (.store k) { allocate s (loaded m rows) with
      cache := some s.size
      deletes := Function.update s.deletes k .idle }

theorem change_of_step (h : step m s e = some t) : Change m s e t := by
  cases e with
  | enter w q =>
    simp only [step] at h
    split at h
    · contradiction
    · split at h
      · exact Option.some.inj h ▸ .waits
      · split at h
        · exact Option.some.inj h ▸ .waits
        · exact Option.some.inj h ▸ .waits (f := s.waiting)
  | acquire w =>
    simp only [step] at h
    split at h
    · rename_i q hq hfree
      split at h
      · rename_i hnone
        exact Option.some.inj h ▸ .misses hfree hnone
      · rename_i r hcached
        exact Option.some.inj h ▸ .hits hfree hcached
    · contradiction
  | load =>
    simp only [step] at h
    split at h
    · rename_i q hheld
      exact Option.some.inj h ▸ .loads hheld
    · contradiction
  | statement =>
    simp only [step] at h
    split at h
    · rename_i r mg rest hheld
      exact Option.some.inj h ▸ .states hheld
    · contradiction
  | commit =>
    simp only [step] at h
    split at h
    · rename_i r hheld
      exact Option.some.inj h ▸ .commits hheld
    · contradiction
  | finish =>
    simp only [step] at h
    split at h
    · rename_i r hheld
      exact Option.some.inj h ▸ .finishes hheld
    · contradiction
  | delete k =>
    simp only [step] at h
    split at h
    · exact Option.some.inj h ▸ .deletes (d := s.deletes) fun _ _ h => h
    · refine Option.some.inj h ▸ .deletes fun k' rows hrows => ?_
      exact ((Runs.update_cases hrows).resolve_left (by simp)).2
    · contradiction
  | introspect k =>
    simp only [step] at h
    split at h
    · exact Option.some.inj h ▸ .introspects
    · contradiction
  | store k =>
    simp only [step] at h
    split at h
    · rename_i rows hrows
      exact Option.some.inj h ▸ .stores hrows
    · contradiction

end Change

section Step

variable {s t : MeasurementState F ι κ} {e : Event F ι κ}

omit [DecidableEq ι] in
theorem store_inv (hs : Inv s) {k : κ} {rows : Dict Str PgType}
    (hrows : s.deletes k = .loaded rows) (hcurrent : Current s rows) :
    Inv { allocate s (loaded m rows) with
      cache := some s.size
      deletes := Function.update s.deletes k .idle } := by
  have hknown := (hs.rows k rows hrows).known
  have hnew := allocate_new s (loaded m rows)
  refine ⟨hs.known, hs.older, ?_, plain_update hs.plain (plain_loaded m rows), ?_, ?_, by simp⟩
  · intro k' rows' hk'
    exact hs.rows k' rows' ((Runs.update_cases hk').resolve_left (by simp)).2
  · intro r hr
    cases hr
    exact Nat.lt_succ_self _
  · refine hs.phase.moved rfl rfl (Nat.le_succ _) (fun r hr => allocate_old _ hr) ?_ ?_
    · intro hfree r hr
      cases hr
      simp only [hnew]
      exact follows_of_current m hs hfree hrows hcurrent
    · intro r hr col ty hlists
      cases hr
      simp only [hnew] at hlists
      exact hknown.idents col ty ((lists_loaded_iff hknown m col ty).mp hlists).2

theorem step_inv (hs : Inv s) (hin : InStep s e) (h : step m s e = some t) : Inv t := by
  have hphase := hs.phase
  cases change_of_step m h with
  | waits => exact ⟨hs.known, hs.older, hs.rows, hs.plain, hs.bound, hs.phase, hs.untouched⟩
  | misses hfree hnone =>
    rw [hfree] at hphase
    exact ⟨hs.known, hs.older, hs.rows, hs.plain, hs.bound, ⟨hphase.1, by simp [hnone]⟩, by simp⟩
  | @hits w f r q hfree hcached =>
    rw [hfree] at hphase
    exact begin_inv (s := { s with waiting := f }) hs.known hphase.1 hs.rows hs.plain hs.bound
      (hs.bound r hcached) (hphase.2 r hcached) q
  | @loads q hheld =>
    rw [hheld] at hphase
    have hnew := allocate_new s (loaded m s.committed)
    have hfollows : Follows (loaded m s.committed) s.columns := by
      rw [hphase.1]
      exact follows_loaded hs.known m
    have hinv := begin_inv (s := allocate s (loaded m s.committed)) hs.known hphase.1 hs.rows
      (plain_update hs.plain (plain_loaded m _)) (fun r hr => Nat.lt_succ_of_lt (hs.bound r hr))
      (Nat.lt_succ_self _) (hnew.symm ▸ hfollows) q
    rwa [hnew] at hinv
  | @states r mg rest hheld =>
    rw [hheld] at hphase
    obtain ⟨hr, hfollows, hpending⟩ := hphase
    obtain ⟨hnext, hrest⟩ := hpending.next (hs.plain r)
    refine ⟨hs.known.altered hnext.plain, hs.older.altered mg, fun k rows hrows =>
      (hs.rows k rows hrows).altered mg, plain_update hs.plain hnext.plain, hs.bound, ?_, by simp⟩
    refine ⟨hr, ?_, ?_⟩
    · simp only [Function.update_self]
      exact hfollows.noted (hs.plain r) hnext
    · simp only [Function.update_self]
      exact hrest
  | @commits r hheld =>
    rw [hheld] at hphase
    exact ⟨hs.known, .refl hs.known, hs.rows, hs.plain, hs.bound, ⟨rfl, hphase.1, hphase.2.1⟩,
      by simp⟩
  | @finishes r hheld =>
    rw [hheld] at hphase
    obtain ⟨hsettled, hr, hfollows⟩ := hphase
    exact ⟨hs.known, hs.older, hs.rows, hs.plain, by simpa using hr, ⟨hsettled, by simpa⟩, by simp⟩
  | @deletes k d hsame =>
    exact ⟨hs.known, hs.older, fun k rows hrows => hs.rows k rows (hsame k rows hrows), hs.plain,
      hs.bound, hs.phase, fun hfree hnone k rows hrows =>
        hs.untouched hfree hnone k rows (hsame k rows hrows)⟩
  | @introspects k =>
    refine ⟨hs.known, hs.older, fun k' rows hrows => ?_, hs.plain, hs.bound, hs.phase,
      fun hfree hnone k' rows hrows => ?_⟩
    · rcases Runs.update_cases hrows with ⟨-, hread⟩ | ⟨-, hrows⟩
      · cases hread
        exact hs.older
      · exact hs.rows k' rows hrows
    · rcases Runs.update_cases hrows with ⟨-, hread⟩ | ⟨-, hrows⟩
      · cases hread
        have hfree : s.held = none := hfree
        rw [hfree] at hphase
        exact hphase.1
      · exact hs.untouched hfree hnone k' rows hrows
  | @stores k rows hrows => exact store_inv m hs hrows (hin rows hrows)

theorem keeping_iff (h : step m s e = some t) : Keeping m s e ↔ Keeps s t := by
  simp [Keeping, h]

omit [DecidableEq ι] [DecidableEq κ] in
/-- The cached object and the columns are as before. -/
theorem same_cache (hagreed : Agreed s) (hcache : t.cache = s.cache)
    (hobjects : ∀ r, s.cache = some r → t.objects r = s.objects r)
    (hcolumns : t.columns = s.columns) : Agreed t ∧ Keeps s t := by
  refine ⟨fun r hr => ?_, fun r hr => ⟨r, hcache.trans hr, fun col ty hlists => ?_⟩⟩
  · rw [hcache] at hr
    rw [hobjects r hr, hcolumns]
    exact hagreed r hr
  · rw [hobjects r hr]
    exact ⟨ty, hlists⟩

omit [DecidableEq ι] [DecidableEq κ] in
theorem loads_agreed (hs : Inv s) (hagreed : Agreed s) {q : SchemaRequest F}
    (hheld : s.held = some (.loading q)) :
    let t := begin (allocate s (loaded m s.committed)) s.size (issued q (loaded m s.committed))
    Agreed t ∧ Keeps s t := by
  have hphase := hs.phase
  rw [hheld] at hphase
  obtain ⟨hsettled, hidents⟩ := hphase
  have hnew := allocate_new s (loaded m s.committed)
  cases issued q (loaded m s.committed) with
  | nil =>
    refine ⟨fun r hr => ?_, fun r hr => ⟨s.size, rfl, fun col ty hlists => ⟨ty, ?_⟩⟩⟩
    · cases hr
      simp only [begin, hnew]
      rw [hsettled]
      exact agrees_loaded hs.known m
    · have hget := hagreed r hr col ty hlists
      rw [hidents r hr col ty hlists, ← hsettled] at hget
      simp only [begin, hnew]
      exact (lists_loaded_iff hs.older.known m col ty).mpr ⟨(hs.plain r).isColumn hlists, hget⟩
  | cons mg rest =>
    exact same_cache hagreed rfl (fun r hr => allocate_old _ (hs.bound r hr)) rfl

omit [DecidableEq ι] [DecidableEq κ] in
theorem states_iff (hs : Inv s) (hagreed : Agreed s) {r : ℕ} {mg : Migration}
    {rest : List Migration} (hheld : s.held = some (.migrating r (mg :: rest)))
    (hcolumns : t.columns = altered s.columns mg)
    (hobjects : t.objects = Function.update s.objects r (noted (s.objects r) [mg]))
    (hcache : t.cache = s.cache) :
    Agreed t ∧ Keeps s t ↔ ∀ c, s.cache = some c → Harmless s r mg c := by
  have hphase := hs.phase
  rw [hheld] at hphase
  obtain ⟨hr, hfollows, hpending⟩ := hphase
  obtain ⟨hnext, -⟩ := hpending.next (hs.plain r)
  have hkeeps : Keeps s t := by
    intro c hc
    refine ⟨c, hcache.trans hc, fun col ty hlists => ?_⟩
    rw [hobjects]
    rcases eq_or_ne c r with rfl | hne
    · rw [Function.update_self]
      exact exists_lists_noted (hs.plain c) hnext.plain hlists
    · rw [Function.update_of_ne hne]
      exact ⟨ty, hlists⟩
  rw [and_iff_left hkeeps, Agreed, hcache]
  refine forall₂_congr fun c hc => ?_
  rw [hobjects, hcolumns]
  rcases eq_or_ne c r with rfl | hne
  · rw [Function.update_self, agrees_noted_iff (hagreed c hc) (hs.plain c) hnext hfollows]
    exact ⟨fun h => ⟨by simpa using h.1, fun hadd _ => h.2 hadd⟩,
      fun h => ⟨by simpa using h.promoted, fun hadd => h.added hadd rfl⟩⟩
  · rw [Function.update_of_ne hne, agrees_altered_iff (hagreed c hc)]
    exact ⟨fun h => ⟨fun hwiden col ty hlists hident => Or.inl (h hwiden col ty hlists hident),
      fun _ heq => absurd heq hne⟩, fun h hwiden col ty hlists hident =>
        (h.promoted hwiden col ty hlists hident).resolve_right fun hsame => hne hsame.1⟩

omit [DecidableEq ι] [DecidableEq κ] in
theorem finishes_iff (hs : Inv s) (hagreed : Agreed s) {r : ℕ}
    (hheld : s.held = some (.committed r)) (hcolumns : t.columns = s.columns)
    (hobjects : t.objects = s.objects) (hcache : t.cache = some r) :
    Agreed t ∧ Keeps s t ↔ Complete s r := by
  have hphase := hs.phase
  rw [hheld] at hphase
  obtain ⟨-, -, hfollows⟩ := hphase
  constructor
  · rintro ⟨hnew, hkeeps⟩
    constructor
    · intro col ty _ hlists
      have hget := hnew r hcache col ty (by rwa [hobjects])
      rwa [hcolumns] at hget
    · intro c hc col ty _ hlists
      obtain ⟨r', hr', hlisted⟩ := hkeeps c hc
      cases hcache.symm.trans hr'
      rw [hobjects] at hlisted
      exact hlisted col ty hlists
  · intro hcomplete
    constructor
    · intro r' hr' col ty hlists
      cases hcache.symm.trans hr'
      rw [hobjects] at hlists
      rw [hcolumns]
      by_cases hshort : col.length < 63
      · rw [pgIdent_of_short hshort]
        exact hfollows.types col ty hshort hlists
      · exact hcomplete.types col ty (by omega) hlists
    · intro c hc
      refine ⟨r, hcache, fun col ty hlists => ?_⟩
      rw [hobjects]
      by_cases hshort : col.length < 63
      · have hget := hagreed c hc col ty hlists
        rw [pgIdent_of_short hshort] at hget
        exact hfollows.all col ty hshort ((hs.plain c).isColumn hlists) hget
      · exact hcomplete.listed c hc col ty (by omega) hlists

omit [DecidableEq ι] [DecidableEq κ] in
theorem stores_iff (hs : Inv s) {k : κ} {rows : Dict Str PgType}
    (hrows : s.deletes k = .loaded rows) (hcolumns : t.columns = s.columns) {r : ℕ}
    (hobject : t.objects r = loaded m rows) (hcache : t.cache = some r) :
    Agreed t ∧ Keeps s t ↔ Current s rows := by
  have holder := hs.rows k rows hrows
  have hagrees : Agreed t ↔ Agrees (loaded m rows) s.columns := by
    simp [Agreed, hcache, hobject, hcolumns]
  rw [hagrees, agrees_loaded_iff m hs holder]
  constructor
  · rintro ⟨htypes, hkeeps⟩
    refine ⟨htypes, fun c hc col ty hlists => ?_⟩
    obtain ⟨r', hr', hlisted⟩ := hkeeps c hc
    cases hcache.symm.trans hr'
    rw [hobject] at hlisted
    obtain ⟨ty', hread⟩ := hlisted col ty hlists
    rw [((lists_loaded_iff holder.known m col ty').mp hread).2]
    rfl
  · intro hcurrent
    refine ⟨hcurrent.types, fun c hc => ⟨r, hcache, fun col ty hlists => ?_⟩⟩
    obtain ⟨ty', hread⟩ := Option.isSome_iff_exists.mp (hcurrent.listed c hc col ty hlists)
    rw [hobject]
    exact ⟨ty', (lists_loaded_iff holder.known m col ty').mpr ⟨(hs.plain c).isColumn hlists, hread⟩⟩

/-- One step. -/
theorem step_iff (hs : Inv s) (hagreed : Agreed s) (h : step m s e = some t) :
    Agreed t ∧ Keeping m s e ↔ InStep s e := by
  rw [keeping_iff m h]
  cases change_of_step m h with
  | waits => exact iff_of_true (same_cache hagreed rfl (fun _ _ => rfl) rfl) trivial
  | misses hfree hnone => exact iff_of_true (same_cache hagreed rfl (fun _ _ => rfl) rfl) trivial
  | @hits w f r q hfree hcached =>
    refine iff_of_true ?_ trivial
    cases issued q (s.objects r) with
    | nil => exact same_cache hagreed hcached.symm (fun _ _ => rfl) rfl
    | cons mg rest => exact same_cache hagreed rfl (fun _ _ => rfl) rfl
  | loads hheld => exact iff_of_true (loads_agreed m hs hagreed hheld) trivial
  | @states r mg rest hheld =>
    refine Iff.trans (states_iff hs hagreed hheld rfl rfl rfl) ?_
    constructor
    · intro hall r' mg' rest' hheld'
      cases hheld.symm.trans hheld'
      exact hall
    · exact fun hin => hin r mg rest hheld
  | commits hheld => exact iff_of_true (same_cache hagreed rfl (fun _ _ => rfl) rfl) trivial
  | @finishes r hheld =>
    refine Iff.trans (finishes_iff hs hagreed hheld rfl rfl rfl) ?_
    constructor
    · intro hcomplete r' hheld'
      cases hheld.symm.trans hheld'
      exact hcomplete
    · exact fun hin => hin r hheld
  | deletes hsame => exact iff_of_true (same_cache hagreed rfl (fun _ _ => rfl) rfl) trivial
  | introspects => exact iff_of_true (same_cache hagreed rfl (fun _ _ => rfl) rfl) trivial
  | @stores k rows hrows =>
    refine Iff.trans (stores_iff m hs hrows rfl (allocate_new s (loaded m rows)) rfl) ?_
    constructor
    · intro hcurrent rows' hrows'
      cases hrows.symm.trans hrows'
      exact hcurrent
    · exact fun hin => hin rows hrows

/-- The cached schema agrees with the database throughout a run and no column is
dropped from the cache, exactly if no delete stores what is out of date and no
statement changes a column that the cache lists otherwise. -/
theorem always_agreed_iff (columns : {columns // Known columns}) (es : List (Event F ι κ)) :
    Runs.Always (step m) Agreed (start columns) es ∧
      Runs.Along (step m) (Keeping m) (start columns) es ↔
      Runs.Along (step m) InStep (start columns) es :=
  Runs.always_and_along_iff (I := Inv) (E := fun _ => True)
    (fun _ _ _ hs _ _ hin hst => step_inv m hs hin hst)
    (fun _ _ _ hs _ hagreed hst => step_iff m hs hagreed hst) (fun _ _ => trivial)
    (start_inv columns) (by simp [Agreed, start])

end Step

theorem known_single {c : Str} (ty : PgType) (hident : pgIdent c = c)
    (htag : ¬"t_".toList <+: c) : Known (Dict.single c ty) := by
  constructor
  · intro c' ty' hget
    cases Dict.eq_of_get?_single hget
    exact hident
  · intro c' ty' hc' hget
    cases Dict.eq_of_get?_single hget
    exact absurd hc' htag

def oneField (f : Str) (v : Value ℤ) (h : safeIdent f = f) : SchemaRequest ℤ where
  tagNames := []
  samples := Dict.single f v
  sanitary := ⟨by simp, by simpa [Dict.keys, Dict.single]⟩

/-- A table with one integer field. -/
def oneColumn : MeasurementState ℤ Unit Unit :=
  start ⟨Dict.single "f_a".toList .bigint, known_single .bigint (by decide) (by decide)⟩

/-- A write between the read of a delete and its store. -/
def between (q : SchemaRequest ℤ) : List (Event ℤ Unit Unit) :=
  [.delete (), .introspect (), .enter () q, .acquire (), .load, .statement, .commit, .finish]

def promotion : SchemaRequest ℤ := oneField "a".toList (.str "x".toList) (by decide)

def newField : SchemaRequest ℤ := oneField "b".toList (.int 1) (by decide)

theorem staleDelete_disagrees : (¬∀ es : List (Event ℤ Unit Unit),
      Runs.Always (step "cpu".toList) Agreed oneColumn es) ∧
    ¬∀ es : List (Event ℤ Unit Unit),
      Runs.Along (step "cpu".toList) (Keeping "cpu".toList) oneColumn es := by
  have hpromoted : (Runs.exec (step "cpu".toList) oneColumn (between promotion ++ [.store ()])).any
      (fun s => s.cache.any fun r =>
        decide ((s.objects r).fieldCols.get? "a".toList = some ("f_a".toList, .bigint)) &&
        decide (s.columns.get? "f_a".toList = some .text)) = true := by
    decide +kernel
  have hadded : (Runs.exec (step "cpu".toList) oneColumn (between newField)).any (fun s =>
      s.cache.any (fun r =>
        decide ((s.objects r).fieldCols.get? "b".toList = some ("f_b".toList, .bigint))) &&
      (step "cpu".toList s (.store ())).any fun t => t.cache.any fun r =>
        decide ((t.objects r).tagCols.entries = []) &&
        decide ((t.objects r).fieldCols.entries = [("a".toList, ("f_a".toList, .bigint))])) =
      true := by
    decide +kernel
  constructor
  · intro h
    obtain ⟨s, hs, htest⟩ := (Option.any_eq_true _ _).mp hpromoted
    obtain ⟨r, hr, htest⟩ := (Option.any_eq_true _ _).mp htest
    simp only [Bool.and_eq_true, decide_eq_true_eq] at htest
    have hget := (h _).last hs r hr _ _ (.field htest.1)
    exact absurd (hget.symm.trans htest.2) (by decide)
  · intro h
    obtain ⟨s, hs, htest⟩ := (Option.any_eq_true _ _).mp hadded
    obtain ⟨htest, hstored⟩ := Bool.and_eq_true_iff.mp htest
    obtain ⟨r, hr, hlisted⟩ := (Option.any_eq_true _ _).mp htest
    obtain ⟨t, ht, hstored⟩ := (Option.any_eq_true _ _).mp hstored
    obtain ⟨r', hr', hobject⟩ := (Option.any_eq_true _ _).mp hstored
    simp only [Bool.and_eq_true, decide_eq_true_eq] at hlisted hobject
    obtain ⟨r'', hr'', hkept⟩ := (h (between newField ++ [.store ()])).last hs ht t ht r hr
    cases hr'.symm.trans hr''
    obtain ⟨ty, hlists⟩ := hkept _ _ (.field hlisted)
    cases hlists with
    | tag htag =>
      have hmem := (Dict.get?_eq_some_iff _ _ _).mp htag
      rw [hobject.1] at hmem
      contradiction
    | field hfield =>
      have hmem := (Dict.get?_eq_some_iff _ _ _).mp hfield
      rw [hobject.2, List.mem_singleton] at hmem
      have hcol : "f_b".toList = "f_a".toList := congrArg (fun e => e.2.1) hmem
      exact absurd hcol (by decide)

end DeleteRace

end TimescaleLp
