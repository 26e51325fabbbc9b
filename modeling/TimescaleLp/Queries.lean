import TimescaleLp.Schema
import Mathlib.Data.List.Dedup
import Mathlib.Data.List.TakeWhile

/-!
Federated queries. A query lists for each table the relations of its tiers,
registers a view for each table on the engine's connection and then runs its
SQL. The connection is shared: the views are one catalog for all queries, and a
view is expanded when a statement reads it. What DuckDB decides is a parameter.
-/
namespace TimescaleLp

/-- A relation that a view reads. -/
inductive Ref
  | hot (table : Str)
  | parquet (keys : List Str)
deriving DecidableEq

/-- The tiers that go through the engine. -/
inductive Federated
  | cold
  | all
deriving DecidableEq

def Federated.tier : Federated → Tiering.Tier
  | .cold => .cold
  | .all => .all

/-- What decides the views of a query: its tier and its pruning window. -/
structure Request where
  tier : Federated
  start : Option Time
  stop : Option Time

/-- `binds` tells whether `CREATE OR REPLACE VIEW` over the relations succeeds;
`shows` is all that a statement can see of a view over them: its columns with their
types and its rows. -/
structure Duck (F V : Type) where
  binds : Service F → List Ref → Bool
  shows : Service F → List Ref → List (Row (Value F)) → V

/-- A statement sees the stores and the views it names; a name without a view
that can be read is `none`. It returns `none` when it fails. -/
abbrev Sql (F V α : Type) := Service F → (Str → Option V) → Option α

namespace Queries

open ColdStore

variable {F V α : Type}

/-- `tier == "all"` -/
def includeHot : Federated → Bool
  | .cold => false
  | .all => true

/-- The tables of a query, each once and in order: the hypertables if hot is
included, and the measurements of the manifest. -/
def tables (s : Service F) (tier : Federated) : List Str :=
  (((if includeHot tier then s.catalog.keys else []) ++ measurements s.cold).dedup).insertionSort
    (· ≤ ·)

/-- The relations of one table: the hypertable, and the objects that pruning
keeps, if any. -/
def refs (s : Service F) (q : Request) (table : Str) : List Ref :=
  (if includeHot q.tier then [.hot table] else []) ++
    match selectOverlapping (objects s.cold table none) q.start q.stop with
    | [] => []
    | o :: objs => [.parquet ((o :: objs).map (·.objectKey))]

theorem tables_nodup (s : Service F) (tier : Federated) : (tables s tier).Nodup :=
  (List.perm_insertionSort _ _).nodup_iff.mpr (List.nodup_dedup _)

def viewSpecs (s : Service F) (q : Request) : Dict Str (List Ref) where
  entries := (tables s q.tier).map fun table => (table, refs s q table)
  nodup := by simpa [List.map_map, Function.comp_def] using tables_nodup s q.tier

variable (D : Duck F V) (s : Service F)

/-- Register the views one after another, up to the first that is refused. -/
def registerViews : List (Str × List Ref) → Dict Str (List Ref) → Dict Str (List Ref) × Bool
  | [], views => (views, true)
  | (table, refs) :: specs, views =>
    if D.binds s refs then registerViews specs (views.set table refs) else (views, false)

/-- The rows of a relation; a missing table or file is an error. -/
def readRef : Ref → Option (List (Row (Value F)))
  | .hot table => if s.catalog.contains table then some (Table.rows (s.hot table)) else none
  | .parquet keys => Engine.readParquet s.cold keys

/-- `UNION ALL BY NAME` -/
def union : List Ref → Option (List (Row (Value F)))
  | [] => some []
  | ref :: refs => (readRef s ref).bind fun rows => (union refs).map (rows ++ ·)

/-- What a view over the relations reads as. -/
def expand (refs : List Ref) : Option V := (union s refs).map (D.shows s refs)

def lookup (views : Dict Str (List Ref)) (table : Str) : Option V :=
  (views.get? table).bind (expand D s)

/-- `_run_query` for the federated tiers. A query whose registration fails does
not get to its SQL. -/
def runQuery (views : Dict Str (List Ref)) (q : Request) (sql : Sql F V α) :
    Dict Str (List Ref) × Option α :=
  let (views', ok) := registerViews D s (viewSpecs s q).entries views
  (views', if ok then sql s (lookup D s views') else none)

/-- The registration of a query succeeds. -/
def Registers (q : Request) : Prop := ∀ e ∈ (viewSpecs s q).entries, D.binds s e.2 = true

section Views

variable {D s}

/-- The specifications before the first that is refused. -/
def landed (D : Duck F V) (s : Service F) (specs : List (Str × List Ref)) : List (Str × List Ref) :=
  specs.takeWhile fun e => D.binds s e.2

def overlay (specs : List (Str × List Ref)) (views : Dict Str (List Ref)) : Dict Str (List Ref) :=
  specs.foldl (fun views e => views.set e.1 e.2) views

theorem registerViews_eq (specs : List (Str × List Ref)) (views : Dict Str (List Ref)) :
    registerViews D s specs views =
      (overlay (landed D s specs) views, specs.all fun e => D.binds s e.2) := by
  induction specs generalizing views with
  | nil => rfl
  | cons e specs ih =>
    obtain ⟨table, refs⟩ := e
    rw [registerViews]
    split
    · rename_i hbinds
      simp [ih, landed, overlay, hbinds]
    · rename_i hbinds
      simp [landed, overlay, hbinds]

theorem landed_eq_self {specs : List (Str × List Ref)} (h : ∀ e ∈ specs, D.binds s e.2 = true) :
    landed D s specs = specs :=
  List.takeWhile_eq_self_iff.mpr h

theorem get?_overlay_of_notMem {specs : List (Str × List Ref)} {views : Dict Str (List Ref)}
    {table : Str} (h : table ∉ specs.map Prod.fst) :
    (overlay specs views).get? table = views.get? table := by
  induction specs generalizing views with
  | nil => rfl
  | cons e specs ih =>
    rw [List.map_cons, List.mem_cons, not_or] at h
    exact (ih h.2).trans (Dict.get?_set_of_ne _ _ h.1)

theorem landed_subset (specs : List (Str × List Ref)) : landed D s specs ⊆ specs :=
  fun _ he => (List.takeWhile_prefix _).subset he

theorem get?_registerViews_of_notMem {specs : List (Str × List Ref)} {views : Dict Str (List Ref)}
    {table : Str} (h : table ∉ specs.map Prod.fst) :
    (registerViews D s specs views).1.get? table = views.get? table := by
  rw [registerViews_eq]
  exact get?_overlay_of_notMem fun hmem => h (List.map_subset _ (landed_subset specs) hmem)

theorem get?_overlay_of_mem {specs : List (Str × List Ref)} {views : Dict Str (List Ref)}
    (hnodup : (specs.map Prod.fst).Nodup) {table : Str} {refs : List Ref}
    (h : (table, refs) ∈ specs) : (overlay specs views).get? table = some refs := by
  induction specs generalizing views with
  | nil => contradiction
  | cons e specs ih =>
    obtain ⟨hnotMem, hrest⟩ := List.nodup_cons.mp hnodup
    rcases List.mem_cons.mp h with rfl | h
    · exact (get?_overlay_of_notMem hnotMem).trans (Dict.get?_set_self _ _ _)
    · exact ih hrest h

/-- The statement of a query sees its own views over those it found. -/
theorem runQuery_of_registers {q : Request} (h : Registers D s q) (views : Dict Str (List Ref))
    (sql : Sql F V α) : runQuery D s views q sql =
      (overlay (viewSpecs s q).entries views,
        sql s (lookup D s (overlay (viewSpecs s q).entries views))) := by
  have hall : ((viewSpecs s q).entries.all fun e => D.binds s e.2) = true :=
    List.all_eq_true.mpr h
  simp only [runQuery, registerViews_eq, landed_eq_self h, hall, if_true]

theorem runQuery_of_not_registers {q : Request} (h : ¬Registers D s q)
    (views : Dict Str (List Ref)) (sql : Sql F V α) : (runQuery D s views q sql).2 = none := by
  have hall : ((viewSpecs s q).entries.all fun e => D.binds s e.2) = false := by
    rw [← Bool.not_eq_true, List.all_eq_true]
    exact h
  simp only [runQuery, registerViews_eq, hall, Bool.false_eq_true, if_false]

end Views

section Rows

variable {s}

theorem mem_union_iff {relations : List Ref} {rows : List (Row (Value F))}
    (h : union s relations = some rows) (r : Row (Value F)) :
    r ∈ rows ↔ ∃ ref ∈ relations, ∃ rs, readRef s ref = some rs ∧ r ∈ rs := by
  induction relations generalizing rows with
  | nil =>
    cases h
    simp
  | cons ref relations ih =>
    obtain ⟨rs, hrs, hrest⟩ := Option.bind_eq_some_iff.mp h
    obtain ⟨rest, hunion, rfl⟩ := Option.map_eq_some_iff.mp hrest
    simp [ih hunion, hrs]

theorem exists_readRef {relations : List Ref} {rows : List (Row (Value F))}
    (h : union s relations = some rows) : ∀ ref ∈ relations, ∃ rs, readRef s ref = some rs := by
  induction relations generalizing rows with
  | nil => simp
  | cons ref relations ih =>
    obtain ⟨rs, hrs, hrest⟩ := Option.bind_eq_some_iff.mp h
    obtain ⟨rest, hunion, rfl⟩ := Option.map_eq_some_iff.mp hrest
    intro ref' href'
    rcases List.mem_cons.mp href' with rfl | href'
    · exact ⟨rs, hrs⟩
    · exact ih hunion ref' href'

theorem mem_readRef_hot {table : Str} {rs : List (Row (Value F))}
    (h : readRef s (.hot table) = some rs) : rs = Table.rows (s.hot table) := by
  rw [readRef] at h
  split at h
  · exact (Option.some.inj h).symm
  · contradiction

theorem mem_refs_iff (q : Request) (table : Str) (ref : Ref) : ref ∈ refs s q table ↔
    includeHot q.tier = true ∧ ref = .hot table ∨
      selectOverlapping (objects s.cold table none) q.start q.stop ≠ [] ∧
        ref = .parquet ((selectOverlapping (objects s.cold table none) q.start q.stop).map
          (·.objectKey)) := by
  rw [refs, List.mem_append]
  refine or_congr ?_ ?_
  · cases includeHot q.tier <;> simp
  · cases selectOverlapping (objects s.cold table none) q.start q.stop <;> simp

/-- The rows under a view are those of the table's tiers. -/
theorem mem_viewRows_iff (q : Request) (table : Str) {rows : List (Row (Value F))}
    (h : union s (refs s q table) = some rows) (r : Row (Value F)) :
    r ∈ rows ↔ r ∈ Tiering.viewRows s.toWorld q.tier.tier table q.start q.stop := by
  have hhot : q.tier.tier ≠ .cold ↔ includeHot q.tier = true := by
    cases q.tier <;> simp [Federated.tier, includeHot]
  have hcold : q.tier.tier ≠ .hot := by cases q.tier <;> simp [Federated.tier]
  rw [mem_union_iff h]
  show _ ↔ (q.tier.tier ≠ .cold ∧ _) ∨ _
  rw [hhot]
  generalize hobjs : selectOverlapping (objects s.cold table none) q.start q.stop = objs
  constructor
  · intro ⟨ref, href, rs, hrs, hr⟩
    rcases (mem_refs_iff q table ref).mp href with ⟨hall, rfl⟩ | ⟨-, rfl⟩
    · exact Or.inl ⟨hall, mem_readRef_hot hrs ▸ hr⟩
    · obtain ⟨k, hk, rs', hrs', hmem⟩ := Engine.mem_readParquet _ _ rs hrs r hr
      obtain ⟨o, ho, rfl⟩ := List.mem_map.mp hk
      exact Or.inr ⟨hcold, o, hobjs ▸ ho, rs', hrs', hmem⟩
  · intro hr
    rcases hr with ⟨hall, hr⟩ | ⟨-, o, ho, rs', hrs', hmem⟩
    · have href : Ref.hot table ∈ refs s q table := (mem_refs_iff q table _).mpr (Or.inl ⟨hall, rfl⟩)
      obtain ⟨rs, hrs⟩ := exists_readRef h _ href
      exact ⟨_, href, rs, hrs, (mem_readRef_hot hrs).symm ▸ hr⟩
    · have href : Ref.parquet (objs.map (·.objectKey)) ∈ refs s q table :=
        (mem_refs_iff q table _).mpr (Or.inr (hobjs.symm ▸ ⟨List.ne_nil_of_mem ho, rfl⟩))
      obtain ⟨rs, hrs⟩ := exists_readRef h _ href
      obtain ⟨rs'', hrs'', hsub⟩ := Engine.readParquet_exists _ _ rs hrs _ (List.mem_map_of_mem ho)
      cases hrs'.symm.trans hrs''
      exact ⟨_, href, rs, hrs, hsub r hmem⟩

end Rows

end Queries

end TimescaleLp
