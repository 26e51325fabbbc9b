import TimescaleLp.Queries

/-!
Views that outlive the query that registered them. A query replaces the views of
the tables it lists and leaves all others on the connection, so a statement that
reads a table outside its query's list finds the view of an earlier query, with
that query's tier and window, where a fresh connection has no view.
-/
namespace TimescaleLp.StaleViews

open Queries

variable {F V : Type}

/-- The views after queries that ran one after another on a fresh connection, each on
the stores as they were then. What the engine remembers of the hypertables' columns
from one query to the next is left out. -/
def viewsAfter (D : Duck F V) (earlier : List (Service F × Request)) : Dict Str (List Ref) :=
  earlier.foldl (fun views e => (registerViews D e.1 (viewSpecs e.1 e.2).entries views).1)
    Dict.empty

/-- What earlier queries registered cannot be read under a table that the query
does not list itself. -/
def NothingStale (D : Duck F V) (earlier : List (Service F × Request)) (s : Service F)
    (q : Request) : Prop :=
  ∀ table, (viewSpecs s q).get? table = none → lookup D s (viewsAfter D earlier) table = none

variable {D : Duck F V} {s : Service F}

theorem lookup_overlay_of_none {specs : Dict Str (List Ref)} {table : Str}
    (h : specs.get? table = none) (views : Dict Str (List Ref)) :
    lookup D s (overlay specs.entries views) table = lookup D s views table := by
  unfold lookup
  rw [get?_overlay_of_notMem ((Dict.get?_eq_none_iff _ _).mp h)]

theorem lookup_overlay_of_some {specs : Dict Str (List Ref)} {table : Str} {refs : List Ref}
    (h : specs.get? table = some refs) (views : Dict Str (List Ref)) :
    lookup D s (overlay specs.entries views) table = expand D s refs := by
  unfold lookup
  rw [get?_overlay_of_mem specs.nodup ((Dict.get?_eq_some_iff _ _ _).mp h), Option.bind_some]

/-- The views a query's statement sees are those of a fresh connection exactly if
nothing stale is left. -/
theorem lookup_eq_fresh_iff (earlier : List (Service F × Request)) (q : Request) :
    lookup D s (overlay (viewSpecs s q).entries (viewsAfter D earlier)) =
        lookup D s (overlay (viewSpecs s q).entries Dict.empty) ↔
      NothingStale D earlier s q := by
  constructor
  · intro heq table hnone
    have htable := congrFun heq table
    rw [lookup_overlay_of_none hnone, lookup_overlay_of_none hnone] at htable
    exact htable
  · intro h
    funext table
    cases hspec : (viewSpecs s q).get? table with
    | none =>
      rw [lookup_overlay_of_none hspec, lookup_overlay_of_none hspec, h table hspec]
      rfl
    | some refs => rw [lookup_overlay_of_some hspec, lookup_overlay_of_some hspec]

/-- A query answers like on a fresh connection, whatever its statement, exactly if
its registration fails or no view of an earlier query can be read under a table
that the query does not list. -/
theorem outcome_eq_fresh_iff (D : Duck F V) (earlier : List (Service F × Request)) (s : Service F)
    (q : Request) :
    (∀ (α : Type) (sql : Sql F V α), (runQuery D s (viewsAfter D earlier) q sql).2 =
        (runQuery D s Dict.empty q sql).2) ↔
      (Registers D s q → NothingStale D earlier s q) := by
  constructor
  · intro h hregisters
    apply (lookup_eq_fresh_iff earlier q).mp
    funext table
    have houtcome := h V fun _ views => views table
    rw [runQuery_of_registers hregisters, runQuery_of_registers hregisters] at houtcome
    exact houtcome
  · intro h α sql
    by_cases hregisters : Registers D s q
    · rw [runQuery_of_registers hregisters, runQuery_of_registers hregisters,
        (lookup_eq_fresh_iff earlier q).mpr (h hregisters)]
    · rw [runQuery_of_not_registers hregisters, runQuery_of_not_registers hregisters]

/-- Nothing is stale when the tables of all earlier queries are listed again. -/
theorem nothingStale_of_listed {earlier : List (Service F × Request)} {q : Request}
    (h : ∀ e ∈ earlier, ∀ table ∈ (viewSpecs e.1 e.2).keys, table ∈ (viewSpecs s q).keys) :
    NothingStale D earlier s q := by
  intro table hnone
  have hnotMem := (Dict.get?_eq_none_iff _ _).mp hnone
  have hviews : ∀ views : Dict Str (List Ref), views.get? table = none →
      (earlier.foldl (fun views e =>
        (registerViews D e.1 (viewSpecs e.1 e.2).entries views).1) views).get? table = none := by
    intro views hviews
    induction earlier generalizing views with
    | nil => exact hviews
    | cons e earlier ih =>
      refine ih (fun e' he' => h e' (List.mem_cons_of_mem e he')) _ ?_
      rw [get?_registerViews_of_notMem fun hmem => hnotMem (h e List.mem_cons_self table hmem)]
      exact hviews
  unfold lookup viewsAfter
  rw [hviews Dict.empty rfl, Option.bind_none]

/-- Views of readable relations, and the newest row of each key without its `seq`. -/
def duck : Duck ℤ (List (Key × Cells (Value ℤ))) where
  binds s refs := !refs.isEmpty && (union s refs).isSome
  shows _ _ rows := (Engine.dedupRows rows).map fun r => (r.key, r.cells)

/-- A hypertable with one row and no cold object. -/
def hotOnly : Service ℤ where
  nextSeq := 2
  hot := Function.update (fun _ => Dict.empty) "cpu".toList
    (Dict.single ⟨0, 0⟩ ⟨1, fun _ => none⟩)
  cold := ColdStore.empty
  catalog := Dict.single "cpu".toList Dict.empty
  cache := Dict.empty

def countRows (table : Str) : Sql ℤ (List (Key × Cells (Value ℤ))) ℕ :=
  fun _ views => (views table).map List.length

/-- After a query of all tiers, a cold query reads a row of the hot table. -/
theorem coldQuery_readsHot : ¬∀ (earlier : List (Service ℤ × Request)) (s : Service ℤ) (q : Request)
    (sql : Sql ℤ _ ℕ), (runQuery duck s (viewsAfter duck earlier) q sql).2 =
      (runQuery duck s Dict.empty q sql).2 := by
  intro h
  have heq := h [(hotOnly, ⟨.all, none, none⟩)] hotOnly ⟨.cold, none, none⟩ (countRows "cpu".toList)
  have hstale : (runQuery duck hotOnly (viewsAfter duck [(hotOnly, ⟨.all, none, none⟩)])
      ⟨.cold, none, none⟩ (countRows "cpu".toList)).2 = some 1 := by decide +kernel
  have hfresh : (runQuery duck hotOnly Dict.empty ⟨.cold, none, none⟩
      (countRows "cpu".toList)).2 = none := by decide +kernel
  rw [hstale, hfresh] at heq
  contradiction

end TimescaleLp.StaleViews
