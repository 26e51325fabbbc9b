import Mathlib.Data.List.Basic

/-!
Upserts as partial assignments. A change writes some rows; in a row that it
writes it sets some cells, to a value or to NULL, and leaves the others. After a
list of changes a cell has what was set last.
-/
namespace TimescaleLp.Upserts

universe u v w

variable {κ : Type u} {γ : Type v} {ν : Type w}

/-- Rows by key; a cell is NULL or has a value. -/
abbrev Rows (κ : Type u) (γ : Type v) (ν : Type w) := κ → Option (γ → Option ν)

/-- The cells that are set in the rows that are written. -/
abbrev Change (κ : Type u) (γ : Type v) (ν : Type w) := κ → Option (γ → Option (Option ν))

def cell (rows : Rows κ γ ν) (k : κ) (c : γ) : Option ν := (rows k).bind fun cells => cells c

def apply (rows : Rows κ γ ν) (u : Change κ γ ν) : Rows κ γ ν := fun k =>
  match u k with
  | none => rows k
  | some sets => some fun c => (sets c).getD (cell rows k c)

/-- Set the cells there are values for. -/
def carry (cells : γ → Option ν) : γ → Option (Option ν) := fun c => (cells c).map some

/-- What the last change that sets the cell sets it to. -/
def lastSet (us : List (Change κ γ ν)) (k : κ) (c : γ) : Option (Option ν) :=
  us.reverse.findSome? fun u => (u k).bind fun sets => sets c

theorem lastSet_cons (u : Change κ γ ν) (us : List (Change κ γ ν)) (k : κ) (c : γ) :
    lastSet (u :: us) k c = (lastSet us k c).or ((u k).bind fun sets => sets c) := by
  rw [lastSet, List.reverse_cons, List.findSome?_append, lastSet, List.findSome?_singleton]

theorem cell_apply (rows : Rows κ γ ν) (u : Change κ γ ν) (k : κ) (c : γ) :
    cell (apply rows u) k c = ((u k).bind fun sets => sets c).getD (cell rows k c) := by
  cases hu : u k with
  | none => simp [apply, cell, hu]
  | some sets => simp [apply, cell, hu]

/-- A change that is made again changes nothing. -/
theorem apply_apply (rows : Rows κ γ ν) (u : Change κ γ ν) :
    apply (apply rows u) u = apply rows u := by
  funext k
  cases hu : u k with
  | none => simp only [apply, hu]
  | some sets =>
    simp only [apply, hu, Option.some.injEq, cell, Option.bind_some]
    funext c
    cases sets c <;> rfl

theorem cell_foldl_apply (us : List (Change κ γ ν)) (rows : Rows κ γ ν) (k : κ) (c : γ) :
    cell (us.foldl apply rows) k c = (lastSet us k c).getD (cell rows k c) := by
  induction us generalizing rows with
  | nil => rfl
  | cons u us ih =>
    rw [List.foldl_cons, ih, lastSet_cons, cell_apply]
    cases lastSet us k c <;> rfl

/-- No row is deleted. -/
theorem foldl_apply_eq_none_iff (us : List (Change κ γ ν)) (rows : Rows κ γ ν) (k : κ) :
    us.foldl apply rows k = none ↔ rows k = none ∧ ∀ u ∈ us, u k = none := by
  induction us generalizing rows with
  | nil => simp
  | cons u us ih =>
    rw [List.foldl_cons, ih, List.forall_mem_cons, ← and_assoc]
    refine and_congr_left fun _ => ?_
    cases hu : u k <;> simp [apply, hu]

/-- Rows are given by their keys and cells. -/
theorem rows_ext {rows rows' : Rows κ γ ν} (hkeys : ∀ k, rows k = none ↔ rows' k = none)
    (hcells : ∀ k c, cell rows k c = cell rows' k c) : rows = rows' := by
  funext k
  cases hk : rows k with
  | none => exact ((hkeys k).mp hk).symm
  | some cells =>
    obtain ⟨cells', hk'⟩ := Option.ne_none_iff_exists'.mp (mt (hkeys k).mpr (by simp [hk]))
    rw [hk']
    refine congrArg some (funext fun c => ?_)
    simpa [cell, hk, hk'] using hcells k c

/-- Two lists of changes that write the same rows. -/
theorem foldl_apply_eq_iff {us vs : List (Change κ γ ν)} (rows : Rows κ γ ν)
    (hkeys : ∀ k, (∀ u ∈ us, u k = none) ↔ ∀ v ∈ vs, v k = none) :
    us.foldl apply rows = vs.foldl apply rows ↔
      ∀ k c, (lastSet us k c).getD (cell rows k c) = (lastSet vs k c).getD (cell rows k c) := by
  simp only [← cell_foldl_apply]
  constructor
  · intro h k c
    rw [h]
  · refine rows_ext fun k => ?_
    rw [foldl_apply_eq_none_iff, foldl_apply_eq_none_iff, hkeys]

end TimescaleLp.Upserts
