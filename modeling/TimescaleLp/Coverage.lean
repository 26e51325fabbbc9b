import TimescaleLp.Intervals
import TimescaleLp.Tiering

/-!
What the interval arithmetic of eviction computes. The fold of
`merge_intervals` rewrites its last output only, so from there on it is a
recursion over the sorted list with that output as its state; the sweep of
`is_covered` stops at an instant that no interval holds.
-/
namespace TimescaleLp.Coverage

open Tiering Intervals

universe u

variable {α : Type u} [LinearOrder α]

instance : Std.Total (intervalOrder : α × α → α × α → Prop) := ⟨fun a b => by
  unfold intervalOrder
  grind⟩

instance : IsTrans (α × α) intervalOrder := ⟨fun a b d hab hbd => by
  unfold intervalOrder at *
  grind⟩

theorem start_le_of_intervalOrder {a b : α × α} (h : intervalOrder a b) : a.1 ≤ b.1 := by
  rcases h with h | h
  · exact h.le
  · exact h.1.le

/-- One step of the fold: the last output takes the interval in, or stays. -/
theorem mergeInterval_append (out : List (α × α)) (part iv : α × α) :
    mergeInterval (out ++ [part]) iv =
      if iv.1 ≤ part.2 then out ++ [(part.1, max part.2 iv.2)] else out ++ [part] ++ [iv] := by
  simp [mergeInterval]

theorem foldl_mergeInterval (out : List (α × α)) (part : α × α) (rest : List (α × α)) :
    rest.foldl mergeInterval (out ++ [part]) = out ++ joinFrom part rest := by
  induction rest generalizing out part with
  | nil => rfl
  | cons iv rest ih =>
    rw [List.foldl_cons, mergeInterval_append, joinFrom]
    split
    · exact ih out _
    · rw [ih (out ++ [part]) iv, List.append_assoc, List.singleton_append]

/-- The merged list comes out of a list sorted by start with the same intervals. -/
theorem mergeIntervals_cases (intervals : List (α × α)) :
    (intervals = [] ∧ mergeIntervals intervals = []) ∨
      ∃ part rest, (part :: rest).Perm intervals ∧
        ((part :: rest).Pairwise fun a b => a.1 ≤ b.1) ∧
        mergeIntervals intervals = joinFrom part rest := by
  have hperm := List.perm_insertionSort intervalOrder intervals
  have hsorted : (intervals.insertionSort intervalOrder).Pairwise fun a b => a.1 ≤ b.1 :=
    (List.pairwise_insertionSort intervalOrder intervals).imp start_le_of_intervalOrder
  rw [mergeIntervals]
  cases hlist : intervals.insertionSort intervalOrder with
  | nil => exact Or.inl ⟨List.nil_perm.mp (hlist ▸ hperm), rfl⟩
  | cons part rest =>
    rw [hlist] at hperm hsorted
    exact Or.inr ⟨part, rest, hperm, hsorted, foldl_mergeInterval [] part rest⟩

theorem pairwise_mergeIntervals (intervals : List (α × α)) :
    (mergeIntervals intervals).Pairwise fun a b => a.1 ≤ b.1 ∧ a.2 < b.1 := by
  rcases mergeIntervals_cases intervals with ⟨-, hmerge⟩ | ⟨part, rest, -, hsorted, hmerge⟩
  · exact hmerge ▸ List.Pairwise.nil
  · exact hmerge ▸ pairwise_joinFrom hsorted

theorem separated_mergeIntervals (intervals : List (α × α)) :
    Separated (mergeIntervals intervals) :=
  (pairwise_mergeIntervals intervals).imp And.right

theorem sorted_mergeIntervals (intervals : List (α × α)) :
    (mergeIntervals intervals).Pairwise fun a b => a.1 ≤ b.1 :=
  (pairwise_mergeIntervals intervals).imp And.left

theorem covered_mergeIntervals {intervals : List (α × α)} (h : ∀ iv ∈ intervals, iv.1 ≤ iv.2) :
    covered (mergeIntervals intervals) = covered intervals := by
  rcases mergeIntervals_cases intervals with ⟨hnil, hmerge⟩ | ⟨part, rest, hperm, hsorted, hmerge⟩
  · rw [hmerge, hnil]
  · obtain ⟨hpart, hrest⟩ := List.forall_mem_cons.mp fun iv hiv => h iv (hperm.mem_iff.mp hiv)
    rw [hmerge, covered_joinFrom hpart hsorted hrest]
    exact covered_congr fun iv => hperm.mem_iff

theorem proper_mergeIntervals {intervals : List (α × α)} (h : Proper intervals) :
    Proper (mergeIntervals intervals) := by
  rcases mergeIntervals_cases intervals with ⟨-, hmerge⟩ | ⟨part, rest, hperm, -, hmerge⟩
  · exact hmerge ▸ fun iv hiv => absurd hiv List.not_mem_nil
  · exact hmerge ▸ proper_joinFrom fun iv hiv => h iv (hperm.mem_iff.mp hiv)

/-- The union decides the result. -/
theorem mergeIntervals_eq_of_covered_eq {l l' : List (α × α)} (h : Proper l) (h' : Proper l')
    (heq : covered l = covered l') : mergeIntervals l = mergeIntervals l' := by
  refine eq_of_covered_eq (separated_mergeIntervals l) (separated_mergeIntervals l')
    (proper_mergeIntervals h) (proper_mergeIntervals h') ?_
  rw [covered_mergeIntervals fun iv hiv => (h iv hiv).le,
    covered_mergeIntervals fun iv hiv => (h' iv hiv).le, heq]

/-- The result lists the connected parts of the union in order, whichever
intervals made the union. -/
theorem mergeIntervals_canonical (intervals : List (α × α)) (h : ∀ iv ∈ intervals, iv.1 < iv.2) :
    (mergeIntervals intervals).Pairwise (fun a b => a.1 ≤ b.1) ∧
      (mergeIntervals intervals).IsChain (fun a b => a.2 < b.1) ∧
      covered (mergeIntervals intervals) = covered intervals ∧
      (∀ others, (∀ iv ∈ others, iv.1 < iv.2) → covered others = covered intervals →
        mergeIntervals others = mergeIntervals intervals) ∧
      (∀ others, others.Perm intervals → mergeIntervals others = mergeIntervals intervals) ∧
      ∀ before start mid stop after, intervals = before ++ (start, stop) :: after →
        start < mid → mid < stop →
        mergeIntervals (before ++ (start, mid) :: (mid, stop) :: after) =
          mergeIntervals intervals := by
  refine ⟨sorted_mergeIntervals intervals, (separated_mergeIntervals intervals).isChain,
    covered_mergeIntervals fun iv hiv => (h iv hiv).le,
    fun others hothers heq => mergeIntervals_eq_of_covered_eq hothers h heq, ?_, ?_⟩
  · intro others hperm
    refine mergeIntervals_eq_of_covered_eq (fun iv hiv => h iv (hperm.mem_iff.mp hiv)) h ?_
    exact covered_congr fun iv => hperm.mem_iff
  · intro before start mid stop after hcut hstart hstop
    subst hcut
    refine mergeIntervals_eq_of_covered_eq ?_ h (covered_split hstart.le hstop.le before after)
    intro iv hiv
    simp only [List.mem_append, List.mem_cons] at hiv h
    rcases hiv with hiv | rfl | rfl | hiv
    · exact h iv (Or.inl hiv)
    · exact hstart
    · exact hstop
    · exact h iv (Or.inr (Or.inr hiv))

theorem mergeIntervals_canonical_touching :
    mergeIntervals [(2, 4), (1, 2)] = mergeIntervals [((1 : ℤ), 4)] :=
  (mergeIntervals_canonical [(1, 4)] (by decide)).2.2.2.1 [(2, 4), (1, 2)] (by decide) (by
    ext t
    simp only [mem_covered_cons, covered_nil, Set.mem_Ico, Set.mem_empty_iff_false, or_false]
    omega)

/-- The sweep over intervals sorted by start, while the cursor has not reached
the end: the first instant it finds uncovered is the cursor itself. -/
theorem coveredFrom_iff {merged : List (α × α)}
    (hsorted : merged.Pairwise fun a b => a.1 ≤ b.1) {chunkEnd cursor : α}
    (hcursor : cursor < chunkEnd) : coveredFrom chunkEnd cursor merged = true ↔
      ∀ t, cursor ≤ t → t < chunkEnd → t ∈ covered merged := by
  induction merged generalizing cursor with
  | nil =>
    simp only [coveredFrom, decide_eq_true_eq, covered_nil, Set.mem_empty_iff_false, imp_false,
      not_lt]
    exact ⟨fun h t ht => h.trans ht, fun h => h cursor le_rfl⟩
  | cons iv rest ih =>
    obtain ⟨start, stop⟩ := iv
    obtain ⟨hstart, hrest⟩ := List.pairwise_cons.mp hsorted
    rw [coveredFrom]
    by_cases hgap : cursor < start
    · -- nothing that starts later holds the cursor
      have hout : cursor ∉ covered ((start, stop) :: rest) := by
        rintro ⟨iv, hiv, hle, -⟩
        rcases List.mem_cons.mp hiv with rfl | hiv
        · exact absurd hle hgap.not_ge
        · exact absurd ((hstart iv hiv).trans hle) hgap.not_ge
      rw [if_pos hgap]
      exact ⟨fun h => absurd h Bool.false_ne_true,
        fun h => absurd (h cursor le_rfl hcursor) hout⟩
    · have hreach : (if cursor < stop then stop else cursor) = max cursor stop := by
        split
        · next hlt => exact (max_eq_right hlt.le).symm
        · next hle => exact (max_eq_left (not_lt.mp hle)).symm
      simp only [if_neg hgap, hreach]
      have hin : ∀ t, cursor ≤ t → t < max cursor stop → t ∈ Set.Ico start stop := fun t ht hlt =>
        ⟨(not_lt.mp hgap).trans ht, (lt_max_iff.mp hlt).resolve_left ht.not_gt⟩
      by_cases hdone : chunkEnd ≤ max cursor stop
      · simp only [if_pos hdone, true_iff]
        exact fun t ht hlt => (mem_covered_cons _ _ t).mpr (Or.inl (hin t ht (hlt.trans_le hdone)))
      · rw [if_neg hdone, ih hrest (not_le.mp hdone)]
        constructor
        · intro h t ht hlt
          rw [mem_covered_cons]
          rcases lt_or_ge t (max cursor stop) with hbefore | hafter
          · exact Or.inl (hin t ht hbefore)
          · exact Or.inr (h t hafter hlt)
        · intro h t ht hlt
          have hmem := h t ((le_max_left _ _).trans ht) hlt
          rw [mem_covered_cons] at hmem
          exact hmem.resolve_left fun hico =>
            absurd hico.2 ((le_max_right _ _).trans ht).not_gt

/-- The decision of eviction is the one its docstring states. -/
theorem isCovered_iff {intervals : List (α × α)} (h : ∀ iv ∈ intervals, iv.1 ≤ iv.2)
    {chunkStart chunkEnd : α} (hchunk : chunkStart < chunkEnd) :
    isCovered chunkStart chunkEnd intervals = true ↔
      ∀ t, chunkStart ≤ t → t < chunkEnd → ∃ iv ∈ intervals, iv.1 ≤ t ∧ t < iv.2 := by
  rw [isCovered, coveredFrom_iff (sorted_mergeIntervals intervals) hchunk,
    covered_mergeIntervals h]
  exact Iff.rfl

theorem isCovered_iff_gap : isCovered (1 : ℤ) 4 [(2, 4), (1, 2)] = true ↔
    ∀ t, 1 ≤ t → t < 4 → ∃ iv ∈ [((2 : ℤ), (4 : ℤ)), (1, 2)], iv.1 ≤ t ∧ t < iv.2 :=
  isCovered_iff (by decide) (by decide)

end TimescaleLp.Coverage
