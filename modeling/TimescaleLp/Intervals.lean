import Mathlib.Order.Interval.Set.LinearOrder
import Mathlib.Data.List.Pairwise

/-!
Lists of half-open intervals over a linear order. A separated list lists the
connected parts of its union in order: touching intervals are one part, so the
list is determined by the union. No instant between two others is needed for
this, since each end is outside the union itself.
-/
namespace TimescaleLp.Intervals

universe u

variable {α : Type u} [LinearOrder α]

/-- The instants of the intervals of a list. -/
def covered (l : List (α × α)) : Set α := {t | ∃ iv ∈ l, t ∈ Set.Ico iv.1 iv.2}

/-- Each interval ends before the next ones start. -/
def Separated (l : List (α × α)) : Prop := l.Pairwise fun a b => a.2 < b.1

/-- No interval is empty. -/
def Proper (l : List (α × α)) : Prop := ∀ iv ∈ l, iv.1 < iv.2

/-- The intervals of a list sorted by start, after an interval that starts no
later: what touches it is added to it, and the first that does not starts a new
part. -/
def joinFrom (part : α × α) : List (α × α) → List (α × α)
  | [] => [part]
  | iv :: rest =>
    if iv.1 ≤ part.2 then joinFrom (part.1, max part.2 iv.2) rest
    else part :: joinFrom iv rest

@[simp] theorem mem_covered_cons (iv : α × α) (l : List (α × α)) (t : α) :
    t ∈ covered (iv :: l) ↔ t ∈ Set.Ico iv.1 iv.2 ∨ t ∈ covered l := by
  simp [covered]

@[simp] theorem covered_nil : covered ([] : List (α × α)) = ∅ := by
  simp [covered]

theorem covered_congr {l l' : List (α × α)} (h : ∀ iv, iv ∈ l ↔ iv ∈ l') :
    covered l = covered l' := by
  ext t
  simp only [covered, h]

theorem covered_append (l l' : List (α × α)) : covered (l ++ l') = covered l ∪ covered l' := by
  ext t
  simp [covered, or_and_right, exists_or]

/-- Cutting an interval in two changes no instant. -/
theorem covered_split {s m e : α} (hs : s ≤ m) (he : m ≤ e) (l l' : List (α × α)) :
    covered (l ++ (s, m) :: (m, e) :: l') = covered (l ++ (s, e) :: l') := by
  have hcut := Set.Ico_union_Ico_eq_Ico hs he
  ext t
  have ht : t ∈ Set.Ico s e ↔ t ∈ Set.Ico s m ∨ t ∈ Set.Ico m e := by
    rw [← hcut]
    exact Iff.rfl
  simp only [covered_append, Set.mem_union, mem_covered_cons, ht]
  tauto

/-- A part keeps its start when it takes the next interval in. -/
theorem sorted_widen {part next : α × α} {rest : List (α × α)} (stop : α)
    (h : (part :: next :: rest).Pairwise fun a b => a.1 ≤ b.1) :
    ((part.1, stop) :: rest).Pairwise fun a b => a.1 ≤ b.1 := by
  obtain ⟨hpart, hnext⟩ := List.pairwise_cons.mp h
  exact List.pairwise_cons.mpr ⟨fun b hb => hpart b (List.mem_cons_of_mem _ hb), hnext.tail⟩

theorem start_le_of_mem_joinFrom {part iv : α × α} {rest : List (α × α)}
    (hsorted : (part :: rest).Pairwise fun a b => a.1 ≤ b.1) (h : iv ∈ joinFrom part rest) :
    part.1 ≤ iv.1 := by
  induction rest generalizing part with
  | nil =>
    obtain rfl : iv = part := by simpa [joinFrom] using h
    exact le_rfl
  | cons next rest ih =>
    obtain ⟨hpart, hnext⟩ := List.pairwise_cons.mp hsorted
    rw [joinFrom] at h
    split at h
    · have hle : (part.1, max part.2 next.2).1 ≤ iv.1 := ih (sorted_widen _ hsorted) h
      exact hle
    · rcases List.mem_cons.mp h with rfl | h
      · exact le_rfl
      · exact (hpart next List.mem_cons_self).trans (ih hnext h)

/-- The parts are in order of their starts, and none touches the next. -/
theorem pairwise_joinFrom {part : α × α} {rest : List (α × α)}
    (hsorted : (part :: rest).Pairwise fun a b => a.1 ≤ b.1) :
    (joinFrom part rest).Pairwise fun a b => a.1 ≤ b.1 ∧ a.2 < b.1 := by
  induction rest generalizing part with
  | nil => exact List.pairwise_singleton _ _
  | cons next rest ih =>
    obtain ⟨hpart, hnext⟩ := List.pairwise_cons.mp hsorted
    rw [joinFrom]
    split
    · exact ih (sorted_widen _ hsorted)
    · next hgap =>
      refine List.pairwise_cons.mpr ⟨fun b hb => ?_, ih hnext⟩
      have hstart : next.1 ≤ b.1 := start_le_of_mem_joinFrom hnext hb
      exact ⟨(hpart next List.mem_cons_self).trans hstart, (not_le.mp hgap).trans_le hstart⟩

theorem covered_joinFrom {part : α × α} {rest : List (α × α)} (hle : part.1 ≤ part.2)
    (hsorted : (part :: rest).Pairwise fun a b => a.1 ≤ b.1) (hrest : ∀ iv ∈ rest, iv.1 ≤ iv.2) :
    covered (joinFrom part rest) = covered (part :: rest) := by
  induction rest generalizing part with
  | nil => rfl
  | cons next rest ih =>
    obtain ⟨hpart, hnext⟩ := List.pairwise_cons.mp hsorted
    obtain ⟨hnextle, hrestle⟩ := List.forall_mem_cons.mp hrest
    rw [joinFrom]
    split
    · next htouch =>
      have hstart : part.1 ≤ next.1 := hpart next List.mem_cons_self
      have hunion : Set.Ico part.1 part.2 ∪ Set.Ico next.1 next.2 =
          Set.Ico part.1 (max part.2 next.2) := by
        rw [Set.Ico_union_Ico' htouch (hstart.trans hnextle), min_eq_left hstart]
      have hwide : part.1 ≤ max part.2 next.2 := hle.trans (le_max_left _ _)
      rw [ih hwide (sorted_widen _ hsorted) hrestle]
      ext t
      have ht := Set.ext_iff.mp hunion t
      simp only [mem_covered_cons, ← or_assoc] at ht ⊢
      exact or_congr_left ht.symm
    · ext t
      rw [mem_covered_cons, mem_covered_cons, ih hnextle hnext hrestle]

theorem proper_joinFrom {part : α × α} {rest : List (α × α)} (h : Proper (part :: rest)) :
    Proper (joinFrom part rest) := by
  induction rest generalizing part with
  | nil => exact h
  | cons next rest ih =>
    obtain ⟨hpart, hrest⟩ := List.forall_mem_cons.mp h
    rw [joinFrom]
    split
    · refine ih (List.forall_mem_cons.mpr ⟨hpart.trans_le (le_max_left _ _), ?_⟩)
      exact fun iv hiv => hrest iv (List.mem_cons_of_mem _ hiv)
    · exact List.forall_mem_cons.mpr ⟨hpart, ih hrest⟩

section Unique

variable {iv iv' : α × α} {l l' : List (α × α)}

theorem lt_of_mem_covered_tail (h : Separated (iv :: l)) {t : α} (ht : t ∈ covered l) :
    iv.2 < t := by
  obtain ⟨b, hb, hbt, -⟩ := ht
  exact (List.rel_of_pairwise_cons h hb).trans_le hbt

/-- The first start is the least instant. -/
theorem start_le_of_mem_covered (h : Separated (iv :: l)) (hproper : Proper (iv :: l)) {t : α}
    (ht : t ∈ covered (iv :: l)) : iv.1 ≤ t := by
  rcases (mem_covered_cons iv l t).mp ht with ht | ht
  · exact ht.1
  · exact (hproper iv List.mem_cons_self).le.trans (lt_of_mem_covered_tail h ht).le

theorem start_mem_covered (hproper : Proper (iv :: l)) : iv.1 ∈ covered (iv :: l) :=
  ⟨iv, List.mem_cons_self, le_rfl, hproper iv List.mem_cons_self⟩

/-- The first end is not an instant, although all instants before it, from the
start on, are. -/
theorem stop_notMem_covered (h : Separated (iv :: l)) : iv.2 ∉ covered (iv :: l) := by
  intro hmem
  rcases (mem_covered_cons iv l iv.2).mp hmem with hmem | hmem
  · exact lt_irrefl _ hmem.2
  · exact lt_irrefl _ (lt_of_mem_covered_tail h hmem)

theorem stop_le_of_covered_eq (h : Separated (iv :: l)) (hstart : iv.1 = iv'.1)
    (hproper : Proper (iv :: l)) (heq : covered (iv :: l) = covered (iv' :: l')) :
    iv'.2 ≤ iv.2 := by
  by_contra hlt
  have hmem : iv.2 ∈ covered (iv' :: l') :=
    ⟨iv', List.mem_cons_self, hstart ▸ (hproper iv List.mem_cons_self).le, not_le.mp hlt⟩
  exact stop_notMem_covered h (heq ▸ hmem)

theorem covered_tail_subset (h : Separated (iv :: l)) (hstop : iv.2 = iv'.2)
    (heq : covered (iv :: l) = covered (iv' :: l')) : covered l ⊆ covered l' := by
  intro t ht
  have hmem : t ∈ covered (iv' :: l') := heq ▸ (mem_covered_cons iv l t).mpr (Or.inr ht)
  rcases (mem_covered_cons iv' l' t).mp hmem with hin | hin
  · exact absurd (hstop ▸ hin.2) (lt_of_mem_covered_tail h ht).not_gt
  · exact hin

end Unique

/-- A separated list is determined by its instants. -/
theorem eq_of_covered_eq {l l' : List (α × α)} (h : Separated l) (h' : Separated l')
    (hproper : Proper l) (hproper' : Proper l') (heq : covered l = covered l') : l = l' := by
  induction l generalizing l' with
  | nil =>
    cases l' with
    | nil => rfl
    | cons iv' l' => simpa [← heq] using start_mem_covered hproper'
  | cons iv l ih =>
    cases l' with
    | nil => simpa [heq] using start_mem_covered hproper
    | cons iv' l' =>
      have hstart : iv.1 = iv'.1 := le_antisymm
        (start_le_of_mem_covered h hproper (heq ▸ start_mem_covered hproper'))
        (start_le_of_mem_covered h' hproper' (heq ▸ start_mem_covered hproper))
      have hstop : iv.2 = iv'.2 := le_antisymm
        (stop_le_of_covered_eq h' hstart.symm hproper' heq.symm)
        (stop_le_of_covered_eq h hstart hproper heq)
      have htail : covered l = covered l' :=
        (covered_tail_subset h hstop heq).antisymm (covered_tail_subset h' hstop.symm heq.symm)
      have hl : l = l' := ih h.tail h'.tail (List.forall_mem_cons.mp hproper).2
        (List.forall_mem_cons.mp hproper').2 htail
      rw [Prod.ext hstart hstop, hl]

end TimescaleLp.Intervals
