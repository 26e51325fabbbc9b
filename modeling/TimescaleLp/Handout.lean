import Mathlib.Algebra.BigOperators.Group.Finset.Piecewise
import Mathlib.Algebra.Order.Group.Multiset
import Mathlib.Data.Fintype.BigOperators

/-!
A line that hands on what it accepts. Elements join at the end; the first one
leaves to one of several parties, which keeps what it is given in that order.
Nothing else happens to them, so each is in one place, and what a party has and
what may still come to it are in the order of acceptance.
-/
namespace TimescaleLp.Handout

universe u v

/-- What has been accepted, what is still in line, and what each party was given. -/
structure Line (P : Type u) (ι : Type v) where
  accepted : List P
  queue : List P
  given : ι → List P

variable {P : Type u} {ι : Type v} [DecidableEq ι]

inductive Step (s : Line P ι) : Line P ι → Prop
  | accept (p : P) : Step s ⟨s.accepted ++ [p], s.queue ++ [p], s.given⟩
  | give (i : ι) {p : P} {queue : List P} (hqueue : s.queue = p :: queue) :
      Step s ⟨s.accepted, queue, Function.update s.given i (s.given i ++ [p])⟩
  | idle : Step s s

/-- Every accepted element is in one place. -/
def Custody [Fintype ι] (s : Line P ι) : Prop :=
  (s.accepted : Multiset P) = s.queue + ∑ i, (s.given i : Multiset P)

def InOrder (s : Line P ι) : Prop := ∀ i, (s.given i ++ s.queue).Sublist s.accepted

theorem Custody.step [Fintype ι] {s t : Line P ι} (hs : Custody s) (h : Step s t) :
    Custody t := by
  cases h with
  | accept p =>
    show ((s.accepted ++ [p] : List P) : Multiset P) = ↑(s.queue ++ [p]) + _
    rw [← Multiset.coe_add, ← Multiset.coe_add, show (s.accepted : Multiset P) = _ from hs]
    exact add_right_comm _ _ _
  | @give i p queue hqueue =>
    -- the other parties have what they had
    have hgiven : ∀ l : List P, ∑ j, ((Function.update s.given i l j : List P) : Multiset P) =
        l + ∑ j ∈ Finset.univ \ {i}, (s.given j : Multiset P) := by
      intro l
      have hupdate : (fun j => ((Function.update s.given i l j : List P) : Multiset P)) =
          Function.update (fun j => (s.given j : Multiset P)) i l := by
        funext j
        exact Function.apply_update (fun _ (l : List P) => (l : Multiset P)) s.given i l j
      rw [hupdate, Finset.sum_update_of_mem (Finset.mem_univ i)]
    have hself := hgiven (s.given i)
    rw [Function.update_eq_self] at hself
    calc (s.accepted : Multiset P)
        = ↑(p :: queue) + ∑ j, (s.given j : Multiset P) := by rw [← hqueue]; exact hs
      _ = ↑queue + (↑(s.given i ++ [p]) +
            ∑ j ∈ Finset.univ \ {i}, (s.given j : Multiset P)) := by
        rw [hself, ← List.singleton_append, ← Multiset.coe_add, ← Multiset.coe_add]
        ac_rfl
      _ = ↑queue + ∑ j, ((Function.update s.given i (s.given i ++ [p]) j : List P) :
            Multiset P) := by rw [hgiven]
  | idle => exact hs

theorem InOrder.step {s t : Line P ι} (hs : InOrder s) (h : Step s t) : InOrder t := by
  cases h with
  | accept p =>
    intro i
    show (s.given i ++ (s.queue ++ [p])).Sublist (s.accepted ++ [p])
    rw [← List.append_assoc]
    exact (hs i).append (List.Sublist.refl _)
  | @give i p queue hqueue =>
    intro j
    have hj := hs j
    rw [hqueue] at hj
    show (Function.update s.given i (s.given i ++ [p]) j ++ queue).Sublist s.accepted
    by_cases hji : j = i
    · subst hji
      rw [Function.update_self, List.append_assoc, List.singleton_append]
      exact hj
    · rw [Function.update_of_ne hji]
      exact ((List.Sublist.refl _).append (List.sublist_cons_self p queue)).trans hj
  | idle => exact hs

end TimescaleLp.Handout
