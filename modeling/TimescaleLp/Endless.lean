import Mathlib.Data.Nat.Init
import Mathlib.Logic.Function.Iterate
import Mathlib.Order.Nat
import Mathlib.Order.RelClasses
import TimescaleLp.Runs

/-!
Endless runs, and what must happen in them. A condition that every step keeps
unless some event occurs either lasts for ever or meets the event; a measure that
rises again and again passes every bound, and one that falls again and again comes to
an end. A path to a state and a loop at it make an endless run.
-/
namespace TimescaleLp.Runs

universe u v w

/-- A run that never comes to an end. -/
structure Endless {σ : Type u} {ε : Type v} (step : σ → ε → Option σ) where
  state : ℕ → σ
  event : ℕ → ε
  next : ∀ n, step (state n) (event n) = some (state (n + 1))

namespace Endless

section Moments

variable {P A : ℕ → Prop} {n : ℕ}

/-- What each step keeps, unless it is of some kind, lasts until such a step. -/
theorem lasts (hn : P n) (hkeep : ∀ k, n ≤ k → P k → ¬A k → P (k + 1)) :
    (∀ m, n ≤ m → P m) ∨ ∃ m, n ≤ m ∧ P m ∧ A m := by
  by_contra h
  obtain ⟨hforever, hnever⟩ := not_or.mp h
  refine hforever fun m hm => ?_
  induction m, hm using Nat.le_induction with
  | base => exact hn
  | succ m hm ih => exact hkeep m hm ih fun hA => hnever ⟨m, hm, ih, hA⟩

/-- It holds when the step comes, if it must come where it lasts for ever. -/
theorem meets (hn : P n) (hkeep : ∀ k, n ≤ k → P k → ¬A k → P (k + 1))
    (hA : (∀ m, n ≤ m → P m) → ∃ m, n ≤ m ∧ A m) : ∃ m, n ≤ m ∧ P m ∧ A m := by
  rcases lasts hn hkeep with hforever | hmet
  · obtain ⟨m, hm, hAm⟩ := hA hforever
    exact ⟨m, hm, hforever m hm, hAm⟩
  · exact hmet

end Moments

variable {σ : Type u} {ε : Type v} {step : σ → ε → Option σ} (r : Endless step)

theorem since {I : σ → Prop} (hstep : ∀ s e t, I s → step s e = some t → I t) {n m : ℕ}
    (h : n ≤ m) (hn : I (r.state n)) : I (r.state m) := by
  induction m, h using Nat.le_induction with
  | base => exact hn
  | succ m _ ih => exact hstep _ _ _ ih (r.next m)

theorem invariant {I : σ → Prop} (hstep : ∀ s e t, I s → step s e = some t → I t)
    (hstart : I (r.state 0)) (n : ℕ) : I (r.state n) :=
  r.since hstep (Nat.zero_le n) hstart

/-- A relation that each step keeps holds between a state and all later ones. -/
theorem later {R : σ → σ → Prop} (hrefl : ∀ s, R s s)
    (hstep : ∀ a s e t, R a s → step s e = some t → R a t) {n m : ℕ} (h : n ≤ m) :
    R (r.state n) (r.state m) := by
  induction m, h using Nat.le_induction with
  | base => exact hrefl _
  | succ m _ ih => exact hstep _ _ _ _ ih (r.next m)

/-- A measure that rises again and again while it is below a bound reaches it. -/
theorem climbs {rank : σ → ℕ} {bound n : ℕ} (hrise : ∀ k, n ≤ k → rank (r.state k) < bound →
    ∃ m, k ≤ m ∧ rank (r.state k) < rank (r.state m)) :
    ∃ m, n ≤ m ∧ bound ≤ rank (r.state m) := by
  -- by induction on what is missing to the bound
  induction hmissing : bound - rank (r.state n) using Nat.strong_induction_on generalizing n with
  | _ missing ih =>
    by_cases hlt : rank (r.state n) < bound
    · obtain ⟨m, hnm, hmore⟩ := hrise n (le_refl n) hlt
      obtain ⟨k, hmk, hk⟩ := ih (bound - rank (r.state m)) (by omega)
        (fun k hk => hrise k (hnm.trans hk)) rfl
      exact ⟨k, hnm.trans hmk, hk⟩
    · exact ⟨n, le_refl n, Nat.le_of_not_lt hlt⟩

/-- What a measure with no endless descent falls towards is reached. -/
theorem descends {α : Type w} [LT α] [WellFoundedLT α] (rank : σ → α) {P : σ → Prop} {n : ℕ}
    (hfall : ∀ k, n ≤ k → ¬P (r.state k) →
      ∃ m, k ≤ m ∧ (P (r.state m) ∨ rank (r.state m) < rank (r.state k))) :
    ∃ m, n ≤ m ∧ P (r.state m) := by
  induction hrank : rank (r.state n) using WellFoundedLT.induction generalizing n with
  | _ a ih =>
    by_cases hP : P (r.state n)
    · exact ⟨n, le_refl n, hP⟩
    · obtain ⟨m, hnm, hm | hless⟩ := hfall n (le_refl n) hP
      · exact ⟨m, hnm, hm⟩
      · obtain ⟨k, hmk, hk⟩ := ih _ (hrank ▸ hless) (fun k hk => hfall k (hnm.trans hk)) rfl
        exact ⟨k, hnm.trans hmk, hk⟩

end Endless

section Lasso

variable {σ : Type u} {ε : Type v} {step : σ → ε → Option σ} {t : σ} {e : ε} {es : List ε}

variable (step t) in
/-- A state with the events that lead from it to `t`, the next of them first. -/
def Path := {p : σ × ε × List ε // exec step p.1 (p.2.1 :: p.2.2) = some t}

/-- One event along the path, and then along the loop at its end. -/
def Path.next (hloop : exec step t (e :: es) = some t) : Path step t → Path step t
  | ⟨(_, _, []), _⟩ => ⟨(t, e, es), hloop⟩
  | ⟨(s, a, b :: rest), h⟩ =>
    have hsome : (step s a).isSome = true := by
      obtain ⟨u, hu, -⟩ := exec_cons h
      rw [hu, Option.isSome_some]
    ⟨((step s a).get hsome, b, rest), by
      obtain ⟨u, hu, hrest⟩ := exec_cons h
      simpa only [hu, Option.get_some] using hrest⟩

theorem Path.step_next (hloop : exec step t (e :: es) = some t) (p : Path step t) :
    step p.val.1 p.val.2.1 = some (p.next hloop).val.1 := by
  obtain ⟨⟨s, a, rest⟩, h⟩ := p
  cases rest with
  | nil =>
    obtain ⟨u, hu, hrest⟩ := exec_cons h
    cases Option.some.inj hrest
    exact hu
  | cons b rest => exact (Option.some_get _).symm

/-- The run that takes the path and then the loop for ever. -/
def Path.lasso (p : Path step t) (hloop : exec step t (e :: es) = some t) : Endless step where
  state n := ((Path.next hloop)^[n] p).val.1
  event n := ((Path.next hloop)^[n] p).val.2.1
  next n := by
    rw [Function.iterate_succ_apply']
    exact Path.step_next hloop _

/-- The loop begins again and again. -/
theorem Path.lasso_recurs (p : Path step t) (hloop : exec step t (e :: es) = some t) (n : ℕ) :
    ∃ m, n ≤ m ∧ (p.lasso hloop).state m = t ∧ (p.lasso hloop).event m = e := by
  induction hrest : ((Path.next hloop)^[n] p).val.2.2 generalizing n with
  | nil =>
    refine ⟨n + 1, Nat.le_succ n, ?_⟩
    have hnext : (Path.next hloop)^[n + 1] p = ⟨(t, e, es), hloop⟩ := by
      rw [Function.iterate_succ_apply']
      generalize (Path.next hloop)^[n] p = q at hrest
      obtain ⟨⟨s, a, rest⟩, h⟩ := q
      cases hrest
      rfl
    exact ⟨congrArg (fun q : Path step t => q.val.1) hnext,
      congrArg (fun q : Path step t => q.val.2.1) hnext⟩
  | cons b rest ih =>
    have hnext : ((Path.next hloop)^[n + 1] p).val.2.2 = rest := by
      rw [Function.iterate_succ_apply']
      generalize (Path.next hloop)^[n] p = q at hrest
      obtain ⟨⟨s, a, rest'⟩, h⟩ := q
      cases hrest
      rfl
    obtain ⟨m, hm, hat⟩ := ih (n + 1) hnext
    exact ⟨m, by omega, hat⟩

end Lasso

end TimescaleLp.Runs
