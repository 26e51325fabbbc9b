import TimescaleLp.Runs

/-!
What the steps of a run put out, in order. A measure that grows by one with every
output of a kind bounds how many of them a run has; where the outputs say how the
state changes, they can be replayed.
-/
namespace TimescaleLp.Runs

universe u v

variable {σ : Type u} {ε : Type v} {β ρ : Type*} (step : σ → ε → Option σ) (out : σ → ε → List β)

/-- The outputs of the steps of a run, up to the first step that is refused. -/
def outputs : σ → List ε → List β
  | _, [] => []
  | s, e :: es =>
    match step s e with
    | none => []
    | some t => out s e ++ outputs t es

variable {step out}

theorem outputs_cons {s t : σ} {e : ε} (h : step s e = some t) (es : List ε) :
    outputs step out s (e :: es) = out s e ++ outputs step out t es := by
  simp only [outputs, h]

/-- Outputs of a kind that each add to a measure. -/
theorem countP_outputs (measure : σ → ℕ) {I : σ → Prop} {p : β → Bool}
    (hI : ∀ s e t, I s → step s e = some t → I t)
    (hgrows : ∀ s e t, I s → step s e = some t → measure s + (out s e).countP p ≤ measure t)
    {s t : σ} {es : List ε} (hs : I s) (h : exec step s es = some t) :
    measure s + (outputs step out s es).countP p ≤ measure t := by
  induction es generalizing s with
  | nil =>
    cases h
    exact Nat.le_refl _
  | cons e es ih =>
    obtain ⟨u, hu, ht⟩ := exec_cons h
    have hfirst := hgrows s e u hs hu
    have hrest := ih (hI s e u hs hu) ht
    rw [outputs_cons hu, List.countP_append]
    omega

/-- A part of the state that is what the outputs make of it. -/
theorem replay_outputs (view : σ → ρ) {replay : ρ → List β → ρ} (hnil : ∀ r, replay r [] = r)
    (happend : ∀ r xs ys, replay r (xs ++ ys) = replay (replay r xs) ys)
    (hview : ∀ s e t, step s e = some t → view t = replay (view s) (out s e))
    {s t : σ} {es : List ε} (h : exec step s es = some t) :
    view t = replay (view s) (outputs step out s es) := by
  induction es generalizing s with
  | nil =>
    cases h
    exact (hnil _).symm
  | cons e es ih =>
    obtain ⟨u, hu, ht⟩ := exec_cons h
    rw [ih ht, hview s e u hu, outputs_cons hu, happend]

end TimescaleLp.Runs
