import Mathlib.Data.List.Basic
import Mathlib.Logic.Function.Basic

/-!
Runs of a system given by a step function that is undefined where an event is
not enabled. A property of a run is a property of all the states it passes
through, or of all the steps it takes; both follow from facts about one step.
-/
namespace TimescaleLp.Runs

universe u v

variable {σ : Type u} {ε : Type v} (step : σ → ε → Option σ)

def exec : σ → List ε → Option σ
  | s, [] => some s
  | s, e :: es => (step s e).bind (fun t => exec t es)

/-- The property holds in every state of the run, the first included. -/
def Always (P : σ → Prop) : σ → List ε → Prop
  | s, [] => P s
  | s, e :: es => P s ∧ ∀ t, step s e = some t → Always P t es

/-- The condition holds before every step the run takes. -/
def Along (G : σ → ε → Prop) : σ → List ε → Prop
  | _, [] => True
  | s, e :: es => ∀ t, step s e = some t → G s e ∧ Along G t es

/-- The party that has moved, or another one. -/
theorem update_cases {ι : Type u} {α : Type v} [DecidableEq ι] {f : ι → α} {i j : ι} {x y : α}
    (h : Function.update f i x j = y) : j = i ∧ x = y ∨ j ≠ i ∧ f j = y := by
  by_cases hj : j = i
  · subst hj
    exact Or.inl ⟨rfl, (Function.update_self j x f).symm.trans h⟩
  · exact Or.inr ⟨hj, (Function.update_of_ne hj x f).symm.trans h⟩

variable {step}

theorem exec_cons {s u : σ} {e : ε} {es : List ε} (h : exec step s (e :: es) = some u) :
    ∃ t, step s e = some t ∧ exec step t es = some u :=
  Option.bind_eq_some_iff.mp h

theorem exec_append {s t : σ} {es es' : List ε} (h : exec step s es = some t) :
    exec step s (es ++ es') = exec step t es' := by
  induction es generalizing s with
  | nil => rw [Option.some.inj h, List.nil_append]
  | cons e es ih =>
    obtain ⟨u, hsu, hut⟩ := exec_cons h
    rw [List.cons_append, exec, hsu, Option.bind_some, ih hut]

theorem exec_append_of_none {s : σ} {es es' : List ε} (h : exec step s es = none) :
    exec step s (es ++ es') = none := by
  induction es generalizing s with
  | nil => contradiction
  | cons e es ih =>
    rw [List.cons_append, exec, Option.bind_eq_none_iff]
    exact fun t hst => ih (Option.bind_eq_none_iff.mp h t hst)

theorem exec_flatMap {ι : Type*} (f : ι → List ε) (s : σ) (xs : List ι) :
    exec (fun s x => exec step s (f x)) s xs = exec step s (xs.flatMap f) := by
  induction xs generalizing s with
  | nil => rfl
  | cons x xs ih =>
    rw [exec, List.flatMap_cons]
    cases hx : exec step s (f x) with
    | none => rw [Option.bind_none, exec_append_of_none hx]
    | some t => rw [Option.bind_some, exec_append hx, ih]

/-- A property of every state holds in the state a run ends in. -/
theorem Always.last {P : σ → Prop} {s u : σ} {es : List ε} (h : Always step P s es)
    (hu : exec step s es = some u) : P u := by
  induction es generalizing s with
  | nil => exact Option.some.inj hu ▸ h
  | cons e es ih =>
    obtain ⟨t, hst, htu⟩ := exec_cons hu
    exact ih (h.2 t hst) htu

/-- A property that a step cannot restore held throughout if it holds at the end. -/
theorem always_of_last {I P : σ → Prop} (hI : ∀ s e t, I s → step s e = some t → I t)
    (hP : ∀ s e t, I s → step s e = some t → P t → P s) {s u : σ} {es : List ε} (hs : I s)
    (h : exec step s es = some u) (hu : P u) : Always step P s es := by
  induction es generalizing s with
  | nil => exact Option.some.inj h ▸ hu
  | cons e es ih =>
    obtain ⟨t, hst, htu⟩ := exec_cons h
    have hrest := ih (hI s e t hs hst) htu
    have hPt : P t := by
      cases es with
      | nil => exact hrest
      | cons => exact hrest.1
    refine ⟨hP s e t hs hst hPt, fun t' ht' => ?_⟩
    cases hst.symm.trans ht'
    exact hrest

theorem Along.mono {G G' : σ → ε → Prop} (hsub : ∀ s e, G s e → G' s e) {s : σ} {es : List ε}
    (h : Along step G s es) : Along step G' s es := by
  induction es generalizing s with
  | nil => trivial
  | cons e es ih => exact fun t hst => ⟨hsub s e (h t hst).1, ih (h t hst).2⟩

/-- The condition holds before the last step of a run. -/
theorem Along.last {G : σ → ε → Prop} {s t u : σ} {es : List ε} {e : ε}
    (h : Along step G s (es ++ [e])) (ht : exec step s es = some t) (hu : step t e = some u) :
    G t e := by
  induction es generalizing s with
  | nil =>
    cases ht
    exact (h u hu).1
  | cons e' es ih =>
    obtain ⟨s', hs', ht⟩ := exec_cons ht
    exact ih (h s' hs').2 ht

/-- A condition along a run that follows from another where an invariant holds. -/
theorem Along.of_invariant {I : σ → Prop} {G G' : σ → ε → Prop}
    (hI : ∀ s e t, I s → G s e → step s e = some t → I t)
    (h : ∀ s e, I s → G s e → G' s e) {s : σ} {es : List ε} (hs : I s)
    (hG : Along step G s es) : Along step G' s es := by
  induction es generalizing s with
  | nil => trivial
  | cons e es ih =>
    intro t hst
    have ht := hG t hst
    exact ⟨h s e hs ht.1, ih (hI s e t hs ht.1 hst) ht.2⟩

theorem along_of_forall {G : σ → ε → Prop} {es : List ε} (h : ∀ e ∈ es, ∀ s, G s e) (s : σ) :
    Along step G s es := by
  induction es generalizing s with
  | nil => trivial
  | cons e es ih =>
    exact fun t _ => ⟨h e List.mem_cons_self s, ih (fun e' he' => h e' (List.mem_cons_of_mem e he')) t⟩

variable (step) in
/-- A test of a condition along a run. -/
def checkAlong (g : σ → ε → Bool) : σ → List ε → Bool
  | _, [] => true
  | s, e :: es =>
    match step s e with
    | none => true
    | some t => g s e && checkAlong g t es

theorem along_of_check {g : σ → ε → Bool} {s : σ} {es : List ε}
    (h : checkAlong step g s es = true) : Along step (fun s e => g s e = true) s es := by
  induction es generalizing s with
  | nil => trivial
  | cons e es ih =>
    intro t hst
    simp only [checkAlong, hst, Bool.and_eq_true] at h
    exact ⟨h.1, ih h.2⟩

instance decidableAlong {G : σ → ε → Prop} [∀ s e, Decidable (G s e)] :
    (s : σ) → (es : List ε) → Decidable (Along step G s es)
  | _, [] => isTrue trivial
  | s, e :: es =>
    match hst : step s e with
    | none => isTrue fun t ht => by simp [hst] at ht
    | some t =>
      have := decidableAlong (G := G) t es
      decidable_of_iff (G s e ∧ Along step G t es) (by simp [Along, hst])

/-- Induction over a run whose steps all meet a condition. -/
theorem exec_invariant_along {I : σ → Prop} {G : σ → ε → Prop}
    (hstep : ∀ s e t, I s → G s e → step s e = some t → I t)
    {s u : σ} {es : List ε} (hs : I s) (hG : Along step G s es)
    (h : exec step s es = some u) : I u := by
  induction es generalizing s with
  | nil => exact Option.some.inj h ▸ hs
  | cons e es ih =>
    obtain ⟨t, hst, htu⟩ := exec_cons h
    have ht := hG t hst
    exact ih (hstep s e t hs ht.1 hst) ht.2 htu

theorem along_true {s : σ} {es : List ε} : Along step (fun _ _ => True) s es := by
  induction es generalizing s with
  | nil => trivial
  | cons e es ih => exact fun t _ => ⟨trivial, ih⟩

theorem exec_invariant {I : σ → Prop} (hstep : ∀ s e t, I s → step s e = some t → I t)
    {s u : σ} {es : List ε} (hs : I s) (h : exec step s es = some u) : I u :=
  exec_invariant_along (G := fun _ _ => True) (fun s e t hI _ => hstep s e t hI) hs along_true h

/-- A run goes through beside one of a machine that it refines and that never stops. -/
theorem exec_simulates {τ : Type*} {R : σ → τ → Prop} {f : τ → ε → τ} {E : ε → Prop}
    (hstep : ∀ s a e, R s a → E e → ∃ t, step s e = some t ∧ R t (f a e)) {s : σ} {a : τ}
    {es : List ε} (hs : R s a) (hE : ∀ e ∈ es, E e) :
    ∃ t, exec step s es = some t ∧ R t (es.foldl f a) := by
  induction es generalizing s a with
  | nil => exact ⟨s, rfl, hs⟩
  | cons e es ih =>
    obtain ⟨t, hst, ht⟩ := hstep s a e hs (hE e List.mem_cons_self)
    obtain ⟨u, htu, hu⟩ := ih ht fun e' he' => hE e' (List.mem_cons_of_mem e he')
    exact ⟨u, by rw [exec, hst, Option.bind_some, htu], hu⟩

theorem always_of_along {I P : σ → Prop} {G : σ → ε → Prop}
    (hstep : ∀ s e t, I s → G s e → step s e = some t → I t) (hP : ∀ s, I s → P s)
    {s : σ} {es : List ε} (hs : I s) (hG : Along step G s es) : Always step P s es := by
  induction es generalizing s with
  | nil => exact hP s hs
  | cons e es ih =>
    refine ⟨hP s hs, fun t hst => ?_⟩
    have ht := hG t hst
    exact ih (hstep s e t hs ht.1 hst) ht.2

/-- An invariant holds throughout every run. -/
theorem always_of_invariant {I P : σ → Prop} (hstep : ∀ s e t, I s → step s e = some t → I t)
    (hP : ∀ s, I s → P s) {s : σ} {es : List ε} (hs : I s) : Always step P s es :=
  always_of_along (G := fun _ _ => True) (fun s e t hI _ => hstep s e t hI) hP hs along_true

/-- Two conditions that agree wherever an invariant holds. -/
theorem along_congr {I : σ → Prop} {G G' : σ → ε → Prop}
    (hI : ∀ s e t, I s → step s e = some t → I t) (h : ∀ s e, I s → (G s e ↔ G' s e))
    {s : σ} {es : List ε} (hs : I s) : Along step G s es ↔ Along step G' s es := by
  induction es generalizing s with
  | nil => exact Iff.rfl
  | cons e es ih =>
    refine forall₂_congr fun t hst => ?_
    exact and_congr (h s e hs) (ih (hI s e t hs hst))

/-- When one step keeps the property, and takes a step that is allowed, exactly if
it meets the condition, a run does so throughout exactly if all its steps meet it. -/
theorem always_and_along_iff {I P : σ → Prop} {Q G : σ → ε → Prop} {E : ε → Prop}
    (hI : ∀ s e t, I s → E e → P s → G s e → step s e = some t → I t)
    (hP : ∀ s e t, I s → E e → P s → step s e = some t → (P t ∧ Q s e ↔ G s e))
    {s : σ} {es : List ε} (hE : ∀ e ∈ es, E e) (hs : I s) (hPs : P s) :
    Always step P s es ∧ Along step Q s es ↔ Along step G s es := by
  induction es generalizing s with
  | nil => exact ⟨fun _ => trivial, fun _ => ⟨hPs, trivial⟩⟩
  | cons e es ih =>
    have he := hE e List.mem_cons_self
    have ih := fun {t} => ih (s := t) fun e' he' => hE e' (List.mem_cons_of_mem e he')
    constructor
    · rintro ⟨⟨-, hrest⟩, hallowed⟩ t hst
      have hPt : P t := by
        have h := hrest t hst
        cases es with
        | nil => exact h
        | cons => exact h.1
      have hG := (hP s e t hs he hPs hst).mp ⟨hPt, (hallowed t hst).1⟩
      exact ⟨hG, (ih (hI s e t hs he hPs hG hst) hPt).mp ⟨hrest t hst, (hallowed t hst).2⟩⟩
    · intro h
      have hstep : ∀ t, step s e = some t →
          (P t ∧ Q s e) ∧ Always step P t es ∧ Along step Q t es := by
        intro t hst
        have hkept := (hP s e t hs he hPs hst).mpr (h t hst).1
        exact ⟨hkept, (ih (hI s e t hs he hPs (h t hst).1 hst) hkept.1).mpr (h t hst).2⟩
      exact ⟨⟨hPs, fun t hst => (hstep t hst).2.1⟩,
        fun t hst => ⟨(hstep t hst).1.2, (hstep t hst).2.2⟩⟩

/-- When one step keeps the property exactly if it meets the condition, a run
keeps the property throughout exactly if all its steps meet the condition. -/
theorem always_iff_along_of_forall {I P : σ → Prop} {G : σ → ε → Prop} {E : ε → Prop}
    (hI : ∀ s e t, I s → E e → step s e = some t → I t)
    (hP : ∀ s e t, I s → E e → P s → step s e = some t → (P t ↔ G s e))
    {s : σ} {es : List ε} (hE : ∀ e ∈ es, E e) (hs : I s) (hPs : P s) :
    Always step P s es ↔ Along step G s es := by
  have h := always_and_along_iff (Q := fun _ _ => True)
    (fun s e t hs he _ _ hst => hI s e t hs he hst)
    (fun s e t hs he hPs hst => (and_iff_left trivial).trans (hP s e t hs he hPs hst)) hE hs hPs
  rwa [and_iff_left along_true] at h

theorem always_iff_along {I P : σ → Prop} {G : σ → ε → Prop}
    (hI : ∀ s e t, I s → step s e = some t → I t)
    (hP : ∀ s e t, I s → P s → step s e = some t → (P t ↔ G s e))
    {s : σ} {es : List ε} (hs : I s) (hPs : P s) :
    Always step P s es ↔ Along step G s es :=
  always_iff_along_of_forall (E := fun _ => True) (fun s e t hI' _ => hI s e t hI')
    (fun s e t hI' _ => hP s e t hI') (fun _ _ => trivial) hs hPs

end TimescaleLp.Runs
