import Mathlib.Data.List.Basic

/-!
Loops that stop at the first exception, as folds in `Except`.
-/
namespace TimescaleLp.Folds

universe u v w

variable {σ : Type u} {α : Type v} {ε : Type w} {f : σ → α → Except ε σ}

theorem bind_ok_iff {β γ : Type u} {x : Except ε β} {g : β → Except ε γ} {c : γ} :
    x >>= g = .ok c ↔ ∃ b, x = .ok b ∧ g b = .ok c := by
  cases x with
  | error e => simp [bind, Except.bind]
  | ok b => simp [bind, Except.bind]

/-- A sequence raises where its first part does, or where the second one does
after the first one returned. -/
theorem bind_error_iff {β γ : Type u} {x : Except ε β} {g : β → Except ε γ} {e : ε} :
    x >>= g = .error e ↔ x = .error e ∨ ∃ b, x = .ok b ∧ g b = .error e := by
  cases x with
  | error e' => simp [bind, Except.bind]
  | ok b => simp [bind, Except.bind]

theorem map_ok_iff {β γ : Type*} {x : Except ε β} {g : β → γ} {c : γ} :
    x.map g = .ok c ↔ ∃ b, x = .ok b ∧ g b = c := by
  cases x with
  | error e => simp [Except.map]
  | ok b => simp [Except.map]

theorem map_error_iff {β γ : Type*} {x : Except ε β} {g : β → γ} {e : ε} :
    x.map g = .error e ↔ x = .error e := by
  cases x with
  | error e' => simp [Except.map]
  | ok b => simp [Except.map]

theorem foldlM_cons_ok_iff {s r : σ} {x : α} {xs : List α} :
    (x :: xs).foldlM f s = .ok r ↔ ∃ s', f s x = .ok s' ∧ xs.foldlM f s' = .ok r := by
  rw [List.foldlM_cons, bind_ok_iff]

/-- The loop raises what one of its rounds raises, after the rounds before it returned. -/
theorem foldlM_error_iff {e : ε} {s : σ} {xs : List α} :
    xs.foldlM f s = .error e ↔
      ∃ before x after s', xs = before ++ x :: after ∧ before.foldlM f s = .ok s' ∧
        f s' x = .error e := by
  induction xs generalizing s with
  | nil =>
    constructor
    · intro h
      contradiction
    intro ⟨before, x, after, s', h, _⟩
    exact absurd h.symm (List.append_ne_nil_of_right_ne_nil _ (List.cons_ne_nil x after))
  | cons y ys ih =>
    rw [List.foldlM_cons, bind_error_iff]
    constructor
    · intro h
      rcases h with h | ⟨s', hy, h⟩
      · exact ⟨[], y, ys, s, rfl, rfl, h⟩
      · obtain ⟨before, x, after, s'', hxs, hbefore, hx⟩ := ih.mp h
        exact ⟨y :: before, x, after, s'', congrArg (List.cons y) hxs,
          foldlM_cons_ok_iff.mpr ⟨s', hy, hbefore⟩, hx⟩
    · intro ⟨before, x, after, s'', hxs, hbefore, hx⟩
      cases before with
      | nil =>
        obtain ⟨rfl, rfl⟩ := List.cons.inj hxs
        cases Except.ok.inj hbefore
        exact Or.inl hx
      | cons b before =>
        obtain ⟨rfl, hys⟩ := List.cons.inj hxs
        obtain ⟨s', hy, hbefore⟩ := foldlM_cons_ok_iff.mp hbefore
        exact Or.inr ⟨s', hy, ih.mpr ⟨before, x, after, s'', hys, hbefore, hx⟩⟩

/-- Where a round's success depends on its item alone, the loop returns when all
items succeed. -/
theorem exists_foldlM_ok_iff {P : α → Prop} (hP : ∀ s x, (∃ s', f s x = .ok s') ↔ P x) (s : σ)
    (xs : List α) : (∃ r, xs.foldlM f s = .ok r) ↔ ∀ x ∈ xs, P x := by
  induction xs generalizing s with
  | nil => exact ⟨fun _ x hx => absurd hx List.not_mem_nil, fun _ => ⟨s, rfl⟩⟩
  | cons y ys ih =>
    rw [List.forall_mem_cons]
    constructor
    · intro ⟨r, h⟩
      obtain ⟨s', hy, h⟩ := foldlM_cons_ok_iff.mp h
      exact ⟨(hP s y).mp ⟨s', hy⟩, (ih s').mp ⟨r, h⟩⟩
    · intro ⟨hy, hys⟩
      obtain ⟨s', hy⟩ := (hP s y).mpr hy
      obtain ⟨r, h⟩ := (ih s').mpr hys
      exact ⟨r, foldlM_cons_ok_iff.mpr ⟨s', hy, h⟩⟩

/-- What every round keeps holds at the end. -/
theorem foldlM_invariant {I : σ → Prop} {xs : List α}
    (hstep : ∀ s, ∀ x ∈ xs, ∀ s', I s → f s x = .ok s' → I s') {s r : σ} (hs : I s)
    (h : xs.foldlM f s = .ok r) : I r := by
  induction xs generalizing s with
  | nil => exact Except.ok.inj h ▸ hs
  | cons y ys ih =>
    obtain ⟨s', hy, h⟩ := foldlM_cons_ok_iff.mp h
    exact ih (fun s x hx => hstep s x (List.mem_cons_of_mem y hx))
      (hstep s y List.mem_cons_self s' hs hy) h

end TimescaleLp.Folds
