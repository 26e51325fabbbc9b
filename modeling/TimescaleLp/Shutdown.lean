import TimescaleLp.Batcher

/-!
What `stop` leaves behind. Every point that was taken over is in the queue, in
the hands of a worker, or in a write that ended or was cancelled. After `stop`
no worker takes a point any more, so what is queued then stays there, and the
cancellation of a flush takes its points with it; a buffer that is not being
flushed is flushed on the way out.
-/
namespace TimescaleLp.Shutdown

open Batcher

variable {P ι : Type} [Fintype ι]

/-- The points in the hands of the workers. -/
def inHands (workers : ι → Worker P) : Multiset P := ∑ i, ((workers i).held : Multiset P)

/-- Every accepted point went into a write that ran to its end. -/
def AllHanded (s : Batcher P ι) : Prop :=
  s.accepted.Perm s.handed ∧ s.queue = [] ∧ (∀ i, (s.workers i).held = []) ∧ s.cancelled = []

/-- Nothing is queued when `stop` is called or afterwards, and no flush of the
loop is cancelled. -/
def Drained (s : Batcher P ι) : Event P ι → Prop
  | .put _ => s.stopping = false
  | .stop => s.queue = []
  | .cancel i => (s.workers i).isFlushing = false
  | _ => True

instance (s : Batcher P ι) (e : Event P ι) : Decidable (Drained s e) :=
  match e with
  | .put _ => inferInstanceAs (Decidable (_ = false))
  | .stop => inferInstanceAs (Decidable (_ = []))
  | .cancel _ => inferInstanceAs (Decidable (_ = false))
  | .take _ _ => isTrue trivial
  | .timeout _ => isTrue trivial
  | .tick _ => isTrue trivial
  | .finish _ _ => isTrue trivial
  | .ret => isTrue trivial

/-- Nothing is lost so far. -/
structure Intact (s : Batcher P ι) : Prop where
  queue : s.stopping = true → s.queue = []
  cancelled : s.cancelled = []

/-- Every point that was taken over is in one place. -/
def Accounted (s : Batcher P ι) : Prop :=
  (s.accepted : Multiset P) = s.queue + inHands s.workers + s.handed + s.cancelled

structure Inv (s : Batcher P ι) : Prop where
  accounted : Accounted s
  flushing : ∀ i buf, s.workers i = .flushing buf → buf ≠ []
  returned : s.stopped = true → s.stopping = true ∧ ∀ i, (s.workers i).isEnded = true

theorem start_inv : Inv (start : Batcher P ι) where
  accounted := by simp [Accounted, start, inHands, Worker.held]
  flushing := by simp [start]
  returned := by simp [start]

/-- A worker that still runs has not let `stop` return. -/
theorem not_stopped {s : Batcher P ι} (hs : Inv s) {i : ι} (h : (s.workers i).isEnded = false) :
    s.stopped = false := by
  by_contra hstopped
  have hended := (hs.returned (by simpa using hstopped)).2 i
  rw [h] at hended
  contradiction

variable [DecidableEq ι]

/-- What one worker holds can be told apart from what the others hold. -/
theorem exists_inHands (workers : ι → Worker P) (i : ι) : ∃ others : Multiset P,
    inHands workers = (workers i).held + others ∧
      ∀ w, inHands (Function.update workers i w) = w.held + others := by
  have hupdate : ∀ w, inHands (Function.update workers i w) =
      w.held + ∑ j ∈ Finset.univ \ {i}, ((workers j).held : Multiset P) := by
    intro w
    have hheld : (fun j => ((Function.update workers i w j).held : Multiset P)) =
        Function.update (fun j => ((workers j).held : Multiset P)) i w.held := by
      funext j
      exact Function.apply_update (fun _ (w : Worker P) => (w.held : Multiset P)) workers i w j
    rw [inHands, hheld, Finset.sum_update_of_mem (Finset.mem_univ i)]
  refine ⟨_, ?_, hupdate⟩
  have hself := hupdate (workers i)
  rwa [Function.update_eq_self] at hself

section Step

variable {c : BatcherSettings} {s t : Batcher P ι} {e : Event P ι}

/-- A worker moves on, and what it held is where it should be. -/
theorem accounted_move (hs : Accounted s) (s' : Batcher P ι) (i : ι) (w : Worker P)
    (hworkers : s'.workers = s.workers) (haccepted : s'.accepted = s.accepted)
    (hkept : (s.queue + (s.workers i).held + s.handed + s.cancelled : Multiset P) =
      s'.queue + w.held + s'.handed + s'.cancelled) : Accounted (move s' i w) := by
  obtain ⟨others, hhands, hupdate⟩ := exists_inHands s.workers i
  calc (s'.accepted : Multiset P)
      = s.queue + inHands s.workers + s.handed + s.cancelled := by rw [haccepted, hs]
    _ = (s.queue + (s.workers i).held + s.handed + s.cancelled) + others := by
      rw [hhands]
      ac_rfl
    _ = (s'.queue + w.held + s'.handed + s'.cancelled) + others := by rw [hkept]
    _ = s'.queue + inHands (Function.update s'.workers i w) + s'.handed + s'.cancelled := by
      rw [hworkers, hupdate]
      ac_rfl

omit [Fintype ι] [DecidableEq ι] in
theorem counted_handed (s : Batcher P ι) (buf : List P) (written : Option ℕ) :
    (counted s buf written).handed = s.handed ++ buf := by
  cases written <;> rfl

theorem accounted_finish (hs : Accounted s) {i : ι} {buf : List P}
    (hheld : (s.workers i).held = buf) (written : Option ℕ) {w : Worker P} (hw : w.held = []) :
    Accounted (move (counted s buf written) i w) := by
  obtain ⟨hqueue, hworkers, haccepted, hcancelled, -, -⟩ := counted_frame s buf written
  refine accounted_move hs _ i w hworkers haccepted ?_
  rw [hheld, hw, hqueue, hcancelled, counted_handed, ← Multiset.coe_add, Multiset.coe_nil]
  rw [add_zero]
  ac_rfl

/-- Points change places and none gets lost. -/
theorem change_accounted (hs : Accounted s) (h : Change c s e t) : Accounted t := by
  cases h with
  | put hroom =>
    unfold Accounted at hs ⊢
    simp only [← Multiset.coe_add, hs]
    ac_rfl
  | @took i lag buf flushAt p queue deadline hw hqueue hrun =>
    refine accounted_move hs _ i _ rfl rfl ?_
    rw [held_turn, hw, hqueue]
    show (↑(p :: queue) + ↑buf + ↑s.handed + ↑s.cancelled : Multiset P) =
      ↑queue + ↑(buf ++ [p]) + ↑s.handed + ↑s.cancelled
    rw [← List.singleton_append, ← Multiset.coe_add, ← Multiset.coe_add]
    ac_rfl
  | @timedOut i buf t hw hrun =>
    refine accounted_move hs _ i _ rfl rfl ?_
    rw [held_turn, hw, Worker.held]
  | ticked => exact hs
  | flushed hw =>
    refine accounted_finish hs (by rw [hw, Worker.held]) _ ?_
    split <;> rfl
  | closed hw => exact accounted_finish hs (by rw [hw, Worker.held]) _ rfl
  | stopped hrun => exact hs
  | @woken i buf flushAt hw hstop =>
    refine accounted_move hs _ i _ rfl rfl ?_
    rw [hw, Worker.held]
    split
    · rename_i hbuf
      rw [hbuf, Worker.held]
    · rw [Worker.held]
  | @cancelled i buf hw hstop =>
    refine accounted_move hs _ i _ rfl rfl ?_
    rw [hw, Worker.held, Worker.held, ← Multiset.coe_add, Multiset.coe_nil, add_zero]
    ac_rfl
  | returned hstop hended => exact hs

/-- A worker moves on in the invariant. -/
theorem inv_move (hs : Inv s) {s' : Batcher P ι} {i : ι} {w : Worker P}
    (haccounted : Accounted (move s' i w)) (hworkers : s'.workers = s.workers)
    (hstopped : s'.stopped = s.stopped) (hrunning : (s.workers i).isEnded = false)
    (hflush : ∀ buf, w = .flushing buf → buf ≠ []) : Inv (move s' i w) where
  accounted := haccounted
  flushing := by
    intro j buf hj
    replace hj : Function.update s'.workers i w j = .flushing buf := hj
    by_cases hji : j = i
    · subst hji
      rw [Function.update_self] at hj
      exact hflush buf hj
    · rw [Function.update_of_ne hji, hworkers] at hj
      exact hs.flushing j buf hj
  returned := by
    intro h
    replace h : s'.stopped = true := h
    rw [hstopped, not_stopped hs hrunning] at h
    contradiction

omit [Fintype ι] [DecidableEq ι] in
theorem turn_flushing {now : ℕ} {buf buf' : List P} {flushAt : Option ℕ}
    (h : turn c now buf flushAt = .flushing buf') : buf' ≠ [] := by
  unfold turn at h
  split at h
  · rename_i hfull
    cases h
    exact hfull.1
  · contradiction

theorem change_inv (hs : Inv s) (h : Change c s e t) : Inv t := by
  have haccounted := change_accounted hs.accounted h
  cases h with
  | put hroom => exact ⟨haccounted, hs.flushing, hs.returned⟩
  | took hw hqueue hrun =>
    exact inv_move hs haccounted rfl rfl (by rw [hw]; rfl) fun _ => turn_flushing
  | timedOut hw hrun =>
    exact inv_move hs haccounted rfl rfl (by rw [hw]; rfl) fun _ => turn_flushing
  | ticked => exact ⟨haccounted, hs.flushing, hs.returned⟩
  | @flushed i written buf hw =>
    obtain ⟨-, hworkers, -, -, -, hstopped⟩ := counted_frame s buf written
    refine inv_move hs haccounted hworkers hstopped (by rw [hw]; rfl) fun buf' heq => ?_
    split at heq <;> contradiction
  | @closed i written buf hw =>
    obtain ⟨-, hworkers, -, -, -, hstopped⟩ := counted_frame s buf written
    exact inv_move hs haccounted hworkers hstopped (by rw [hw]; rfl) fun _ heq => by contradiction
  | stopped hrun =>
    refine ⟨haccounted, hs.flushing, fun h => ?_⟩
    have hstop := (hs.returned h).1
    rw [hrun] at hstop
    contradiction
  | woken hw hstop =>
    refine inv_move hs haccounted rfl rfl (by rw [hw]; rfl) fun buf' heq => ?_
    split at heq <;> contradiction
  | cancelled hw hstop =>
    exact inv_move hs haccounted rfl rfl (by rw [hw]; rfl) fun _ heq => by contradiction
  | returned hstop hended => exact ⟨haccounted, hs.flushing, fun _ => ⟨hstop, hended⟩⟩

/-- A step keeps everything exactly if it meets the condition. -/
theorem change_intact_iff (hs : Inv s) (hintact : Intact s) (h : Change c s e t) :
    Intact t ↔ Drained s e := by
  cases h with
  | @put p hroom =>
    refine ⟨fun ht => ?_, fun hrun => ⟨fun hstop => ?_, hintact.cancelled⟩⟩
    · show s.stopping = false
      by_contra hstop
      have hqueue : s.queue ++ [p] = [] := ht.queue (by simpa using hstop)
      simp at hqueue
    · replace hstop : s.stopping = true := hstop
      rw [show s.stopping = false from hrun] at hstop
      contradiction
  | took hw hqueue hrun =>
    refine iff_of_true ⟨fun hstop => ?_, hintact.cancelled⟩ trivial
    replace hstop : s.stopping = true := hstop
    rw [hrun] at hstop
    contradiction
  | timedOut hw hrun => exact iff_of_true ⟨hintact.queue, hintact.cancelled⟩ trivial
  | ticked => exact iff_of_true ⟨hintact.queue, hintact.cancelled⟩ trivial
  | @flushed i written buf hw =>
    obtain ⟨hqueue, -, -, hcancelled, hstopping, -⟩ := counted_frame s buf written
    exact iff_of_true ⟨fun h => hqueue.trans (hintact.queue (hstopping ▸ h)),
      hcancelled.trans hintact.cancelled⟩ trivial
  | @closed i written buf hw =>
    obtain ⟨hqueue, -, -, hcancelled, hstopping, -⟩ := counted_frame s buf written
    exact iff_of_true ⟨fun h => hqueue.trans (hintact.queue (hstopping ▸ h)),
      hcancelled.trans hintact.cancelled⟩ trivial
  | stopped hrun =>
    exact ⟨fun ht => ht.queue rfl, fun hqueue => ⟨fun _ => hqueue, hintact.cancelled⟩⟩
  | @woken i buf flushAt hw hstop =>
    refine iff_of_true ⟨hintact.queue, hintact.cancelled⟩ ?_
    show (s.workers i).isFlushing = false
    rw [hw]
    rfl
  | @cancelled i buf hw hstop =>
    refine iff_of_false (fun ht => ?_) fun hnone => ?_
    · have hnil : s.cancelled ++ buf = [] := ht.cancelled
      exact hs.flushing i buf hw (List.append_eq_nil_iff.mp hnil).2
    · replace hnone : (s.workers i).isFlushing = false := hnone
      rw [hw] at hnone
      contradiction
  | returned hstop hended => exact iff_of_true ⟨hintact.queue, hintact.cancelled⟩ trivial

omit [Fintype ι] in
/-- What is left behind stays behind. -/
theorem intact_of_change (h : Change c s e t) (ht : Intact t) : Intact s := by
  cases h with
  | put hroom =>
    refine ⟨fun hstop => ?_, ht.cancelled⟩
    exact (List.append_eq_nil_iff.mp (ht.queue hstop)).1
  | took hw hqueue hrun =>
    refine ⟨fun hstop => ?_, ht.cancelled⟩
    rw [hrun] at hstop
    contradiction
  | timedOut hw hrun => exact ⟨ht.queue, ht.cancelled⟩
  | ticked => exact ⟨ht.queue, ht.cancelled⟩
  | @flushed i written buf hw =>
    obtain ⟨hqueue, -, -, hcancelled, hstopping, -⟩ := counted_frame s buf written
    exact ⟨fun hstop => hqueue ▸ ht.queue (hstopping.trans hstop), hcancelled ▸ ht.cancelled⟩
  | @closed i written buf hw =>
    obtain ⟨hqueue, -, -, hcancelled, hstopping, -⟩ := counted_frame s buf written
    exact ⟨fun hstop => hqueue ▸ ht.queue (hstopping.trans hstop), hcancelled ▸ ht.cancelled⟩
  | stopped hrun => exact ⟨fun _ => ht.queue rfl, ht.cancelled⟩
  | woken hw hstop => exact ⟨ht.queue, ht.cancelled⟩
  | cancelled hw hstop =>
    exact ⟨ht.queue, (List.append_eq_nil_iff.mp ht.cancelled).1⟩
  | returned hstop hended => exact ⟨ht.queue, ht.cancelled⟩

end Step

section Run

variable {c : BatcherSettings} {s : Batcher P ι} {es : List (Event P ι)}

omit [Fintype ι] [DecidableEq ι] in
theorem held_of_isEnded {w : Worker P} (h : w.isEnded = true) : w.held = [] := by
  cases w with
  | ended => rfl
  | waiting buf flushAt => contradiction
  | flushing buf => contradiction
  | closing buf => contradiction

omit [DecidableEq ι] in
/-- Once `stop` has returned, all points were handed on unless some were left. -/
theorem allHanded_iff_intact (hs : Inv s) (hstopped : s.stopped = true) :
    AllHanded s ↔ Intact s := by
  obtain ⟨hstop, hended⟩ := hs.returned hstopped
  have hheld : ∀ i, (s.workers i).held = [] := fun i => held_of_isEnded (hended i)
  refine ⟨fun h => ⟨fun _ => h.2.1, h.2.2.2⟩, fun h => ?_⟩
  refine ⟨?_, h.queue hstop, hheld, h.cancelled⟩
  have haccounted : (s.accepted : Multiset P) = s.queue + inHands s.workers + s.handed +
    s.cancelled := hs.accounted
  rw [h.queue hstop, h.cancelled, inHands] at haccounted
  simp only [hheld, Multiset.coe_nil, Finset.sum_const_zero, zero_add, add_zero] at haccounted
  exact Multiset.coe_eq_coe.mp haccounted

/-- When `stop` has returned, every accepted point went into a write that ran to
its end exactly if nothing was queued from the call of `stop` on and no flush of
the loop was cancelled. -/
theorem allHanded_iff (hrun : Runs.exec (step c) start es = some s)
    (hstopped : s.stopped = true) : AllHanded s ↔ Runs.Along (step c) Drained start es := by
  have hinv : ∀ (s : Batcher P ι) (e : Event P ι) (t : Batcher P ι), Inv s →
      step c s e = some t → Inv t :=
    fun _ _ _ hs h => change_inv hs (change_of_step c h)
  have hintact : Intact (start : Batcher P ι) := ⟨fun _ => rfl, rfl⟩
  have halong : Runs.Always (step c) Intact start es ↔ Runs.Along (step c) Drained start es :=
    Runs.always_iff_along hinv
      (fun _ _ _ hs hP h => change_intact_iff hs hP (change_of_step c h)) start_inv hintact
  rw [allHanded_iff_intact (Runs.exec_invariant hinv start_inv hrun) hstopped, ← halong]
  refine ⟨fun h => ?_, fun h => h.last hrun⟩
  exact Runs.always_of_last hinv
    (fun _ _ _ _ hst ht => intact_of_change (change_of_step c hst) ht) start_inv hrun h

end Run

/-- Two points and one worker that has written both when `stop` is called. -/
def quietStop : List (Event ℕ (Fin 1)) :=
  [.put 1, .take 0 0, .put 2, .take 0 0, .finish 0 (some 2), .stop, .cancel 0, .ret]

theorem quietStop_allHanded :
    ∃ s, Runs.exec (step ⟨2, 500⟩) start quietStop = some s ∧ s.stopped = true ∧ AllHanded s := by
  have hrun : (Runs.exec (step ⟨2, 500⟩) start quietStop).any (·.stopped) = true := by
    decide +kernel
  obtain ⟨s, hs, hstopped⟩ := (Option.any_eq_true _ _).mp hrun
  refine ⟨s, hs, hstopped, (allHanded_iff hs hstopped).mpr ?_⟩
  decide +kernel

/-- `stop` is called while the first of two points is being written. -/
def earlyStop : List (Event ℕ (Fin 1)) :=
  [.put 1, .take 0 0, .put 2, .stop, .cancel 0, .ret]

theorem earlyStop_leaves : ∃ s, Runs.exec (step ⟨1, 500⟩) start earlyStop = some s ∧
    s.stopped = true ∧ ¬AllHanded s := by
  have hrun : (Runs.exec (step ⟨1, 500⟩) start earlyStop).any
      (fun s => s.stopped && decide (s.queue = [2]) && decide (s.cancelled = [1])) = true := by
    decide +kernel
  obtain ⟨s, hs, htest⟩ := (Option.any_eq_true _ _).mp hrun
  simp only [Bool.and_eq_true, decide_eq_true_eq] at htest
  obtain ⟨⟨hstopped, hqueue⟩, -⟩ := htest
  refine ⟨s, hs, hstopped, fun h => ?_⟩
  rw [h.2.1] at hqueue
  contradiction

end TimescaleLp.Shutdown
