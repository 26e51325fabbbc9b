import Mathlib.Algebra.Order.BigOperators.Group.Finset
import TimescaleLp.Endless
import TimescaleLp.Shutdown

/-!
How far the batcher may fall behind. The queue and the buffers are bounded, so
submitters wait once the workers do not keep up; a buffer has a deadline exactly
while it holds points.
-/
namespace TimescaleLp.Backlog

open Batcher

variable {P ι : Type}

/-- A worker with its buffer and deadline. -/
def Sized (c : BatcherSettings) (now : ℕ) : Worker P → Prop
  | .waiting buf flushAt => buf.length < c.batchSize ∧ (buf = [] ↔ flushAt = none) ∧
      ∀ t, flushAt = some t → t ≤ now + c.flushInterval
  | .flushing buf => buf ≠ [] ∧ buf.length ≤ c.batchSize
  | .closing buf => buf ≠ [] ∧ buf.length ≤ c.batchSize
  | .ended => True

/-- A worker in its loop waits for a point or for a flush. -/
def InLoop (w : Worker P) : Prop :=
  (∃ buf flushAt, w = .waiting buf flushAt) ∨ ∃ buf, w = .flushing buf

/-- What the batcher holds at most. -/
structure Bounded [Fintype ι] (c : BatcherSettings) (s : Batcher P ι) : Prop where
  queue : s.queue.length ≤ 8 * c.batchSize
  held : ∀ i, (s.workers i).held.length ≤ c.batchSize
  /-- A buffer has a deadline exactly while it holds points, and a near one. -/
  deadline : ∀ i buf flushAt, s.workers i = .waiting buf flushAt → (buf = [] ↔ flushAt = none) ∧
    ∀ t, flushAt = some t → t ≤ s.now + c.flushInterval
  /-- What has been taken over and not written. -/
  backlog : s.accepted.length ≤
    s.handed.length + s.cancelled.length + (8 + Fintype.card ι) * c.batchSize

structure Inv [Fintype ι] (c : BatcherSettings) (s : Batcher P ι) : Prop where
  accounted : Shutdown.Inv s
  room : s.queue.length ≤ 8 * c.batchSize
  sized : ∀ i, Sized c s.now (s.workers i)
  /-- The queue is the end of what has been accepted. -/
  fifo : s.queue <:+ s.accepted
  /-- Until `stop` a worker is in its loop. -/
  running : s.stopping = false → s.cancelled = [] ∧ ∀ i, InLoop (s.workers i)

section Worker

variable {c : BatcherSettings} {now : ℕ} {w : Worker P}

theorem held_of_sized (h : Sized c now w) : w.held.length ≤ c.batchSize := by
  cases w with
  | waiting buf flushAt => exact h.1.le
  | flushing buf => exact h.2
  | closing buf => exact h.2
  | ended => exact Nat.zero_le _

/-- Time does not undo a bound on a deadline. -/
theorem Sized.mono {now' : ℕ} (h : Sized c now w) (hle : now ≤ now') : Sized c now' w := by
  cases w with
  | waiting buf flushAt => exact ⟨h.1, h.2.1, fun t ht => (h.2.2 t ht).trans (by omega)⟩
  | flushing buf => exact h
  | closing buf => exact h
  | ended => trivial

/-- A turn with a buffer that is not empty. -/
theorem sized_turn {buf : List P} {t : ℕ} (hne : buf ≠ []) (hsize : buf.length ≤ c.batchSize)
    (ht : t ≤ now + c.flushInterval) : Sized c now (turn c now buf (some t)) := by
  unfold turn
  split
  · exact ⟨hne, hsize⟩
  · rename_i hwait
    refine ⟨?_, by simp [hne], fun t' ht' => Option.some.inj ht' ▸ ht⟩
    by_contra hfull
    exact hwait ⟨hne, Or.inl (Nat.le_of_not_lt hfull)⟩

/-- A due buffer is flushed at the end of the turn. -/
theorem turn_of_due {buf : List P} {t : ℕ} (hne : buf ≠ []) (ht : t ≤ now) :
    turn c now buf (some t) = .flushing buf := by
  unfold turn
  rw [if_pos ⟨hne, Or.inr (by simpa using ht)⟩]

/-- A short buffer waits for its deadline. -/
theorem turn_of_early {buf : List P} {t : ℕ} (hlength : buf.length < c.batchSize) (ht : now < t) :
    turn c now buf (some t) = .waiting buf (some t) := by
  unfold turn
  rw [if_neg]
  rintro ⟨-, hfull | hdue⟩
  · omega
  · exact absurd (by simpa using hdue) (Nat.not_le_of_lt ht)

theorem turn_cases (c : BatcherSettings) (now : ℕ) (buf : List P) (flushAt : Option ℕ) :
    turn c now buf flushAt = .waiting buf flushAt ∨ turn c now buf flushAt = .flushing buf := by
  unfold turn
  split
  · exact Or.inr rfl
  · exact Or.inl rfl

/-- A turn leaves the worker in its loop. -/
theorem inLoop_turn (buf : List P) (flushAt : Option ℕ) : InLoop (turn c now buf flushAt) := by
  rcases turn_cases c now buf flushAt with h | h
  · exact Or.inl ⟨buf, flushAt, h⟩
  · exact Or.inr ⟨buf, h⟩

end Worker

variable [Fintype ι] [DecidableEq ι] {c : BatcherSettings} {s t : Batcher P ι} {e : Event P ι}

omit [DecidableEq ι] in
theorem start_inv (hsize : 1 ≤ c.batchSize) : Inv c (start : Batcher P ι) where
  accounted := Shutdown.start_inv
  room := Nat.zero_le _
  sized i := ⟨hsize, by simp, fun t ht => by simp at ht⟩
  fifo := List.suffix_refl _
  running _ := ⟨rfl, fun i => Or.inl ⟨[], none, rfl⟩⟩

omit [Fintype ι] in
/-- One worker has moved. -/
theorem sized_move {s' : Batcher P ι} {i : ι} {w : Worker P}
    (hs : ∀ j, Sized c s.now (s.workers j)) (hworkers : s'.workers = s.workers)
    (hnow : s.now ≤ s'.now) (hw : Sized c s'.now w) (j : ι) :
    Sized c (move s' i w).now ((move s' i w).workers j) := by
  show Sized c s'.now (Function.update s'.workers i w j)
  by_cases hj : j = i
  · subst hj
    rw [Function.update_self]
    exact hw
  · rw [Function.update_of_ne hj, hworkers]
    exact (hs j).mono hnow

omit [Fintype ι] in
theorem inLoop_move {s' : Batcher P ι} {i : ι} {w : Worker P} (hs : ∀ j, InLoop (s.workers j))
    (hworkers : s'.workers = s.workers) (hw : InLoop w) (j : ι) :
    InLoop ((move s' i w).workers j) := by
  show InLoop (Function.update s'.workers i w j)
  by_cases hj : j = i
  · subst hj
    rw [Function.update_self]
    exact hw
  · rw [Function.update_of_ne hj, hworkers]
    exact hs j

omit [Fintype ι] [DecidableEq ι] in
theorem counted_now (s : Batcher P ι) (buf : List P) (written : Option ℕ) :
    (counted s buf written).now = s.now := by
  cases written <;> rfl

/-- The first point of a buffer starts its deadline. -/
theorem worker_of_take {i : ι} {lag : ℕ} {buf : List P} {flushAt : Option ℕ} {p : P}
    {queue : List P} (h : step c s (.take i lag) = some t)
    (hw : s.workers i = .waiting buf flushAt) (hqueue : s.queue = p :: queue) :
    t.workers i = turn c (s.now + lag) (buf ++ [p])
      (some (flushAt.getD (s.now + c.flushInterval))) := by
  simp only [step, hw, hqueue] at h
  split at h
  · contradiction
  · rw [← Option.some.inj h]
    exact Function.update_self _ _ _

omit [Fintype ι] in
/-- Only `put` lengthens the queue, and it waits for room. -/
theorem room_change (hsize : 1 ≤ c.batchSize) (h : Change c s e t)
    (hs : s.queue.length ≤ 8 * c.batchSize) : t.queue.length ≤ 8 * c.batchSize := by
  cases h with
  | @put p hroom =>
    have hlength : (s.queue ++ [p]).length = s.queue.length + 1 := by simp
    have hfull : ¬(0 < c.batchSize * 8 ∧ c.batchSize * 8 ≤ s.queue.length) := hroom
    show (s.queue ++ [p]).length ≤ 8 * c.batchSize
    omega
  | @took i lag buf flushAt p queue deadline hw hqueue hrun =>
    show queue.length ≤ 8 * c.batchSize
    rw [hqueue, List.length_cons] at hs
    exact (Nat.le_succ _).trans hs
  | @flushed i written buf hw => exact (counted_frame s buf written).1 ▸ hs
  | @closed i written buf hw => exact (counted_frame s buf written).1 ▸ hs
  | timedOut hw hrun => exact hs
  | ticked => exact hs
  | stopped hrun => exact hs
  | woken hw hstop => exact hs
  | cancelled hw hstop => exact hs
  | returned hstop hended => exact hs

omit [Fintype ι] in
/-- Points join the queue at its end and leave it at its head. -/
theorem fifo_change (h : Change c s e t) (hs : s.queue <:+ s.accepted) :
    t.queue <:+ t.accepted := by
  cases h with
  | @put p hroom =>
    obtain ⟨taken, htaken⟩ := hs
    exact ⟨taken, by rw [← List.append_assoc, htaken]⟩
  | @took i lag buf flushAt p queue deadline hw hqueue hrun =>
    refine List.IsSuffix.trans ?_ hs
    rw [hqueue]
    exact List.suffix_cons p queue
  | @flushed i written buf hw =>
    obtain ⟨hqueue, -, haccepted, -⟩ := counted_frame s buf written
    show (counted s buf written).queue <:+ (counted s buf written).accepted
    rw [hqueue, haccepted]
    exact hs
  | @closed i written buf hw =>
    obtain ⟨hqueue, -, haccepted, -⟩ := counted_frame s buf written
    show (counted s buf written).queue <:+ (counted s buf written).accepted
    rw [hqueue, haccepted]
    exact hs
  | timedOut hw hrun => exact hs
  | ticked => exact hs
  | stopped hrun => exact hs
  | woken hw hstop => exact hs
  | cancelled hw hstop => exact hs
  | returned hstop hended => exact hs

/-- The worker that takes a point goes on with its turn. -/
theorem sized_take {i : ι} {lag : ℕ} {buf : List P} {flushAt : Option ℕ} {p : P} {queue : List P}
    (h : step c s (.take i lag) = some t) (hs : Sized c s.now (s.workers i))
    (hw : s.workers i = .waiting buf flushAt) (hqueue : s.queue = p :: queue) :
    Sized c (s.now + lag) (t.workers i) := by
  rw [hw] at hs
  rw [worker_of_take h hw hqueue]
  refine sized_turn (by simp) ?_ ?_
  · rw [List.length_append, List.length_singleton]
    exact hs.1
  · cases flushAt with
    | none => exact Nat.add_le_add_right (Nat.le_add_right _ _) _
    | some t => exact (hs.2.2 t rfl).trans (by omega)

theorem sized_step (hsize : 1 ≤ c.batchSize) (hs : ∀ i, Sized c s.now (s.workers i))
    (h : step c s e = some t) : ∀ j, Sized c t.now (t.workers j) := by
  have hempty (now : ℕ) : Sized c now (.waiting ([] : List P) none) :=
    ⟨hsize, by simp, fun t ht => by simp at ht⟩
  cases change_of_step c h with
  | put hroom => exact hs
  | @took i lag buf flushAt p queue deadline hw hqueue hrun =>
    refine sized_move hs rfl (Nat.le_add_right _ _) ?_
    have hturn : Function.update s.workers i
        (turn c (s.now + lag) (buf ++ [p]) (some deadline)) i = _ := Function.update_self _ _ _
    exact hturn ▸ sized_take h (hs i) hw hqueue
  | @timedOut i buf t hw hrun =>
    have hi := hs i
    rw [hw] at hi
    have hne : buf ≠ [] := fun hnil => by simpa using hi.2.1.mp hnil
    exact sized_move hs rfl (le_refl _) (sized_turn hne hi.1.le (hi.2.2 t rfl))
  | ticked => exact fun j => (hs j).mono (Nat.le_add_right _ _)
  | @flushed i written buf hw =>
    refine sized_move hs (counted_frame s buf written).2.1 (counted_now s buf written).ge ?_
    split
    · trivial
    · exact hempty _
  | @closed i written buf hw =>
    exact sized_move hs (counted_frame s buf written).2.1 (counted_now s buf written).ge trivial
  | stopped hrun => exact hs
  | @woken i buf flushAt hw hstop =>
    have hi := hs i
    rw [hw] at hi
    refine sized_move hs rfl (le_refl _) ?_
    split
    · trivial
    · rename_i hne
      exact ⟨hne, hi.1.le⟩
  | cancelled hw hstop => exact sized_move hs rfl (le_refl _) trivial
  | returned hstop hended => exact hs

omit [Fintype ι] in
/-- Only `stop` takes workers out of their loops. -/
theorem running_change (h : Change c s e t)
    (hs : s.stopping = false → s.cancelled = [] ∧ ∀ i, InLoop (s.workers i))
    (hrun : t.stopping = false) : t.cancelled = [] ∧ ∀ i, InLoop (t.workers i) := by
  cases h with
  | put hroom => exact hs hrun
  | took hw hqueue hstop =>
    obtain ⟨hcancelled, hloop⟩ := hs hstop
    exact ⟨hcancelled, inLoop_move hloop rfl (inLoop_turn _ _)⟩
  | timedOut hw hstop =>
    obtain ⟨hcancelled, hloop⟩ := hs hstop
    exact ⟨hcancelled, inLoop_move hloop rfl (inLoop_turn _ _)⟩
  | ticked => exact hs hrun
  | @flushed i written buf hw =>
    obtain ⟨-, hworkers, -, hcancelled, hstopping, -⟩ := counted_frame s buf written
    replace hrun : s.stopping = false := hstopping ▸ hrun
    obtain ⟨hnone, hloop⟩ := hs hrun
    refine ⟨hcancelled.trans hnone, inLoop_move hloop hworkers ?_⟩
    rw [hrun]
    exact Or.inl ⟨[], none, rfl⟩
  | @closed i written buf hw =>
    -- a worker in its loop is not on its way out
    obtain ⟨-, -, -, -, hstopping, -⟩ := counted_frame s buf written
    obtain ⟨-, hloop⟩ := hs (hstopping ▸ hrun)
    rcases hloop i with ⟨_, _, hi⟩ | ⟨_, hi⟩ <;> rw [hw] at hi <;> contradiction
  | stopped hstop => exact absurd hrun (by simp)
  | woken hw hstop => exact absurd (hstop.symm.trans hrun) (by simp)
  | cancelled hw hstop => exact absurd (hstop.symm.trans hrun) (by simp)
  | returned hstop hended => exact hs hrun

theorem step_inv (hsize : 1 ≤ c.batchSize) (hs : Inv c s) (h : step c s e = some t) :
    Inv c t where
  accounted := Shutdown.change_inv hs.accounted (change_of_step c h)
  room := room_change hsize (change_of_step c h) hs.room
  sized := sized_step hsize hs.sized h
  fifo := fifo_change (change_of_step c h) hs.fifo
  running := running_change (change_of_step c h) hs.running

omit [DecidableEq ι] in
theorem Inv.bounded (hs : Inv c s) : Bounded c s where
  queue := hs.room
  held i := held_of_sized (hs.sized i)
  deadline i buf flushAt hw := by
    have hsized := hs.sized i
    rw [hw] at hsized
    exact hsized.2
  backlog := by
    have haccounted := congrArg Multiset.card hs.accounted.accounted
    have hhands : (Shutdown.inHands s.workers).card ≤ Fintype.card ι * c.batchSize := by
      rw [Shutdown.inHands, Multiset.card_sum, ← Finset.card_univ]
      exact Finset.sum_le_card_nsmul _ _ _ fun i _ => held_of_sized (hs.sized i)
    have hroom := hs.room
    simp only [Multiset.card_add, Multiset.coe_card] at haccounted
    rw [Nat.add_mul]
    omega

/-- However the submitters, the workers and the timers take turns, and whatever
becomes of the flushes, the batcher holds at most eight batches in its queue and
one for each worker. -/
theorem always_bounded (hsize : 1 ≤ c.batchSize) (es : List (Event P ι)) :
    Runs.Always (step c) (Bounded c) start es :=
  Runs.always_of_invariant (I := Inv c) (fun _ _ _ hs h => step_inv hsize hs h)
    (fun _ hs => hs.bounded) (start_inv hsize)

/-- One worker that is busy while the queue fills up. -/
def busy : List (Event ℕ Unit) :=
  [.put 1, .take () 0, .put 2, .put 3, .put 4, .put 5, .put 6, .put 7, .put 8, .put 9]

theorem busy_bounded : (Runs.exec (step ⟨1, 500⟩) start busy).any
      (fun s => decide (full ⟨1, 500⟩ s)) = true ∧
    Runs.Always (step ⟨1, 500⟩) (Bounded ⟨1, 500⟩) start busy :=
  ⟨by decide +kernel, always_bounded (by decide) busy⟩

end TimescaleLp.Backlog
