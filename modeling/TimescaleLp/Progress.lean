import TimescaleLp.Backlog

/-!
That the batcher catches up. Where the clock goes on, a flush ends, and a worker
that could do something from some time on does it, every point that was taken over
is written in the end: the queue is served from its head, a buffer comes due, and
a due buffer is flushed.
-/
namespace TimescaleLp.Progress

open Batcher Backlog Runs.Endless

variable {P ι : Type}

/-- A worker that waits could do something: there is a point, or its buffer is due. -/
def Ready (s : Batcher P ι) (i : ι) : Prop :=
  ∃ buf flushAt, s.workers i = .waiting buf flushAt ∧
    (s.queue ≠ [] ∨ ∃ t, flushAt = some t ∧ t ≤ s.now)

/-- The worker takes a point, or its wait for one ends at the deadline. -/
def Acts (s : Batcher P ι) (i : ι) : Event P ι → Prop
  | .take j _ => j = i
  | .timeout j => j = i ∧ ∃ buf t, s.workers i = .waiting buf (some t) ∧ t ≤ s.now
  | _ => False

def IsTake : Event P ι → Prop
  | .take _ _ => True
  | _ => False

def IsFinish (i : ι) : Event P ι → Prop
  | .finish j _ => j = i
  | _ => False

variable [Fintype ι] [DecidableEq ι] {c : BatcherSettings}

/-- A run in which `stop` is not called, the clock goes on, writes end, and no
worker stands still that could do something from some time on. -/
structure Fair (r : Runs.Endless (step c : Batcher P ι → Event P ι → Option (Batcher P ι))) :
    Prop where
  running : ∀ n, (r.state n).stopping = false
  clock : ∀ t, ∃ n, t ≤ (r.state n).now
  ends : ∀ n i, ((r.state n).workers i).isFlushing = true →
    ∃ m, n ≤ m ∧ IsFinish i (r.event m)
  acts : ∀ n i, (∀ m, n ≤ m → Ready (r.state m) i) → ∃ m, n ≤ m ∧ Acts (r.state m) i (r.event m)

section Step

variable {s t : Batcher P ι} {e : Event P ι} {i : ι}

/-- The event of another worker, or of none. -/
def Besides (i : ι) : Event P ι → Prop
  | .take j _ => j ≠ i
  | .timeout j => j ≠ i
  | .finish j _ => j ≠ i
  | .cancel j => j ≠ i
  | _ => True

omit [Fintype ι] in
theorem moved_other {s' : Batcher P ι} {j : ι} (w : Worker P) (hj : j ≠ i) :
    (move s' j w).workers i = s'.workers i := by
  show Function.update s'.workers j w i = s'.workers i
  exact Function.update_of_ne hj.symm w s'.workers

/-- A worker stands still while others move. -/
theorem worker_besides (h : step c s e = some t) (hbesides : Besides i e) :
    t.workers i = s.workers i := by
  cases change_of_step c h with
  | put hroom => rfl
  | took hw hqueue hrun => exact moved_other _ hbesides
  | timedOut hw hrun => exact moved_other _ hbesides
  | ticked => rfl
  | @flushed j written buf hw =>
    rw [moved_other _ hbesides, (counted_frame s buf written).2.1]
  | @closed j written buf hw =>
    rw [moved_other _ hbesides, (counted_frame s buf written).2.1]
  | stopped hrun => rfl
  | woken hw hstop => exact moved_other _ hbesides
  | cancelled hw hstop => exact moved_other _ hbesides
  | returned hstop hended => rfl

/-- What a step can do to a worker in its loop. -/
inductive Goes (c : BatcherSettings) (s : Batcher P ι) (i : ι) : Event P ι → Worker P → Prop
  | still {e : Event P ι} (hbesides : Besides i e) : Goes c s i e (s.workers i)
  | take {lag buf flushAt} (p : P) (hw : s.workers i = .waiting buf flushAt) :
      Goes c s i (.take i lag)
        (turn c (s.now + lag) (buf ++ [p]) (some (flushAt.getD (s.now + c.flushInterval))))
  | timeout {buf t} (hw : s.workers i = .waiting buf (some t)) :
      Goes c s i (.timeout i) (turn c s.now buf (some t))
  | finish {written buf} (hw : s.workers i = .flushing buf) :
      Goes c s i (.finish i written) (.waiting [] none)

theorem goes_of_step (h : step c s e = some t) (hrun : s.stopping = false)
    (hloop : InLoop (s.workers i)) : Goes c s i e (t.workers i) := by
  by_cases hbesides : Besides i e
  · rw [worker_besides h hbesides]
    exact Goes.still hbesides
  · have hchange := change_of_step c h
    cases hchange with
    | put hroom => exact absurd trivial hbesides
    | @took j lag buf flushAt p queue deadline hw hqueue hrunning =>
      obtain rfl : j = i := not_not.mp hbesides
      rw [worker_of_take h hw hqueue]
      exact Goes.take p hw
    | @timedOut j buf t hw hrunning =>
      obtain rfl : j = i := not_not.mp hbesides
      show Goes c s j _ (Function.update s.workers j _ j)
      rw [Function.update_self]
      exact Goes.timeout hw
    | ticked => exact absurd trivial hbesides
    | @flushed j written buf hw =>
      obtain rfl : j = i := not_not.mp hbesides
      show Goes c s j _ (Function.update (counted s buf written).workers j _ j)
      rw [Function.update_self, hrun]
      exact Goes.finish hw
    | @closed j written buf hw =>
      obtain rfl : j = i := not_not.mp hbesides
      rcases hloop with ⟨_, _, hi⟩ | ⟨_, hi⟩ <;> rw [hw] at hi <;> contradiction
    | stopped hrunning => exact absurd trivial hbesides
    | woken hw hstop =>
      rw [hrun] at hstop
      contradiction
    | cancelled hw hstop =>
      rw [hrun] at hstop
      contradiction
    | returned hstop hended => exact absurd trivial hbesides

omit [Fintype ι] [DecidableEq ι] in
theorem not_acts_of_besides (hbesides : Besides i e) : ¬Acts s i e := by
  intro hacts
  cases e with
  | take j lag => exact hbesides hacts
  | timeout j => exact hbesides hacts.1
  | _ => exact hacts

omit [Fintype ι] [DecidableEq ι] in
/-- A worker that acts on a due buffer flushes it. -/
theorem Goes.due {w : Worker P} (h : Goes c s i e w) (hacts : Acts s i e) {buf : List P} {t : ℕ}
    (hw : s.workers i = .waiting buf (some t)) (hne : buf ≠ []) (ht : t ≤ s.now) :
    w.isFlushing = true := by
  cases h with
  | still hbesides => exact absurd hacts (not_acts_of_besides hbesides)
  | take p hw' =>
    cases hw.symm.trans hw'
    have hgrown : buf ++ [p] ≠ [] := List.append_ne_nil_of_left_ne_nil hne [p]
    rw [Option.getD_some, turn_of_due hgrown (ht.trans (Nat.le_add_right _ _))]
    rfl
  | timeout hw' =>
    cases hw.symm.trans hw'
    rw [turn_of_due hne ht]
    rfl
  | finish hw' => exact absurd hacts id

omit [Fintype ι] [DecidableEq ι] in
/-- A worker keeps what it holds until its flush ends. -/
theorem Goes.held_subset {w : Worker P} (h : Goes c s i e w) (hnot : ¬IsFinish i e) :
    ((s.workers i).held : Multiset P) ≤ w.held := by
  cases h with
  | still hbesides => exact le_refl _
  | take p hw =>
    rw [hw, held_turn, Worker.held]
    exact (List.sublist_append_left _ _).subperm
  | timeout hw => rw [hw, held_turn, Worker.held]
  | finish hw => exact absurd rfl hnot

theorem handed_of_finish (h : step c s e = some t) (hfinish : IsFinish i e) :
    (t.handed : Multiset P) = s.handed + (s.workers i).held := by
  have hchange := change_of_step c h
  cases e with
  | finish j written =>
    obtain rfl : j = i := hfinish
    cases hchange with
    | flushed hw => rw [move, Shutdown.counted_handed, hw, ← Multiset.coe_add]; rfl
    | closed hw => rw [move, Shutdown.counted_handed, hw, ← Multiset.coe_add]; rfl
  | _ => exact absurd hfinish id

theorem handed_of_not_finish (h : step c s e = some t) (hnot : ∀ i, ¬IsFinish i e) :
    t.handed = s.handed := by
  cases change_of_step c h with
  | flushed hw => exact absurd rfl (hnot _)
  | closed hw => exact absurd rfl (hnot _)
  | _ => rfl

omit [Fintype ι] [DecidableEq ι] in
theorem finish_unique {j : ι} (hi : IsFinish i e) (hj : IsFinish j e) : i = j := by
  cases e with
  | finish k written => exact hi.symm.trans hj
  | _ => exact absurd hi id

theorem now_mono (h : step c s e = some t) : s.now ≤ t.now := by
  cases change_of_step c h with
  | took hw hqueue hrun => exact Nat.le_add_right _ _
  | ticked => exact Nat.le_add_right _ _
  | @flushed i written buf hw => exact (counted_now s buf written).ge
  | @closed i written buf hw => exact (counted_now s buf written).ge
  | _ => exact le_refl _

/-- Nothing that was taken over is forgotten. -/
theorem accepted_mono (h : step c s e = some t) : s.accepted <+: t.accepted := by
  cases change_of_step c h with
  | put hroom => exact List.prefix_append _ _
  | @flushed i written buf hw => rw [move, (counted_frame s buf written).2.2.1]
  | @closed i written buf hw => rw [move, (counted_frame s buf written).2.2.1]
  | _ => exact List.prefix_refl _

/-- The number of points that workers have taken. -/
def taken (s : Batcher P ι) : ℕ := s.accepted.length - s.queue.length

/-- Only a take brings the queue forward, and nothing sets it back. -/
theorem taken_step (hs : Inv c s) (h : step c s e = some t) :
    taken s ≤ taken t ∧ (IsTake e → taken s < taken t) := by
  have hlength := hs.fifo.length_le
  cases change_of_step c h with
  | @put p hroom =>
    refine ⟨?_, fun h => absurd h id⟩
    simp only [taken, List.length_append, List.length_singleton]
    omega
  | @took i lag buf flushAt p queue deadline hw hqueue hrun =>
    have hlt : taken s < s.accepted.length - queue.length := by
      rw [hqueue, List.length_cons] at hlength
      rw [taken, hqueue, List.length_cons]
      omega
    exact ⟨hlt.le, fun _ => hlt⟩
  | @flushed i written buf hw =>
    obtain ⟨hqueue, -, haccepted, -⟩ := counted_frame s buf written
    refine ⟨?_, fun h => absurd h id⟩
    rw [taken, taken, move, hqueue, haccepted]
  | @closed i written buf hw =>
    obtain ⟨hqueue, -, haccepted, -⟩ := counted_frame s buf written
    refine ⟨?_, fun h => absurd h id⟩
    rw [taken, taken, move, hqueue, haccepted]
  | _ => exact ⟨le_refl _, fun h => absurd h id⟩

theorem queue_ne_nil (h : step c s e = some t) (hnot : ¬IsTake e) (hs : s.queue ≠ []) :
    t.queue ≠ [] := by
  cases change_of_step c h with
  | put hroom => simp
  | took hw hqueue hrun => exact absurd trivial hnot
  | @flushed i written buf hw => rwa [move, (counted_frame s buf written).1]
  | @closed i written buf hw => rwa [move, (counted_frame s buf written).1]
  | _ => exact hs

end Step

omit [Fintype ι] [DecidableEq ι] in
theorem exists_flushing {w : Worker P} (h : w.isFlushing = true) : ∃ buf, w = .flushing buf := by
  cases w with
  | flushing buf => exact ⟨buf, rfl⟩
  | _ => contradiction

section Run

variable {r : Runs.Endless (step c : Batcher P ι → Event P ι → Option (Batcher P ι))} {n : ℕ}
  {i : ι}

theorem inv_at (hsize : 1 ≤ c.batchSize) (hstart : r.state 0 = start) (n : ℕ) :
    Inv c (r.state n) :=
  r.invariant (fun _ _ _ hs h => step_inv hsize hs h) (hstart ▸ start_inv hsize) n

theorem goes (hsize : 1 ≤ c.batchSize) (hstart : r.state 0 = start) (hfair : Fair r) (n : ℕ)
    (i : ι) : Goes c (r.state n) i (r.event n) ((r.state (n + 1)).workers i) :=
  goes_of_step (r.next n) (hfair.running n)
    (((inv_at hsize hstart n).running (hfair.running n)).2 i)

/-- A flush lasts until it ends. -/
theorem finish_of_flushing (hsize : 1 ≤ c.batchSize) (hstart : r.state 0 = start)
    (hfair : Fair r) {buf : List P} (hn : (r.state n).workers i = .flushing buf) :
    ∃ m, n ≤ m ∧ (r.state m).workers i = .flushing buf ∧ IsFinish i (r.event m) := by
  refine meets (P := fun m => (r.state m).workers i = .flushing buf) hn ?_ fun hforever => ?_
  · intro k hk hflush hnot
    have hgoes := goes hsize hstart hfair k i
    generalize r.event k = e, (r.state (k + 1)).workers i = w at hgoes hnot ⊢
    cases hgoes with
    | still hbesides => exact hflush
    | take p hw => rw [hflush] at hw; contradiction
    | timeout hw => rw [hflush] at hw; contradiction
    | finish hw => exact absurd rfl hnot
  · exact hfair.ends n i (by rw [hn]; rfl)

/-- After its flush a worker waits with an empty buffer. -/
theorem idle_of_flushing (hsize : 1 ≤ c.batchSize) (hstart : r.state 0 = start)
    (hfair : Fair r) {buf : List P} (hn : (r.state n).workers i = .flushing buf) :
    ∃ m, n ≤ m ∧ (r.state m).workers i = .waiting [] none := by
  obtain ⟨m, hm, hflush, hfinish⟩ := finish_of_flushing hsize hstart hfair hn
  refine ⟨m + 1, hm.trans (Nat.le_succ m), ?_⟩
  have hgoes := goes hsize hstart hfair m i
  generalize r.event m = e, (r.state (m + 1)).workers i = w at hgoes hfinish ⊢
  cases hgoes with
  | @still e hbesides =>
    cases e with
    | finish j written => exact absurd hfinish hbesides
    | _ => exact absurd hfinish id
  | take p hw => exact absurd hfinish id
  | timeout hw => exact absurd hfinish id
  | finish hw => rfl

/-- Where no worker takes a point, a worker flushes what it has. -/
theorem idle_of_no_take (hsize : 1 ≤ c.batchSize) (hstart : r.state 0 = start) (hfair : Fair r)
    (hnone : ∀ m, n ≤ m → ¬IsTake (r.event m)) (hqueue : ∀ m, n ≤ m → (r.state m).queue ≠ [])
    (i : ι) : ∃ m, n ≤ m ∧ (r.state m).workers i = .waiting [] none := by
  have hinv := inv_at hsize hstart n
  have hsized := hinv.sized i
  rcases (hinv.running (hfair.running n)).2 i with ⟨buf, flushAt, hw⟩ | ⟨buf, hw⟩
  · rw [hw] at hsized
    obtain ⟨hlength, hdeadline, -⟩ := hsized
    cases flushAt with
    | none => exact ⟨n, le_refl n, by rw [hw, hdeadline.mpr rfl]⟩
    | some t =>
      have hne : buf ≠ [] := fun hnil => by simpa using hdeadline.mp hnil
      -- the worker waits until it acts, which is at its deadline
      have hkeep : ∀ k, n ≤ k → (r.state k).workers i = .waiting buf (some t) →
          ¬Acts (r.state k) i (r.event k) →
          (r.state (k + 1)).workers i = .waiting buf (some t) := by
        intro k hk hwk hnot
        have hgoes := goes hsize hstart hfair k i
        have hnotake := hnone k hk
        generalize r.event k = e, (r.state (k + 1)).workers i = w at hgoes hnot hnotake ⊢
        cases hgoes with
        | still hbesides => exact hwk
        | take p hw => exact absurd trivial hnotake
        | timeout hw' =>
          cases hwk.symm.trans hw'
          refine turn_of_early hlength (Nat.lt_of_not_le fun hdue => hnot ?_)
          exact ⟨rfl, buf, t, hwk, hdue⟩
        | finish hw' => cases hwk.symm.trans hw'
      obtain ⟨m, hm, hwm, hacts⟩ := meets hw hkeep fun hforever =>
        hfair.acts n i fun m hm => ⟨buf, some t, hforever m hm, Or.inl (hqueue m hm)⟩
      have hgoes := goes hsize hstart hfair m i
      have hdue : t ≤ (r.state m).now := by
        have hnotake := hnone m hm
        generalize r.event m = e at hacts hnotake
        cases e with
        | take j lag => exact absurd trivial hnotake
        | timeout j =>
          obtain ⟨-, buf', t', hw', hdue⟩ := hacts
          cases hwm.symm.trans hw'
          exact hdue
        | _ => exact absurd hacts id
      obtain ⟨buf', hflush⟩ := exists_flushing (hgoes.due hacts hwm hne hdue)
      obtain ⟨k, hk, hidle⟩ := idle_of_flushing hsize hstart hfair hflush
      exact ⟨k, (hm.trans (Nat.le_succ m)).trans hk, hidle⟩
  · exact idle_of_flushing hsize hstart hfair hw

/-- While points are queued some worker takes one. -/
theorem take_of_queue [Nonempty ι] (hsize : 1 ≤ c.batchSize) (hstart : r.state 0 = start)
    (hfair : Fair r) (hn : (r.state n).queue ≠ []) : ∃ m, n ≤ m ∧ IsTake (r.event m) := by
  by_contra hnone
  replace hnone : ∀ m, n ≤ m → ¬IsTake (r.event m) := fun m hm h => hnone ⟨m, hm, h⟩
  have hqueue : ∀ m, n ≤ m → (r.state m).queue ≠ [] := by
    intro m hm
    induction m, hm using Nat.le_induction with
    | base => exact hn
    | succ m hm ih => exact queue_ne_nil (r.next m) (hnone m hm) ih
  obtain ⟨i⟩ := ‹Nonempty ι›
  -- once it waits with an empty buffer, only a take could move this worker
  obtain ⟨m, hm, hidle⟩ := idle_of_no_take hsize hstart hfair hnone hqueue i
  have hstays : ∀ k, m ≤ k → (r.state k).workers i = .waiting [] none := by
    intro k hk
    induction k, hk using Nat.le_induction with
    | base => exact hidle
    | succ k hk ih =>
      have hgoes := goes hsize hstart hfair k i
      have hnot := hnone k (hm.trans hk)
      generalize r.event k = e, (r.state (k + 1)).workers i = w at hgoes hnot ⊢
      cases hgoes with
      | still hbesides => exact ih
      | take p hw => exact absurd trivial hnot
      | timeout hw => cases ih.symm.trans hw
      | finish hw => rfl
  obtain ⟨k, hk, hacts⟩ := hfair.acts m i fun k hk =>
    ⟨[], none, hstays k hk, Or.inl (hqueue k (hm.trans hk))⟩
  have hnot := hnone k (hm.trans hk)
  generalize r.event k = e at hacts hnot
  cases e with
  | take j lag => exact hnot trivial
  | timeout j =>
    obtain ⟨-, buf, t, hw, -⟩ := hacts
    cases (hstays k hk).symm.trans hw
  | _ => exact hacts

/-- A worker that holds points flushes them. -/
theorem finish_of_held (hsize : 1 ≤ c.batchSize) (hstart : r.state 0 = start) (hfair : Fair r)
    (hn : ((r.state n).workers i).held ≠ []) : ∃ m, n ≤ m ∧ IsFinish i (r.event m) := by
  have hinv := inv_at hsize hstart n
  have hsized := hinv.sized i
  rcases (hinv.running (hfair.running n)).2 i with ⟨buf, flushAt, hw⟩ | ⟨buf, hw⟩
  · rw [hw] at hn hsized
    obtain ⟨t, rfl⟩ := Option.ne_none_iff_exists'.mp (hn ∘ hsized.2.1.mpr)
    -- its deadline stays while it waits
    have hkeep : ∀ k, n ≤ k → (∃ buf, buf ≠ [] ∧ (r.state k).workers i = .waiting buf (some t)) →
        ¬((r.state (k + 1)).workers i).isFlushing = true →
        ∃ buf, buf ≠ [] ∧ (r.state (k + 1)).workers i = .waiting buf (some t) := by
      rintro k hk ⟨buf, hne, hwk⟩ hnot
      have hgoes := goes hsize hstart hfair k i
      generalize r.event k = e, (r.state (k + 1)).workers i = w at hgoes hnot ⊢
      cases hgoes with
      | still hbesides => exact ⟨buf, hne, hwk⟩
      | @take lag buf' flushAt p hw' =>
        cases hwk.symm.trans hw'
        rcases turn_cases c ((r.state k).now + lag) (buf ++ [p]) (some t) with h | h
        · exact ⟨buf ++ [p], List.append_ne_nil_of_left_ne_nil hne [p], h⟩
        · exact absurd (congrArg Worker.isFlushing h) hnot
      | timeout hw' =>
        cases hwk.symm.trans hw'
        rcases turn_cases c (r.state k).now buf (some t) with h | h
        · exact ⟨buf, hne, h⟩
        · exact absurd (congrArg Worker.isFlushing h) hnot
      | finish hw' => cases hwk.symm.trans hw'
    rcases lasts ⟨buf, hn, hw⟩ hkeep with hforever | ⟨m, hm, -, hflush⟩
    · -- the deadline passes, and the worker acts on it
      obtain ⟨k, hk⟩ := hfair.clock t
      have hdue : ∀ m, max n k ≤ m → t ≤ (r.state m).now := fun m hm =>
        hk.trans (r.later (R := fun s t => s.now ≤ t.now) (fun s => le_refl _)
          (fun a s e t hle h => hle.trans (now_mono h)) ((le_max_right n k).trans hm))
      obtain ⟨m, hm, hacts⟩ := hfair.acts (max n k) i fun m hm => by
        obtain ⟨buf, -, hwm⟩ := hforever m ((le_max_left n k).trans hm)
        exact ⟨buf, some t, hwm, Or.inr ⟨t, rfl, hdue m hm⟩⟩
      have hnm := (le_max_left n k).trans hm
      obtain ⟨buf, hne, hwm⟩ := hforever m hnm
      obtain ⟨buf', -, hwait⟩ := hforever (m + 1) (hnm.trans (Nat.le_succ m))
      have hflush := (goes hsize hstart hfair m i).due hacts hwm hne (hdue m hm)
      rw [hwait] at hflush
      contradiction
    · obtain ⟨k, hk, hfinish⟩ := hfair.ends (m + 1) i hflush
      exact ⟨k, (hm.trans (Nat.le_succ m)).trans hk, hfinish⟩
  · exact hfair.ends n i (by rw [hw]; rfl)

/-- What the workers held at some time: those that have ended a flush since have
handed it on, and the others hold it still. -/
theorem exists_served (hsize : 1 ≤ c.batchSize) (hstart : r.state 0 = start) (hfair : Fair r)
    {m : ℕ} (hm : n ≤ m) : ∃ ended : Finset ι,
      (∀ i, (∃ k, n ≤ k ∧ k < m ∧ IsFinish i (r.event k)) → i ∈ ended) ∧
      ((r.state n).handed : Multiset P) + ∑ i ∈ ended, (((r.state n).workers i).held : Multiset P) ≤
        (r.state m).handed ∧
      ∀ i ∉ ended, (((r.state n).workers i).held : Multiset P) ≤ ((r.state m).workers i).held := by
  induction m, hm using Nat.le_induction with
  | base =>
    refine ⟨∅, fun i ⟨k, hk, hlt, _⟩ => absurd hk (Nat.not_le_of_lt hlt), ?_, fun i _ => le_refl _⟩
    rw [Finset.sum_empty, add_zero]
  | succ m hm ih =>
    obtain ⟨ended, hended, hhanded, hheld⟩ := ih
    have hkept : ∀ i ∉ ended, ¬IsFinish i (r.event m) →
        (((r.state n).workers i).held : Multiset P) ≤ ((r.state (m + 1)).workers i).held :=
      fun i hi hnot => (hheld i hi).trans ((goes hsize hstart hfair m i).held_subset hnot)
    by_cases hfinish : ∃ j, IsFinish j (r.event m)
    · obtain ⟨j, hj⟩ := hfinish
      have hnow := handed_of_finish (r.next m) hj
      refine ⟨insert j ended, ?_, ?_, fun i hi => ?_⟩
      · rintro i ⟨k, hk, hlt, hi⟩
        rcases Nat.lt_succ_iff_lt_or_eq.mp hlt with hlt | rfl
        · exact Finset.mem_insert_of_mem (hended i ⟨k, hk, hlt, hi⟩)
        · exact finish_unique hi hj ▸ Finset.mem_insert_self i ended
      · by_cases hmem : j ∈ ended
        · rw [Finset.insert_eq_of_mem hmem, hnow]
          exact hhanded.trans (Multiset.le_add_right _ _)
        · rw [Finset.sum_insert hmem, hnow, add_left_comm, add_comm]
          exact add_le_add hhanded (hheld j hmem)
      · rw [Finset.mem_insert, not_or] at hi
        exact hkept i hi.2 fun h => hi.1 (finish_unique h hj)
    · replace hfinish : ∀ i, ¬IsFinish i (r.event m) := not_exists.mp hfinish
      refine ⟨ended, ?_, ?_, fun i hi => hkept i hi (hfinish i)⟩
      · rintro i ⟨k, hk, hlt, hi⟩
        rcases Nat.lt_succ_iff_lt_or_eq.mp hlt with hlt | rfl
        · exact hended i ⟨k, hk, hlt, hi⟩
        · exact absurd hi (hfinish i)
      · rw [handed_of_not_finish (r.next m) hfinish]
        exact hhanded

/-- What the workers hold and what has been written is written some time later. -/
theorem hands_written (hsize : 1 ≤ c.batchSize) (hstart : r.state 0 = start) (hfair : Fair r)
    (n : ℕ) : ∃ m, n ≤ m ∧ Shutdown.inHands (r.state n).workers + (r.state n).handed ≤
      ((r.state m).handed : Multiset P) := by
  -- each worker that holds something ends a flush
  have heach : ∀ i, ∃ m, ((r.state n).workers i).held ≠ [] →
      ∃ k, n ≤ k ∧ k < m ∧ IsFinish i (r.event k) := by
    intro i
    by_cases hheld : ((r.state n).workers i).held = []
    · exact ⟨n, fun h => absurd hheld h⟩
    · obtain ⟨k, hk, hfinish⟩ := finish_of_held hsize hstart hfair hheld
      exact ⟨k + 1, fun _ => ⟨k, hk, Nat.lt_succ_self k, hfinish⟩⟩
  choose time htime using heach
  have hm : n ≤ n + ∑ i, time i := Nat.le_add_right _ _
  obtain ⟨ended, hended, hhanded, -⟩ := exists_served hsize hstart hfair hm
  refine ⟨_, hm, ?_⟩
  have hall : Shutdown.inHands (r.state n).workers =
      ∑ i ∈ ended, (((r.state n).workers i).held : Multiset P) := by
    refine (Finset.sum_subset (Finset.subset_univ ended) fun i _ hi => ?_).symm
    by_contra hheld
    obtain ⟨k, hk, hlt, hfinish⟩ := htime i fun hnil => hheld (by rw [hnil]; rfl)
    have hsum : time i ≤ ∑ j, time j :=
      Finset.single_le_sum (fun j _ => Nat.zero_le (time j)) (Finset.mem_univ i)
    exact hi (hended i ⟨k, hk, by omega, hfinish⟩)
  rw [hall, add_comm]
  exact hhanded

theorem accepted_later {m : ℕ} (h : n ≤ m) : (r.state n).accepted <+: (r.state m).accepted :=
  r.later (R := fun s t => s.accepted <+: t.accepted) (fun _ => List.prefix_refl _)
    (fun _ _ _ _ hle h => hle.trans (accepted_mono h)) h

theorem taken_later (hsize : 1 ≤ c.batchSize) (hstart : r.state 0 = start) {m : ℕ} (h : n ≤ m) :
    taken (r.state n) ≤ taken (r.state m) := by
  induction m, h using Nat.le_induction with
  | base => exact le_refl _
  | succ m _ ih => exact ih.trans (taken_step (inv_at hsize hstart m) (r.next m)).1

/-- The workers come to take all the points that are queued. -/
theorem queue_taken [Nonempty ι] (hsize : 1 ≤ c.batchSize) (hstart : r.state 0 = start)
    (hfair : Fair r) (n : ℕ) : ∃ m, n ≤ m ∧ (r.state n).accepted.length ≤ taken (r.state m) := by
  refine r.climbs fun k hk hlt => ?_
  have hlength := (accepted_later (r := r) hk).length_le
  have hqueue : (r.state k).queue ≠ [] := by
    intro hnil
    rw [taken, hnil, List.length_nil] at hlt
    omega
  obtain ⟨m, hm, htake⟩ := take_of_queue hsize hstart hfair hqueue
  exact ⟨m + 1, hm.trans (Nat.le_succ m), (taken_later hsize hstart hm).trans_lt
    ((taken_step (inv_at hsize hstart m) (r.next m)).2 htake)⟩

omit [DecidableEq ι] in
/-- What is no longer queued is in the hands of a worker or has been written. -/
theorem taken_in_hands {s : Batcher P ι} (hs : Inv c s) (hrun : s.stopping = false)
    {points : List P} (hpoints : points <+: s.accepted) (hlength : points.length ≤ taken s) :
    (points : Multiset P) ≤ Shutdown.inHands s.workers + s.handed := by
  obtain ⟨done, hdone⟩ := hs.fifo
  have hle : points.length ≤ done.length := by
    rwa [taken, ← hdone, List.length_append, Nat.add_sub_cancel_right] at hlength
  have haccounted : (s.accepted : Multiset P) = s.queue + Shutdown.inHands s.workers + s.handed +
    s.cancelled := hs.accounted.accounted
  rw [(hs.running hrun).1, Multiset.coe_nil, add_zero, ← hdone, ← Multiset.coe_add,
    add_comm (done : Multiset P), add_assoc, add_right_inj] at haccounted
  rw [← hdone] at hpoints
  have hpart : points <+: done :=
    List.prefix_of_prefix_length_le hpoints (List.prefix_append done s.queue) hle
  rw [← haccounted]
  exact hpart.sublist.subperm

/-- In a fair run every point that was taken over is, some time later, in a write
that has ended. -/
theorem always_written [Nonempty ι] (hsize : 1 ≤ c.batchSize) (hstart : r.state 0 = start)
    (hfair : Fair r) (n : ℕ) :
    ∃ m, n ≤ m ∧ ((r.state n).accepted : Multiset P) ≤ (r.state m).handed := by
  obtain ⟨k, hk, htaken⟩ := queue_taken hsize hstart hfair n
  obtain ⟨m, hm, hwritten⟩ := hands_written hsize hstart hfair k
  exact ⟨m, hk.trans hm, (taken_in_hands (inv_at hsize hstart k) (hfair.running k)
    (accepted_later hk) htaken).trans hwritten⟩

end Run

section Lone

/-- One point that is flushed at its deadline, and then only the clock goes on. -/
def loneEvent : ℕ → Event ℕ Unit
  | 0 => .put 7
  | 1 => .take () 0
  | 2 => .tick 3
  | 3 => .timeout ()
  | 4 => .finish () (some 1)
  | _ + 5 => .tick 1

def loneState : ℕ → Batcher ℕ Unit
  | 0 => start
  | n + 1 => (step ⟨2, 3⟩ (loneState n) (loneEvent n)).getD (loneState n)

theorem loneState_next (n : ℕ) :
    step ⟨2, 3⟩ (loneState n) (loneEvent n) = some (loneState (n + 1)) := by
  have hsome : (step ⟨2, 3⟩ (loneState n) (loneEvent n)).isSome = true := by
    match n with
    | 0 => rfl
    | 1 => rfl
    | 2 => rfl
    | 3 => rfl
    | 4 => rfl
    | _ + 5 => rfl
  obtain ⟨t, ht⟩ := Option.isSome_iff_exists.mp hsome
  rw [loneState, ht, Option.getD_some]

def lone : Runs.Endless (step ⟨2, 3⟩ : Batcher ℕ Unit → Event ℕ Unit → Option (Batcher ℕ Unit)) :=
  ⟨loneState, loneEvent, loneState_next⟩

theorem loneState_late (n : ℕ) :
    loneState (n + 5) = { loneState 5 with now := (loneState 5).now + n } := by
  induction n with
  | zero => rfl
  | succ n ih =>
    rw [Nat.add_right_comm, loneState, ih]
    rfl

theorem lone_fair : Fair lone where
  running n := by
    match n with
    | 0 => rfl
    | 1 => rfl
    | 2 => rfl
    | 3 => rfl
    | 4 => rfl
    | n + 5 =>
      show (loneState (n + 5)).stopping = false
      rw [loneState_late]
      rfl
  clock t := by
    refine ⟨t + 5, ?_⟩
    show t ≤ (loneState (t + 5)).now
    rw [loneState_late]
    exact Nat.le_add_left _ _
  ends n i h := by
    match n with
    | 0 => exact absurd (show false = true from h) Bool.false_ne_true
    | 1 => exact absurd (show false = true from h) Bool.false_ne_true
    | 2 => exact absurd (show false = true from h) Bool.false_ne_true
    | 3 => exact absurd (show false = true from h) Bool.false_ne_true
    | 4 => exact ⟨4, le_refl 4, rfl⟩
    | n + 5 =>
      replace h : ((loneState (n + 5)).workers i).isFlushing = true := h
      rw [loneState_late] at h
      contradiction
  acts n i h := by
    obtain ⟨buf, flushAt, hw, hready⟩ := h (n + 5) (Nat.le_add_right n 5)
    replace hw : (loneState (n + 5)).workers i = .waiting buf flushAt := hw
    replace hready : (loneState (n + 5)).queue ≠ [] ∨ _ := hready
    rw [loneState_late] at hw hready
    cases (show Worker.waiting [] none = Worker.waiting buf flushAt from hw)
    rcases hready with hqueue | ⟨t, ht, -⟩
    · exact absurd rfl hqueue
    · contradiction

theorem lone_written : (loneState 1).accepted = [7] ∧
    ∃ m, 1 ≤ m ∧ ((lone.state 1).accepted : Multiset ℕ) ≤ (lone.state m).handed :=
  ⟨rfl, always_written (by decide) rfl lone_fair 1⟩

end Lone

end TimescaleLp.Progress
