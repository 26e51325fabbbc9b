import Mathlib.Algebra.BigOperators.Group.Finset.Piecewise
import Mathlib.Algebra.Order.Group.Multiset
import Mathlib.Data.Fintype.BigOperators
import TimescaleLp.Runs

/-!
The batcher. Submitters put points into one queue; workers take them into
buffers of their own and flush a buffer when it is full or its deadline has
passed. A step is what happens between two awaits of one coroutine. What the
write of a batch does is left open here: it ends with a number of rows, with an
exception, or by the cancellation of its worker. The lists of points are
history, which no step reads.
-/
namespace TimescaleLp

/-- Where a worker waits. -/
inductive Worker (P : Type)
  /-- for a point, with the deadline of the buffer -/
  | waiting (buf : List P) (flushAt : Option ℕ)
  /-- for a flush of the loop -/
  | flushing (buf : List P)
  /-- for the flush after the loop -/
  | closing (buf : List P)
  | ended

structure BatcherSettings where
  batchSize : ℕ
  flushInterval : ℕ

/-- The batcher and its history: the points whose `put` completed, those of
writes that ran to their end, and those of writes that were cancelled. -/
structure Batcher (P ι : Type) where
  now : ℕ
  queue : List P
  workers : ι → Worker P
  stopping : Bool
  stopped : Bool
  pointsWritten : ℕ
  pointsFailed : ℕ
  accepted : List P
  handed : List P
  cancelled : List P

namespace Worker

variable {P : Type}

/-- The points in the hands of a worker. -/
def held : Worker P → List P
  | .waiting buf _ => buf
  | .flushing buf => buf
  | .closing buf => buf
  | .ended => []

def isFlushing : Worker P → Bool
  | .flushing _ => true
  | _ => false

def isEnded : Worker P → Bool
  | .ended => true
  | _ => false

end Worker

namespace Batcher

inductive Event (P ι : Type)
  | put (p : P)
  | take (i : ι) (lag : ℕ)
  | timeout (i : ι)
  | tick (d : ℕ)
  /-- `write_batch` returns the number of rows, or raises -/
  | finish (i : ι) (written : Option ℕ)
  | stop
  | cancel (i : ι)
  | ret

variable {P ι : Type}

def start : Batcher P ι where
  now := 0
  queue := []
  workers := fun _ => .waiting [] none
  stopping := false
  stopped := false
  pointsWritten := 0
  pointsFailed := 0
  accepted := []
  handed := []
  cancelled := []

/-- `maxsize = 0` is no bound. -/
def full (c : BatcherSettings) (s : Batcher P ι) : Prop :=
  0 < c.batchSize * 8 ∧ c.batchSize * 8 ≤ s.queue.length

instance (c : BatcherSettings) (s : Batcher P ι) : Decidable (full c s) :=
  inferInstanceAs (Decidable (_ ∧ _))

/-- The end of a turn of the loop: flush, or wait for the next point. -/
def turn (c : BatcherSettings) (now : ℕ) (buf : List P) (flushAt : Option ℕ) : Worker P :=
  if buf ≠ [] ∧ (c.batchSize ≤ buf.length ∨ flushAt.any (fun t => decide (t ≤ now)) = true) then
    .flushing buf
  else .waiting buf flushAt

/-- The counters after a flush. -/
def counted (s : Batcher P ι) (buf : List P) : Option ℕ → Batcher P ι
  | some n => { s with pointsWritten := s.pointsWritten + n, handed := s.handed ++ buf }
  | none => { s with pointsFailed := s.pointsFailed + buf.length, handed := s.handed ++ buf }

variable [DecidableEq ι]

def move (s : Batcher P ι) (i : ι) (w : Worker P) : Batcher P ι :=
  { s with workers := Function.update s.workers i w }

variable [Fintype ι] (c : BatcherSettings)

/-- Once `stop` has set the event and cancelled the tasks, a worker that waits
for a point gets the cancellation there, and the point stays in the queue. A
write that is under way either lets the cancellation through or ends in spite of
it. -/
def step (s : Batcher P ι) : Event P ι → Option (Batcher P ι)
  | .put p =>
    if full c s then none
    else some { s with queue := s.queue ++ [p], accepted := s.accepted ++ [p] }
  | .take i lag =>
    match s.workers i, s.queue with
    | .waiting buf flushAt, p :: queue =>
      if s.stopping then none
      else
        let deadline := flushAt.getD (s.now + c.flushInterval)
        some (move { s with now := s.now + lag, queue := queue } i
          (turn c (s.now + lag) (buf ++ [p]) (some deadline)))
    | _, _ => none
  | .timeout i =>
    match s.workers i with
    | .waiting buf (some t) =>
      if s.stopping then none else some (move s i (turn c s.now buf (some t)))
    | _ => none
  | .tick d => some { s with now := s.now + d }
  | .finish i written =>
    match s.workers i with
    | .flushing buf =>
      some (move (counted s buf written) i (if s.stopping then .ended else .waiting [] none))
    | .closing buf => some (move (counted s buf written) i .ended)
    | _ => none
  | .stop => if s.stopping then none else some { s with stopping := true }
  | .cancel i =>
    if s.stopping then
      match s.workers i with
      | .waiting [] _ => some (move s i .ended)
      | .waiting (p :: buf) _ => some (move s i (.closing (p :: buf)))
      | .flushing buf => some (move { s with cancelled := s.cancelled ++ buf } i .ended)
      | _ => none
    else none
  | .ret =>
    if s.stopping ∧ ¬s.stopped ∧ ∀ i, (s.workers i).isEnded = true then
      some { s with stopped := true }
    else none

omit [DecidableEq ι] [Fintype ι] in
theorem held_turn (now : ℕ) (buf : List P) (flushAt : Option ℕ) :
    (turn c now buf flushAt).held = buf := by
  unfold turn
  split <;> rfl

/-- What one step can do. -/
inductive Change (s : Batcher P ι) : Event P ι → Batcher P ι → Prop
  | put {p} (hroom : ¬full c s) :
      Change s (.put p) { s with queue := s.queue ++ [p], accepted := s.accepted ++ [p] }
  | took {i lag buf flushAt p queue deadline} (hw : s.workers i = .waiting buf flushAt)
      (hqueue : s.queue = p :: queue) (hrun : s.stopping = false) :
      Change s (.take i lag) (move { s with now := s.now + lag, queue := queue } i
        (turn c (s.now + lag) (buf ++ [p]) (some deadline)))
  | timedOut {i buf t} (hw : s.workers i = .waiting buf (some t)) (hrun : s.stopping = false) :
      Change s (.timeout i) (move s i (turn c s.now buf (some t)))
  | ticked {d} : Change s (.tick d) { s with now := s.now + d }
  | flushed {i written buf} (hw : s.workers i = .flushing buf) :
      Change s (.finish i written)
        (move (counted s buf written) i (if s.stopping then .ended else .waiting [] none))
  | closed {i written buf} (hw : s.workers i = .closing buf) :
      Change s (.finish i written) (move (counted s buf written) i .ended)
  | stopped (hrun : s.stopping = false) : Change s .stop { s with stopping := true }
  | woken {i buf flushAt} (hw : s.workers i = .waiting buf flushAt) (hstop : s.stopping = true) :
      Change s (.cancel i) (move s i (if buf = [] then .ended else .closing buf))
  | cancelled {i buf} (hw : s.workers i = .flushing buf) (hstop : s.stopping = true) :
      Change s (.cancel i) (move { s with cancelled := s.cancelled ++ buf } i .ended)
  | returned (hstop : s.stopping = true) (hended : ∀ i, (s.workers i).isEnded = true) :
      Change s .ret { s with stopped := true }

theorem change_of_step {s t : Batcher P ι} {e : Event P ι} (h : step c s e = some t) :
    Change c s e t := by
  cases e with
  | put p =>
    simp only [step] at h
    split at h
    · contradiction
    · rename_i hroom
      exact Option.some.inj h ▸ Change.put hroom
  | take i lag =>
    simp only [step] at h
    split at h
    · rename_i buf flushAt p queue hw hqueue
      split at h
      · contradiction
      · rename_i hrun
        exact Option.some.inj h ▸ Change.took hw hqueue (by simpa using hrun)
    · contradiction
  | timeout i =>
    simp only [step] at h
    split at h
    · rename_i buf t hw
      split at h
      · contradiction
      · rename_i hrun
        exact Option.some.inj h ▸ Change.timedOut hw (by simpa using hrun)
    · contradiction
  | tick d => exact Option.some.inj h ▸ Change.ticked
  | finish i written =>
    simp only [step] at h
    split at h
    · rename_i buf hw
      exact Option.some.inj h ▸ Change.flushed hw
    · rename_i buf hw
      exact Option.some.inj h ▸ Change.closed hw
    · contradiction
  | stop =>
    simp only [step] at h
    split at h
    · contradiction
    · rename_i hrun
      exact Option.some.inj h ▸ Change.stopped (by simpa using hrun)
  | cancel i =>
    simp only [step] at h
    split at h
    · rename_i hstop
      split at h
      · rename_i hw
        exact Option.some.inj h ▸ Change.woken hw hstop
      · rename_i hw
        exact Option.some.inj h ▸ Change.woken hw hstop
      · rename_i hw
        exact Option.some.inj h ▸ Change.cancelled hw hstop
      · contradiction
    · contradiction
  | ret =>
    simp only [step] at h
    split at h
    · rename_i hret
      exact Option.some.inj h ▸ Change.returned hret.1 hret.2.2
    · contradiction

/-- What a worker holds was accepted in this order and before what is queued. -/
def Ordered (s : Batcher P ι) : Prop := ∀ i, ((s.workers i).held ++ s.queue).Sublist s.accepted

omit [Fintype ι] in
theorem Ordered.move {s : Batcher P ι} (hs : Ordered s) (s' : Batcher P ι) (i : ι) (w : Worker P)
    (hworkers : s'.workers = s.workers) (haccepted : s'.accepted = s.accepted)
    (hqueue : s'.queue.Sublist s.queue)
    (hw : (w.held ++ s'.queue).Sublist ((s.workers i).held ++ s.queue)) :
    Ordered (move s' i w) := by
  intro j
  show ((Function.update s'.workers i w j).held ++ s'.queue).Sublist s'.accepted
  rw [haccepted, hworkers]
  by_cases hj : j = i
  · subst hj
    rw [Function.update_self]
    exact hw.trans (hs j)
  · rw [Function.update_of_ne hj]
    exact ((List.Sublist.refl _).append hqueue).trans (hs j)

omit [Fintype ι] [DecidableEq ι] in
/-- Apart from the counters a flush changes nothing else. -/
theorem counted_frame (s : Batcher P ι) (buf : List P) (written : Option ℕ) :
    (counted s buf written).queue = s.queue ∧ (counted s buf written).workers = s.workers ∧
      (counted s buf written).accepted = s.accepted ∧
      (counted s buf written).cancelled = s.cancelled ∧
      (counted s buf written).stopping = s.stopping ∧
      (counted s buf written).stopped = s.stopped := by
  cases written <;> exact ⟨rfl, rfl, rfl, rfl, rfl, rfl⟩

omit [Fintype ι] in
theorem Ordered.change {s t : Batcher P ι} {e : Event P ι} (hs : Ordered s)
    (h : Change c s e t) : Ordered t := by
  cases h with
  | @put p hroom =>
    intro i
    show ((s.workers i).held ++ (s.queue ++ [p])).Sublist (s.accepted ++ [p])
    rw [← List.append_assoc]
    exact (hs i).append (List.Sublist.refl _)
  | @took i lag buf flushAt p queue deadline hw hqueue hrun =>
    refine hs.move _ _ _ rfl rfl ?_ ?_
    · rw [hqueue]
      exact List.sublist_cons_self p queue
    · rw [held_turn, hw, hqueue, List.append_assoc]
      exact List.Sublist.refl _
  | timedOut hw hrun =>
    refine hs.move _ _ _ rfl rfl (List.Sublist.refl _) ?_
    rw [held_turn, hw]
    exact List.Sublist.refl _
  | ticked => exact hs
  | @flushed i written buf hw =>
    obtain ⟨hqueue, hworkers, haccepted, -⟩ := counted_frame s buf written
    refine hs.move _ _ _ hworkers haccepted (hqueue ▸ List.Sublist.refl _) ?_
    have hheld : (if s.stopping then Worker.ended else Worker.waiting [] none : Worker P).held =
        [] := by
      split <;> rfl
    rw [hheld, hqueue]
    exact List.sublist_append_right _ _
  | @closed i written buf hw =>
    obtain ⟨hqueue, hworkers, haccepted, -⟩ := counted_frame s buf written
    refine hs.move _ _ _ hworkers haccepted (hqueue ▸ List.Sublist.refl _) ?_
    rw [hqueue]
    exact List.sublist_append_right _ _
  | stopped hrun => exact hs
  | @woken i buf flushAt hw hstop =>
    refine hs.move _ _ _ rfl rfl (List.Sublist.refl _) ?_
    rw [hw]
    split
    · exact List.sublist_append_right _ _
    · exact List.Sublist.refl _
  | cancelled hw hstop =>
    exact hs.move _ _ _ rfl rfl (List.Sublist.refl _) (List.sublist_append_right _ _)
  | returned hstop hended => exact hs

omit [Fintype ι] in
theorem accepted_of_change {s t : Batcher P ι} {e : Event P ι} (hput : ∀ p, e ≠ .put p)
    (h : Change c s e t) : t.accepted = s.accepted := by
  cases h with
  | put hroom => exact absurd rfl (hput _)
  | @flushed i written buf hw => exact (counted_frame s buf written).2.2.1
  | @closed i written buf hw => exact (counted_frame s buf written).2.2.1
  | took hw hqueue hrun => rfl
  | timedOut hw hrun => rfl
  | ticked => rfl
  | stopped hrun => rfl
  | woken hw hstop => rfl
  | cancelled hw hstop => rfl
  | returned hstop hended => rfl

end Batcher

end TimescaleLp
