import TimescaleLp.Batcher
import TimescaleLp.Handout

/-!
The way of a point from `submit` to `write_batch`. A submitter puts the points of
one call after another; a worker passes its buffer on when it starts a flush, and
starts the next buffer only after that. Points are written here with their
submitter, which no step of the batcher reads. Without its timers the whole is a
line that hands each point to one of the workers.
-/
namespace TimescaleLp

/-- The batcher with its submitters. `due` is what is left of the call a
submitter is in. What has been submitted, and the batches each worker has passed
to `write_batch`, are history. -/
structure Intake (P ι κ : Type) where
  batcher : Batcher (κ × P) ι
  due : κ → List P
  submitted : κ → List P
  batches : ι → List (List (κ × P))

/-- The points of a worker that are in no batch yet. -/
def Worker.buffer {P : Type} : Worker P → List P
  | .waiting buf _ => buf
  | _ => []

namespace Intake

open Batcher (turn counted move Change change_of_step)

inductive Event (P ι κ : Type)
  | submit (k : κ) (points : List P)
  | put (k : κ)
  | batch (e : Batcher.Event (κ × P) ι)

variable {P ι κ : Type}

def start : Intake P ι κ where
  batcher := Batcher.start
  due := fun _ => []
  submitted := fun _ => []
  batches := fun _ => []

/-- The buffer a worker passes on as it starts a flush. -/
def passed : Worker P → Worker P → List (List P)
  | .waiting _ _, .flushing buf => [buf]
  | .waiting _ _, .closing buf => [buf]
  | _, _ => []

/-- Points come in through a submitter only. -/
def isPut : Batcher.Event (κ × P) ι → Bool
  | .put _ => true
  | _ => false

/-- The workers after a step of the batcher, with what they have passed on. -/
def after (s : Intake P ι κ) (b : Batcher (κ × P) ι) : Intake P ι κ :=
  { s with
    batcher := b
    batches := fun i => s.batches i ++ passed (s.batcher.workers i) (b.workers i) }

variable [DecidableEq ι] [Fintype ι] [DecidableEq κ] (c : BatcherSettings)

def step (s : Intake P ι κ) : Event P ι κ → Option (Intake P ι κ)
  | .submit k points =>
    match s.due k with
    | [] => some { s with
        due := Function.update s.due k points
        submitted := Function.update s.submitted k (s.submitted k ++ points) }
    | _ :: _ => none
  | .put k =>
    match s.due k with
    | [] => none
    | p :: rest =>
      (Batcher.step c s.batcher (.put (k, p))).map fun b =>
        { s with batcher := b, due := Function.update s.due k rest }
  | .batch e => if isPut e then none else (Batcher.step c s.batcher e).map (after s)

/-- Everything a worker was given: its batches and what it buffers. -/
def received (s : Intake P ι κ) (i : ι) : List (κ × P) :=
  (s.batches i).flatten ++ (s.batcher.workers i).buffer

/-- The points of one submitter among others. -/
def ofSubmitter (k : κ) (points : List (κ × P)) : List P :=
  (points.filter fun p => p.1 = k).map Prod.snd

/-- What holds between the submitters and the store. -/
structure Sound (s : Intake P ι κ) : Prop where
  /-- What a submitter has put is the first part of what it was called with. -/
  put : ∀ k, ofSubmitter k s.batcher.accepted ++ s.due k = s.submitted k
  /-- Each point is queued, in one buffer, or in one batch. -/
  custody : (s.batcher.accepted : Multiset (κ × P)) = s.batcher.queue +
    ∑ i, (((s.batches i).flatten : Multiset (κ × P)) + (s.batcher.workers i).buffer)
  sized : ∀ i, ∀ batch ∈ s.batches i, 1 ≤ batch.length ∧ batch.length ≤ c.batchSize
  /-- The points of each submitter keep their order. -/
  ordered : ∀ i k, (ofSubmitter k (s.received i)).Sublist (s.submitted k)
  /-- If there is no other submitter, these are all the points. -/
  single : ∀ i k, (∀ k' ≠ k, s.submitted k' = []) →
    ((s.received i).map Prod.snd).Sublist (s.submitted k)

/-- What one step can do. -/
inductive Moved (s : Intake P ι κ) : Intake P ι κ → Prop
  | submitted {k points} (hdue : s.due k = []) : Moved s { s with
      due := Function.update s.due k points
      submitted := Function.update s.submitted k (s.submitted k ++ points) }
  | put {k p rest} (hdue : s.due k = p :: rest) : Moved s { s with
      batcher := { s.batcher with
        queue := s.batcher.queue ++ [(k, p)], accepted := s.batcher.accepted ++ [(k, p)] }
      due := Function.update s.due k rest }
  | batch {e b} (hput : ∀ p, e ≠ .put p) (hb : Change c s.batcher e b) : Moved s (after s b)

theorem moved_of_step {s t : Intake P ι κ} {e : Event P ι κ} (h : step c s e = some t) :
    Moved c s t := by
  cases e with
  | submit k points =>
    simp only [step] at h
    split at h
    · rename_i hdue
      exact Option.some.inj h ▸ Moved.submitted hdue
    · contradiction
  | put k =>
    simp only [step] at h
    split at h
    · contradiction
    · rename_i p rest hdue
      obtain ⟨b, hb, rfl⟩ := Option.map_eq_some_iff.mp h
      cases change_of_step c hb with
      | put hroom => exact Moved.put hdue
  | batch e =>
    simp only [step] at h
    split at h
    · contradiction
    · rename_i hput
      obtain ⟨b, hb, rfl⟩ := Option.map_eq_some_iff.mp h
      refine Moved.batch (fun p he => ?_) (change_of_step c hb)
      rw [he] at hput
      exact hput rfl

/-- The line the workers are served from. -/
def line (s : Intake P ι κ) : Handout.Line (κ × P) ι :=
  ⟨s.batcher.accepted, s.batcher.queue, s.received⟩

section Worker

variable {Q : Type}

@[simp] theorem passed_self (w : Worker Q) : passed w w = [] := by
  cases w <;> rfl

/-- A turn of the loop leaves its buffer with the worker or passes it on. -/
theorem passed_turn (buf buf' : List Q) (flushAt flushAt' : Option ℕ) (now : ℕ) :
    (passed (.waiting buf flushAt) (turn c now buf' flushAt')).flatten ++
      (turn c now buf' flushAt').buffer = buf' := by
  unfold turn
  split
  · simp [passed, Worker.buffer]
  · simp [passed, Worker.buffer]

end Worker

section Line

omit [Fintype ι] [DecidableEq κ]

variable {s t : Intake P ι κ} {b : Batcher (κ × P) ι} {i : ι} {w : Worker (κ × P)}

/-- One worker moves on. -/
theorem received_after (hworkers : b.workers = Function.update s.batcher.workers i w) :
    (after s b).received = Function.update s.received i ((s.batches i).flatten ++
      ((passed (s.batcher.workers i) w).flatten ++ w.buffer)) := by
  funext j
  show (s.batches j ++ passed (s.batcher.workers j) (b.workers j)).flatten ++
    (b.workers j).buffer = _
  rw [hworkers]
  by_cases hj : j = i
  · subst hj
    simp only [Function.update_self, List.flatten_append, List.append_assoc]
  · simp only [Function.update_of_ne hj, passed_self, List.append_nil]
    rfl

/-- A worker that moves on with the points it had. -/
theorem received_same (hworkers : b.workers = Function.update s.batcher.workers i w)
    (hw : (passed (s.batcher.workers i) w).flatten ++ w.buffer =
      (s.batcher.workers i).buffer) : (after s b).received = s.received := by
  rw [received_after hworkers, hw]
  exact Function.update_eq_self i s.received

omit [DecidableEq ι] in
theorem received_idle (hworkers : b.workers = s.batcher.workers) :
    (after s b).received = s.received := by
  funext j
  show (s.batches j ++ passed (s.batcher.workers j) (b.workers j)).flatten ++
    (b.workers j).buffer = _
  rw [hworkers, passed_self, List.append_nil]
  rfl

/-- The line stands still when neither its ends nor a share move. -/
theorem line_idle (haccepted : t.batcher.accepted = s.batcher.accepted)
    (hqueue : t.batcher.queue = s.batcher.queue) (hreceived : t.received = s.received) :
    Handout.Step s.line t.line := by
  have heq : t.line = s.line := by
    rw [line, haccepted, hqueue, hreceived]
    rfl
  rw [heq]
  exact Handout.Step.idle

theorem line_give {p : κ × P} (haccepted : t.batcher.accepted = s.batcher.accepted)
    (hqueue : s.batcher.queue = p :: t.batcher.queue)
    (hreceived : t.received = Function.update s.received i (s.received i ++ [p])) :
    Handout.Step s.line t.line := by
  rw [line, line, haccepted, hreceived]
  exact Handout.Step.give i hqueue

end Line

omit [Fintype ι] in
/-- The batcher is a line that hands on what it accepts. -/
theorem step_line {s t : Intake P ι κ} (h : Moved c s t) : Handout.Step s.line t.line := by
  cases h with
  | submitted hdue => exact Handout.Step.idle
  | put hdue => exact Handout.Step.accept _
  | @batch e b hput hb =>
    cases hb with
    | put hroom => exact absurd rfl (hput _)
    | @took i lag buf flushAt p queue deadline hw hqueue hrun =>
      refine line_give (i := i) (p := p) rfl hqueue ?_
      rw [received_after (i := i) rfl, hw, passed_turn, received, hw, Worker.buffer,
        List.append_assoc]
    | @timedOut i buf t hw hrun =>
      refine line_idle rfl rfl (received_same (i := i) rfl ?_)
      rw [hw, passed_turn, Worker.buffer]
    | ticked => exact line_idle rfl rfl (received_idle rfl)
    | @flushed i written buf hw =>
      obtain ⟨hqueue, hworkers, haccepted, -⟩ := Batcher.counted_frame s.batcher buf written
      refine line_idle haccepted hqueue (received_same (i := i) (by rw [← hworkers]; rfl) ?_)
      rw [hw]
      split <;> rfl
    | @closed i written buf hw =>
      obtain ⟨hqueue, hworkers, haccepted, -⟩ := Batcher.counted_frame s.batcher buf written
      refine line_idle haccepted hqueue (received_same (i := i) (by rw [← hworkers]; rfl) ?_)
      rw [hw]
      rfl
    | stopped hrun => exact line_idle rfl rfl (received_idle rfl)
    | @woken i buf flushAt hw hstop =>
      refine line_idle rfl rfl (received_same (i := i) rfl ?_)
      rw [hw]
      split
      · rename_i hbuf
        rw [hbuf]
        rfl
      · simp [passed, Worker.buffer]
    | @cancelled i buf hw hstop =>
      refine line_idle rfl rfl (received_same (i := i) rfl ?_)
      rw [hw]
      rfl
    | returned hstop hended => exact line_idle rfl rfl (received_idle rfl)

section Size

/-- A step of a worker, from what its buffer may hold: the buffer stays short,
and what is passed on is a batch of the right size. -/
def Shift (w w' : Worker (κ × P)) : Prop :=
  w'.buffer.length < c.batchSize ∧
    ∀ batch ∈ passed w w', 1 ≤ batch.length ∧ batch.length ≤ c.batchSize

variable {c} {b b' : Batcher (κ × P) ι}

omit [Fintype ι] [DecidableEq κ]

omit [DecidableEq ι] in
theorem shift_self {w : Worker (κ × P)} (hw : w.buffer.length < c.batchSize) :
    Shift c w w := by
  refine ⟨hw, fun batch hbatch => ?_⟩
  rw [passed_self] at hbatch
  exact absurd hbatch List.not_mem_nil

/-- A worker that is left without points and passes none on. -/
theorem shift_drained (hsize : 1 ≤ c.batchSize) {w w' : Worker (κ × P)} (hbuffer : w'.buffer = [])
    (hpassed : passed w w' = []) : Shift c w w' := by
  refine ⟨?_, fun batch hbatch => ?_⟩
  · rw [hbuffer]
    exact hsize
  · rw [hpassed] at hbatch
    exact absurd hbatch List.not_mem_nil

/-- The size trigger leaves no full buffer behind. -/
theorem shift_turn (hsize : 1 ≤ c.batchSize) {buf buf' : List (κ × P)}
    (hbuf : buf'.length ≤ c.batchSize) (flushAt flushAt' : Option ℕ) (now : ℕ) :
    Shift c (.waiting buf flushAt) (turn c now buf' flushAt') := by
  unfold turn
  split
  · rename_i hflush
    have hpos : 1 ≤ buf'.length := List.length_pos_iff.mpr hflush.1
    refine ⟨hsize, fun batch hbatch => ?_⟩
    obtain rfl : batch = buf' := by simpa [passed] using hbatch
    exact ⟨hpos, hbuf⟩
  · rename_i hwait
    refine ⟨?_, fun batch hbatch => absurd hbatch List.not_mem_nil⟩
    by_cases hnil : buf' = []
    · subst hnil
      exact hsize
    · exact not_le.mp fun hfull => hwait ⟨hnil, Or.inl hfull⟩

theorem shift_update {i : ι} {w : Worker (κ × P)}
    (hb : ∀ j, (b.workers j).buffer.length < c.batchSize) (hw : Shift c (b.workers i) w)
    (j : ι) : Shift c (b.workers j) (Function.update b.workers i w j) := by
  by_cases hj : j = i
  · subst hj
    rw [Function.update_self]
    exact hw
  · rw [Function.update_of_ne hj]
    exact shift_self (hb j)

/-- No step of the batcher makes a worker overfull. -/
theorem change_shift {e : Batcher.Event (κ × P) ι} (hsize : 1 ≤ c.batchSize)
    (hb : ∀ i, (b.workers i).buffer.length < c.batchSize) (h : Change c b e b') (j : ι) :
    Shift c (b.workers j) (b'.workers j) := by
  cases h with
  | put hroom => exact shift_self (hb j)
  | @took i lag buf flushAt p queue deadline hw hqueue hrun =>
    refine shift_update hb ?_ j
    have hlength : buf.length < c.batchSize := by simpa [hw, Worker.buffer] using hb i
    rw [hw]
    refine shift_turn hsize ?_ _ _ _
    rw [List.length_append, List.length_singleton]
    exact hlength
  | @timedOut i buf t hw hrun =>
    refine shift_update hb ?_ j
    have hlength : buf.length < c.batchSize := by simpa [hw, Worker.buffer] using hb i
    rw [hw]
    exact shift_turn hsize hlength.le _ _ _
  | ticked => exact shift_self (hb j)
  | @flushed i written buf hw =>
    obtain ⟨-, hworkers, -⟩ := Batcher.counted_frame b buf written
    rw [move, hworkers]
    refine shift_update hb ?_ j
    rw [hw]
    split
    · exact shift_drained hsize rfl rfl
    · exact shift_drained hsize rfl rfl
  | @closed i written buf hw =>
    obtain ⟨-, hworkers, -⟩ := Batcher.counted_frame b buf written
    rw [move, hworkers]
    refine shift_update hb ?_ j
    rw [hw]
    exact shift_drained hsize rfl rfl
  | stopped hrun => exact shift_self (hb j)
  | @woken i buf flushAt hw hstop =>
    refine shift_update hb ?_ j
    have hlength : buf.length < c.batchSize := by simpa [hw, Worker.buffer] using hb i
    rw [hw]
    split
    · exact shift_drained hsize rfl rfl
    · rename_i hbuf
      refine ⟨hsize, fun batch hbatch => ?_⟩
      obtain rfl : batch = buf := by simpa [passed] using hbatch
      exact ⟨List.length_pos_iff.mpr hbuf, hlength.le⟩
  | @cancelled i buf hw hstop =>
    refine shift_update hb ?_ j
    rw [hw]
    exact shift_drained hsize rfl rfl
  | returned hstop hended => exact shift_self (hb j)

end Size

/-- What every state of a run meets. -/
structure Inv (s : Intake P ι κ) : Prop where
  custody : Handout.Custody s.line
  inOrder : Handout.InOrder s.line
  put : ∀ k, ofSubmitter k s.batcher.accepted ++ s.due k = s.submitted k
  short : ∀ i, (s.batcher.workers i).buffer.length < c.batchSize
  sized : ∀ i, ∀ batch ∈ s.batches i, 1 ≤ batch.length ∧ batch.length ≤ c.batchSize

section Run

variable {c} {s t : Intake P ι κ}

omit [DecidableEq ι] in
theorem start_inv (hsize : 1 ≤ c.batchSize) : Inv c (start : Intake P ι κ) where
  custody := by simp [Handout.Custody, line, start, Batcher.start, received, Worker.buffer]
  inOrder i := by simp [line, start, Batcher.start, received, Worker.buffer]
  put k := rfl
  short i := hsize
  sized i batch hbatch := absurd hbatch List.not_mem_nil

omit [DecidableEq ι] [Fintype ι] in
theorem ofSubmitter_append (k : κ) (l l' : List (κ × P)) :
    ofSubmitter k (l ++ l') = ofSubmitter k l ++ ofSubmitter k l' := by
  simp [ofSubmitter]

theorem moved_inv (hsize : 1 ≤ c.batchSize) (hs : Inv c s) (h : Moved c s t) : Inv c t := by
  have hcustody := hs.custody.step (step_line c h)
  have hinOrder := hs.inOrder.step (step_line c h)
  cases h with
  | @submitted k points hdue =>
    refine ⟨hcustody, hinOrder, fun k' => ?_, hs.short, hs.sized⟩
    have hput := hs.put k'
    by_cases hk : k' = k
    · subst hk
      rw [hdue, List.append_nil] at hput
      simp only [Function.update_self, hput]
    · simpa only [Function.update_of_ne hk] using hput
  | @put k p rest hdue =>
    refine ⟨hcustody, hinOrder, fun k' => ?_, hs.short, hs.sized⟩
    have hput := hs.put k'
    simp only [ofSubmitter_append]
    by_cases hk : k' = k
    · subst hk
      rw [hdue] at hput
      simpa [ofSubmitter] using hput
    · simpa [ofSubmitter, Function.update_of_ne hk, Ne.symm hk] using hput
  | @batch e b hput hb =>
    have hshift := change_shift hsize hs.short hb
    refine ⟨hcustody, hinOrder, fun k => ?_, fun i => (hshift i).1, fun i batch hbatch => ?_⟩
    · show ofSubmitter k b.accepted ++ s.due k = s.submitted k
      rw [Batcher.accepted_of_change c hput hb, hs.put k]
    · rcases List.mem_append.mp hbatch with hold | hnew
      · exact hs.sized i batch hold
      · exact (hshift i).2 batch hnew

omit [DecidableEq ι] in
theorem Inv.sound (hs : Inv c s) : Sound c s := by
  have hreceived : ∀ i, (s.received i).Sublist s.batcher.accepted := fun i =>
    (List.sublist_append_left _ _).trans (hs.inOrder i)
  have hsubmitted : ∀ k, (ofSubmitter k s.batcher.accepted).Sublist (s.submitted k) := fun k =>
    hs.put k ▸ List.sublist_append_left _ _
  have hordered : ∀ i k, (ofSubmitter k (s.received i)).Sublist (s.submitted k) := fun i k =>
    (((hreceived i).filter _).map _).trans (hsubmitted k)
  refine ⟨hs.put, ?_, hs.sized, hordered, fun i k halone => ?_⟩
  · have hline : (s.batcher.accepted : Multiset (κ × P)) =
        s.batcher.queue + ∑ i, (s.received i : Multiset (κ × P)) := hs.custody
    simpa only [received, ← Multiset.coe_add] using hline
  · -- nobody else has put a point
    have hall : ∀ p ∈ s.received i, p.1 = k := by
      intro p hp
      by_contra hne
      have hmem : p.2 ∈ ofSubmitter p.1 s.batcher.accepted := by
        simpa [ofSubmitter] using (hreceived i).subset hp
      have hsub := (hsubmitted p.1).subset hmem
      rw [halone p.1 hne] at hsub
      exact List.not_mem_nil hsub
    have hfilter : ofSubmitter k (s.received i) = (s.received i).map Prod.snd := by
      rw [ofSubmitter, List.filter_eq_self.mpr fun p hp => by simpa using hall p hp]
    exact hfilter ▸ hordered i k

/-- No run loses a point, writes one twice or turns two of one submitter around,
whatever becomes of the flushes, and also while the batcher stops. -/
theorem sound_of_run (hsize : 1 ≤ c.batchSize) (es : List (Event P ι κ)) :
    Runs.Always (step c) (Sound c) (start : Intake P ι κ) es :=
  Runs.always_of_invariant (I := Inv c) (fun _ _ _ hs h => moved_inv hsize hs (moved_of_step c h))
    (fun _ hs => hs.sound) (start_inv hsize)

/-- Two workers share the points of one call; a flush raises. -/
def shared : List (Event ℕ (Fin 2) Unit) :=
  [.submit () [1, 2, 3], .put (), .put (), .put (), .batch (.take 0 0), .batch (.take 1 0),
    .batch (.take 0 0), .batch (.finish 0 none), .batch (.timeout 1)]

theorem shared_sound : (Runs.exec (step ⟨2, 500⟩) start shared).any
      (fun s => decide (s.batches 0 = [[((), 1), ((), 3)]])) = true ∧
    Runs.Always (step ⟨2, 500⟩) (Sound ⟨2, 500⟩) start shared :=
  ⟨by decide +kernel, sound_of_run (by decide) shared⟩

end Run

end Intake

end TimescaleLp
