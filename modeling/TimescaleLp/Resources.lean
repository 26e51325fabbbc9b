import Mathlib.Algebra.BigOperators.Group.Finset.Basic
import Mathlib.Algebra.Order.BigOperators.Group.Finset
import Mathlib.Data.Finset.Max
import TimescaleLp.Runs

/-!
Routines that share resources of limited capacity. A routine takes a resource, goes on
inside, returns the resource and goes on behind; it may fail anywhere, and then
returns what it holds. When inside a resource only resources of higher ranks are
taken, some routine can go on as long as one is not finished.
-/
namespace TimescaleLp.Resources

universe u v

/-- What a routine does, as far as others can notice. -/
inductive Program (R : Type u)
  | done
  | use (r : R) (body next : Program R)
  deriving DecidableEq

variable {R : Type u} {ι : Type v}

namespace Program

def append : Program R → Program R → Program R
  | done, q => q
  | use r body next, q => use r body (next.append q)

/-- One program for each element, one after another. -/
def each {α : Type*} (f : α → Program R) : List α → Program R
  | [] => done
  | x :: xs => (f x).append (each f xs)

/-- The number of resources taken and returned. -/
def size : Program R → ℕ
  | done => 0
  | use _ body next => body.size + next.size + 2

/-- Resources are of rank `n` at least, and of higher ranks the further inside they
are taken. -/
def Ordered (rank : R → ℕ) : ℕ → Program R → Prop
  | _, done => True
  | n, use r body next => n ≤ rank r ∧ body.Ordered rank (rank r + 1) ∧ next.Ordered rank n

variable {rank : R → ℕ} {n : ℕ} {p q : Program R}

theorem Ordered.append (hp : p.Ordered rank n) (hq : q.Ordered rank n) :
    (p.append q).Ordered rank n := by
  induction p with
  | done => exact hq
  | use r body next _ ih => exact ⟨hp.1, hp.2.1, ih hp.2.2⟩

theorem Ordered.each {α : Type*} {f : α → Program R} {xs : List α}
    (h : ∀ x ∈ xs, (f x).Ordered rank n) : (each f xs).Ordered rank n := by
  induction xs with
  | nil => trivial
  | cons x xs ih =>
    obtain ⟨hx, hxs⟩ := List.forall_mem_cons.mp h
    exact hx.append (ih hxs)

end Program

/-- A resource that a routine holds, with what follows once it has been returned. -/
structure Frame (R : Type u) where
  resource : R
  next : Program R
  deriving DecidableEq

/-- A routine with what it holds, the last resource first. -/
structure Routine (R : Type u) where
  current : Program R
  frames : List (Frame R)
  deriving DecidableEq

/-- After a failure only what is held is returned. -/
def Frame.unwound (f : Frame R) : Frame R := ⟨f.resource, .done⟩

/-- What is left to do in the frames. -/
def work : List (Frame R) → ℕ
  | [] => 0
  | f :: fs => f.next.size + 1 + work fs

namespace Routine

def held (t : Routine R) : List R := t.frames.map Frame.resource

def size (t : Routine R) : ℕ := t.current.size + work t.frames

def unwound (t : Routine R) : Routine R := ⟨.done, t.frames.map Frame.unwound⟩

end Routine

/-- The least rank that can be taken inside the frames. -/
def level (rank : R → ℕ) : List (Frame R) → ℕ
  | [] => 0
  | f :: _ => rank f.resource + 1

def Stacked (rank : R → ℕ) : List (Frame R) → Prop
  | [] => True
  | f :: fs =>
    level rank fs ≤ rank f.resource ∧ f.next.Ordered rank (level rank fs) ∧ Stacked rank fs

structure Routine.Ordered (rank : R → ℕ) (t : Routine R) : Prop where
  current : t.current.Ordered rank (level rank t.frames)
  frames : Stacked rank t.frames

/-- What can happen: a routine takes or returns a resource, or it fails. -/
inductive Event (ι : Type v)
  | run (i : ι)
  | fail (i : ι)

def start (programs : ι → Program R) (i : ι) : Routine R := ⟨programs i, []⟩

section Routines

variable {rank : R → ℕ} {t : Routine R} {fs : List (Frame R)}

theorem stacked_unwound (h : Stacked rank fs) :
    Stacked rank (fs.map Frame.unwound) ∧ level rank (fs.map Frame.unwound) = level rank fs := by
  induction fs with
  | nil => exact ⟨trivial, rfl⟩
  | cons f fs ih =>
    obtain ⟨hrest, hlevel⟩ := ih h.2.2
    exact ⟨⟨hlevel ▸ h.1, trivial, hrest⟩, rfl⟩

theorem Routine.Ordered.unwound (h : t.Ordered rank) : t.unwound.Ordered rank :=
  ⟨trivial, (stacked_unwound h.frames).1⟩

@[simp] theorem held_unwound (t : Routine R) : t.unwound.held = t.held := by
  simp [Routine.unwound, Routine.held, Frame.unwound]

theorem work_unwound_le (fs : List (Frame R)) : work (fs.map Frame.unwound) ≤ work fs := by
  induction fs with
  | nil => exact le_rfl
  | cons f fs ih => exact Nat.add_le_add (Nat.succ_le_succ (Nat.zero_le _)) ih

theorem work_unwound_lt (h : fs.map Frame.unwound ≠ fs) :
    work (fs.map Frame.unwound) < work fs := by
  induction fs with
  | nil => exact absurd rfl h
  | cons f fs ih =>
    obtain ⟨r, next⟩ := f
    have hrest := work_unwound_le fs
    cases next with
    | done =>
      have hlt := ih fun heq => h (by rw [List.map_cons, heq]; rfl)
      exact Nat.add_lt_add_left hlt _
    | use r' body next' =>
      have hsize : 0 < (Program.use r' body next').size := Nat.succ_pos _
      simp only [work, List.map_cons, Frame.unwound, Program.size] at hrest hsize ⊢
      omega

/-- A failure leaves less to do, unless the routine was about to return all it holds. -/
theorem size_unwound_lt (h : t.unwound ≠ t) : t.unwound.size < t.size := by
  obtain ⟨current, frames⟩ := t
  cases current with
  | done =>
    exact Nat.add_lt_add_left (work_unwound_lt fun heq => h (by rw [Routine.unwound, heq])) _
  | use r body next =>
    have hle := work_unwound_le frames
    simp only [Routine.unwound, Routine.size, Program.size]
    omega

end Routines

variable [Fintype ι] [DecidableEq ι] [DecidableEq R]

/-- How many of a resource are out. -/
def out (s : ι → Routine R) (r : R) : ℕ := ∑ i, (s i).held.count r

def step (capacity : R → ℕ) (s : ι → Routine R) : Event ι → Option (ι → Routine R)
  | .run i =>
    match s i with
    | ⟨.use r body next, frames⟩ =>
      if out s r < capacity r then some (Function.update s i ⟨body, ⟨r, next⟩ :: frames⟩) else none
    | ⟨.done, f :: frames⟩ => some (Function.update s i ⟨f.next, frames⟩)
    | ⟨.done, []⟩ => none
  | .fail i =>
    if (s i).unwound = s i then none else some (Function.update s i (s i).unwound)

structure Inv (capacity rank : R → ℕ) (s : ι → Routine R) : Prop where
  room : ∀ r, out s r ≤ capacity r
  ordered : ∀ i, (s i).Ordered rank

variable {capacity rank : R → ℕ} {s t : ι → Routine R} {e : Event ι}

/-- A step of one routine. -/
inductive Change (capacity : R → ℕ) (i : ι) (s : ι → Routine R) : Routine R → Prop
  | taken {r body next frames} (hi : s i = ⟨.use r body next, frames⟩)
      (hroom : out s r < capacity r) : Change capacity i s ⟨body, ⟨r, next⟩ :: frames⟩
  | returned {f frames} (hi : s i = ⟨.done, f :: frames⟩) : Change capacity i s ⟨f.next, frames⟩
  | failed (hi : (s i).unwound ≠ s i) : Change capacity i s (s i).unwound

theorem change_of_step (h : step capacity s e = some t) :
    ∃ i w, t = Function.update s i w ∧ Change capacity i s w := by
  cases e with
  | run i =>
    simp only [step] at h
    split at h
    · rename_i r body next frames hi
      split at h
      · rename_i hroom
        exact ⟨i, _, (Option.some.inj h).symm, .taken hi hroom⟩
      · contradiction
    · rename_i f frames hi
      exact ⟨i, _, (Option.some.inj h).symm, .returned hi⟩
    · contradiction
  | fail i =>
    simp only [step] at h
    split at h
    · contradiction
    · rename_i hi
      exact ⟨i, _, (Option.some.inj h).symm, .failed hi⟩

omit [DecidableEq R] in
theorem sum_update (f : Routine R → ℕ) (s : ι → Routine R) (i : ι) (w : Routine R) :
    ∑ j, f (Function.update s i w j) + f (s i) = ∑ j, f (s j) + f w := by
  rw [← Finset.add_sum_erase _ _ (Finset.mem_univ i),
    ← Finset.add_sum_erase _ (fun j => f (s j)) (Finset.mem_univ i), Function.update_self]
  have hrest : ∑ j ∈ Finset.univ.erase i, f (Function.update s i w j) =
      ∑ j ∈ Finset.univ.erase i, f (s j) :=
    Finset.sum_congr rfl fun j hj => by rw [Function.update_of_ne (Finset.ne_of_mem_erase hj)]
  omega

omit [DecidableEq ι] in
theorem ordered_change {i : ι} {w : Routine R} (hs : (s i).Ordered rank)
    (h : Change capacity i s w) : w.Ordered rank := by
  cases h with
  | taken hi hroom =>
    rw [hi] at hs
    obtain ⟨⟨hrank, hbody, hnext⟩, hframes⟩ := hs
    exact ⟨hbody, hrank, hnext, hframes⟩
  | returned hi =>
    rw [hi] at hs
    exact ⟨hs.frames.2.1, hs.frames.2.2⟩
  | failed hi => exact hs.unwound

/-- A resource goes out while there is room. -/
theorem room_change {i : ι} {w : Routine R} (hs : ∀ r, out s r ≤ capacity r)
    (h : Change capacity i s w) (r : R) : out (Function.update s i w) r ≤ capacity r := by
  have hsum := sum_update (fun t => t.held.count r) s i w
  have hr := hs r
  change out (Function.update s i w) r + (s i).held.count r = out s r + w.held.count r at hsum
  cases h with
  | @taken r' body next frames hi hroom =>
    rw [hi] at hsum
    simp only [Routine.held, List.map_cons, List.count_cons] at hsum
    split at hsum
    · rename_i heq
      have : r' = r := by simpa using heq
      subst this
      omega
    · omega
  | returned hi =>
    rw [hi] at hsum
    simp only [Routine.held, List.map_cons, List.count_cons] at hsum
    omega
  | failed hi =>
    rw [held_unwound] at hsum
    omega

theorem step_inv (hs : Inv capacity rank s) (h : step capacity s e = some t) :
    Inv capacity rank t := by
  obtain ⟨i, w, rfl, hchange⟩ := change_of_step h
  refine ⟨room_change hs.room hchange, fun j => ?_⟩
  by_cases hj : j = i
  · subst hj
    rw [Function.update_self]
    exact ordered_change (hs.ordered j) hchange
  · rw [Function.update_of_ne hj]
    exact hs.ordered j

/-- Each step leaves less to do. -/
theorem size_step (h : step capacity s e = some t) : ∑ i, (t i).size < ∑ i, (s i).size := by
  obtain ⟨i, w, rfl, hchange⟩ := change_of_step h
  have hsum := sum_update Routine.size s i w
  have hless : w.size < (s i).size := by
    cases hchange with
    | taken hi hroom =>
      rw [hi]
      simp only [Routine.size, work, Program.size]
      omega
    | returned hi =>
      rw [hi]
      simp only [Routine.size, work, Program.size]
      omega
    | failed hi => exact size_unwound_lt hi
  omega

theorem length_le {es : List (Event ι)} (h : Runs.exec (step capacity) s es = some t) :
    es.length + ∑ i, (t i).size ≤ ∑ i, (s i).size := by
  induction es generalizing s with
  | nil =>
    cases h
    simp
  | cons e es ih =>
    obtain ⟨u, hu, ht⟩ := Runs.exec_cons h
    have hstep := size_step hu
    have hrest := ih ht
    rw [List.length_cons]
    omega

omit [DecidableEq ι] in
theorem start_inv {programs : ι → Program R} (h : ∀ i, (programs i).Ordered rank 0) :
    Inv capacity rank (start programs) where
  room r := by simp [out, start, Routine.held]
  ordered i := ⟨h i, trivial⟩

end TimescaleLp.Resources
