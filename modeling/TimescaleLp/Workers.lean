import TimescaleLp.Batcher
import TimescaleLp.Columns
import TimescaleLp.Schedule

/-!
The batcher's workers and the writes they make. A flush groups its buffer by
measurement and writes one group after another, each as a write call of the
process; a call that raises ends the flush. All workers write at once, so the
steps of their calls interleave with each other, with promotions and with
compaction. Points are numbered in the order of submission.
-/
namespace TimescaleLp

/-- A point with its place in the order of submission. -/
structure Sent (F : Type) where
  no : ℕ
  point : Point F

/-- A group whose transaction has been committed, with the schema its rows were
built with and the casts its table has been through since. -/
structure Landing (F : Type) where
  points : List (Sent F)
  schema : TableSchema
  casts : List (Str × PgType × PgType)

/-- The batcher over the process. `done` counts the groups that the flush of a
worker has written, `made` is what its batch was built from, and `landed` is
history. -/
structure Feed (F ι κ : Type) where
  batcher : Batcher (Sent F) ι
  sys : Sys F ι κ
  done : ι → ℕ
  made : ι → Option (List (Sent F) × TableSchema)
  landed : List (Landing F)

namespace Workers

open Naming

/-- A step of the batcher, of a worker's write call, or of the rest of the
process. The schema that `_ensure_schema` returns names columns as it does. -/
inductive Event (F ι κ : Type)
  | submit (p : Point F)
  | batch (e : Batcher.Event (Sent F) ι)
  | build (w : ι) (measurement : Str) (schema : {schema // Canonical measurement schema})
  | commit (w : ι)
  | store (e : TimescaleLp.Event F ι κ)

variable {F ι κ : Type}

/-- A process on any database. -/
def start (world : World (Value F)) : Feed F ι κ where
  batcher := Batcher.start
  sys := ⟨world, fun _ => .idle, fun _ => .idle, [], [], []⟩
  done := fun _ => 0
  made := fun _ => none
  landed := []

/-- The points of the flush a worker is in. -/
def flushBuf : Worker (Sent F) → List (Sent F)
  | .flushing buf => buf
  | .closing buf => buf
  | _ => []

/-- `by_meas` of `write_batch`. -/
def groupsOf (buf : List (Sent F)) : List (Str × List (Sent F)) :=
  (Dict.groupBy (·.point.measurement) buf).entries

/-- A flush returns once all its groups have been written. Points come in by
`submit` only. -/
def allowed (s : Feed F ι κ) : Batcher.Event (Sent F) ι → Bool
  | .put _ => false
  | .finish w (some _) =>
    decide (s.done w = (groupsOf (flushBuf (s.batcher.workers w))).length)
  | _ => true

/-- The steps of the store that are not a worker's own build, commit or end. -/
def besides : TimescaleLp.Event F ι κ → Bool
  | .build .. => false
  | .commit _ => false
  | .abandon _ => false
  | _ => true

/-- A promotion of the table casts what has landed in it. -/
def castLanding (table col : Str) (fromType toType : PgType) (l : Landing F) : Landing F :=
  if l.schema.table = table then { l with casts := l.casts ++ [(col, fromType, toType)] } else l

def recasted (landed : List (Landing F)) : TimescaleLp.Event F ι κ → List (Landing F)
  | .promote table col fromType toType => landed.map (castLanding table col fromType toType)
  | _ => landed

variable [DecidableEq ι]

/-- The end of a flush is the end of the call it is in. -/
def settle (s : Feed F ι κ) : Batcher.Event (Sent F) ι → Feed F ι κ
  | .finish w _ =>
    { s with sys := Schedule.abandon s.sys w, done := Function.update s.done w 0 }
  | .cancel w =>
    { s with sys := Schedule.abandon s.sys w, done := Function.update s.done w 0 }
  | _ => s

variable [Fintype ι] [DecidableEq κ] [Numerics F] (digest : Str → ℕ) (writeThroughOn : Bool)
  (c : BatcherSettings)

def step (s : Feed F ι κ) : Event F ι κ → Option (Feed F ι κ)
  | .submit p =>
    (Batcher.step c s.batcher (.put ⟨s.batcher.accepted.length, p⟩)).map fun b =>
      { s with batcher := b }
  | .batch e =>
    if allowed s e then
      (Batcher.step c s.batcher e).map fun b => settle { s with batcher := b } e
    else none
  | .build w measurement schema =>
    match (groupsOf (flushBuf (s.batcher.workers w)))[s.done w]? with
    | some (m, points) =>
      if m = measurement then
        (Schedule.step digest writeThroughOn s.sys (.build w schema (points.map (·.point)))).map
          fun sys => { s with
            sys := sys
            made := Function.update s.made w (some (points, schema.val)) }
      else none
    | none => none
  | .commit w =>
    match s.made w with
    | some (points, schema) =>
      (Schedule.step digest writeThroughOn s.sys (.commit w)).map fun sys => { s with
        sys := sys
        done := Function.update s.done w (s.done w + 1)
        landed := s.landed ++ [⟨points, schema, []⟩] }
    | none => none
  | .store e =>
    if besides e then
      (Schedule.step digest writeThroughOn s.sys e).map fun sys => { s with
        sys := sys
        landed := recasted s.landed e }
    else none

/-- What one step can do. -/
inductive Change (s : Feed F ι κ) : Event F ι κ → Feed F ι κ → Prop
  | submitted {p b}
      (hb : Batcher.Change c s.batcher (.put ⟨s.batcher.accepted.length, p⟩) b) :
      Change s (.submit p) { s with batcher := b }
  | settled {e b} (hput : ∀ p, e ≠ .put p) (hb : Batcher.Change c s.batcher e b) :
      Change s (.batch e) (settle { s with batcher := b } e)
  | refused {w measurement schema points n} (hidle : s.sys.writers w = .idle) :
      Change s (.build w measurement schema) { s with
        sys := { s.sys with world := { s.sys.world with nextSeq := n } }
        made := Function.update s.made w (some (points, schema.val)) }
  | built {w measurement schema points n b}
      (hgroup : (measurement, points) ∈ groupsOf (flushBuf (s.batcher.workers w)))
      (hb : Store.buildBatch digest schema.val (points.map (·.point)) s.sys.world.nextSeq =
        (n, .ok b)) :
      Change s (.build w measurement schema) { s with
        sys := Schedule.build s.sys w n b
        made := Function.update s.made w (some (points, schema.val)) }
  | committed {w points schema b t} (hmade : s.made w = some (points, schema))
      (hb : Schedule.ready writeThroughOn (s.sys.writers w) = some b)
      (ht : Store.commit b (s.sys.world.hot b.table) = some t) :
      Change s (.commit w) { s with
        sys := Schedule.commit s.sys w b t
        done := Function.update s.done w (s.done w + 1)
        landed := s.landed ++ [⟨points, schema, []⟩] }
  | stored {e sys} (he : besides e = true) (hsys : Schedule.Change writeThroughOn s.sys e sys) :
      Change s (.store e) { s with sys := sys, landed := recasted s.landed e }

omit [DecidableEq ι] [Fintype ι] [DecidableEq κ] [Numerics F] in
theorem castLanding_frame (table col : Str) (fromType toType : PgType) (l : Landing F) :
    (castLanding table col fromType toType l).points = l.points ∧
      (castLanding table col fromType toType l).schema = l.schema := by
  unfold castLanding
  split <;> exact ⟨rfl, rfl⟩

section Settle

omit [Fintype ι] [DecidableEq κ] [Numerics F]

variable (s : Feed F ι κ) (e : Batcher.Event (Sent F) ι)

/-- The end of a flush touches no store. -/
theorem settle_frame : (settle s e).batcher = s.batcher ∧
    (settle s e).sys.world = s.sys.world ∧ (settle s e).made = s.made ∧
    (settle s e).landed = s.landed := by
  cases e <;> exact ⟨rfl, rfl, rfl, rfl⟩

theorem holds_settle {w : ι} {b : Batch F}
    (h : Schedule.holds ((settle s e).sys.writers w) = some b) :
    Schedule.holds (s.sys.writers w) = some b := by
  have habandon : ∀ w', Schedule.holds ((Schedule.abandon s.sys w').writers w) = some b →
      Schedule.holds (s.sys.writers w) = some b := by
    intro w' h'
    replace h' : Schedule.holds (Function.update s.sys.writers w' .idle w) = some b := h'
    by_cases hw : w = w'
    · subst hw
      rw [Function.update_self] at h'
      contradiction
    · rw [Function.update_of_ne hw] at h'
      exact h'
  cases e with
  | finish w' written => exact habandon w' h
  | cancel w' => exact habandon w' h
  | put p => exact h
  | take w' lag => exact h
  | timeout w' => exact h
  | tick d => exact h
  | stop => exact h
  | ret => exact h

end Settle

section Change

variable {digest writeThroughOn c}

omit [Fintype ι] in
theorem build_cases {s t : Sys F ι κ} {w : ι} {schema : TableSchema} {points : List (Point F)}
    (h : Schedule.step digest writeThroughOn s (.build w schema points) = some t) :
    s.writers w = .idle ∧ ((∃ n, t = { s with world := { s.world with nextSeq := n } }) ∨
      ∃ n b, Store.buildBatch digest schema points s.world.nextSeq = (n, .ok b) ∧
        t = Schedule.build s w n b) := by
  cases hw : s.writers w <;> simp only [Schedule.step, hw, reduceCtorEq] at h
  refine ⟨rfl, ?_⟩
  cases points with
  | nil => simp at h
  | cons p ps =>
    cases hbuild : Store.buildBatch digest schema (p :: ps) s.world.nextSeq with
    | mk n res =>
      cases res with
      | error e =>
        simp only [hbuild, Option.some.injEq] at h
        exact Or.inl ⟨n, h.symm⟩
      | ok b =>
        simp only [hbuild, Option.some.injEq] at h
        exact Or.inr ⟨n, b, rfl, h.symm⟩

theorem change_of_step {s t : Feed F ι κ} {e : Event F ι κ}
    (h : step digest writeThroughOn c s e = some t) : Change digest writeThroughOn c s e t := by
  cases e with
  | submit p =>
    obtain ⟨b, hb, rfl⟩ := Option.map_eq_some_iff.mp h
    exact Change.submitted (Batcher.change_of_step c hb)
  | batch e =>
    simp only [step] at h
    split at h
    · rename_i hallowed
      obtain ⟨b, hb, rfl⟩ := Option.map_eq_some_iff.mp h
      refine Change.settled (fun p hput => ?_) (Batcher.change_of_step c hb)
      rw [hput] at hallowed
      contradiction
    · contradiction
  | build w measurement schema =>
    simp only [step] at h
    split at h
    · rename_i m points hgroup
      split at h
      · rename_i hm
        obtain ⟨sys, hsys, rfl⟩ := Option.map_eq_some_iff.mp h
        have hmem := List.mem_of_getElem? hgroup
        rw [hm] at hmem
        obtain ⟨hidle, ⟨n, rfl⟩ | ⟨n, b, hb, rfl⟩⟩ := build_cases hsys
        · exact Change.refused hidle
        · exact Change.built hmem hb
      · contradiction
    · contradiction
  | commit w =>
    simp only [step] at h
    split at h
    · rename_i points schema hmade
      obtain ⟨sys, hsys, rfl⟩ := Option.map_eq_some_iff.mp h
      cases Schedule.change_of_step _ _ hsys with
      | committed hb ht => exact Change.committed hmade hb ht
    · contradiction
  | store e =>
    simp only [step] at h
    split at h
    · rename_i hbesides
      obtain ⟨sys, hsys, rfl⟩ := Option.map_eq_some_iff.mp h
      exact Change.stored hbesides (Schedule.change_of_step _ _ hsys)
    · contradiction

end Change

end Workers

end TimescaleLp
