import TimescaleLp.Batches
import TimescaleLp.Passes
import TimescaleLp.Runs

/-!
The process as a whole: any number of write calls and compaction passes over one
world, interleaved at their awaits. A write call builds its batch in one step,
then stages it, records it and commits it; it can end before any of these, and a
built batch can carry any schema. The lists of batches are history, which no
step reads.
-/
namespace TimescaleLp

/-- Where a write call stands. -/
inductive Writer (F : Type)
  | idle
  | built (b : Batch F)
  | staged (b : Batch F)
  | recorded (b : Batch F)

/-- The process and its history: the batches built, those recorded in the
manifest and those committed. -/
structure Sys (F ι κ : Type) where
  world : World (Value F)
  writers : ι → Writer F
  passes : κ → Pass
  drawn : List (Batch F)
  recorded : List (Batch F)
  committed : List (Batch F)

/-- One step of a write call or of a pass. A promotion is a statement of some
call's schema update. -/
inductive Event (F ι κ : Type)
  | build (w : ι) (schema : TableSchema) (points : List (Point F))
  | stage (w : ι)
  | record (w : ι)
  | commit (w : ι)
  | abandon (w : ι)
  | promote (table col : Str) (fromType toType : PgType)
  | begin (p : κ) (measurement : Option Str)
  | advance (p : κ)

namespace Schedule

open Store Schema

variable {F ι κ : Type} [DecidableEq ι] [DecidableEq κ]

/-- The rows of a table in a list of batches. -/
def rowsOf (batches : List (Batch F)) (table : Str) : Set (Row (Value F)) :=
  {r | ∃ b ∈ batches, b.table = table ∧ r ∈ b.records}

def start (nextSeq : ℕ) : Sys F ι κ where
  world := ⟨nextSeq, fun _ => Dict.empty, ColdStore.empty⟩
  writers := fun _ => .idle
  passes := fun _ => .idle
  drawn := []
  recorded := []
  committed := []

/-- The batch whose transaction comes next. -/
def ready (writeThroughOn : Bool) : Writer F → Option (Batch F)
  | .built b => if writeThroughOn then none else some b
  | .recorded b => some b
  | _ => none

/-- The batch a write call works on. -/
def holds : Writer F → Option (Batch F)
  | .idle => none
  | .built b => some b
  | .staged b => some b
  | .recorded b => some b

def promoted [Numerics F] (col : Str) (fromType toType : PgType) (t : Table (Value F)) :
    Table (Value F) :=
  t.map fun _ r => ⟨r.seq, castCells col fromType toType r.cells⟩

/-- An `ALTER COLUMN ... TYPE` that succeeds. -/
def promote [Numerics F] (s : Sys F ι κ) (table col : Str) (fromType toType : PgType) :
    Sys F ι κ :=
  { s with world := { s.world with
      hot := Function.update s.world.hot table
        (promoted col fromType toType (s.world.hot table)) } }

def abandon (s : Sys F ι κ) (w : ι) : Sys F ι κ :=
  { s with writers := Function.update s.writers w .idle }

def build (s : Sys F ι κ) (w : ι) (n : ℕ) (b : Batch F) : Sys F ι κ :=
  { s with
    world := { s.world with nextSeq := n }
    writers := Function.update s.writers w (.built b)
    drawn := s.drawn ++ [b] }

def stage (s : Sys F ι κ) (w : ι) (b : Batch F) : Sys F ι κ :=
  { s with
    world := { s.world with cold := Store.stage b s.world.cold }
    writers := Function.update s.writers w (.staged b) }

def record (s : Sys F ι κ) (w : ι) (b : Batch F) : Sys F ι κ :=
  { s with
    world := { s.world with cold := ColdStore.record s.world.cold b.stagingMeta }
    writers := Function.update s.writers w (.recorded b)
    recorded := s.recorded ++ [b] }

def commit (s : Sys F ι κ) (w : ι) (b : Batch F) (t : Table (Value F)) : Sys F ι κ :=
  { s with
    world := { s.world with hot := Function.update s.world.hot b.table t }
    writers := Function.update s.writers w .idle
    committed := s.committed ++ [b] }

def advance (s : Sys F ι κ) (p : κ) (pass : Pass) (c : Cold (Value F)) : Sys F ι κ :=
  { s with
    world := { s.world with cold := c }
    passes := Function.update s.passes p pass }

variable (digest : Str → ℕ) (writeThroughOn : Bool) [Numerics F]

def step (s : Sys F ι κ) : Event F ι κ → Option (Sys F ι κ)
  | .build w schema points =>
    match s.writers w, points with
    | .idle, _ :: _ =>
      match buildBatch digest schema points s.world.nextSeq with
      | (n, .error _) => some { s with world := { s.world with nextSeq := n } }
      | (n, .ok b) => some (build s w n b)
    | _, _ => none
  | .stage w =>
    match s.writers w with
    | .built b => if writeThroughOn then some (stage s w b) else none
    | _ => none
  | .record w =>
    match s.writers w with
    | .staged b => some (record s w b)
    | _ => none
  | .commit w =>
    (ready writeThroughOn (s.writers w)).bind fun b =>
      (Store.commit b (s.world.hot b.table)).map fun t => commit s w b t
  | .abandon w => some (abandon s w)
  | .promote table col fromType toType => some (promote s table col fromType toType)
  | .begin p measurement =>
    if (s.passes p).resting then
      some (advance s p (Passes.begin s.world.cold measurement) s.world.cold)
    else none
  | .advance p => (Passes.step s.world.cold (s.passes p)).map fun (pass, c) => advance s p pass c

omit [DecidableEq ι] [DecidableEq κ] [Numerics F] in
theorem rowsOf_append (log : List (Batch F)) (b : Batch F) (table : Str) :
    rowsOf (log ++ [b]) table =
      rowsOf log table ∪ {r | b.table = table ∧ r ∈ b.records} := by
  ext r
  simp [rowsOf, or_and_right, exists_or]

omit [DecidableEq ι] [DecidableEq κ] [Numerics F] in
/-- The newest row of a key exists, the history being finite. -/
theorem exists_newest (log : List (Batch F)) (table : Str) (r : Row (Value F))
    (hr : r ∈ rowsOf log table) : ∃ s, Newest (rowsOf log table) r.key s := by
  have hlist : rowsOf log table =
      {s | s ∈ (log.filter (fun b => b.table = table)).flatMap (·.records)} := by
    ext s
    simp [rowsOf, and_assoc]
  rw [hlist] at hr ⊢
  exact Versions.exists_newest Row.key Row.seq _ r hr

omit [DecidableEq ι] [DecidableEq κ] [Numerics F] in
theorem holds_of_ready {w : Writer F} {b : Batch F} (h : ready writeThroughOn w = some b) :
    holds w = some b := by
  cases w with
  | idle => simp [ready] at h
  | built b' => cases writeThroughOn <;> simp_all [ready, holds]
  | staged b' => simp [ready] at h
  | recorded b' => exact h

omit [DecidableEq κ] [Numerics F] in
/-- A property of the batches in work is kept when one writer moves on. -/
theorem forall_holds_update {writers : ι → Writer F} {P : Batch F → Prop}
    (hP : ∀ w b, holds (writers w) = some b → P b) (w : ι) (x : Writer F)
    (hx : ∀ b, holds x = some b → P b) :
    ∀ w' b, holds (Function.update writers w x w') = some b → P b := by
  intro w' b hb
  by_cases hw : w' = w
  · subst hw
    rw [Function.update_self] at hb
    exact hx b hb
  · rw [Function.update_of_ne hw] at hb
    exact hP w' b hb

omit [DecidableEq κ] [Numerics F] in
@[simp] theorem cold_stage (s : Sys F ι κ) (w : ι) (b : Batch F) :
    (stage s w b).world.cold = Store.stage b s.world.cold := rfl

section Hot

omit [DecidableEq κ] [Numerics F]

variable {s : Sys F ι κ} {w : ι} {b : Batch F} {t : Table (Value F)}

theorem hot_commit (table : Str) : (commit s w b t).world.hot table =
    if table = b.table then t else s.world.hot table := by
  simp [commit, Function.update_apply]

/-- The sequence number of a hot row after a commit: that of the batch, or the
one it had. -/
theorem get?_hot_commit (hkeys : (b.records.map Row.key).Nodup)
    (ht : Store.commit b (s.world.hot b.table) = some t) (table : Str) (k : Key) :
    (∃ r ∈ b.records, b.table = table ∧ r.key = k ∧
      ((commit s w b t).world.hot table).get? k =
        some (Batches.upserted b.cols ((s.world.hot table).get? k) r)) ∨
    ((b.table = table → ∀ r ∈ b.records, r.key ≠ k) ∧
      ((commit s w b t).world.hot table).get? k = (s.world.hot table).get? k) := by
  rw [hot_commit]
  by_cases htable : table = b.table
  · subst htable
    rw [if_pos rfl]
    by_cases hk : k ∈ b.records.map Row.key
    · obtain ⟨r, hr, rfl⟩ := List.mem_map.mp hk
      exact Or.inl ⟨r, hr, rfl, rfl, Batches.get?_commit_of_mem ht hkeys hr⟩
    · refine Or.inr ⟨fun _ r hr hkey => hk (hkey ▸ List.mem_map_of_mem hr), ?_⟩
      exact Batches.get?_commit_of_notMem ht hk
  · rw [if_neg htable]
    exact Or.inr ⟨fun heq => absurd heq.symm htable, rfl⟩

end Hot

omit [DecidableEq ι] [DecidableEq κ] in
/-- A promotion rewrites cells and leaves sequence numbers alone. -/
theorem seq_hot_promote (s : Sys F ι κ) (table col : Str) (fromType toType : PgType)
    (table' : Str) (k : Key) :
    (((promote s table col fromType toType).world.hot table').get? k).map Stored.seq =
      ((s.world.hot table').get? k).map Stored.seq := by
  by_cases htable : table' = table
  · subst htable
    simp [promote, promoted, Function.comp_def]
  · simp [promote, htable]

/-- What one step can do. -/
inductive Change (s : Sys F ι κ) : Event F ι κ → Sys F ι κ → Prop
  | built {w schema points n b} (hidle : s.writers w = .idle) (hn : s.world.nextSeq ≤ n)
      (hdrawn : b.Drawn s.world.nextSeq n) : Change s (.build w schema points) (build s w n b)
  | refused {w schema points n} (hn : s.world.nextSeq ≤ n) :
      Change s (.build w schema points) { s with world := { s.world with nextSeq := n } }
  | staged {w b} (hb : s.writers w = .built b) (hon : writeThroughOn = true) :
      Change s (.stage w) (stage s w b)
  | recorded {w b} (hb : s.writers w = .staged b) : Change s (.record w) (record s w b)
  | committed {w b t} (hb : ready writeThroughOn (s.writers w) = some b)
      (ht : Store.commit b (s.world.hot b.table) = some t) : Change s (.commit w) (commit s w b t)
  | abandoned {w} : Change s (.abandon w) (abandon s w)
  | promoted {table col fromType toType} : Change s (.promote table col fromType toType)
      (promote s table col fromType toType)
  | began {p measurement} (hp : (s.passes p).resting = true) : Change s (.begin p measurement)
      (advance s p (Passes.begin s.world.cold measurement) s.world.cold)
  | advanced {p pass c} (hp : Passes.step s.world.cold (s.passes p) = some (pass, c)) :
      Change s (.advance p) (advance s p pass c)

theorem change_of_step {s t : Sys F ι κ} {e : Event F ι κ}
    (h : step digest writeThroughOn s e = some t) : Change writeThroughOn s e t := by
  cases e with
  | build w schema points =>
    cases hw : s.writers w <;> simp only [step, hw, reduceCtorEq] at h
    cases points with
    | nil => simp at h
    | cons p ps =>
      have hle := Batches.buildBatch_le digest schema (p :: ps) s.world.nextSeq
      cases hbuild : buildBatch digest schema (p :: ps) s.world.nextSeq with
      | mk n res =>
        rw [hbuild] at hle
        cases res with
        | error e =>
          simp only [hbuild, Option.some.injEq] at h
          exact h ▸ Change.refused hle
        | ok b =>
          simp only [hbuild, Option.some.injEq] at h
          have hdrawn := Batches.buildBatch_drawn digest (List.cons_ne_nil p ps) hbuild
          exact h ▸ Change.built hw hle hdrawn
  | stage w =>
    cases hw : s.writers w <;> simp only [step, hw, reduceCtorEq] at h
    split at h
    · rename_i hon
      exact Option.some.inj h ▸ Change.staged hw hon
    · contradiction
  | record w =>
    cases hw : s.writers w <;> simp only [step, hw, reduceCtorEq] at h
    exact Option.some.inj h ▸ Change.recorded hw
  | commit w =>
    obtain ⟨b, hb, hrest⟩ := Option.bind_eq_some_iff.mp h
    obtain ⟨table, htable, rfl⟩ := Option.map_eq_some_iff.mp hrest
    exact Change.committed hb htable
  | abandon w => exact Option.some.inj h ▸ Change.abandoned
  | promote table col fromType toType => exact Option.some.inj h ▸ Change.promoted
  | begin p measurement =>
    simp only [step] at h
    split at h
    · rename_i hp
      exact Option.some.inj h ▸ Change.began hp
    · contradiction
  | advance p =>
    obtain ⟨⟨pass, c⟩, hp, rfl⟩ := Option.map_eq_some_iff.mp h
    exact Change.advanced hp

/-- A measurement with one integer field, for runs on concrete points. -/
def cpuSchema : TableSchema :=
  ⟨"cpu".toList, "cpu".toList, Dict.empty, Dict.single "a".toList ("f_a".toList, .bigint)⟩

def cpuPoint (time : Time) (n : ℤ) : Point ℤ :=
  ⟨"cpu".toList, Dict.empty, Dict.single "a".toList (.int n), time⟩

end Schedule

end TimescaleLp
