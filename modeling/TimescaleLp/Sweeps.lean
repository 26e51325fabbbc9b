import TimescaleLp.Tiering

/-!
One call of `evict_once` as a program counter over the hot tables and the cold
store. Every await of the loops is a step; the chunks that the database reports as
old enough come with the step that asks for them. Run alone, the steps compute
exactly `evictOnce`.
-/
namespace TimescaleLp

universe u

/-- Where a sweep stands: the chunks left for the table, then the tables left. The
intervals are those of the objects listed before the chunks of the table. -/
inductive Sweep
  | idle
  | asking (todo : List Str)
  | listing (table : Str) (chunks : List (Time × Time)) (todo : List Str)
  | sweeping (table : Str) (intervals chunks : List (Time × Time)) (todo : List Str)
  | recording (table : Str) (chunk : Time × Time) (rows : ℕ)
      (intervals chunks : List (Time × Time)) (todo : List Str)
  | dropping (table : Str) (chunk : Time × Time) (intervals chunks : List (Time × Time))
      (todo : List Str)
  | ended (ok : Bool)

namespace Sweep

def resting : Sweep → Bool
  | .idle => true
  | .ended _ => true
  | _ => false

end Sweep

namespace Sweeps

open ColdStore Tiering

variable {V : Type u}

/-- The manifest row of an exported chunk. -/
def exportMeta (table : Str) (chunk : Time × Time) (rows : ℕ) : ObjectMeta :=
  ⟨⟨table, .cold, chunk.1, chunk.2, rows, 0, 0⟩, exportKey table chunk.1⟩

def drop (w : World V) (table : Str) (chunk : Time × Time) : World V :=
  { w with hot := Function.update w.hot table (dropChunk (w.hot table) chunk.1 chunk.2) }

/-- The hot rows of a chunk go to the object of its day, as they are now. -/
def exported (w : World V) (table : Str) (chunk : Time × Time) : World V :=
  { w with cold := (Engine.exportHotRange w.cold (w.hot table) (exportKey table chunk.1)
      chunk.1 chunk.2).1 }

def exportedRows (w : World V) (table : Str) (chunk : Time × Time) : ℕ :=
  (Engine.exportHotRange w.cold (w.hot table) (exportKey table chunk.1) chunk.1 chunk.2).2

def recorded (w : World V) (table : Str) (chunk : Time × Time) (rows : ℕ) : World V :=
  { w with cold := record w.cold (exportMeta table chunk rows) }

/-- The next step of a sweep; none is left once it has ended. -/
def step (w : World V) (eligible : List (Time × Time)) : Sweep → Option (Sweep × World V)
  | .idle => none
  | .asking [] => some (.ended true, w)
  | .asking (table :: todo) =>
    some (if eligible = [] then .asking todo else .listing table eligible todo, w)
  | .listing table chunks todo => some (.sweeping table (coverage w.cold table) chunks todo, w)
  | .sweeping _ _ [] todo => some (.asking todo, w)
  | .sweeping table intervals (chunk :: chunks) todo =>
    if isCovered chunk.1 chunk.2 intervals then
      some (.sweeping table intervals chunks todo, drop w table chunk)
    else
      some (.recording table chunk (exportedRows w table chunk) intervals chunks todo,
        exported w table chunk)
  | .recording table chunk rows intervals chunks todo =>
    some (.dropping table chunk intervals chunks todo, recorded w table chunk rows)
  | .dropping table chunk intervals chunks todo =>
    some (.sweeping table intervals chunks todo, drop w table chunk)
  | .ended _ => none

/-- Several steps of a sweep that runs alone, with the answers of the database. -/
inductive Steps : Sweep → World V → Sweep → World V → Prop
  | refl (q : Sweep) (w : World V) : Steps q w q w
  | head {q q' q'' : Sweep} {w w' w'' : World V} (eligible : List (Time × Time)) :
      step w eligible q = some (q', w') → Steps q' w' q'' w'' → Steps q w q'' w''

theorem Steps.trans {q q' q'' : Sweep} {w w' w'' : World V} (h : Steps q w q' w')
    (h' : Steps q' w' q'' w'') : Steps q w q'' w'' := by
  induction h with
  | refl => exact h'
  | head eligible hstep _ ih => exact Steps.head eligible hstep (ih h')

theorem steps_chunks (table : Str) (intervals chunks : List (Time × Time)) (todo : List Str)
    (w : World V) : Steps (.sweeping table intervals chunks todo) w (.asking todo)
      (chunks.foldl (evictChunk table intervals) w) := by
  induction chunks generalizing w with
  | nil => exact Steps.head [] rfl (Steps.refl _ _)
  | cons chunk chunks ih =>
    rw [List.foldl_cons]
    have hrest := ih (evictChunk table intervals w chunk)
    by_cases hcovered : isCovered chunk.1 chunk.2 intervals = true
    · have hdrop : evictChunk table intervals w chunk = drop w table chunk := by
        rw [evictChunk, if_pos hcovered, drop]
      have hstep : step w [] (.sweeping table intervals (chunk :: chunks) todo) =
          some (.sweeping table intervals chunks todo, drop w table chunk) := by
        rw [step, if_pos hcovered]
      exact Steps.head [] hstep (hdrop ▸ hrest)
    · have hexport : evictChunk table intervals w chunk =
          drop (recorded (exported w table chunk) table chunk (exportedRows w table chunk)) table
            chunk := by
        rw [evictChunk, if_neg hcovered]
        rfl
      have hstep : step w [] (.sweeping table intervals (chunk :: chunks) todo) =
          some (.recording table chunk (exportedRows w table chunk) intervals chunks todo,
            exported w table chunk) := by
        rw [step, if_neg hcovered]
      exact Steps.head [] hstep (Steps.head [] rfl
        (Steps.head [] rfl (hexport ▸ hrest)))

/-- A sweep that runs alone, from its start to its end, does what `evictOnce` does. -/
theorem steps_evictOnce (eligible : List (Str × List (Time × Time))) (w : World V) :
    Steps (.asking (eligible.map Prod.fst)) w (.ended true) (evictOnce w eligible).1 := by
  rw [evictOnce]
  induction eligible generalizing w with
  | nil => exact Steps.head [] rfl (Steps.refl _ _)
  | cons e eligible ih =>
    obtain ⟨table, chunks⟩ := e
    rw [List.foldl_cons, List.map_cons]
    have hrest := ih (evictTable w table chunks)
    cases chunks with
    | nil => exact Steps.head [] rfl hrest
    | cons chunk chunks =>
      refine Steps.head (chunk :: chunks) rfl ?_
      exact Steps.head [] rfl ((steps_chunks _ _ _ _ w).trans hrest)

end Sweeps

end TimescaleLp
