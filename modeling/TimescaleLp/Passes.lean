import TimescaleLp.Tiering

/-!
One call of `compact_once` as a program counter over the cold store. Every await
of the loops is a step, so other tasks can run between any two of them. A pass
whose merge finds an input missing ends there; run alone, the steps compute
exactly `compactOnce`.
-/
namespace TimescaleLp

universe u

/-- The group a pass is working on: a measurement, a day and its staging objects. -/
structure Job where
  measurement : Str
  day : Str
  objs : List ObjectMeta

/-- Where a pass stands: the groups left for the measurement, then the
measurements left. -/
inductive Pass
  | idle
  | listing (todo : List Str)
  | merging (m : Str) (groups : List (Str × List ObjectMeta)) (todo : List Str)
  | recording (job : Job) (rows : ℕ) (groups : List (Str × List ObjectMeta)) (todo : List Str)
  | removing (job : Job) (rest : List ObjectMeta) (groups : List (Str × List ObjectMeta))
      (todo : List Str)
  | forgetting (job : Job) (o : ObjectMeta) (rest : List ObjectMeta)
      (groups : List (Str × List ObjectMeta)) (todo : List Str)
  | ended (ok : Bool)

namespace Pass

/-- A pass can begin when no call of its task is going on. -/
def resting : Pass → Bool
  | .idle => true
  | .ended _ => true
  | _ => false

def succeeded : Pass → Bool
  | .ended ok => ok
  | _ => false

theorem ended_of_succeeded {p : Pass} (h : p.succeeded = true) : p = .ended true := by
  cases p with
  | ended ok => rw [show ok = true from h]
  | idle => contradiction
  | listing todo => contradiction
  | merging m groups todo => contradiction
  | recording job rows groups todo => contradiction
  | removing job rest groups todo => contradiction
  | forgetting job o rest groups todo => contradiction

end Pass

namespace Passes

open ColdStore Tiering

variable {V : Type u}

def jobKey (job : Job) : Str := outKey job.measurement job.day job.objs

def jobMeta (job : Job) (rows : ℕ) : ObjectMeta :=
  metaOf job.measurement .cold (jobKey job) job.objs rows

def begin (c : Cold V) (measurement : Option Str) : Pass := .listing (passMeasurements c measurement)

/-- The next step of a pass; none is left once it has ended. -/
def step (c : Cold V) : Pass → Option (Pass × Cold V)
  | .idle => none
  | .listing [] => some (.ended true, c)
  | .listing (m :: todo) =>
    some (.merging m (planCompaction (objects c m (some .staging))).entries todo, c)
  | .merging _ [] todo => some (.listing todo, c)
  | .merging m ((day, objs) :: groups) todo =>
    match Engine.compact c (objs.map (·.objectKey)) (outKey m day objs) with
    | none => some (.ended false, c)
    | some (c', rows) => some (.recording ⟨m, day, objs⟩ rows groups todo, c')
  | .recording job rows groups todo =>
    some (.removing job job.objs groups todo, record c (jobMeta job rows))
  | .removing job [] groups todo => some (.merging job.measurement groups todo, c)
  | .removing job (o :: rest) groups todo =>
    some (.forgetting job o rest groups todo, delete c o.objectKey)
  | .forgetting job o rest groups todo =>
    some (.removing job rest groups todo, forget c o.objectKey)
  | .ended _ => none

/-- Several steps of a pass that runs alone. -/
inductive Steps : Pass → Cold V → Pass → Cold V → Prop
  | refl (p : Pass) (c : Cold V) : Steps p c p c
  | head {p p' p'' : Pass} {c c' c'' : Cold V} :
      step c p = some (p', c') → Steps p' c' p'' c'' → Steps p c p'' c''

theorem Steps.trans {p p' p'' : Pass} {c c' c'' : Cold V} (h : Steps p c p' c')
    (h' : Steps p' c' p'' c'') : Steps p c p'' c'' := by
  induction h with
  | refl => exact h'
  | head hstep _ ih => exact Steps.head hstep (ih h')

theorem steps_removing (job : Job) (rest : List ObjectMeta)
    (groups : List (Str × List ObjectMeta)) (todo : List Str) (c : Cold V) :
    Steps (.removing job rest groups todo) c (.merging job.measurement groups todo)
      (dropStaging rest c) := by
  induction rest generalizing c with
  | nil => exact Steps.head rfl (Steps.refl _ _)
  | cons o rest ih => exact Steps.head rfl (Steps.head rfl (ih _))

/-- Where a pass stands after the days of a measurement. -/
def afterGroups (todo : List Str) : Option (List CompactResult) → Pass
  | some _ => .listing todo
  | none => .ended false

theorem afterGroups_map (todo : List Str) (f : List CompactResult → List CompactResult)
    (results : Option (List CompactResult)) :
    afterGroups todo (results.map f) = afterGroups todo results := by
  cases results <;> rfl

theorem steps_groups (m : Str) (groups : List (Str × List ObjectMeta)) (todo : List Str)
    (c : Cold V) :
    Steps (.merging m groups todo) c (afterGroups todo (compactGroups m groups c).2)
      (compactGroups m groups c).1 := by
  induction groups generalizing c with
  | nil => exact Steps.head rfl (Steps.refl _ _)
  | cons g groups ih =>
    obtain ⟨day, objs⟩ := g
    cases hmerge : Engine.compact c (objs.map (·.objectKey)) (outKey m day objs) with
    | none =>
      have hfail : step c (.merging m ((day, objs) :: groups) todo) = some (.ended false, c) := by
        simp [step, hmerge]
      simp only [compactGroups, compactGroup, hmerge, Option.map_none, afterGroups]
      exact Steps.head hfail (Steps.refl _ _)
    | some merged =>
      obtain ⟨c₁, rows⟩ := merged
      have hmerged : step c (.merging m ((day, objs) :: groups) todo) =
          some (.recording ⟨m, day, objs⟩ rows groups todo, c₁) := by
        simp [step, hmerge]
      have hdrop := steps_removing ⟨m, day, objs⟩ objs groups todo
        (record c₁ (jobMeta ⟨m, day, objs⟩ rows))
      have hrest := ih (dropStaging objs (record c₁ (jobMeta ⟨m, day, objs⟩ rows)))
      simp only [compactGroups, compactGroup, hmerge, Option.map_some, afterGroups_map]
      exact Steps.head hmerged (Steps.head rfl (hdrop.trans hrest))

/-- A pass that runs alone, from its start to its end, does what `compactOnce` does. -/
theorem steps_compactOnce (measurement : Option Str) (c : Cold V) :
    Steps (begin c measurement) c (.ended (compactOnce measurement c).2.isSome)
      (compactOnce measurement c).1 := by
  rw [begin, compactOnce]
  generalize passMeasurements c measurement = ms
  induction ms generalizing c with
  | nil => exact Steps.head rfl (Steps.refl _ _)
  | cons m ms ih =>
    have hgroups := steps_groups m (planCompaction (objects c m (some .staging))).entries ms c
    refine Steps.head rfl (hgroups.trans ?_)
    cases hres : compactGroups m (planCompaction (objects c m (some .staging))).entries c with
    | mk c₁ results =>
      cases results with
      | none => simpa [compactAll, hres, afterGroups] using Steps.refl (V := V) (.ended false) c₁
      | some done => simpa [compactAll, hres, afterGroups] using ih c₁

end Passes

end TimescaleLp
