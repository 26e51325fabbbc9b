import TimescaleLp.Alters
import TimescaleLp.Columns
import Mathlib.Data.List.Induction
import Mathlib.Data.Set.Basic

/-!
The type a field column needs. It is the highest type in the widening lattice of
the values seen, in whatever order and in whatever batches they come: the sample
of a batch, a new column and a promotion each compute this join. The schema that
a call returns can then hold every value of its batch as it is.
-/
namespace TimescaleLp.Widest

open Names Schema Store Naming Promotion Alters

variable {F : Type}

/-- The highest type of a set of values. -/
structure IsWidest (ty : PgType) (vs : Set (Value F)) : Prop where
  needed : ∃ v ∈ vs, inferFieldType v = ty
  enough : ∀ v ∈ vs, typeRank (inferFieldType v) ≤ typeRank ty

/-- The type for a set of values, `none` where there are no values. -/
structure TypeFor (ty : Option PgType) (vs : Set (Value F)) : Prop where
  empty : ty = none → vs = ∅
  widest : ∀ t, ty = some t → IsWidest t vs

/-- The values that points have for a field. -/
def valuesOf (points : List (Point F)) (f : Str) : Set (Value F) :=
  {v | ∃ p ∈ points, p.fields.get? f = some v}

section Join
variable {ty ty' : PgType} {vs ws : Set (Value F)} {v w : Value F}

theorem isWidest_singleton (v : Value F) : IsWidest (inferFieldType v) {v} where
  needed := ⟨v, rfl, rfl⟩
  enough w hw := by rw [Set.mem_singleton_iff.mp hw]

/-- Promoting a type by a highest value of more values. -/
theorem isWidest_union (h : IsWidest ty vs) (h' : IsWidest (inferFieldType w) ws) :
    IsWidest (widenedType ty w) (vs ∪ ws) := by
  unfold widenedType
  split
  · rename_i hlt
    obtain ⟨u, hu, hinfer⟩ := h'.needed
    refine ⟨⟨u, Or.inr hu, hinfer⟩, fun u hu => ?_⟩
    rcases hu with hu | hu
    · exact (h.enough u hu).trans hlt.le
    · exact h'.enough u hu
  · rename_i hle
    obtain ⟨u, hu, hinfer⟩ := h.needed
    refine ⟨⟨u, Or.inl hu, hinfer⟩, fun u hu => ?_⟩
    rcases hu with hu | hu
    · exact h.enough u hu
    · exact (h'.enough u hu).trans (not_lt.mp hle)

theorem typeFor_some (h : IsWidest ty vs) : TypeFor (some ty) vs :=
  ⟨fun hnone => (nomatch hnone), fun _ hsome => Option.some.inj hsome ▸ h⟩

theorem typeFor_none : TypeFor none (∅ : Set (Value F)) :=
  ⟨fun _ => rfl, fun _ h => nomatch h⟩

end Join

section Samples

theorem keepWidest_get? (samples : Dict Str (Value F)) (e : Str × Value F) (f : Str) :
    (keepWidest samples e).get? f =
      if f = e.1 then some (match samples.get? f with
        | none => e.2
        | some v => if typeRank (inferFieldType v) < typeRank (inferFieldType e.2) then e.2 else v)
      else samples.get? f := by
  unfold keepWidest
  by_cases hf : f = e.1
  · rw [if_pos hf, hf]
    cases hget : samples.get? e.1 with
    | none => simp
    | some v =>
      simp only
      split
      · simp
      · exact hget
  · rw [if_neg hf]
    split
    · exact Dict.get?_set_of_ne _ _ hf
    · split
      · exact Dict.get?_set_of_ne _ _ hf
      · rfl

/-- The sample kept for a field is one of highest type. -/
theorem typeFor_foldl_keepWidest (es : List (Str × Value F)) (f : Str) :
    TypeFor (((es.foldl keepWidest Dict.empty).get? f).map inferFieldType) {v | (f, v) ∈ es} := by
  induction es using List.reverseRecOn with
  | nil => simpa using typeFor_none
  | append_singleton es e ih =>
    rw [List.foldl_append, List.foldl_cons, List.foldl_nil, keepWidest_get?]
    have hunion : {v | (f, v) ∈ es ++ [e]} = {v | (f, v) ∈ es} ∪ {v | (f, v) = e} := by
      ext v
      simp
    rw [hunion]
    by_cases hf : f = e.1
    · have hnew : {v | (f, v) = e} = {e.2} := by
        ext v
        rw [hf]
        exact ⟨congrArg Prod.snd, fun h => Prod.ext rfl h⟩
      rw [if_pos hf, hnew]
      cases hget : (es.foldl keepWidest Dict.empty).get? f with
      | none =>
        rw [hget] at ih
        rw [ih.empty rfl, Set.empty_union]
        exact typeFor_some (isWidest_singleton e.2)
      | some v =>
        rw [hget] at ih
        have hjoin := isWidest_union (ih.widest _ rfl) (isWidest_singleton e.2)
        unfold widenedType at hjoin
        simp only [Option.map_some]
        split
        · rename_i hlt
          rw [if_pos hlt] at hjoin
          exact typeFor_some hjoin
        · rename_i hle
          rw [if_neg hle] at hjoin
          exact typeFor_some hjoin
    · have hnew : {v | (f, v) = e} = (∅ : Set (Value F)) := by
        ext v
        exact ⟨fun h => (hf (congrArg Prod.fst h)).elim, fun h => h.elim⟩
      rw [if_neg hf, hnew, Set.union_empty]
      exact ih

theorem typeFor_fieldSamples (points : List (Point F)) (f : Str) :
    TypeFor (((fieldSamples points).get? f).map inferFieldType) (valuesOf points f) := by
  have h := typeFor_foldl_keepWidest (points.flatMap (·.fields.entries)) f
  have hset : {v | (f, v) ∈ points.flatMap (·.fields.entries)} = valuesOf points f := by
    ext v
    simp [valuesOf, Dict.get?_eq_some_iff]
  rwa [hset] at h

/-- What the values of a batch make of the type of a field. -/
theorem typeFor_wantedEntry {cached : TableSchema} {points : List (Point F)} {f : Str}
    {vs : Set (Value F)} (h : TypeFor ((cached.fieldCols.get? f).map Prod.snd) vs) :
    TypeFor ((wantedEntry cached (fieldSamples points) f).map Prod.snd)
      (vs ∪ valuesOf points f) := by
  have hbatch := typeFor_fieldSamples points f
  unfold wantedEntry
  cases hentry : cached.fieldCols.get? f with
  | none =>
    rw [hentry] at h
    rw [h.empty rfl, Set.empty_union]
    cases hsample : (fieldSamples points).get? f with
    | none => rwa [hsample] at hbatch
    | some v => rwa [hsample] at hbatch
  | some e =>
    rw [hentry] at h
    cases hsample : (fieldSamples points).get? f with
    | none =>
      rw [hsample] at hbatch
      rw [hbatch.empty rfl, Set.union_empty]
      exact h
    | some v =>
      rw [hsample] at hbatch
      exact typeFor_some (isWidest_union (h.widest e.2 rfl) (hbatch.widest _ rfl))

theorem typeRank_le_widenedType (ty : PgType) (v : Value F) :
    typeRank ty ≤ typeRank (widenedType ty v) ∧
      typeRank (inferFieldType v) ≤ typeRank (widenedType ty v) := by
  unfold widenedType
  split
  · rename_i hlt
    exact ⟨hlt.le, le_rfl⟩
  · rename_i hle
    exact ⟨le_rfl, not_lt.mp hle⟩

/-- The type of a column after a call is that of no value in its batch too low. -/
theorem typeRank_le_of_wantedEntry {cached : TableSchema} {points : List (Point F)} {f : Str}
    {v : Value F} (hv : v ∈ valuesOf points f) {e : Str × PgType}
    (he : wantedEntry cached (fieldSamples points) f = some e) :
    typeRank (inferFieldType v) ≤ typeRank e.2 := by
  have hbatch := typeFor_fieldSamples points f
  cases hsample : (fieldSamples points).get? f with
  | none =>
    rw [hsample] at hbatch
    rw [hbatch.empty rfl] at hv
    exact hv.elim
  | some w =>
    rw [hsample] at hbatch
    have hle := (hbatch.widest _ rfl).enough v hv
    unfold wantedEntry at he
    rw [hsample] at he
    cases hentry : cached.fieldCols.get? f with
    | none =>
      rw [hentry] at he
      rw [← Option.some.inj he]
      exact hle
    | some current =>
      rw [hentry] at he
      rw [← Option.some.inj he]
      exact hle.trans (typeRank_le_widenedType current.2 w).2

/-- A column is not demoted. -/
theorem typeRank_le_of_cached {cached : TableSchema} {samples : Dict Str (Value F)} {f : Str}
    {e e' : Str × PgType} (hcached : cached.fieldCols.get? f = some e)
    (he : wantedEntry cached samples f = some e') : typeRank e.2 ≤ typeRank e'.2 := by
  unfold wantedEntry at he
  rw [hcached] at he
  cases hsample : samples.get? f with
  | none =>
    rw [hsample] at he
    exact (congrArg (typeRank ∘ Prod.snd) (Option.some.inj he)).le
  | some w =>
    rw [hsample] at he
    rw [← Option.some.inj he]
    exact (typeRank_le_widenedType e.2 w).1

end Samples

section Schema
variable [Numerics F] {s s' : Service F} {m : Str} {tagNames : List Str}
  {samples : Dict Str (Value F)} {schema : TableSchema}

theorem fieldCols_of_ensureSchema (h : ensureSchema s m tagNames samples = (s', some schema))
    (f : Str) : schema.fieldCols.get? f = wantedEntry (schemaOf s m) samples f := by
  rw [(ensureSchema_ok h).1, callMigrations, get?_noted_migrations]

end Schema

end TimescaleLp.Widest
