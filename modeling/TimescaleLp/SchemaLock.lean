import TimescaleLp.Outputs
import TimescaleLp.TempTable
import TimescaleLp.Widest

/-!
The schema lock of a measurement. `_ensure_schema` tests the shared schema, takes
the lock, tests again and migrates; the statements it issues are then needed until
they have run, as nobody else changes the schema meanwhile. So each column is added
once and only promoted upwards, and a schema that is enough for a call remains so.
-/
namespace TimescaleLp.SchemaLock

open Names Schema Store Promotion Alters Widest TempTable

variable {F ι : Type}

/-- The tag or the field that a statement is about. -/
def target : Migration → Str ⊕ Str
  | .addTag t => .inl t
  | .addField f _ => .inr f
  | .widen f _ _ _ => .inr f

/-- A statement that does something: a new column, or a promotion from the type the
schema lists to a higher one. -/
def Needed (schema : TableSchema) : Migration → Prop
  | .addTag t => schema.tagCols.get? t = none
  | .addField f _ => schema.fieldCols.get? f = none
  | .widen f col fromType toType =>
    schema.fieldCols.get? f = some (col, fromType) ∧ typeRank fromType < typeRank toType

/-- How much there is of a tag or a field: nothing, or a column of some type. -/
def extent (schema : TableSchema) : Str ⊕ Str → ℕ
  | .inl t => if schema.tagCols.contains t then 1 else 0
  | .inr f => ((schema.fieldCols.get? f).map fun e => typeRank e.2).getD 0

def limit : Str ⊕ Str → ℕ
  | .inl _ => 1
  | .inr _ => 4

/-- Columns stay under their names, and their types do not become lower. -/
structure Grown (schema schema' : TableSchema) : Prop where
  tags : ∀ t ∈ schema.tagCols.keys, t ∈ schema'.tagCols.keys
  fields : ∀ f col ty, schema.fieldCols.get? f = some (col, ty) →
    ∃ ty', schema'.fieldCols.get? f = some (col, ty') ∧ typeRank ty ≤ typeRank ty'

/-- The schema has a column for each tag of the points, and one for each field that
is wide enough for its values. -/
structure Suffices (schema : TableSchema) (points : List (Point F)) : Prop where
  tags : ∀ t ∈ tagNames points, t ∈ schema.tagCols.keys
  fields : ∀ f, ∀ v ∈ valuesOf points f, ∃ col ty,
    schema.fieldCols.get? f = some (col, ty) ∧ typeRank (inferFieldType v) ≤ typeRank ty

/-- The call is in the migration, under the lock. -/
def migrates : Caller F → Bool
  | .migrating _ _ => true
  | _ => false

/-- The statements about one field, from what the schema lists for it: the column is
added if there is none, and from then on promoted, each time from the type that it has
to a higher one. -/
def Climbs (f : Str) : Option (Str × PgType) → List Migration → Prop
  | _, [] => True
  | none, .addField f' ty :: ms => f' = f ∧ Climbs f (some (fieldCol f, ty)) ms
  | some (col, ty), .widen f' col' fromType toType :: ms =>
    f' = f ∧ col' = col ∧ fromType = ty ∧ typeRank ty < typeRank toType ∧
      Climbs f (some (col, toType)) ms
  | _, _ :: _ => False

/-- Each statement does something to what the ones before it have made of the schema. -/
def AllNeeded : TableSchema → List Migration → Prop
  | _, [] => True
  | schema, mg :: ms => Needed schema mg ∧ AllNeeded (noted schema [mg]) ms

/-- The statement that an event executes; one that fails is none. -/
def statementOf (s : Shared F ι) : TempTable.Event F ι → List Migration
  | .statement w =>
    match s.calls w with
    | .migrating _ (mg :: _) => [mg]
    | _ => []
  | _ => []

section Statements

variable {schema schema' : TableSchema} {mg mg' : Migration} {points : List (Point F)}

theorem Grown.refl (schema : TableSchema) : Grown schema schema where
  tags _ h := h
  fields _ _ ty h := ⟨ty, h, le_rfl⟩

theorem Grown.trans {schema'' : TableSchema} (h : Grown schema schema')
    (h' : Grown schema' schema'') : Grown schema schema'' where
  tags t ht := h'.tags t (h.tags t ht)
  fields f col ty hget := by
    obtain ⟨ty', hget', hle⟩ := h.fields f col ty hget
    obtain ⟨ty'', hget'', hle'⟩ := h'.fields f col ty' hget'
    exact ⟨ty'', hget'', hle.trans hle'⟩

theorem Suffices.grown (h : Suffices schema points) (hgrown : Grown schema schema') :
    Suffices schema' points where
  tags t ht := hgrown.tags t (h.tags t ht)
  fields f v hv := by
    obtain ⟨col, ty, hget, hle⟩ := h.fields f v hv
    obtain ⟨ty', hget', hle'⟩ := hgrown.fields f col ty hget
    exact ⟨col, ty', hget', hle.trans hle'⟩

theorem grown_noted (h : Needed schema mg) : Grown schema (noted schema [mg]) := by
  cases mg with
  | addTag t =>
    refine ⟨fun t' ht' => ?_, fun f col ty hget => ⟨ty, hget, le_rfl⟩⟩
    rw [Dict.mem_keys_iff] at ht' ⊢
    rw [get?_noted_tagCols]
    split
    · exact ⟨_, rfl⟩
    · exact ht'
  | addField f ty =>
    refine ⟨fun t ht => ht, fun f' col ty' hget => ⟨ty', ?_, le_rfl⟩⟩
    have hne : f' ≠ f := by
      rintro rfl
      exact absurd (hget.symm.trans h) (by simp)
    exact (Dict.get?_set_of_ne _ _ hne).trans hget
  | widen f col fromType toType =>
    obtain ⟨hold, hlt⟩ := h
    refine ⟨fun t ht => ht, fun f' col' ty' hget => ?_⟩
    by_cases hf : f' = f
    · subst hf
      cases hold.symm.trans hget
      exact ⟨toType, Dict.get?_set_self _ _ _, hlt.le⟩
    · exact ⟨ty', (Dict.get?_set_of_ne _ _ hf).trans hget, le_rfl⟩

theorem tagCol_noted_of_ne {t : Str} (ht : target mg ≠ .inl t) :
    (noted schema [mg]).tagCols.get? t = schema.tagCols.get? t := by
  rw [get?_noted_tagCols, if_neg]
  intro hmem
  exact ht (congrArg target (List.mem_singleton.mp hmem)).symm

theorem fieldCol_noted_of_ne {f : Str} (hf : target mg ≠ .inr f) :
    (noted schema [mg]).fieldCols.get? f = schema.fieldCols.get? f := by
  refine get?_noted_of_forall_ne fun mg₁ hmg₁ e hrecord => ?_
  cases List.mem_singleton.mp hmg₁
  cases mg <;> cases hrecord <;> exact hf rfl

/-- A statement about something else is needed as before. -/
theorem needed_noted (h : Needed schema mg') (hne : target mg ≠ target mg') :
    Needed (noted schema [mg]) mg' := by
  cases mg' with
  | addTag t => exact (tagCol_noted_of_ne hne).trans h
  | addField f ty => exact (fieldCol_noted_of_ne hne).trans h
  | widen f col fromType toType => exact ⟨(fieldCol_noted_of_ne hne).trans h.1, h.2⟩

variable {ms : List Migration}

/-- A tag that is there is not added again. -/
theorem AllNeeded.tag_known (h : AllNeeded schema ms) {t : Str}
    (ht : schema.tagCols.get? t ≠ none) : ms.filter (fun mg => target mg = .inl t) = [] := by
  induction ms generalizing schema with
  | nil => rfl
  | cons mg ms ih =>
    obtain ⟨hmg, hms⟩ := h
    have hne : target mg ≠ .inl t := by
      intro heq
      cases mg with
      | addTag t' =>
        cases heq
        exact ht hmg
      | addField f ty => contradiction
      | widen f col fromType toType => contradiction
    rw [List.filter_cons_of_neg (by simpa using hne)]
    exact ih hms (by rwa [tagCol_noted_of_ne hne])

/-- A tag that is not there is added at most once. -/
theorem AllNeeded.tag_new (h : AllNeeded schema ms) (t : Str) :
    ms.filter (fun mg => target mg = .inl t) = [] ∨
      schema.tagCols.get? t = none ∧ ms.filter (fun mg => target mg = .inl t) = [.addTag t] := by
  induction ms generalizing schema with
  | nil => exact Or.inl rfl
  | cons mg ms ih =>
    obtain ⟨hmg, hms⟩ := h
    by_cases heq : target mg = .inl t
    · cases mg with
      | addTag t' =>
        cases heq
        have hrest := hms.tag_known (t := t) (by simp [get?_noted_tagCols])
        rw [List.filter_cons_of_pos (by simp [target]), hrest]
        exact Or.inr ⟨hmg, rfl⟩
      | addField f ty => contradiction
      | widen f col fromType toType => contradiction
    · rw [List.filter_cons_of_neg (by simpa using heq), ← tagCol_noted_of_ne heq]
      exact ih hms

theorem AllNeeded.climbs (h : AllNeeded schema ms) (f : Str) :
    Climbs f (schema.fieldCols.get? f) (ms.filter fun mg => target mg = .inr f) := by
  induction ms generalizing schema with
  | nil => simp [Climbs]
  | cons mg ms ih =>
    obtain ⟨hmg, hms⟩ := h
    have hrest := ih hms
    by_cases heq : target mg = .inr f
    · rw [List.filter_cons_of_pos (by simpa using heq)]
      cases mg with
      | addTag t => contradiction
      | addField f' ty =>
        cases heq
        rw [show (noted schema [.addField f ty]).fieldCols.get? f = some (fieldCol f, ty) from
          Dict.get?_set_self _ _ _] at hrest
        rw [show schema.fieldCols.get? f = none from hmg]
        exact ⟨rfl, hrest⟩
      | widen f' col fromType toType =>
        cases heq
        rw [show (noted schema [.widen f col fromType toType]).fieldCols.get? f =
          some (col, toType) from Dict.get?_set_self _ _ _] at hrest
        rw [hmg.1]
        exact ⟨rfl, rfl, rfl, hmg.2, hrest⟩
    · rw [List.filter_cons_of_neg (by simpa using heq), ← fieldCol_noted_of_ne heq]
      exact hrest

theorem typeRank_bounds (ty : PgType) : 1 ≤ typeRank ty ∧ typeRank ty ≤ 4 := by
  cases ty <;> simp [typeRank]

theorem extent_le_limit (schema : TableSchema) (x : Str ⊕ Str) : extent schema x ≤ limit x := by
  cases x with
  | inl t =>
    rw [extent, limit]
    split <;> decide
  | inr f =>
    rw [extent]
    cases schema.fieldCols.get? f with
    | none => exact Nat.zero_le _
    | some e => exact (typeRank_bounds e.2).2

theorem Grown.extent_le (h : Grown schema schema') (x : Str ⊕ Str) :
    extent schema x ≤ extent schema' x := by
  cases x with
  | inl t =>
    rw [extent, extent]
    split
    · rename_i ht
      rw [if_pos]
      have hmem := h.tags t ((Dict.mem_keys_iff _ _).mpr (Option.isSome_iff_exists.mp ht))
      exact Option.isSome_iff_exists.mpr ((Dict.mem_keys_iff _ _).mp hmem)
    · exact Nat.zero_le _
  | inr f =>
    rw [extent, extent]
    cases hget : schema.fieldCols.get? f with
    | none => exact Nat.zero_le _
    | some e =>
      obtain ⟨ty', hget', hle⟩ := h.fields f e.1 e.2 hget
      rw [hget']
      exact hle

/-- A needed statement makes more of what it is about. -/
theorem extent_lt_noted (h : Needed schema mg) :
    extent schema (target mg) < extent (noted schema [mg]) (target mg) := by
  cases mg with
  | addTag t =>
    have hnew : (noted schema [.addTag t]).tagCols.contains t = true := by
      rw [Dict.contains, get?_noted_tagCols, if_pos List.mem_cons_self]
      rfl
    rw [target, extent, extent, hnew, Dict.contains, show schema.tagCols.get? t = none from h]
    decide
  | addField f ty =>
    have hnew : (noted schema [.addField f ty]).fieldCols.get? f = some (fieldCol f, ty) :=
      Dict.get?_set_self _ _ _
    rw [target, extent, extent, hnew, show schema.fieldCols.get? f = none from h]
    exact (typeRank_bounds ty).1
  | widen f col fromType toType =>
    have hnew : (noted schema [.widen f col fromType toType]).fieldCols.get? f =
        some (col, toType) := Dict.get?_set_self _ _ _
    rw [target, extent, extent, hnew, h.1]
    exact h.2

theorem extent_noted (h : Needed schema mg) (x : Str ⊕ Str) :
    extent schema x + [mg].countP (fun mg => target mg = x) ≤ extent (noted schema [mg]) x := by
  by_cases hx : target mg = x
  · have hlt := extent_lt_noted h
    rw [hx] at hlt
    simpa [hx] using Nat.succ_le_of_lt hlt
  · simpa [hx] using (grown_noted h).extent_le x

end Statements

section Issued

variable (schema : TableSchema) (points : List (Point F))

/-- What is issued is needed. -/
theorem needed_issued : ∀ mg ∈ issued schema points, Needed schema mg := by
  intro mg hmg
  cases mg with
  | addTag t =>
    have hnew := ((addTag_mem_migrations_iff t).mp hmg).2
    exact Option.not_isSome_iff_eq_none.mp (by simpa [Dict.contains] using hnew)
  | addField f ty =>
    obtain ⟨-, -, hnew, -⟩ := (addField_mem_migrations_iff f ty).mp hmg
    exact hnew
  | widen f col fromType toType =>
    obtain ⟨v, -, hget, rfl, hne⟩ := (widen_mem_migrations_iff _ _ _ _).mp hmg
    refine ⟨hget, ?_⟩
    rw [widenedType] at hne ⊢
    split
    · assumption
    · rename_i hlt
      exact absurd (if_neg hlt) hne

/-- What is issued is about different tags and fields. -/
theorem targets_issued : (issued schema points).Pairwise fun mg mg' => target mg ≠ target mg' := by
  have hsamples : (fieldSamples points).entries.Pairwise fun e e' => e.1 ≠ e'.1 :=
    List.pairwise_map.mp (fieldSamples points).nodup
  have hnone : ∀ e ∈ (fieldSamples points).entries.filter
      (fun e => !schema.fieldCols.contains e.1), schema.fieldCols.get? e.1 = none := by
    intro e he
    exact Option.not_isSome_iff_eq_none.mp (by simpa [Dict.contains] using (List.mem_filter.mp he).2)
  rw [issued, migrations, List.pairwise_append, List.pairwise_append]
  refine ⟨⟨?_, ?_, ?_⟩, ?_, ?_⟩
  · rw [List.pairwise_map]
    refine ((List.nodup_dedup _).filter _).imp fun hne heq => hne ?_
    exact Sum.inl.inj heq
  · rw [List.pairwise_map]
    exact (hsamples.filter _).imp fun hne heq => hne (Sum.inr.inj heq)
  · intro mg hmg mg' hmg'
    obtain ⟨t, -, rfl⟩ := List.mem_map.mp hmg
    obtain ⟨e, -, rfl⟩ := List.mem_map.mp hmg'
    simp [target]
  · rw [List.pairwise_filterMap]
    refine hsamples.imp fun {e e'} hne mg hmg mg' hmg' heq => hne ?_
    split at hmg
    · contradiction
    split at hmg
    · contradiction
    split at hmg'
    · contradiction
    split at hmg'
    · contradiction
    cases hmg
    cases hmg'
    exact Sum.inr.inj heq
  · intro mg hmg mg' hmg'
    obtain ⟨e, -, he⟩ := List.mem_filterMap.mp hmg'
    split at he
    · contradiction
    · rename_i col current hget
      split at he
      · contradiction
      · cases he
        rcases List.mem_append.mp hmg with hmg | hmg
        · obtain ⟨t, -, rfl⟩ := List.mem_map.mp hmg
          simp [target]
        · obtain ⟨e', he', rfl⟩ := List.mem_map.mp hmg
          intro heq
          have hnew := hnone e' he'
          rw [Sum.inr.inj heq, hget] at hnew
          contradiction

theorem le_widenedType (current : PgType) (v : Value F) :
    typeRank (inferFieldType v) ≤ typeRank (widenedType current v) := by
  unfold widenedType
  split
  · exact le_rfl
  · rename_i hle
    exact not_lt.mp hle

/-- The schema is enough for a call once all that it issues has run. -/
theorem suffices_issued : Suffices (noted schema (issued schema points)) points where
  tags t ht := (mem_tagCols_noted_iff schema (tagNames points) (fieldSamples points) t).mpr
    (Or.inr ht)
  fields f v hv := by
    have hsample := typeFor_fieldSamples points f
    cases hget : (fieldSamples points).get? f with
    | none =>
      rw [hget] at hsample
      rw [hsample.empty rfl] at hv
      contradiction
    | some w =>
      rw [hget] at hsample
      have hle := (hsample.widest _ rfl).enough v hv
      have hentry : (noted schema (issued schema points)).fieldCols.get? f =
          wantedEntry schema (fieldSamples points) f := get?_noted_migrations f
      rw [wantedEntry, hget] at hentry
      cases hcached : schema.fieldCols.get? f with
      | none =>
        rw [hcached] at hentry
        exact ⟨_, _, hentry, hle⟩
      | some e =>
        obtain ⟨col, current⟩ := e
        rw [hcached] at hentry
        exact ⟨_, _, hentry, hle.trans (le_widenedType current w)⟩

end Issued

section Protocol

variable [DecidableEq ι] [Numerics F] {digest : Str → ℕ}

/-- A step, by what it does to the lock and to the schema. -/
inductive Move (digest : Str → ℕ) (s : Shared F ι) : TempTable.Event F ι → Shared F ι → Prop
  | waits {w points} (hidle : s.calls w = .idle) :
    Move digest s (.enter w points) (goTo s w (.waiting points))
  | passes {e w points} (hbuilding : building s e = some points)
      (hwhere : migrates (s.calls w) = false) (hnone : issued s.schema points = []) :
    Move digest s e (returned digest s w points)
  | begins {w points} (hfree : s.lock = none) :
    Move digest s (.acquire w)
      (goTo { s with lock := some w } w (.migrating points (issued s.schema points)))
  | states {w points mg rest} (hnext : s.calls w = .migrating points (mg :: rest)) :
    Move digest s (.statement w)
      (goTo { s with schema := noted s.schema [mg] } w (.migrating points rest))
  | finishes {w points} (hdone : s.calls w = .migrating points []) :
    Move digest s (.finish w) (returned digest { s with lock := none } w points)
  | fails {w points rest} (hheld : s.calls w = .migrating points rest) :
    Move digest s (.fail w) (goTo { s with lock := none } w .idle)
  | rests {e w x} (hout : statementOf s e = []) (hwhere : migrates (s.calls w) = false)
      (hx : migrates x = false) : Move digest s e (goTo s w x)

/-- The condition along a run: the lock is held by the call that migrates, whose
statements are needed and enough for its points. -/
structure Inv (s : Shared F ι) : Prop where
  held : ∀ w, s.lock = some w ↔ migrates (s.calls w) = true
  due : ∀ w points rest, s.calls w = .migrating points rest →
    (∀ mg ∈ rest, Needed s.schema mg) ∧
      (rest.Pairwise fun mg mg' => target mg ≠ target mg') ∧
        Suffices (noted s.schema rest) points

variable {s t : Shared F ι} {e : TempTable.Event F ι}

theorem move_of_step (h : step digest s e = some t) : Move digest s e t := by
  cases e with
  | enter w points =>
    simp only [step] at h
    split at h
    · rename_i p ps hidle
      split at h
      · exact Option.some.inj h ▸ .waits hidle
      · rename_i hnew
        refine Option.some.inj h ▸ .passes (if_neg hnew) (by rw [hidle]; rfl) ?_
        exact migrations_eq_nil (by simpa using hnew)
    · contradiction
  | acquire w =>
    simp only [step] at h
    split at h
    · rename_i points hwaiting hfree
      split at h
      · rename_i hnone
        exact Option.some.inj h ▸ .passes (by simp [building, hwaiting, hnone])
          (by rw [hwaiting]; rfl) hnone
      · rename_i mg rest hissued
        exact Option.some.inj h ▸ hissued ▸ .begins hfree
    · contradiction
  | statement w =>
    simp only [step] at h
    split at h
    · rename_i points mg rest hnext
      exact Option.some.inj h ▸ .states hnext
    · contradiction
  | finish w =>
    simp only [step] at h
    split at h
    · rename_i points hdone
      exact Option.some.inj h ▸ .finishes hdone
    · contradiction
  | fail w =>
    simp only [step] at h
    split at h
    · rename_i points rest hheld
      exact Option.some.inj h ▸ .fails hheld
    · contradiction
  | create w =>
    simp only [step] at h
    split at h
    · rename_i sources b hbuilt
      split at h
      · exact Option.some.inj h ▸ .rests rfl (by rw [hbuilt]; rfl) rfl
      · exact Option.some.inj h ▸ .rests rfl (by rw [hbuilt]; rfl) rfl
    · contradiction
  | leave w =>
    simp only [step] at h
    split at h
    · rename_i hbuilt
      exact Option.some.inj h ▸ .rests rfl (by rw [hbuilt]; rfl) rfl
    · rename_i hcreated
      exact Option.some.inj h ▸ .rests rfl (by rw [hcreated]; rfl) rfl
    · contradiction

variable (digest) in
theorem returned_eq (s : Shared F ι) (w : ι) (points : List (Point F)) :
    ∃ n x, migrates x = false ∧ returned digest s w points = goTo { s with nextSeq := n } w x := by
  simp only [returned]
  split
  · exact ⟨_, _, rfl, rfl⟩
  · exact ⟨_, _, rfl, rfl⟩

omit [Numerics F] in
/-- A call that is not in the migration moves on. -/
theorem Inv.aside (hs : Inv s) {w : ι} {x : Caller F} (hwhere : migrates (s.calls w) = false)
    (hx : migrates x = false) (n : ℕ) : Inv (goTo { s with nextSeq := n } w x) where
  held w' := by
    by_cases hw : w' = w
    · subst hw
      have hnot : s.lock ≠ some w' := fun h => by simp [(hs.held w').mp h] at hwhere
      simp [goTo, hx, hnot]
    · simpa [goTo, Function.update_of_ne hw] using hs.held w'
  due w' points rest hw' := by
    rcases Runs.update_cases hw' with ⟨-, hx'⟩ | ⟨-, hw'⟩
    · rw [hx'] at hx
      contradiction
    · exact hs.due w' points rest hw'

omit [Numerics F] in
/-- The holder of the lock gives it back. -/
theorem Inv.release (hs : Inv s) {w : ι} {x : Caller F} (hheld : migrates (s.calls w) = true)
    (hx : migrates x = false) (n : ℕ) :
    Inv (goTo { s with nextSeq := n, lock := none } w x) where
  held w' := by
    by_cases hw : w' = w
    · subst hw
      simp [goTo, hx]
    · have hother : migrates (s.calls w') = false := by
        by_contra h
        have hlock := (hs.held w').mpr (by simpa using h)
        exact hw (Option.some.inj (hlock.symm.trans ((hs.held w).mpr hheld)))
      simp [goTo, Function.update_of_ne hw, hother]
  due w' points rest hw' := by
    rcases Runs.update_cases hw' with ⟨-, hx'⟩ | ⟨-, hw'⟩
    · rw [hx'] at hx
      contradiction
    · exact hs.due w' points rest hw'

omit [Numerics F] [DecidableEq ι] in
theorem Inv.holder (hs : Inv s) {w w' : ι} (h : migrates (s.calls w) = true)
    (h' : migrates (s.calls w') = true) : w' = w :=
  Option.some.inj (((hs.held w').mpr h').symm.trans ((hs.held w).mpr h))

omit [Numerics F] in
/-- A call takes the lock, which nobody holds. -/
theorem Inv.begin (hs : Inv s) (hfree : s.lock = none) (w : ι) (points : List (Point F)) :
    Inv (goTo { s with lock := some w } w (.migrating points (issued s.schema points))) where
  held w' := by
    by_cases hw : w' = w
    · subst hw
      simp [goTo, migrates]
    · have hother : migrates (s.calls w') = false := by
        by_contra h
        have hlock := (hs.held w').mpr (by simpa using h)
        rw [hfree] at hlock
        contradiction
      simp [goTo, Function.update_of_ne hw, hother, Ne.symm hw]
  due w' points' rest hw' := by
    rcases Runs.update_cases hw' with ⟨-, hx⟩ | ⟨-, hw'⟩
    · cases hx
      exact ⟨needed_issued s.schema points, targets_issued s.schema points,
        suffices_issued s.schema points⟩
    · exact hs.due w' points' rest hw'

omit [Numerics F] in
/-- The holder of the lock runs its next statement. -/
theorem Inv.state (hs : Inv s) {w : ι} {points : List (Point F)} {mg : Migration}
    {rest : List Migration} (hnext : s.calls w = .migrating points (mg :: rest)) :
    Inv (goTo { s with schema := noted s.schema [mg] } w (.migrating points rest)) where
  held w' := by
    by_cases hw : w' = w
    · subst hw
      have hlock := (hs.held w').mpr (by rw [hnext]; rfl)
      simp [goTo, migrates, hlock]
    · simpa [goTo, Function.update_of_ne hw] using hs.held w'
  due w' points' rest' hw' := by
    rcases Runs.update_cases hw' with ⟨-, hx⟩ | ⟨hne, hw'⟩
    · cases hx
      obtain ⟨hneeded, htargets, hsuffices⟩ := hs.due w points _ hnext
      obtain ⟨hfirst, hrest⟩ := List.pairwise_cons.mp htargets
      refine ⟨fun mg' hmg' => ?_, hrest, ?_⟩
      · exact needed_noted (hneeded mg' (List.mem_cons_of_mem mg hmg')) (hfirst mg' hmg')
      · exact noted_cons s.schema mg rest ▸ hsuffices
    · exact absurd (hs.holder (by rw [hnext]; rfl) (by rw [hw']; rfl)) hne

theorem step_inv (hs : Inv s) (h : step digest s e = some t) : Inv t := by
  cases move_of_step h with
  | waits hidle => exact hs.aside (by rw [hidle]; rfl) rfl s.nextSeq
  | passes hbuilding hwhere hnone =>
    obtain ⟨n, x, hx, heq⟩ := returned_eq digest s _ _
    exact heq ▸ hs.aside hwhere hx n
  | begins hfree => exact hs.begin hfree _ _
  | states hnext => exact hs.state hnext
  | finishes hdone =>
    obtain ⟨n, x, hx, heq⟩ := returned_eq digest { s with lock := none } _ _
    exact heq ▸ hs.release (by rw [hdone]; rfl) hx n
  | fails hheld => exact hs.release (by rw [hheld]; rfl) rfl s.nextSeq
  | rests hout hwhere hx => exact hs.aside hwhere hx s.nextSeq

omit [DecidableEq ι] [Numerics F] in
theorem start_inv (schema : {schema // Prefixed schema}) : Inv (start schema : Shared F ι) where
  held w := by simp [start, migrates]
  due w points rest h := by simp [start] at h

/-- A step changes the schema by the statement it sends. -/
theorem schema_step (h : step digest s e = some t) :
    t.schema = noted s.schema (statementOf s e) := by
  cases move_of_step h with
  | waits hidle => rfl
  | @passes e w points hbuilding hwhere hnone =>
    obtain ⟨n, x, -, heq⟩ := returned_eq digest s w points
    have hout : statementOf s e = [] := by
      cases e with
      | statement w => contradiction
      | _ => rfl
    rw [heq, hout]
    rfl
  | begins hfree => rfl
  | states hnext =>
    simp only [statementOf, hnext]
    rfl
  | finishes hdone =>
    obtain ⟨n, x, -, heq⟩ := returned_eq digest { s with lock := none } _ _
    rw [heq]
    rfl
  | fails hheld => rfl
  | rests hout hwhere hx =>
    rw [hout]
    rfl

omit [DecidableEq ι] [Numerics F] in
theorem needed_statementOf (hs : Inv s) : ∀ mg ∈ statementOf s e, Needed s.schema mg := by
  intro mg hmg
  cases e with
  | statement w =>
    simp only [statementOf] at hmg
    split at hmg
    · rename_i points mg' rest hnext
      cases List.mem_singleton.mp hmg
      exact (hs.due w points _ hnext).1 mg List.mem_cons_self
    · contradiction
  | _ => contradiction

omit [DecidableEq ι] [Numerics F] in
theorem statementOf_or (s : Shared F ι) (e : TempTable.Event F ι) :
    statementOf s e = [] ∨ ∃ mg, statementOf s e = [mg] := by
  cases e with
  | statement w =>
    simp only [statementOf]
    split
    · exact Or.inr ⟨_, rfl⟩
    · exact Or.inl rfl
  | _ => exact Or.inl rfl

theorem grown_step (hs : Inv s) (h : step digest s e = some t) : Grown s.schema t.schema := by
  have hneeded := needed_statementOf (e := e) hs
  rw [schema_step h]
  rcases statementOf_or s e with hnone | ⟨mg, hmg⟩
  · rw [hnone]
    exact Grown.refl s.schema
  · rw [hmg] at hneeded ⊢
    exact grown_noted (hneeded mg List.mem_cons_self)

theorem extent_step (hs : Inv s) (h : step digest s e = some t) (x : Str ⊕ Str) :
    extent s.schema x + (statementOf s e).countP (fun mg => target mg = x) ≤
      extent t.schema x := by
  have hneeded := needed_statementOf (e := e) hs
  rw [schema_step h]
  rcases statementOf_or s e with hnone | ⟨mg, hmg⟩
  · rw [hnone]
    exact le_rfl
  · rw [hmg] at hneeded ⊢
    exact extent_noted (hneeded mg List.mem_cons_self) x

theorem grown_exec {es : List (TempTable.Event F ι)} (hs : Inv s)
    (h : Runs.exec (step digest) s es = some t) : Grown s.schema t.schema := by
  induction es generalizing s with
  | nil =>
    cases h
    exact Grown.refl _
  | cons e es ih =>
    obtain ⟨u, hu, ht⟩ := Runs.exec_cons h
    exact (grown_step hs hu).trans (ih (step_inv hs hu) ht)

omit [DecidableEq ι] [Numerics F] in
/-- A call that returns has a schema that is enough for its points. -/
theorem suffices_building (hs : Inv s) {points : List (Point F)}
    (h : building s e = some points) : Suffices s.schema points := by
  have hnone : ∀ points' : List (Point F), issued s.schema points' = [] →
      Suffices s.schema points' := by
    intro points' hissued
    have hsuffices := suffices_issued s.schema points'
    rwa [hissued] at hsuffices
  cases e with
  | enter w points' =>
    simp only [building] at h
    split at h
    · contradiction
    · rename_i hnew
      cases h
      exact hnone points (migrations_eq_nil (by simpa using hnew))
  | acquire w =>
    simp only [building] at h
    split at h
    · split at h
      · rename_i hissued
        cases h
        exact hnone points hissued
      · contradiction
    · contradiction
  | finish w =>
    simp only [building] at h
    split at h
    · rename_i hdone
      cases h
      exact (hs.due w points _ hdone).2.2
    · contradiction
  | _ => contradiction

/-- Once `_ensure_schema` has returned to a call, the schema is enough for its points
for ever after, whatever the other calls do. -/
theorem suffices_ever_after (schema : {schema // Prefixed schema})
    {es es' : List (TempTable.Event F ι)} {s s' t : Shared F ι} {e : TempTable.Event F ι}
    {points : List (Point F)} (hs : Runs.exec (step digest) (start schema) es = some s)
    (hbuilding : building s e = some points) (hstep : step digest s e = some s')
    (ht : Runs.exec (step digest) s' es' = some t) : Suffices t.schema points := by
  have hinv := Runs.exec_invariant (fun _ _ _ hs h => step_inv hs h) (start_inv schema) hs
  have hnow := suffices_building hinv hbuilding
  exact hnow.grown ((grown_step hinv hstep).trans (grown_exec (step_inv hinv hstep) ht))

theorem allNeeded_outputs {es : List (TempTable.Event F ι)} (hs : Inv s) :
    AllNeeded s.schema (Runs.outputs (step digest) statementOf s es) := by
  induction es generalizing s with
  | nil => trivial
  | cons e es ih =>
    cases hst : step digest s e with
    | none =>
      simp only [Runs.outputs, hst]
      trivial
    | some t =>
      have hrest := ih (step_inv hs hst)
      have hneeded := needed_statementOf (e := e) hs
      rw [Runs.outputs_cons hst]
      rw [schema_step hst] at hrest
      rcases statementOf_or s e with hnone | ⟨mg, hmg⟩
      · rw [hnone] at hrest ⊢
        exact hrest
      · rw [hmg] at hrest hneeded ⊢
        exact ⟨hneeded mg List.mem_cons_self, hrest⟩

/-- The statements that a whole run executes, in their order, make the schema what it is.
A tag is added at most once, and a field is added and promoted up the lattice, so there
are no more statements about it than the lattice has ranks left. -/
theorem statements_bounded (schema : {schema // Prefixed schema})
    {es : List (TempTable.Event F ι)} {t : Shared F ι}
    (h : Runs.exec (step digest) (start schema) es = some t) :
    let ran := Runs.outputs (step digest) statementOf (start schema) es
    t.schema = noted schema.val ran ∧
      (∀ tag, ran.filter (fun mg => target mg = .inl tag) = [] ∨
        schema.val.tagCols.get? tag = none ∧
          ran.filter (fun mg => target mg = .inl tag) = [.addTag tag]) ∧
      (∀ f, Climbs f (schema.val.fieldCols.get? f) (ran.filter fun mg => target mg = .inr f)) ∧
      ∀ x, extent schema.val x + ran.countP (fun mg => target mg = x) ≤ limit x := by
  have hneeded : AllNeeded schema.val
      (Runs.outputs (step digest) statementOf (start schema) es) :=
    allNeeded_outputs (start_inv schema)
  refine ⟨?_, hneeded.tag_new, hneeded.climbs, fun x => ?_⟩
  · exact Runs.replay_outputs (fun s : Shared F ι => s.schema) (fun _ => rfl) noted_append
      (fun _ _ _ hst => schema_step hst) h
  · have hcount := Runs.countP_outputs (fun s : Shared F ι => extent s.schema x)
      (fun _ _ _ hs hst => step_inv hs hst) (fun _ _ _ hs hst => extent_step hs hst x)
      (start_inv schema) h
    exact hcount.trans (extent_le_limit t.schema x)

end Protocol

section Example

def floatPoint : Point ℤ :=
  ⟨"cpu".toList, Dict.single "host".toList "x".toList, Dict.single "a".toList (.float 1), 1⟩

/-- Two calls want the same tag and a promotion of the same field. -/
def contended : List (TempTable.Event ℤ Bool) :=
  [.enter false [floatPoint], .enter true [textPoint, floatPoint], .acquire true, .statement true,
    .statement true, .finish true, .acquire false]

def cpuStart : Shared ℤ Bool := start ⟨Schedule.cpuSchema, cpuSchema_prefixed⟩

/-- The tag is added once, and the field promoted once. -/
theorem contended_bounded : ∃ t, Runs.exec (step fun _ => 0) cpuStart contended = some t ∧
    let ran := Runs.outputs (step fun _ => 0) statementOf cpuStart contended
    ran.length = 2 ∧ t.schema = noted Schedule.cpuSchema ran ∧
      (∀ tag, ran.filter (fun mg => target mg = .inl tag) = [] ∨
        Schedule.cpuSchema.tagCols.get? tag = none ∧
          ran.filter (fun mg => target mg = .inl tag) = [.addTag tag]) ∧
      (∀ f, Climbs f (Schedule.cpuSchema.fieldCols.get? f)
        (ran.filter fun mg => target mg = .inr f)) ∧
      ∀ x, extent Schedule.cpuSchema x + ran.countP (fun mg => target mg = x) ≤ limit x := by
  have hrun : (Runs.exec (step fun _ => 0) cpuStart contended).isSome = true := by decide +kernel
  obtain ⟨t, ht⟩ := Option.isSome_iff_exists.mp hrun
  exact ⟨t, ht, by decide +kernel,
    statements_bounded ⟨Schedule.cpuSchema, cpuSchema_prefixed⟩ ht⟩

/-- The call that promoted still has what it needs when the other one has gone on. -/
theorem contended_suffices : ∃ (t : Shared ℤ Bool) (points : List (Point ℤ)),
    Runs.exec (step fun _ => 0) cpuStart contended = some t ∧ points.length = 2 ∧
      Suffices t.schema points := by
  have hrun : (Runs.exec (step fun _ => 0) cpuStart (contended.take 5)).any (fun s =>
      (building s (.finish true)).any (fun points => decide (points.length = 2)) &&
        (step (fun _ => 0) s (.finish true)).any fun s' =>
          (Runs.exec (step fun _ => 0) s' [.acquire false]).isSome) = true := by decide +kernel
  obtain ⟨s, hs, hrest⟩ := (Option.any_eq_true _ _).mp hrun
  obtain ⟨hbuilding, hrest⟩ := Bool.and_eq_true_iff.mp hrest
  obtain ⟨points, hbuilding, hlength⟩ := (Option.any_eq_true _ _).mp hbuilding
  obtain ⟨s', hs', hrest⟩ := (Option.any_eq_true _ _).mp hrest
  obtain ⟨t, ht⟩ := Option.isSome_iff_exists.mp hrest
  refine ⟨t, points, ?_, of_decide_eq_true hlength, ?_⟩
  · have htail : Runs.exec (step fun _ => 0) s [.finish true, .acquire false] = some t := by
      rw [Runs.exec, hs', Option.bind_some, ht]
    have hsplit : contended = contended.take 5 ++ [.finish true, .acquire false] := rfl
    rw [hsplit, Runs.exec_append hs, htail]
  · exact suffices_ever_after ⟨Schedule.cpuSchema, cpuSchema_prefixed⟩ hs hbuilding hs' ht

end Example

end TimescaleLp.SchemaLock
