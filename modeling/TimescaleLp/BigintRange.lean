import TimescaleLp.Widest
import TimescaleLp.Decoding
import TimescaleLp.Sequence

/-!
Integers on their way into 64-bit columns. The parser reads an integer of any
size, the type of an integer is BIGINT, and the coercion to BIGINT leaves it as
it is. No stage tests the range; an integer outside it does no harm only where
its column is wider for another reason.
-/
namespace TimescaleLp.BigintRange

open Names Schema Store Promotion Alters Widest LineProtocol Texts

variable {F : Type}

def InBigint (n : ℤ) : Prop := -2 ^ 63 ≤ n ∧ n < 2 ^ 63

instance (n : ℤ) : Decidable (InBigint n) := inferInstanceAs (Decidable (_ ∧ _))

/-- What a batch brings for columns of type BIGINT are integers of 64 bits. -/
def BigintsFit [Numerics F] (schema : TableSchema) (points : List (Point F)) : Prop :=
  ∀ p ∈ points, ∀ f col, schema.fieldCols.get? f = some (col, .bigint) →
    ∀ x, coerce (p.fields.get? f) .bigint = .ok (some x) → ∃ n, x = .int n ∧ InBigint n

/-- The column is wider than BIGINT already, or the batch makes it so. -/
def Absorbed (s : Service F) (m : Str) (points : List (Point F)) (f : Str) : Prop :=
  (∃ e, (schemaOf s m).fieldCols.get? f = some e ∧ typeRank .bigint < typeRank e.2) ∨
    ∃ v ∈ valuesOf points f, typeRank .bigint < typeRank (inferFieldType v)

theorem eq_bigint_of_typeRank {ty : PgType} (h : typeRank ty = typeRank .bigint) : ty = .bigint := by
  cases ty <;> simp_all [typeRank]

/-- An integer that is not absorbed gives its field a column of type BIGINT. -/
theorem exists_bigint {s : Service F} {m : Str} {points : List (Point F)} {f : Str} {n : ℤ}
    (hn : .int n ∈ valuesOf points f) (h : ¬Absorbed s m points f) :
    ∃ col, wantedEntry (schemaOf s m) (fieldSamples points) f = some (col, .bigint) := by
  have hbatch := typeFor_fieldSamples points f
  rw [Absorbed, not_or] at h
  obtain ⟨hcached, hvalues⟩ := h
  cases hsample : (fieldSamples points).get? f with
  | none =>
    rw [hsample] at hbatch
    rw [hbatch.empty rfl] at hn
    exact hn.elim
  | some w =>
    rw [hsample] at hbatch
    have hwidest := hbatch.widest _ rfl
    have hw : inferFieldType w = .bigint := by
      obtain ⟨v, hv, hinfer⟩ := hwidest.needed
      refine eq_bigint_of_typeRank (le_antisymm ?_ (hwidest.enough _ hn))
      rw [← hinfer]
      exact not_lt.mp fun hlt => hvalues ⟨v, hv, hlt⟩
    unfold wantedEntry
    rw [hsample]
    cases hentry : (schemaOf s m).fieldCols.get? f with
    | none => exact ⟨fieldCol f, congrArg (fun ty => some (fieldCol f, ty)) hw⟩
    | some e =>
      have hle : typeRank e.2 ≤ typeRank .bigint :=
        not_lt.mp fun hlt => hcached ⟨e, hentry, hlt⟩
      refine ⟨e.1, ?_⟩
      simp only [widenedType, hw]
      split
      · rfl
      · rename_i hlt
        rw [eq_bigint_of_typeRank (le_antisymm hle (not_lt.mp hlt))]

/-- Values for BIGINT columns are in range exactly when every integer of the
batch is, or its column is wider for another reason. -/
theorem bigintsFit_iff [Numerics F] {s s' : Service F} {m : Str} {points : List (Point F)}
    {schema : TableSchema}
    (h : ensureSchema s m (tagNames points) (fieldSamples points) = (s', some schema)) :
    BigintsFit schema points ↔
      ∀ f n, .int n ∈ valuesOf points f → InBigint n ∨ Absorbed s m points f := by
  constructor
  · intro hfit f n hn
    by_cases habsorbed : Absorbed s m points f
    · exact Or.inr habsorbed
    · obtain ⟨col, hcol⟩ := exists_bigint hn habsorbed
      rw [← fieldCols_of_ensureSchema h] at hcol
      obtain ⟨p, hp, hget⟩ := hn
      obtain ⟨n', hn', hrange⟩ := hfit p hp f col hcol (.int n) (by rw [hget]; rfl)
      rw [Value.int.inj hn']
      exact Or.inl hrange
  · intro hall p hp f col hcol x hx
    rw [fieldCols_of_ensureSchema h] at hcol
    cases hget : p.fields.get? f with
    | none =>
      rw [hget] at hx
      exact absurd (Except.ok.inj hx) (by simp)
    | some v =>
      have hv : v ∈ valuesOf points f := ⟨p, hp, hget⟩
      have hle := typeRank_le_of_wantedEntry hv hcol
      rw [hget] at hx
      cases v with
      | bool b =>
        refine ⟨if b then 1 else 0, (Option.some.inj (Except.ok.inj hx)).symm, ?_⟩
        cases b <;> exact ⟨by decide, by decide⟩
      | int n =>
        refine ⟨n, (Option.some.inj (Except.ok.inj hx)).symm, ?_⟩
        rcases hall f n hv with hrange | hentry | ⟨w, hw, hlt⟩
        · exact hrange
        · obtain ⟨e, he, hlt⟩ := hentry
          exact absurd hlt (not_lt.mpr (typeRank_le_of_cached he hcol))
        · exact absurd hlt (not_lt.mpr (typeRank_le_of_wantedEntry hw hcol))
      | float y => simp [inferFieldType, typeRank] at hle
      | str t => simp [inferFieldType, typeRank] at hle

def intPoint (n : ℤ) : Point ℤ := ⟨['m'], Dict.empty, Dict.single ['v'] (.int n), 0⟩

theorem readable_intPoint {n : ℤ} (h : n.natAbs < 10 ^ maxStrDigits) :
    Readable (intPoint n) none where
  start := by
    intro c hc
    cases Option.some.inj hc
    decide
  fields := List.cons_ne_nil _ _
  exact := by
    intro f hf
    cases List.mem_singleton.mp hf
    exact .int n
  measurement := List.cons_ne_nil _ _
  tagKeys := fun k hk => absurd hk List.not_mem_nil
  fieldKeys := by
    intro k hk
    rw [List.mem_singleton.mp hk]
    exact List.cons_ne_nil _ _
  head := (by decide : (headQuotes ['m'] []).bodd = false)
  names := by
    intro f hf
    cases List.mem_singleton.mp hf
    exact (by decide : (countedQuotes ['v']).bodd = false)
  closed := fun f hf => absurd hf List.not_mem_nil
  last := fun h => nomatch h
  fits := by
    intro f hf
    cases List.mem_singleton.mp hf
    exact h

/-- An integer of 20 digits, and a float of the same field. -/
def mixedPoints : List (Point ℤ) :=
  [intPoint 99999999999999999999,
    ⟨['m'], Dict.empty, (Dict.single ['v'] (.float 1)).set ['w'] (.int 1), 1⟩]

theorem bigintsFit_iff_mixed : ∃ s' schema,
    ensureSchema (Sequence.start 0).service ['m'] (tagNames mixedPoints)
      (fieldSamples mixedPoints) = (s', some schema) ∧ BigintsFit schema mixedPoints := by
  obtain ⟨s', schema, h⟩ : ∃ s' schema,
      ensureSchema (Sequence.start 0).service ['m'] (tagNames mixedPoints)
        (fieldSamples mixedPoints) = (s', some schema) := ⟨_, _, rfl⟩
  refine ⟨s', schema, h, (bigintsFit_iff h).mpr ?_⟩
  intro f n ⟨p, hp, hget⟩
  rcases List.mem_cons.mp hp with rfl | hp'
  · have hf : f = ['v'] := congrArg Prod.fst (Dict.eq_of_get?_single hget)
    subst hf
    exact Or.inr (Or.inr ⟨.float 1, ⟨_, List.mem_cons_of_mem _ List.mem_cons_self, rfl⟩,
      by decide⟩)
  · rw [List.mem_singleton.mp hp', Dict.get?_set] at hget
    split at hget
    · cases hget
      exact Or.inl ⟨by decide, by decide⟩
    · cases congrArg Prod.snd (Dict.eq_of_get?_single hget)

/-- An integer of 20 digits is read, and is then the value for a BIGINT column. -/
theorem not_bigintsFit_large : ∃ p : Point ℤ,
    parseLine .ns none 0 "m v=99999999999999999999i".toList = .ok p ∧
      ∃ s' schema, ensureSchema (Sequence.start 0).service ['m'] (tagNames [p])
        (fieldSamples [p]) = (s', some schema) ∧ ¬BigintsFit schema [p] := by
  have hsmall : (99999999999999999999 : ℤ).natAbs < 10 ^ maxStrDigits :=
    (by decide : (99999999999999999999 : ℤ).natAbs < 10 ^ 20).trans_le
      (Nat.pow_le_pow_right (by decide) (by decide))
  have hline : encodeLine (intPoint 99999999999999999999) none =
      "m v=99999999999999999999i".toList := by decide +kernel
  have hparse : parseLine .ns none 0 (encodeLine (intPoint 99999999999999999999) none) =
      .ok (intPoint 99999999999999999999) := parseLine_encodeLine (readable_intPoint hsmall) rfl
  refine ⟨intPoint 99999999999999999999, hline ▸ hparse, _, _, rfl, ?_⟩
  intro hfit
  obtain ⟨n, hn, hrange⟩ := hfit _ List.mem_cons_self ['v'] _ rfl _ rfl
  rw [← Value.int.inj hn] at hrange
  exact absurd hrange.2 (by decide)

end TimescaleLp.BigintRange
