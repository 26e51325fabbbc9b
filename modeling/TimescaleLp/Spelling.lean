import TimescaleLp.BigintRange
import TimescaleLp.Folds
import TimescaleLp.ShortestDigits
import TimescaleLp.Typing
import Mathlib.Data.List.Chain

/-!
One field value in a column that is promoted. What arrives before a promotion is
converted by Python and rewritten by the casts of the migrations; what arrives
after it is converted by Python alone. The two agree on numbers that a column takes.
They differ where a boolean or a double becomes a text, since Python and Postgres do
not spell these alike, and where an integer is too large for the first column.
-/
namespace TimescaleLp.Spelling

open Schema Texts Typing ShortestDigits BigintRange

variable {F : Type} [Numerics F]

def lattice : List PgType := [.boolean, .bigint, .doublePrecision, .text]

/-- An integer that a double holds exactly. -/
def IsExactInt (n : ℤ) : Prop := toDouble n = n ∧ n.natAbs < 2 ^ 1024 - 2 ^ 970

variable (F) in
/-- How the doubles of exact integers are written. Both sides write the shortest
digits that give the double back, Postgres none half-way between two doubles, with an
exponent from 10^16 on in Python and from 10^15 on in Postgres; below these bounds
Python adds a fraction. -/
structure DoubleTexts : Prop where
  text_plain : ∀ n, IsExactInt n → n.natAbs < 10 ^ 16 →
    Numerics.text (Numerics.ofInt n : F) = intText n ++ ".0".toList
  text_exponent : ∀ n, IsExactInt n → 10 ^ 16 ≤ n.natAbs →
    Numerics.text (Numerics.ofInt n : F) = exponentText (pyDigits n)
  pgText_plain : ∀ n, IsExactInt n → n.natAbs < 10 ^ 15 →
    Numerics.pgText (Numerics.ofInt n : F) = intText n
  pgText_exponent : ∀ n, IsExactInt n → 10 ^ 15 ≤ n.natAbs →
    Numerics.pgText (Numerics.ofInt n : F) = exponentText (pgDigits n)

/-- What a column takes: one of type BIGINT only integers of 64 bits. -/
def takes : PgType → Value F → Bool
  | .bigint, .int n => decide (InBigint n)
  | _, _ => true

/-- What a column holds after a value is written to it; nothing if the write fails. -/
def stored (t : PgType) (v : Value F) : Option (Value F) :=
  match coerceValue t v with
  | .ok x => if takes t x then some x else none
  | .error _ => none

/-- The stored value after a column is promoted step by step. -/
def castThrough (t : PgType) : List PgType → Value F → Option (Value F)
  | [], x => some x
  | t' :: ts, x => (castValue t t' x).bind (castThrough t' ts)

/-- The types a column has had, from one that can hold `v` on. Doubles are exact
integers. -/
structure Promotes (v : Value F) (t : PgType) (ts : List PgType) : Prop where
  lattice : ∀ t' ∈ t :: ts, t' ∈ lattice
  ordered : (t :: ts).IsChain fun a b => typeRank a ≤ typeRank b
  starts : typeRank (inferFieldType v) ≤ typeRank t
  exactFloat : ∀ x, v = .float x → ∃ n, IsExactInt n ∧ x = Numerics.ofInt n
  exactInt : ∀ n, v = .int n → .doublePrecision ∈ t :: ts → IsExactInt n

/-- Stored before the promotions, a value is in the end what it is when stored
after them; if one of the two writes fails, so does the other. -/
def Agrees (v : Value F) (t : PgType) (ts : List PgType) : Prop :=
  (stored t v).bind (castThrough t ts) = stored (ts.getLastD t) v

/-- An integer that the first column refuses. -/
def Refused (v : Value F) (t : PgType) : Prop := t = .bigint ∧ ∃ n, v = .int n ∧ ¬InBigint n

/-- The column ends below text or was text from the start; or the value is an
integer that was no double of 16 digits or more on the way; or it is a double
that both sides write with an exponent and Python not with digits half-way between
two doubles. A column that refuses the value stays as it is. -/
def KeepsSpelling (v : Value F) (t : PgType) (ts : List PgType) : Prop :=
  (Refused v t → ts.getLastD t = .bigint) ∧
    (ts.getLastD t ≠ .text ∨ t = .text ∨
      (∃ n, v = .int n ∧ (.doublePrecision ∈ t :: ts → n.natAbs < 10 ^ 15)) ∨
      ∃ n, IsExactInt n ∧ 10 ^ 16 ≤ n.natAbs ∧ ¬IsMidway (pyDigits n) ∧
        v = .float (Numerics.ofInt n))

section Casts
variable {v x : Value F} {t t' : PgType} {ts : List PgType}

theorem castThrough_append (t : PgType) (ts ts' : List PgType) (x : Value F) :
    castThrough t (ts ++ ts') x = (castThrough t ts x).bind (castThrough (ts.getLastD t) ts') := by
  induction ts generalizing t x with
  | nil => rfl
  | cons t' ts ih =>
    rw [List.cons_append, castThrough, castThrough, Option.bind_assoc, List.getLastD_cons]
    exact congrArg _ (funext fun y => ih t' y)

/-- A text column stays what it is. -/
theorem castThrough_text (h : ∀ t ∈ ts, t = .text) (s : Str) :
    castThrough .text ts (.str s : Value F) = some (.str s) := by
  induction ts with
  | nil => rfl
  | cons t ts ih =>
    rw [h t List.mem_cons_self, castThrough]
    exact ih fun t' ht' => h t' (List.mem_cons_of_mem t ht')

theorem floatOfInt_of_lt {n : ℤ} (h : n.natAbs < 2 ^ 1024 - 2 ^ 970) :
    floatOfInt n = .ok (.float (Numerics.ofInt n) : Value F) := if_pos h

theorem floatOfInt_bool (b : Bool) :
    floatOfInt (if b then 1 else 0) = .ok (.float (Numerics.ofInt (if b then 1 else 0)) : Value F) := by
  cases b with
  | false => exact floatOfInt_of_lt (by decide +kernel)
  | true => exact floatOfInt_of_lt (by decide +kernel)

theorem floatOfInt_ok {n : ℤ} (h : floatOfInt n = .ok x) : x = .float (Numerics.ofInt n) := by
  unfold floatOfInt at h
  split at h
  · exact (Except.ok.inj h).symm
  · contradiction

/-- A coerced value has the type of its column. -/
theorem inferFieldType_coerceValue (ht : t ∈ lattice) (h : coerceValue t v = .ok x) :
    inferFieldType x = t := by
  simp only [lattice, List.mem_cons, List.not_mem_nil, or_false] at ht
  rcases ht with rfl | rfl | rfl | rfl
  · cases v <;> exact Except.ok.inj h ▸ rfl
  · cases v with
    | bool b => exact Except.ok.inj h ▸ rfl
    | int n => exact Except.ok.inj h ▸ rfl
    | float z =>
      obtain ⟨n, _, hx⟩ := Folds.map_ok_iff.mp h
      exact hx ▸ rfl
    | str s =>
      rw [coerceValue] at h
      cases hn : Numerics.intOfText F s with
      | none => simp [hn] at h
      | some n =>
        rw [hn] at h
        exact Except.ok.inj h ▸ rfl
  · cases v with
    | bool b => exact floatOfInt_ok h ▸ rfl
    | int n => exact floatOfInt_ok h ▸ rfl
    | float z => exact Except.ok.inj h ▸ rfl
    | str s =>
      rw [coerceValue] at h
      cases hz : (Numerics.ofText s : Option F) with
      | none => simp [hz] at h
      | some z =>
        rw [hz] at h
        exact Except.ok.inj h ▸ rfl
  · exact Except.ok.inj h ▸ rfl

/-- Short of text a cast does what Python does to a value of the old type. -/
theorem castValue_of_coerceValue {y : Value F} (hne : t' ≠ .text) (ht' : t' ∈ lattice)
    (hle : typeRank (inferFieldType x) ≤ typeRank t') (h : coerceValue t' x = .ok y) :
    castValue (inferFieldType x) t' x = some y := by
  simp only [lattice, List.mem_cons, List.not_mem_nil, or_false] at ht'
  rcases ht' with rfl | rfl | rfl | rfl
  · cases x with
    | bool b => exact congrArg some (Except.ok.inj h)
    | int n => simp [inferFieldType, typeRank] at hle
    | float z => simp [inferFieldType, typeRank] at hle
    | str s => simp [inferFieldType, typeRank] at hle
  · cases x with
    | bool b => exact congrArg some (Except.ok.inj h)
    | int n => exact congrArg some (Except.ok.inj h)
    | float z => simp [inferFieldType, typeRank] at hle
    | str s => simp [inferFieldType, typeRank] at hle
  · cases x with
    | bool b => exact congrArg some (floatOfInt_ok h).symm
    | int n => exact congrArg some (floatOfInt_ok h).symm
    | float z => exact congrArg some (Except.ok.inj h)
    | str s => simp [inferFieldType, typeRank] at hle
  · contradiction

omit [Numerics F] in
theorem typeRank_le_last (h : (t :: ts).IsChain fun a b => typeRank a ≤ typeRank b) :
    typeRank t ≤ typeRank (ts.getLastD t) := by
  induction ts generalizing t with
  | nil => exact le_rfl
  | cons t' ts ih =>
    obtain ⟨hle, hrest⟩ := List.isChain_cons_cons.mp h
    rw [List.getLastD_cons]
    exact hle.trans (ih hrest)

omit [Numerics F] in
theorem mem_lattice_inferFieldType (v : Value F) : inferFieldType v ∈ lattice := by
  cases v <;> simp [inferFieldType, lattice]

/-- Only a boolean has two wider types below text. -/
theorem eq_of_typeRank_lt {a b c : PgType} (ha : a ∈ lattice) (hb : b ∈ lattice) (hc : c ∈ lattice)
    (hne : c ≠ .text) (hab : a ≠ b) (hab' : typeRank a ≤ typeRank b) (hbc : b ≠ c)
    (hbc' : typeRank b ≤ typeRank c) : a = .boolean ∧ b = .bigint ∧ c = .doublePrecision := by
  have hall : ∀ a ∈ lattice, ∀ b ∈ lattice, ∀ c ∈ lattice,
      c ≠ .text ∧ a ≠ b ∧ typeRank a ≤ typeRank b ∧ b ≠ c ∧ typeRank b ≤ typeRank c →
        a = .boolean ∧ b = .bigint ∧ c = .doublePrecision := by decide
  exact hall a ha b hb c hc ⟨hne, hab, hab', hbc, hbc'⟩

/-- Coercing to a type and then to a wider one below text is coercing to the
wider one. -/
theorem coerceValue_coerceValue (ht : t ∈ lattice) (ht' : t' ∈ lattice) (hne : t' ≠ .text)
    (hle : typeRank t ≤ typeRank t') (hv : typeRank (inferFieldType v) ≤ typeRank t)
    (h : coerceValue t v = .ok x) {y : Value F} (hy : coerceValue t' v = .ok y) :
    coerceValue t' x = .ok y := by
  by_cases hsame : t = t'
  · rw [← hsame, h] at hy
    have hself := coerceValue_inferFieldType x
    rw [inferFieldType_coerceValue ht h, hsame] at hself
    exact hself.trans hy
  by_cases hown : inferFieldType v = t
  · rw [← hown, coerceValue_inferFieldType] at h
    rw [← Except.ok.inj h, hy]
  · obtain ⟨hbool, rfl, rfl⟩ :=
      eq_of_typeRank_lt (mem_lattice_inferFieldType v) ht ht' hne hown hv hsame hle
    cases v with
    | bool b =>
      rw [← Except.ok.inj h]
      exact hy
    | int n => exact nomatch hbool
    | float z => exact nomatch hbool
    | str s => exact nomatch hbool

/-- Below text, what Python converts in the end does not raise. -/
theorem exists_coerceValue (ht : t ∈ lattice) (hne : t ≠ .text)
    (hv : typeRank (inferFieldType v) ≤ typeRank t)
    (hint : ∀ n, v = .int n → t = .doublePrecision → IsExactInt n) :
    ∃ y, coerceValue t v = .ok y := by
  simp only [lattice, List.mem_cons, List.not_mem_nil, or_false] at ht
  cases v with
  | bool b =>
    rcases ht with rfl | rfl | rfl | rfl
    · exact ⟨_, rfl⟩
    · exact ⟨_, rfl⟩
    · exact ⟨_, floatOfInt_bool b⟩
    · contradiction
  | int n =>
    rcases ht with rfl | rfl | rfl | rfl
    · exact ⟨_, rfl⟩
    · exact ⟨_, rfl⟩
    · exact ⟨_, floatOfInt_of_lt (hint n rfl rfl).2⟩
    · contradiction
  | float z =>
    rcases ht with rfl | rfl | rfl | rfl
    · exact ⟨_, rfl⟩
    · simp [inferFieldType, typeRank] at hv
    · exact ⟨_, rfl⟩
    · contradiction
  | str s =>
    rcases ht with rfl | rfl | rfl | rfl
    · exact ⟨_, rfl⟩
    · simp [inferFieldType, typeRank] at hv
    · simp [inferFieldType, typeRank] at hv
    · contradiction

end Casts

section Promotes
variable {v : Value F} {t : PgType} {ts : List PgType}

theorem Promotes.cons {t' : PgType} (h : Promotes v t (t' :: ts)) :
    typeRank t ≤ typeRank t' ∧ Promotes v t' ts := by
  obtain ⟨hle, hordered⟩ := List.isChain_cons_cons.mp h.ordered
  exact ⟨hle, fun u hu => h.lattice u (List.mem_cons_of_mem t hu), hordered, h.starts.trans hle,
    h.exactFloat, fun n hn hu => h.exactInt n hn (List.mem_cons_of_mem t hu)⟩

theorem Promotes.exists_coerceValue (h : Promotes v t ts) (hne : t ≠ .text) :
    ∃ x, coerceValue t v = .ok x :=
  Spelling.exists_coerceValue (h.lattice t List.mem_cons_self) hne h.starts
    fun n hn ht => h.exactInt n hn (ht ▸ List.mem_cons_self)

/-- Below text the casts and Python agree, by the casts one after another. -/
theorem castThrough_of_ne_text (h : Promotes v t ts) (hts : ∀ t' ∈ t :: ts, t' ≠ .text)
    {x : Value F} (hx : coerceValue t v = .ok x) :
    ∃ y, castThrough t ts x = some y ∧ coerceValue (ts.getLastD t) v = .ok y := by
  induction ts generalizing t x with
  | nil => exact ⟨x, rfl, hx⟩
  | cons t' ts ih =>
    obtain ⟨hle, hrest⟩ := h.cons
    have hne := hts t' (by simp)
    obtain ⟨y, hy⟩ := hrest.exists_coerceValue hne
    have hlattice := h.lattice t List.mem_cons_self
    have hlattice' := h.lattice t' (by simp)
    have hcoerce := coerceValue_coerceValue hlattice hlattice' hne hle h.starts hx hy
    have htype := inferFieldType_coerceValue hlattice hx
    have hcast := castValue_of_coerceValue hne hlattice' (htype ▸ hle) hcoerce
    rw [htype] at hcast
    obtain ⟨z, hz, hlast⟩ := ih hrest (fun u hu => hts u (List.mem_cons_of_mem t hu)) hy
    refine ⟨z, ?_, ?_⟩
    · rw [castThrough, hcast]
      exact hz
    · rw [List.getLastD_cons]
      exact hlast

/-- Text is the top: a column that was promoted to it stays there. -/
theorem eq_text_of_mem (h : Promotes v .text ts) : ∀ t ∈ ts, t = .text := by
  induction ts with
  | nil => exact fun t ht => absurd ht List.not_mem_nil
  | cons t ts ih =>
    obtain ⟨hle, hrest⟩ := h.cons
    have htop : ∀ t ∈ lattice, typeRank .text ≤ typeRank t → t = .text := by decide
    have ht := htop t (h.lattice t (by simp)) hle
    rw [ht] at hrest ⊢
    exact List.forall_mem_cons.mpr ⟨rfl, ih hrest⟩

theorem Promotes.left {ts' : List PgType} (h : Promotes v t (ts ++ ts')) : Promotes v t ts where
  lattice u hu := h.lattice u (List.mem_append_left ts' hu)
  ordered := List.IsChain.left_of_append (List.cons_append ▸ h.ordered)
  starts := h.starts
  exactFloat := h.exactFloat
  exactInt n hn hu := h.exactInt n hn (List.mem_append_left ts' hu)

theorem Promotes.right {ts' : List PgType} (h : Promotes v t (ts ++ ts')) :
    Promotes v (ts.getLastD t) ts' := by
  induction ts generalizing t with
  | nil => exact h
  | cons u ts ih =>
    rw [List.getLastD_cons]
    exact ih h.cons.2

/-- Below text a column that was one of doubles stays one. -/
theorem getLastD_of_mem_double (h : Promotes v t ts) (hts : ∀ t' ∈ t :: ts, t' ≠ .text)
    (hmem : .doublePrecision ∈ t :: ts) : ts.getLastD t = .doublePrecision := by
  induction ts generalizing t with
  | nil => exact (List.mem_singleton.mp hmem).symm
  | cons t' ts ih =>
    obtain ⟨hle, hrest⟩ := h.cons
    have htail := fun u hu => hts u (List.mem_cons_of_mem t hu)
    rw [List.getLastD_cons]
    refine ih hrest htail ?_
    rcases List.mem_cons.mp hmem with hhere | hlater
    · have hnext : ∀ t ∈ lattice, typeRank .doublePrecision ≤ typeRank t ∧ t ≠ .text →
          t = .doublePrecision := by decide
      rw [← hhere] at hle
      rw [hnext t' (h.lattice t' (by simp)) ⟨hle, hts t' (by simp)⟩]
      exact List.mem_cons_self
    · exact hlater

theorem isExactInt_bool (b : Bool) : IsExactInt (if b then 1 else 0) := by
  cases b with
  | false => exact ⟨by decide +kernel, by decide +kernel⟩
  | true => exact ⟨by decide +kernel, by decide +kernel⟩

theorem not_mem_intText (n : ℤ) {c : Char} (hc : isNumeralChar c = false) : c ∉ intText n := by
  intro h
  rw [mem_intText h] at hc
  exact Bool.false_ne_true hc.symm

theorem castValue_text_bool (texts : DoubleTexts F) {b : Bool} {y : Value F} (ht : t ∈ lattice)
    (hne : t ≠ .text) (hy : coerceValue t (.bool b) = .ok y) :
    castValue t .text y ≠ some (.str (valueText (.bool b : Value F))) := by
  have hint : intText (if b then 1 else 0) ≠ valueText (.bool b : Value F) := by
    cases b with
    | false => exact (by decide +kernel : intText 0 ≠ "False".toList)
    | true => exact (by decide +kernel : intText 1 ≠ "True".toList)
  intro h
  simp only [lattice, List.mem_cons, List.not_mem_nil, or_false] at ht
  rcases ht with rfl | rfl | rfl | rfl
  · rw [← Except.ok.inj hy] at h
    cases b with
    | false =>
      have hspelt : "false".toList = "False".toList := Value.str.inj (Option.some.inj h)
      exact absurd hspelt (by decide)
    | true =>
      have hspelt : "true".toList = "True".toList := Value.str.inj (Option.some.inj h)
      exact absurd hspelt (by decide)
  · rw [← Except.ok.inj hy] at h
    exact hint (Value.str.inj (Option.some.inj h))
  · rw [floatOfInt_ok hy] at h
    have hsmall : (if b then 1 else 0 : ℤ).natAbs < 10 ^ 15 := by cases b <;> decide
    have hspelt := Value.str.inj (Option.some.inj h)
    rw [texts.pgText_plain _ (isExactInt_bool b) hsmall] at hspelt
    exact hint hspelt
  · contradiction

theorem castValue_text_int (texts : DoubleTexts F) {n : ℤ} {y : Value F}
    (h : Promotes (.int n : Value F) t ts) (hne : t ≠ .text) (hy : coerceValue t (.int n) = .ok y) :
    castValue t .text y = some (.str (valueText (.int n : Value F))) ↔
      (t = .doublePrecision → n.natAbs < 10 ^ 15) := by
  have ht := h.lattice t List.mem_cons_self
  have hstarts := h.starts
  simp only [lattice, List.mem_cons, List.not_mem_nil, or_false] at ht
  rcases ht with rfl | rfl | rfl | rfl
  · simp [inferFieldType, typeRank] at hstarts
  · rw [← Except.ok.inj hy]
    exact iff_of_true rfl fun h => by contradiction
  · have hexact := h.exactInt n rfl List.mem_cons_self
    rw [floatOfInt_ok hy]
    constructor
    · intro hspelt _
      by_contra hlarge
      have hmem := e_mem_exponentText (pgDigits n)
      rw [← texts.pgText_exponent n hexact (not_lt.mp hlarge),
        Value.str.inj (Option.some.inj hspelt)] at hmem
      exact not_mem_intText n (by decide) hmem
    · intro hsmall
      exact congrArg (some ∘ Value.str) (texts.pgText_plain n hexact (hsmall rfl))
  · contradiction

theorem castValue_text_float (texts : DoubleTexts F) {n : ℤ} (hexact : IsExactInt n) :
    Numerics.pgText (Numerics.ofInt n : F) = Numerics.text (Numerics.ofInt n : F) ↔
      10 ^ 16 ≤ n.natAbs ∧ ¬IsMidway (pyDigits n) := by
  by_cases hlarge : 10 ^ 16 ≤ n.natAbs
  · rw [texts.text_exponent n hexact hlarge, texts.pgText_exponent n hexact (by omega),
      and_iff_right hlarge, ← pgDigits_eq_iff hexact.1]
    exact ⟨exponentText_inj, congrArg exponentText⟩
  · refine iff_of_false (fun hspelt => ?_) fun h => hlarge h.1
    rw [texts.text_plain n hexact (not_le.mp hlarge)] at hspelt
    by_cases hplain : n.natAbs < 10 ^ 15
    · rw [texts.pgText_plain n hexact hplain] at hspelt
      have hlength := congrArg List.length hspelt
      rw [List.length_append] at hlength
      simp at hlength
    · have hmem := e_mem_exponentText (pgDigits n)
      rw [← texts.pgText_exponent n hexact (not_lt.mp hplain), hspelt] at hmem
      rcases List.mem_append.mp hmem with hmem | hmem
      · exact not_mem_intText n (by decide) hmem
      · exact absurd hmem (by decide)

/-- Which values a promotion to text spells as Python does. -/
theorem castValue_text_iff (texts : DoubleTexts F) {y : Value F} (h : Promotes v t ts)
    (hne : t ≠ .text) (hy : coerceValue t v = .ok y) :
    castValue t .text y = some (.str (valueText v)) ↔
      (∃ n, v = .int n ∧ (t = .doublePrecision → n.natAbs < 10 ^ 15)) ∨
        ∃ n, IsExactInt n ∧ 10 ^ 16 ≤ n.natAbs ∧ ¬IsMidway (pyDigits n) ∧
          v = .float (Numerics.ofInt n) := by
  have ht := h.lattice t List.mem_cons_self
  cases v with
  | bool b => simpa using castValue_text_bool texts ht hne hy
  | int n => simpa using castValue_text_int texts h hne hy
  | float x =>
    obtain ⟨n, hexact, rfl⟩ := h.exactFloat x rfl
    have hdouble : t = .doublePrecision := by
      have hall : ∀ t ∈ lattice, 3 ≤ typeRank t ∧ t ≠ .text → t = .doublePrecision := by decide
      exact hall t ht ⟨h.starts, hne⟩
    rw [hdouble] at hy ⊢
    rw [← Except.ok.inj hy]
    constructor
    · intro hspelt
      obtain ⟨hlarge, hmidway⟩ :=
        (castValue_text_float texts hexact).mp (Value.str.inj (Option.some.inj hspelt))
      exact Or.inr ⟨n, hexact, hlarge, hmidway, rfl⟩
    · intro hkeeps
      rcases hkeeps with ⟨m, hm, _⟩ | ⟨m, hexact', hlarge, hmidway, hm⟩
      · contradiction
      · rw [Value.float.inj hm]
        exact congrArg (some ∘ Value.str)
          ((castValue_text_float texts hexact').mpr ⟨hlarge, hmidway⟩)
  | str s =>
    have htop : ∀ t ∈ lattice, typeRank .text ≤ typeRank t → t = .text := by decide
    exact absurd (htop t ht h.starts) hne

omit [Numerics F] in
theorem getLastD_append_cons (u : PgType) (ts' : List PgType) :
    (ts ++ u :: ts').getLastD t = ts'.getLastD u := by
  induction ts generalizing t with
  | nil => exact List.getLastD_cons
  | cons w ts ih =>
    rw [List.cons_append, List.getLastD_cons]
    exact ih

omit [Numerics F] in
theorem getLastD_text (h : ∀ t ∈ ts, t = .text) : ts.getLastD .text = .text := by
  rcases List.mem_cons.mp (List.getLastD_mem_cons (l := ts) (a := .text)) with heq | hmem
  · exact heq
  · exact h _ hmem

theorem exists_castValue_text (t : PgType) (y : Value F) :
    ∃ s, castValue t .text y = some (.str s) := by
  cases y with
  | bool b => exact ⟨_, rfl⟩
  | int n => exact ⟨_, rfl⟩
  | float x => exact ⟨_, rfl⟩
  | str s => exact ⟨_, rfl⟩

omit [Numerics F] in
theorem forall_ne_text (ht : t ≠ .text) (hts : .text ∉ ts) : ∀ t' ∈ t :: ts, t' ≠ .text :=
  List.forall_mem_cons.mpr ⟨ht, fun _ ht' heq => hts (heq ▸ ht')⟩

/-- Text follows the last type below it, where doubles are still doubles. -/
theorem double_mem_iff {ts' : List PgType} (h : Promotes v t (ts ++ .text :: ts'))
    (hts : ∀ t' ∈ t :: ts, t' ≠ .text) :
    .doublePrecision ∈ t :: (ts ++ .text :: ts') ↔ ts.getLastD t = .doublePrecision := by
  constructor
  · intro hd
    refine getLastD_of_mem_double h.left hts ?_
    rcases List.mem_append.mp (List.cons_append ▸ hd) with hd | hd
    · exact hd
    · rcases List.mem_cons.mp hd with hd | hd
      · contradiction
      · exact absurd (eq_text_of_mem h.right.cons.2 _ hd) (by decide)
  · intro hd
    rw [← hd]
    exact List.mem_append_left _ List.getLastD_mem_cons

theorem Promotes.last_mem (h : Promotes v t ts) : Promotes v (ts.getLastD t) [] := by
  rw [← List.append_nil ts] at h
  exact h.right

omit [Numerics F] in
theorem takes_of_ne {x : Value F} (h : t ≠ .bigint) : takes t x = true := by
  cases t with
  | bigint => contradiction
  | _ => rfl

/-- What is coerced to a type that does not refuse it is taken. -/
theorem stored_of_coerceValue (h : Promotes v t ts) (hrefused : ¬Refused v t) {x : Value F}
    (hx : coerceValue t v = .ok x) : stored t v = some x := by
  have htakes : takes t x = true := by
    by_cases hbigint : t = .bigint
    · rw [hbigint] at h hrefused hx ⊢
      have hstarts := h.starts
      cases v with
      | bool b =>
        rw [← Except.ok.inj hx]
        refine decide_eq_true (p := InBigint _) ?_
        cases b <;> exact ⟨by decide, by decide⟩
      | int n =>
        rw [← Except.ok.inj hx]
        refine decide_eq_true ?_
        by_contra hout
        exact hrefused ⟨rfl, n, rfl, hout⟩
      | float z => simp [inferFieldType, typeRank] at hstarts
      | str s => simp [inferFieldType, typeRank] at hstarts
    · exact takes_of_ne hbigint
  rw [stored, hx]
  exact if_pos htakes

/-- Only the column that refuses a value may be one that refuses it in the end. -/
theorem refused_of_last (h : Promotes v t ts) (hlast : Refused v (ts.getLastD t)) :
    Refused v t := by
  obtain ⟨hbigint, n, rfl, hout⟩ := hlast
  have hall : ∀ t ∈ lattice, typeRank .bigint ≤ typeRank t ∧ typeRank t ≤ typeRank .bigint →
      t = .bigint := by decide
  refine ⟨hall t (h.lattice t List.mem_cons_self) ⟨h.starts, ?_⟩, n, rfl, hout⟩
  rw [← hbigint]
  exact typeRank_le_last h.ordered

/-- What a write before the promotions and one after them come to. -/
theorem agrees_iff_of_not_refused (h : Promotes v t ts) (hrefused : ¬Refused v t) {x y : Value F}
    (hx : coerceValue t v = .ok x) (hy : coerceValue (ts.getLastD t) v = .ok y) :
    Agrees v t ts ↔ castThrough t ts x = some y := by
  have hlast := stored_of_coerceValue h.last_mem (fun hlast => hrefused (refused_of_last h hlast)) hy
  rw [Agrees, stored_of_coerceValue h hrefused hx, hlast]
  rfl

/-- All that matters is the cast from the last type below text. -/
theorem agrees_text_iff {ts' : List PgType} (h : Promotes v t (ts ++ .text :: ts'))
    (hts : ∀ t' ∈ t :: ts, t' ≠ .text) (hrefused : ¬Refused v t) :
    ∃ y, coerceValue (ts.getLastD t) v = .ok y ∧
      (Agrees v t (ts ++ .text :: ts') ↔
        castValue (ts.getLastD t) .text y = some (.str (valueText v))) := by
  have htail := eq_text_of_mem h.right.cons.2
  have hlast : (ts ++ .text :: ts').getLastD t = .text := by
    rw [getLastD_append_cons, getLastD_text htail]
  obtain ⟨x, hx⟩ := h.exists_coerceValue (hts t List.mem_cons_self)
  obtain ⟨y, hy, hcoerce⟩ := castThrough_of_ne_text h.left hts hx
  obtain ⟨s, hs⟩ := exists_castValue_text (ts.getLastD t) y
  have hthrough : castThrough t (ts ++ .text :: ts') x = some (.str s) := by
    rw [castThrough_append, hy, Option.bind_some, castThrough, hs, Option.bind_some,
      castThrough_text htail]
  refine ⟨y, hcoerce, ?_⟩
  rw [agrees_iff_of_not_refused h hrefused hx (y := .str (valueText v)) (by rw [hlast]; rfl),
    hthrough, hs]

/-- A column that refuses a value and is promoted takes it later. -/
theorem agrees_iff_of_refused (h : Promotes v t ts) (hrefused : Refused v t) :
    Agrees v t ts ↔ ts.getLastD t = .bigint := by
  obtain ⟨rfl, n, rfl, hout⟩ := hrefused
  have hnone : stored .bigint (.int n : Value F) = none := by
    rw [stored, coerceValue]
    exact if_neg (Bool.eq_false_iff.mp (decide_eq_false hout))
  rw [Agrees, hnone, Option.bind_none]
  constructor
  · intro hlater
    by_contra hne
    obtain ⟨y, hy⟩ : ∃ y, coerceValue (ts.getLastD .bigint) (.int n : Value F) = .ok y := by
      by_cases htext : ts.getLastD .bigint = .text
      · exact ⟨_, by rw [htext]; rfl⟩
      · exact h.last_mem.exists_coerceValue htext
    rw [stored_of_coerceValue h.last_mem (fun hlast => hne hlast.1) hy] at hlater
    contradiction
  · intro hlast
    rw [hlast, hnone]

end Promotes

/-- A value stored before promotions is spelt like one stored after them exactly
when its column took it or stays as it is, and no boolean, no double below 10^16 or of
digits half-way between two doubles and no integer from 10^15 on that was a double
became a text. -/
theorem agrees_iff (texts : DoubleTexts F) {v : Value F} {t : PgType} {ts : List PgType}
    (h : Promotes v t ts) : Agrees v t ts ↔ KeepsSpelling v t ts := by
  unfold KeepsSpelling
  by_cases hrefused : Refused v t
  · rw [agrees_iff_of_refused h hrefused, imp_iff_right hrefused]
    refine (and_iff_left_of_imp fun hlast => Or.inl ?_).symm
    rw [hlast]
    decide
  rw [and_iff_right fun hrefused' => absurd hrefused' hrefused]
  by_cases htext : t = .text
  · rw [htext] at h hrefused ⊢
    have hall := eq_text_of_mem h
    refine iff_of_true ?_ (Or.inr (Or.inl rfl))
    refine (agrees_iff_of_not_refused h hrefused rfl (y := .str (valueText v)) ?_).mpr
      (castThrough_text hall _)
    rw [getLastD_text hall]
    rfl
  by_cases hmem : .text ∈ ts
  · obtain ⟨before, after, rfl, hbefore⟩ := List.eq_append_cons_of_mem hmem
    have hnumbers := forall_ne_text htext hbefore
    have hlast : (before ++ .text :: after).getLastD t = .text := by
      rw [getLastD_append_cons, getLastD_text (eq_text_of_mem h.right.cons.2)]
    obtain ⟨y, hcoerce, hagrees⟩ := agrees_text_iff h hnumbers hrefused
    rw [hagrees, castValue_text_iff texts h.right (hnumbers _ List.getLastD_mem_cons) hcoerce]
    rw [hlast, double_mem_iff h hnumbers]
    simp [htext]
  · have hnumbers := forall_ne_text htext hmem
    obtain ⟨x, hx⟩ := h.exists_coerceValue htext
    obtain ⟨y, hy, hcoerce⟩ := castThrough_of_ne_text h hnumbers hx
    exact iff_of_true ((agrees_iff_of_not_refused h hrefused hx hcoerce).mpr hy)
      (Or.inl (hnumbers _ List.getLastD_mem_cons))

/-- Doubles of whole numbers. -/
structure Whole where
  number : ℤ

instance : Numerics Whole where
  ofInt := .mk
  toInt x := .ok x.number
  truthy x := decide (x.number ≠ 0)
  text x := if x.number.natAbs < 10 ^ 16 then intText x.number ++ ".0".toList
    else exponentText (pyDigits x.number)
  ofText s := (readInt s).map .mk
  intOfText := readInt
  pgToInt x := some x.number
  pgText x := if x.number.natAbs < 10 ^ 15 then intText x.number
    else exponentText (pgDigits x.number)
  pgOfText s := (readInt s).map .mk
  pgIntOfText := readInt

theorem doubleTexts_whole : DoubleTexts Whole where
  text_plain _ _ h := if_pos h
  text_exponent _ _ h := if_neg (not_lt.mpr h)
  pgText_plain _ _ h := if_pos h
  pgText_exponent _ _ h := if_neg (not_lt.mpr h)

/-- An integer in a column that becomes one of doubles and then one of texts. -/
theorem agrees_iff_five :
    Agrees (.int 5 : Value Whole) .bigint [.doublePrecision, .text] := by
  refine (agrees_iff doubleTexts_whole ⟨by decide, ?_, by decide, ?_, ?_⟩).mpr ⟨?_, ?_⟩
  · simp [typeRank]
  · intro x hx
    contradiction
  · intro n hn _
    cases Value.int.inj hn
    exact ⟨by decide +kernel, by decide +kernel⟩
  · rintro ⟨-, n, hn, hout⟩
    cases Value.int.inj hn
    exact absurd ⟨by decide, by decide⟩ hout
  · exact Or.inr (Or.inr (Or.inl ⟨5, rfl, fun _ => by decide⟩))

/-- A boolean that was there before its column became one of texts. -/
theorem not_agrees_true : ¬Agrees (.bool true : Value Whole) .boolean [.text] := by
  intro h
  have hspelt : some (Value.str "true".toList : Value Whole) = some (.str "True".toList) := h
  exact absurd (Value.str.inj (Option.some.inj hspelt)) (by decide)

end TimescaleLp.Spelling
