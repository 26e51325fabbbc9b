import TimescaleLp.Texts
import Mathlib.Tactic.Linarith
import Mathlib.Tactic.Positivity
import Mathlib.Tactic.FieldSimp
import Mathlib.Algebra.Order.Round

/-!
Decimal numerals read back. Python reads an integer of up to 4300 digits; a
timestamp that is a date has far fewer.
-/
namespace TimescaleLp.Texts

/-- A digit or a sign. -/
def isNumeralChar (c : Char) : Bool := c.isDigit || c == '-'

theorem mem_intText {n : ℤ} {c : Char} (h : c ∈ intText n) : isNumeralChar c := by
  unfold intText at h
  unfold isNumeralChar
  split at h
  · rcases List.mem_cons.mp h with h | h
    · simp [h]
    · simp [Names.isDigit_of_mem_decimal h]
  · simp [Names.isDigit_of_mem_decimal h]

theorem toNat_of_isNumeralChar {c : Char} (h : isNumeralChar c) :
    33 ≤ c.toNat ∧ c.toNat < 127 := by
  rcases Bool.or_eq_true_iff.mp h with h | h
  · have hdigit := Names.toNat_of_isDigit h
    omega
  · rw [eq_of_beq h]
    decide

theorem isSpace_of_isNumeralChar {c : Char} (h : isNumeralChar c) : isSpace c = false := by
  have hc := toNat_of_isNumeralChar h
  simp only [isSpace, List.mem_cons, List.not_mem_nil, or_false, Bool.or_eq_false_iff,
    decide_eq_false_iff_not, Bool.and_eq_false_iff]
  omega

theorem intText_ne_nil (n : ℤ) : intText n ≠ [] := by
  unfold intText
  split
  · exact List.cons_ne_nil _ _
  · exact Nat.toDigits_ne_nil

/-- A text without spaces and beyond no ASCII is a number text as it stands. -/
theorem numberText_of_ascii {s : Str} (h : ∀ c ∈ s, 33 ≤ c.toNat ∧ c.toNat < 127) :
    numberText s = s := by
  have hspace : ∀ c ∈ s, isAsciiSpace c = false := by
    intro c hc
    obtain ⟨hlow, _⟩ := h c hc
    simp only [isAsciiSpace, Bool.or_eq_false_iff, decide_eq_false_iff_not, Bool.and_eq_false_iff]
    omega
  have hmap : s.map toAscii = s := by
    refine (List.map_congr_left fun c hc => ?_).trans (List.map_id s)
    rw [toAscii, if_pos (h c hc).2, id]
  unfold numberText
  rw [hmap, List.dropWhile_eq_self_iff.mpr, List.rdropWhile_eq_self_iff.mpr]
  · intro hne
    simp [hspace _ (List.getLast_mem hne)]
  · intro hne
    simp [hspace _ (List.getElem_mem hne)]

theorem numberText_of_numeral {s : Str} (h : ∀ c ∈ s, isNumeralChar c) : numberText s = s :=
  numberText_of_ascii fun c hc => toNat_of_isNumeralChar (h c hc)

theorem digitGroups_of_digits {t : Str} (hne : t ≠ []) (h : ∀ c ∈ t, c.isDigit) :
    digitGroups t := by
  induction t with
  | nil => exact absurd rfl hne
  | cons c t ih =>
    have hc := h c List.mem_cons_self
    cases t with
    | nil => exact hc
    | cons d t =>
      have hd : d ≠ '_' := by
        intro heq
        have hd := h d (by simp)
        rw [heq] at hd
        contradiction
      rw [digitGroups, if_neg hd, hc, Bool.true_and]
      exact ih (List.cons_ne_nil d t) fun x hx => h x (List.mem_cons_of_mem c hx)

theorem readNatural_toDigits (n : ℕ) :
    readNatural (Nat.toDigits 10 n) = if n < 10 ^ maxStrDigits then some n else none := by
  have hdigits : ∀ c ∈ Nat.toDigits 10 n, c.isDigit := fun _ =>
    Names.isDigit_of_mem_decimal
  have hfilter : (Nat.toDigits 10 n).filter Char.isDigit = Nat.toDigits 10 n :=
    List.filter_eq_self.mpr hdigits
  have hlength : (Nat.toDigits 10 n).length ≤ maxStrDigits ↔ n < 10 ^ maxStrDigits :=
    Nat.length_toDigits_le_iff (by omega) (by decide)
  unfold readNatural
  rw [hfilter, Nat.ofDigitChars_ten_toDigits]
  simp only [digitGroups_of_digits Nat.toDigits_ne_nil hdigits, hlength, true_and]

theorem splitSign_of_digits {t : Str} (h : ∀ c ∈ t, c.isDigit) : splitSign t = (false, t) := by
  cases t with
  | nil => rfl
  | cons c t =>
    have hc := h c List.mem_cons_self
    have hminus : c ≠ '-' := by
      intro heq
      rw [heq] at hc
      contradiction
    have hplus : c ≠ '+' := by
      intro heq
      rw [heq] at hc
      contradiction
    rw [splitSign, if_neg hminus, if_neg hplus]

theorem int_intText (n : ℤ) :
    int (intText n) = if n.natAbs < 10 ^ maxStrDigits then some n else none := by
  have hdigits : ∀ c ∈ Nat.toDigits 10 n.natAbs, c.isDigit := fun _ =>
    Names.isDigit_of_mem_decimal
  have hsign : splitSign (intText n) = (decide (n < 0), Nat.toDigits 10 n.natAbs) := by
    unfold intText
    split
    · rename_i hn
      simp [splitSign, hn]
    · rename_i hn
      simp [splitSign_of_digits hdigits, hn]
  have hvalue : (if n < 0 then -(n.natAbs : ℤ) else n.natAbs) = n := by
    split <;> omega
  unfold int
  rw [numberText_of_numeral fun c hc => mem_intText hc, hsign]
  simp only [readNatural_toDigits, decide_eq_true_eq]
  by_cases hlt : n.natAbs < 10 ^ maxStrDigits
  · rw [if_pos hlt, if_pos hlt, Option.map_some, hvalue]
  · rw [if_neg hlt, if_neg hlt, Option.map_none]

/-! Rounding moves a number by less than half of it. -/

theorem abs_roundHalfEven_sub_le (q : ℚ) : |(roundHalfEven q : ℚ) - q| ≤ 1 := by
  have hlow := Int.floor_le q
  have hhigh := (Int.lt_floor_add_one q).le
  unfold roundHalfEven
  rw [abs_le]
  simp only
  split
  · constructor <;> linarith
  split
  · push_cast
    constructor <;> linarith
  split
  · constructor <;> linarith
  · push_cast
    constructor <;> linarith

/-- A power of two below a number, from the lengths of numerator and denominator. -/
theorem zpow_log2_lt_abs {q : ℚ} (hq : q ≠ 0) :
    (2 : ℚ) ^ ((Nat.log2 q.num.natAbs : ℤ) - Nat.log2 q.den - 1) < |q| := by
  have hnum : q.num.natAbs ≠ 0 := Int.natAbs_ne_zero.mpr (Rat.num_ne_zero.mpr hq)
  have hlow : (2 : ℚ) ^ Nat.log2 q.num.natAbs ≤ (q.num.natAbs : ℚ) := by
    exact_mod_cast Nat.log2_self_le hnum
  have hhigh : (q.den : ℚ) < 2 ^ (Nat.log2 q.den + 1) := by
    exact_mod_cast Nat.lt_log2_self
  have hden : (0 : ℚ) < q.den := by exact_mod_cast q.den_pos
  have habs : |q| = (q.num.natAbs : ℚ) / q.den := by
    conv_lhs => rw [← Rat.num_div_den q]
    rw [abs_div, Nat.abs_cast, Nat.cast_natAbs, Int.cast_abs]
  have hexp : (2 : ℚ) ^ ((Nat.log2 q.num.natAbs : ℤ) - Nat.log2 q.den - 1) =
      2 ^ Nat.log2 q.num.natAbs / 2 ^ (Nat.log2 q.den + 1) := by
    rw [sub_sub, zpow_sub₀ two_ne_zero, ← zpow_natCast, ← zpow_natCast]
    push_cast
    rfl
  have hpos : (0 : ℚ) < q.num.natAbs := by exact_mod_cast Nat.pos_of_ne_zero hnum
  rw [hexp, habs]
  calc (2 : ℚ) ^ Nat.log2 q.num.natAbs / 2 ^ (Nat.log2 q.den + 1)
      ≤ q.num.natAbs / 2 ^ (Nat.log2 q.den + 1) := by gcongr
    _ < q.num.natAbs / q.den := div_lt_div_of_pos_left hpos hden hhigh

theorem abs_toDouble_sub_le (q : ℚ) : |toDouble q - q| ≤ |q| / 2 := by
  by_cases hq : q = 0
  · simp [toDouble, hq]
  set e : ℤ := (Nat.log2 q.num.natAbs : ℤ) - Nat.log2 q.den with he
  set ulp : ℚ := 2 ^ ((if |q| < 2 ^ e then e - 1 else e) - 52) with hulp
  have hpos : 0 < ulp := zpow_pos two_pos _
  have hsmall : ulp ≤ |q| / 2 := by
    have hle : ulp ≤ 2 ^ (e - 1 - 1) := by
      refine zpow_le_zpow_right₀ one_le_two ?_
      split <;> omega
    have hlog := zpow_log2_lt_abs hq
    rw [← he] at hlog
    rw [zpow_sub_one₀ two_ne_zero] at hle
    linarith
  have hround := abs_roundHalfEven_sub_le (q / ulp)
  have heq : toDouble q - q = (roundHalfEven (q / ulp) - q / ulp) * ulp := by
    rw [sub_mul, div_mul_cancel₀ q hpos.ne', toDouble, if_neg hq]
  rw [heq, abs_mul, abs_of_pos hpos]
  exact (mul_le_of_le_one_left hpos.le hround).trans hsmall

theorem abs_le_of_abs_roundedMicros {seconds : ℚ} {bound : ℤ}
    (h : |roundedMicros seconds| ≤ bound * 1000000) : |seconds| ≤ bound + 3 := by
  unfold roundedMicros at h
  set whole : ℤ := if 0 ≤ seconds then ⌊seconds⌋ else ⌈seconds⌉ with hwhole
  set rest := roundHalfEven (toDouble ((seconds - whole) * 1000000))
  have hfrac : |seconds - whole| ≤ 1 := by
    rw [hwhole, abs_le]
    split
    · have hlow := Int.floor_le seconds
      have hhigh := Int.lt_floor_add_one seconds
      constructor <;> linarith
    · have hlow := Int.le_ceil seconds
      have hhigh := Int.ceil_lt_add_one seconds
      constructor <;> linarith
  have hrest : |(rest : ℚ)| ≤ 2000000 := by
    have hround := abs_roundHalfEven_sub_le (toDouble ((seconds - whole) * 1000000))
    have hdouble := abs_toDouble_sub_le ((seconds - whole) * 1000000)
    rw [abs_mul, abs_of_pos (by norm_num : (0 : ℚ) < 1000000)] at hdouble
    have hbound : |seconds - whole| * 1000000 / 2 ≤ 500000 := by linarith
    rw [abs_le] at hround hdouble hfrac ⊢
    constructor <;> linarith
  have hint : |rest| ≤ 2000000 := by exact_mod_cast hrest
  have hle : |whole| ≤ bound + 2 := by
    rw [abs_le] at hint h ⊢
    simp only at h
    omega
  have hcast : |(whole : ℚ)| ≤ bound + 2 := by exact_mod_cast hle
  have htriangle := abs_sub_abs_le_abs_sub seconds whole
  linarith

/-- A number of nanoseconds that is a date is below 10^22 in absolute value. -/
theorem natAbs_lt_of_fromTimestamp {ns : ℤ} {t : Time} (h : fromTimestamp ns = .ok t) :
    ns.natAbs < 10 ^ 22 := by
  unfold fromTimestamp dateOfMicros at h
  set micros := roundedMicros (toDouble ((ns : ℚ) / 1000000000)) with hmicros
  have hdate : ¬(micros / 1000000 < -62135596800 ∨ 253402300800 ≤ micros / 1000000) := by
    simp only at h
    split_ifs at h with h1 h2 h3
    exact h3
  have hseconds : |toDouble ((ns : ℚ) / 1000000000)| ≤ (300000000000 : ℤ) + 3 := by
    refine abs_le_of_abs_roundedMicros ?_
    rw [← hmicros, abs_le]
    omega
  have hdouble := abs_toDouble_sub_le ((ns : ℚ) / 1000000000)
  rw [abs_sub_comm] at hdouble
  have htriangle := abs_sub_abs_le_abs_sub ((ns : ℚ) / 1000000000)
    (toDouble ((ns : ℚ) / 1000000000))
  push_cast at hseconds
  have hns : |(ns : ℚ) / 1000000000| ≤ 1000000000000 := by linarith
  rw [abs_div, abs_of_pos (by norm_num : (0 : ℚ) < 1000000000),
    div_le_iff₀ (by norm_num : (0 : ℚ) < 1000000000)] at hns
  have hfinal : |ns| ≤ 1000000000000 * 1000000000 := by exact_mod_cast hns
  rw [abs_le] at hfinal
  omega

theorem lt_of_fromTimestamp_mul {n factor : ℤ} {t : Time} (hfactor : 1 ≤ factor)
    (h : fromTimestamp (n * factor) = .ok t) : n.natAbs < 10 ^ maxStrDigits := by
  have hle : n.natAbs ≤ (n * factor).natAbs := by
    rw [Int.natAbs_mul]
    exact Nat.le_mul_of_pos_right _ (by omega)
  have hpow : 10 ^ 22 ≤ 10 ^ maxStrDigits := Nat.pow_le_pow_right (by omega) (by decide)
  exact hle.trans_lt ((natAbs_lt_of_fromTimestamp h).trans_le hpow)

/-- A double quote in front is no white space and stays. -/
theorem numberText_quote (s : Str) : ∃ t, numberText ('"' :: s) = '"' :: t := by
  unfold numberText
  rw [List.map_cons, show toAscii '"' = '"' from by decide, List.dropWhile_cons_of_neg (by decide),
    List.rdropWhile, List.reverse_cons, List.dropWhile_append]
  split
  · exact ⟨[], by decide⟩
  · exact ⟨_, List.reverse_concat⟩

/-- A text that starts with a double quote is no integer. -/
theorem int_quote (s : Str) : int ('"' :: s) = none := by
  obtain ⟨t, ht⟩ := numberText_quote s
  have hdigits : digitGroups ('"' :: t) = false := by cases t <;> rfl
  have hread : readNatural ('"' :: t) = none := if_neg fun h => by simp [hdigits] at h
  unfold int
  rw [ht]
  exact congrArg (Option.map _) hread

theorem isFloat_quote (s : Str) : isFloat ('"' :: s) = false := by
  obtain ⟨t, ht⟩ := numberText_quote s
  have hsign : splitSign ('"' :: t) = (false, '"' :: t) := rfl
  have hword : ∀ w ∈ ["inf".toList, "infinity".toList, "nan".toList], lower ('"' :: t) ≠ w := by
    intro w hw h
    have hhead : some '"' = w.head? := congrArg List.head? h
    simp only [List.mem_cons, List.not_mem_nil, or_false] at hw
    rcases hw with rfl | rfl | rfl <;> exact absurd hhead (by decide)
  have hmantissa : ∀ m, isMantissa ('"' :: m) = false := by
    intro m
    simp [isMantissa, List.span_eq_takeWhile_dropWhile, Char.isDigit]
  have hdecimal : isDecimal (('"' :: t).filter fun c => c ≠ '_') = false := by
    rw [List.filter_cons_of_pos (by decide)]
    simp [isDecimal, List.span_eq_takeWhile_dropWhile, hmantissa]
  unfold isFloat
  rw [ht, hsign]
  simp only [hdecimal, Bool.and_false, Bool.or_false, List.contains_eq_mem, decide_eq_false_iff_not]
  exact fun h => hword _ h rfl
end TimescaleLp.Texts
