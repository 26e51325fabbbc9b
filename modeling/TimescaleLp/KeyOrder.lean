import TimescaleLp.ColdStore

/-!
The order of object keys. Sequence numbers are padded to one width, so below
`10 ^ 20` the keys of a table sort as their numbers do. Without the bound keys
still differ, but a number of 21 digits sorts before one of 20.
-/
namespace TimescaleLp.KeyOrder

open Names ColdStore

/-- `<` on strings: the code points decide, from the left. -/
def TextLt : Str → Str → Prop := List.Lex fun c d => c.toNat < d.toNat

/-- `YYYY-MM-DD` -/
def IsDay (day : Str) : Prop :=
  ∃ y m d : Str, day = y ++ '-' :: (m ++ '-' :: d) ∧ y.length = 4 ∧ m.length = 2 ∧
    d.length = 2 ∧ ∀ c ∈ y ++ m ++ d, c.isDigit

theorem textLt_cons {c d : Char} {u v : Str} :
    TextLt (c :: u) (d :: v) ↔ c.toNat < d.toNat ∨ c = d ∧ TextLt u v := by
  constructor
  · intro h
    cases h with
    | rel hlt => exact Or.inl hlt
    | cons hlt => exact Or.inr ⟨rfl, hlt⟩
  · intro h
    rcases h with hlt | ⟨rfl, hlt⟩
    · exact List.Lex.rel hlt
    · exact List.Lex.cons hlt

theorem not_textLt_self (u : Str) : ¬TextLt u u := by
  induction u with
  | nil => exact fun h => nomatch h
  | cons c u ih => simp [textLt_cons, ih]

/-- Heads of one length decide unless they are equal. -/
theorem textLt_append {u v x y : Str} (hlength : u.length = v.length) :
    TextLt (u ++ x) (v ++ y) ↔ TextLt u v ∨ u = v ∧ TextLt x y := by
  induction u generalizing v with
  | nil =>
    obtain rfl := List.length_eq_zero_iff.mp hlength.symm
    simp [not_textLt_self]
  | cons c u ih =>
    cases v with
    | nil => contradiction
    | cons d v =>
      have ih := ih (Nat.succ.inj hlength)
      simp only [List.cons_append, textLt_cons, ih, List.cons.injEq]
      tauto

/-- What stands before in both texts does not matter. -/
theorem textLt_append_left (u x y : Str) : TextLt (u ++ x) (u ++ y) ↔ TextLt x y := by
  simp [textLt_append, not_textLt_self]

/-- Nor does what stands after texts of one length. -/
theorem textLt_append_right {u v : Str} (hlength : u.length = v.length) (x : Str) :
    TextLt (u ++ x) (v ++ x) ↔ TextLt u v := by
  simp [textLt_append hlength, not_textLt_self]

section Digits

/-- The first digit counts for as much as all texts of the others together. -/
theorem ofDigitChars_cons (c : Char) (u : Str) : Nat.ofDigitChars 10 (c :: u) 0 =
    10 ^ u.length * (c.toNat - 48) + Nat.ofDigitChars 10 u 0 := by
  rw [Nat.ofDigitChars_cons, Nat.ofDigitChars_eq_ofDigitChars_zero, Nat.mul_zero, Nat.zero_add]
  rfl

theorem ofDigitChars_lt {u : Str} (hu : ∀ c ∈ u, c.isDigit) :
    Nat.ofDigitChars 10 u 0 < 10 ^ u.length := by
  induction u with
  | nil => simp
  | cons c u ih =>
    obtain ⟨hc, hu⟩ := List.forall_mem_cons.mp hu
    have hdigit := toNat_of_isDigit hc
    have hfirst : 10 ^ u.length * (c.toNat - 48) ≤ 10 ^ u.length * 9 :=
      Nat.mul_le_mul_left _ (by omega)
    have hrest := ih hu
    rw [ofDigitChars_cons, List.length_cons, pow_succ]
    omega

/-- Digit texts of one length sort as their numbers. -/
theorem textLt_iff_ofDigitChars_lt {u v : Str} (hlength : u.length = v.length)
    (hu : ∀ c ∈ u, c.isDigit) (hv : ∀ c ∈ v, c.isDigit) :
    TextLt u v ↔ Nat.ofDigitChars 10 u 0 < Nat.ofDigitChars 10 v 0 := by
  induction u generalizing v with
  | nil =>
    obtain rfl := List.length_eq_zero_iff.mp hlength.symm
    simp [not_textLt_self]
  | cons c u ih =>
    cases v with
    | nil => contradiction
    | cons d v =>
      have hlength : u.length = v.length := Nat.succ.inj hlength
      obtain ⟨hc, hu⟩ := List.forall_mem_cons.mp hu
      obtain ⟨hd, hv⟩ := List.forall_mem_cons.mp hv
      have hcdigit := toNat_of_isDigit hc
      have hddigit := toNat_of_isDigit hd
      have hultu := ofDigitChars_lt hu
      have hvlt := ofDigitChars_lt hv
      rw [textLt_cons, ih hlength hu hv, ofDigitChars_cons, ofDigitChars_cons, hlength]
      rw [hlength] at hultu
      -- a step of the first digit outweighs the rest
      have hstep : ∀ a b : ℕ, a < b → 10 ^ v.length * a + 10 ^ v.length ≤ 10 ^ v.length * b := by
        intro a b hab
        rw [← Nat.mul_succ]
        exact Nat.mul_le_mul_left _ hab
      rcases lt_trichotomy c.toNat d.toNat with hlt | heq | hgt
      · have := hstep (c.toNat - 48) (d.toNat - 48) (by omega)
        exact iff_of_true (Or.inl hlt) (by omega)
      · obtain rfl := Char.toNat_inj.mp heq
        simp
      · have := hstep (d.toNat - 48) (c.toNat - 48) (by omega)
        refine iff_of_false (fun h => ?_) (by omega)
        rcases h with h | ⟨rfl, -⟩
        · exact lt_asymm h hgt
        · exact lt_irrefl _ hgt

theorem length_zeroPad {width n : ℕ} (hwidth : 0 < width) (hn : n < 10 ^ width) :
    (zeroPad width n).length = width := by
  have hle := (Nat.length_toDigits_le_iff (by decide : 1 < 10) hwidth).mpr hn
  rw [zeroPad, List.leftpad, List.length_append, List.length_replicate]
  omega

/-- Numbers that fit the width are in the order of their texts. -/
theorem textLt_zeroPad {width m n : ℕ} (hwidth : 0 < width) (hm : m < 10 ^ width)
    (hn : n < 10 ^ width) : TextLt (zeroPad width m) (zeroPad width n) ↔ m < n := by
  rw [textLt_iff_ofDigitChars_lt ((length_zeroPad hwidth hm).trans (length_zeroPad hwidth hn).symm)
    (zeroPad_isDigit width m) (zeroPad_isDigit width n), ofDigitChars_zeroPad,
    ofDigitChars_zeroPad]

end Digits

section Keys

theorem slash_notMem_of_isDay {day : Str} (h : IsDay day) : '/' ∉ day := by
  obtain ⟨y, m, d, rfl, -, -, -, hdigits⟩ := h
  have hnot : '/' ∉ y ++ m ++ d := fun hmem => by simpa using hdigits '/' hmem
  simp only [List.mem_append, not_or] at hnot
  simp [hnot.1.1, hnot.1.2, hnot.2]

variable {a b a' b' : ℕ} (ha : a < 10 ^ 20) (hb : b < 10 ^ 20) (ha' : a' < 10 ^ 20)
  (hb' : b' < 10 ^ 20)

include ha hb ha' hb' in
theorem textLt_stagingKey (t : Str) :
    TextLt (stagingKey t a b) (stagingKey t a' b') ↔ a < a' ∨ a = a' ∧ b < b' := by
  have hlength : (zeroPad 20 a).length = (zeroPad 20 a').length :=
    (length_zeroPad (by decide) ha).trans (length_zeroPad (by decide) ha').symm
  have hlength' : (zeroPad 20 b).length = (zeroPad 20 b').length :=
    (length_zeroPad (by decide) hb).trans (length_zeroPad (by decide) hb').symm
  simp only [stagingKey, List.append_assoc, textLt_append_left]
  rw [textLt_append hlength, textLt_append_left, textLt_append_right hlength',
    textLt_zeroPad (by decide) ha ha', textLt_zeroPad (by decide) hb hb']
  exact or_congr_right (and_congr_left' (zeroPad_injective 20).eq_iff)

include ha ha' in
theorem textLt_coldKey (t day : Str) :
    TextLt (coldKey t day a) (coldKey t day a') ↔ a < a' := by
  have hlength : (zeroPad 20 a).length = (zeroPad 20 a').length :=
    (length_zeroPad (by decide) ha).trans (length_zeroPad (by decide) ha').symm
  simp only [coldKey, List.append_assoc, textLt_append_left]
  rw [textLt_append_right hlength, textLt_zeroPad (by decide) ha ha']

include ha hb ha' hb' in
/-- Keys tell their tables, days and sequence numbers apart, and sort by number. -/
theorem keys_ordered (name name' : Str) {day day' : Str} (hday : IsDay day) (hday' : IsDay day') :
    (stagingKey (safeIdent name) a b = stagingKey (safeIdent name') a' b' ↔
        safeIdent name = safeIdent name' ∧ a = a' ∧ b = b') ∧
      (TextLt (stagingKey (safeIdent name) a b) (stagingKey (safeIdent name) a' b') ↔
        a < a' ∨ a = a' ∧ b < b') ∧
      (coldKey (safeIdent name) day a = coldKey (safeIdent name') day' a' ↔
        safeIdent name = safeIdent name' ∧ day = day' ∧ a = a') ∧
      (TextLt (coldKey (safeIdent name) day a) (coldKey (safeIdent name) day a') ↔ a < a') ∧
      stagingKey (safeIdent name) a b ≠ coldKey (safeIdent name') day' a' := by
  refine ⟨⟨stagingKey_inj, ?_⟩, textLt_stagingKey ha hb ha' hb' _,
    ⟨coldKey_inj (slash_notMem_of_isDay hday) (slash_notMem_of_isDay hday'), ?_⟩,
    textLt_coldKey ha ha' _ _, stagingKey_ne_coldKey _ _ _ _ _ _⟩
  · rintro ⟨ht, rfl, rfl⟩
    rw [ht]
  · rintro ⟨ht, rfl, rfl⟩
    rw [ht]

/-- As plain decimals, 9 would sort after 10. -/
theorem keys_ordered_ten :
    IsDay "2026-06-01".toList ∧
      TextLt (stagingKey (safeIdent "cpu".toList) 9 10) (stagingKey (safeIdent "cpu".toList) 10 11) := by
  have hday : IsDay "2026-06-01".toList :=
    ⟨"2026".toList, "06".toList, "01".toList, by decide, by decide, by decide, by decide,
      List.all_eq_true.mp (by decide)⟩
  have hlt : ∀ n ≤ 11, n < 10 ^ 20 := fun n hn => hn.trans_lt (by norm_num)
  have hkeys := keys_ordered (hlt 9 (by decide)) (hlt 10 (by decide)) (hlt 10 (by decide))
    (hlt 11 le_rfl) "cpu".toList "cpu".toList hday hday
  exact ⟨hday, hkeys.2.1.mpr (Or.inl (by decide))⟩

end Keys

end TimescaleLp.KeyOrder
