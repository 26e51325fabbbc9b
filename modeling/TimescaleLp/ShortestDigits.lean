import TimescaleLp.Numerals
import Mathlib.Data.List.DropRight

/-!
The shortest decimal numeral of a double. Of the numerals that read back the one with
the most zeros at its end is written, and the nearest of these. A writer that refuses
some of the numerals writes the same text as one that does not exactly when it does not
refuse what the other writes.
-/
namespace TimescaleLp.ShortestDigits

open Texts Schema

section Search

variable (reads : ℤ → Prop) [DecidablePred reads] (n : ℤ)

/-- Of the multiples of `unit` next to `n` the nearer one that reads back; of two that
are as near, the one with an even digit. -/
def nearest (unit : ℤ) : Option ℤ :=
  let low := n / unit * unit
  let high := low + unit
  if reads low ∧ (¬reads high ∨ 2 * (n - low) < unit ∨ 2 * (n - low) = unit ∧ n / unit % 2 = 0) then
    some low
  else if reads high then some high
  else none

def shortest : ℕ → ℤ
  | 0 => n
  | k + 1 => (nearest reads n (10 ^ (k + 1))).getD (shortest k)

variable {reads n}

theorem nearest_reads {unit d : ℤ} (h : nearest reads n unit = some d) : reads d := by
  simp only [nearest] at h
  split at h
  · rename_i hlow
    exact Option.some.inj h ▸ hlow.1
  · split at h
    · rename_i hhigh
      exact Option.some.inj h ▸ hhigh
    · contradiction

theorem shortest_reads (hn : reads n) (k : ℕ) : reads (shortest reads n k) := by
  induction k with
  | zero => exact hn
  | succ k ih =>
    rw [shortest]
    cases hd : nearest reads n (10 ^ (k + 1)) with
    | none => exact ih
    | some d => exact nearest_reads hd

variable {strict : ℤ → Prop} [DecidablePred strict]

theorem nearest_of_some (hsub : ∀ d, strict d → reads d) {unit d : ℤ}
    (h : nearest reads n unit = some d) (hd : strict d) : nearest strict n unit = some d := by
  simp only [nearest] at h ⊢
  have hlow := hsub (n / unit * unit)
  have hhigh := hsub (n / unit * unit + unit)
  grind

theorem nearest_of_none (hsub : ∀ d, strict d → reads d) {unit : ℤ}
    (h : nearest reads n unit = none) : nearest strict n unit = none := by
  rw [Option.eq_none_iff_forall_ne_some] at h ⊢
  simp only [nearest] at h ⊢
  have hlow := hsub (n / unit * unit)
  have hhigh := hsub (n / unit * unit + unit)
  grind

/-- A writer that accepts less writes the same exactly if it accepts what is written. -/
theorem shortest_eq_iff (hsub : ∀ d, strict d → reads d) (hn : strict n) (k : ℕ) :
    shortest strict n k = shortest reads n k ↔ strict (shortest reads n k) := by
  constructor
  · intro heq
    exact heq ▸ shortest_reads hn k
  · intro hstrict
    induction k with
    | zero => rfl
    | succ k ih =>
      rw [shortest] at hstrict
      rw [shortest, shortest]
      cases hd : nearest reads n (10 ^ (k + 1)) with
      | none =>
        rw [hd] at hstrict
        rw [nearest_of_none hsub hd]
        exact ih hstrict
      | some d =>
        rw [hd] at hstrict
        rw [nearest_of_some hsub hd hstrict]
        rfl

end Search

/-- The integer is half-way between two doubles. -/
def IsMidway (d : ℤ) : Prop :=
  toDouble d ≠ d ∧ toDouble (d - 1 / 4) ≠ toDouble (d + 1 / 4)

instance (d : ℤ) : Decidable (IsMidway d) := inferInstanceAs (Decidable (_ ∧ _))

/-- The integer that Python spells: whatever reads back is good. -/
def pyDigits (n : ℤ) : ℤ :=
  shortest (fun d => toDouble d = n) n (Nat.toDigits 10 n.natAbs).length

/-- The integer that Postgres spells, never one half-way between two doubles. -/
def pgDigits (n : ℤ) : ℤ :=
  shortest (fun d => toDouble d = n ∧ ¬IsMidway d) n (Nat.toDigits 10 n.natAbs).length

/-- 1e23 reads as the double below it, which Postgres spells 9.999999999999999e22. -/
example : pyDigits 99999999999999991611392 = 10 ^ 23 ∧
    pgDigits 99999999999999991611392 = 9999999999999999 * 10 ^ 7 := by decide +kernel

theorem toDouble_pyDigits {n : ℤ} (hn : toDouble n = n) : toDouble (pyDigits n) = n :=
  @shortest_reads (fun d => toDouble d = n) _ n hn _

theorem pgDigits_eq_iff {n : ℤ} (hn : toDouble n = n) :
    pgDigits n = pyDigits n ↔ ¬IsMidway (pyDigits n) := by
  have hown : ¬IsMidway n := fun h => h.1 hn
  unfold pgDigits pyDigits
  rw [shortest_eq_iff (fun _ h => h.1) ⟨hn, hown⟩]
  exact and_iff_right (toDouble_pyDigits hn)

section Notation

/-- The first digit and the others without the zeros at the end. -/
def mantissa (digits : Str) : Str :=
  let fraction := (digits.drop 1).rdropWhile (· == '0')
  digits.take 1 ++ if fraction = [] then [] else '.' :: fraction

def unsigned (n : ℕ) : Str :=
  let digits := Nat.toDigits 10 n
  mantissa digits ++ 'e' :: '+' :: Nat.toDigits 10 (digits.length - 1)

/-- An integer with an exponent. -/
def exponentText (n : ℤ) : Str :=
  if n < 0 then '-' :: unsigned n.natAbs else unsigned n.natAbs

theorem e_mem_exponentText (n : ℤ) : 'e' ∈ exponentText n := by
  unfold exponentText
  split <;> simp [unsigned]

theorem mem_mantissa {digits : Str} {c : Char} (h : c ∈ mantissa digits) : c ∈ digits ∨ c = '.' := by
  rcases List.mem_append.mp h with h | h
  · exact Or.inl (List.mem_of_mem_take h)
  · split at h
    · contradiction
    · rcases List.mem_cons.mp h with h | h
      · exact Or.inr h
      · exact Or.inl (List.mem_of_mem_drop ((List.rdropWhile_prefix _ _).subset h))

theorem notMem_mantissa {n : ℕ} {c : Char} (hc : c.isDigit = false) (hdot : c ≠ '.') :
    c ∉ mantissa (Nat.toDigits 10 n) := by
  intro h
  rcases mem_mantissa h with h | h
  · rw [Names.isDigit_of_mem_decimal h] at hc
    contradiction
  · exact hdot h

theorem toDigits_inj {m n : ℕ} (h : Nat.toDigits 10 m = Nat.toDigits 10 n) : m = n := by
  rw [← Nat.ofDigitChars_ten_toDigits (n := m), h, Nat.ofDigitChars_ten_toDigits]

/-- What the zeros at the end of a list leave of it. -/
theorem eq_of_rdropWhile_eq {l l' : Str} (hlength : l.length = l'.length)
    (h : l.rdropWhile (· == '0') = l'.rdropWhile (· == '0')) : l = l' := by
  have hsplit : ∀ l : Str, ∃ k, l = l.rdropWhile (· == '0') ++ List.replicate k '0' := by
    intro l
    induction l using List.reverseRecOn with
    | nil => exact ⟨0, rfl⟩
    | append_singleton l c ih =>
      by_cases hc : (c == '0') = true
      · obtain ⟨k, hk⟩ := ih
        refine ⟨k + 1, ?_⟩
        rw [List.rdropWhile_concat_pos (· == '0') _ _ hc, List.replicate_succ', ← List.append_assoc, ← hk,
          eq_of_beq hc]
      · exact ⟨0, by rw [List.rdropWhile_concat_neg (· == '0') _ _ hc]; simp⟩
  obtain ⟨k, hk⟩ := hsplit l
  obtain ⟨k', hk'⟩ := hsplit l'
  have hzeros : k = k' := by
    have hl := congrArg List.length hk
    have hl' := congrArg List.length hk'
    rw [List.length_append, List.length_replicate] at hl hl'
    rw [h] at hl
    omega
  rw [hk, hk', h, hzeros]

theorem mantissa_inj {digits digits' : Str} (hlength : digits.length = digits'.length)
    (h : mantissa digits = mantissa digits') : digits = digits' := by
  cases digits with
  | nil => exact (List.length_eq_zero_iff.mp hlength.symm).symm
  | cons c rest =>
    cases digits' with
    | nil => contradiction
    | cons c' rest' =>
      obtain ⟨hc, hfraction⟩ := List.cons.inj h
      rw [hc, eq_of_rdropWhile_eq (Nat.succ.inj hlength)]
      change (if rest.rdropWhile (· == '0') = [] then [] else '.' :: rest.rdropWhile (· == '0')) =
        if rest'.rdropWhile (· == '0') = [] then [] else '.' :: rest'.rdropWhile (· == '0')
        at hfraction
      split at hfraction
      · rename_i hempty
        split at hfraction
        · rename_i hempty'
          rw [hempty, hempty']
        · contradiction
      · split at hfraction
        · contradiction
        · exact (List.cons.inj hfraction).2

theorem unsigned_inj {m n : ℕ} (h : unsigned m = unsigned n) : m = n := by
  have hmantissa : 'e' ∉ mantissa (Nat.toDigits 10 m) := notMem_mantissa (by decide) (by decide)
  have hexponent : 'e' ∉ '+' :: Nat.toDigits 10 ((Nat.toDigits 10 m).length - 1) := by
    intro hmem
    rcases List.mem_cons.mp hmem with hmem | hmem
    · contradiction
    · exact absurd (Names.isDigit_of_mem_decimal hmem) (by decide)
  obtain ⟨hm, -, he⟩ := (List.append_cons_inj_of_notMem hmantissa hexponent).mp h
  have hlength := toDigits_inj (List.cons.inj he).2
  have hpos : ∀ n, 0 < (Nat.toDigits 10 n).length := fun n =>
    List.length_pos_iff.mpr Nat.toDigits_ne_nil
  have hm' := hpos m
  have hn' := hpos n
  exact toDigits_inj (mantissa_inj (by omega) hm)

theorem unsigned_ne_minus (n : ℕ) (rest : Str) : unsigned n ≠ '-' :: rest := by
  intro h
  have hminus : '-' ∉ mantissa (Nat.toDigits 10 n) := notMem_mantissa (by decide) (by decide)
  rw [unsigned] at h
  cases hmantissa : mantissa (Nat.toDigits 10 n) with
  | nil =>
    rw [hmantissa] at h
    exact absurd (List.cons.inj h).1 (by decide)
  | cons c cs =>
    rw [hmantissa] at h hminus
    exact hminus (List.mem_cons.mpr (Or.inl (List.cons.inj h).1.symm))

theorem exponentText_inj {m n : ℤ} (h : exponentText m = exponentText n) : m = n := by
  unfold exponentText at h
  split at h
  · split at h
    · have habs := unsigned_inj (List.cons.inj h).2
      omega
    · exact absurd h.symm (unsigned_ne_minus _ _)
  · split at h
    · exact absurd h (unsigned_ne_minus _ _)
    · have habs := unsigned_inj h
      omega

end Notation

end TimescaleLp.ShortestDigits
