import Mathlib.Data.List.Basic
import Mathlib.Tactic.Linarith

/-!
Identifiers and decimal texts. A text is the list of its code points. Names of
measurements, tags and fields are sanitized before they become names of tables
and columns; the database keeps the first 63 bytes of an identifier.
-/
namespace TimescaleLp

abbrev Str := List Char

namespace Names

/-- `[A-Za-z0-9_]` -/
def isWord (c : Char) : Bool := c.isAlphanum || c == '_'

/-- A letter or an underscore stands first. -/
def startsIdent : Str → Bool
  | [] => false
  | c :: _ => c.isAlpha || c == '_'

/-- Sanitize a free-form identifier to a safe Postgres identifier. -/
def safeIdent (name : Str) : Str :=
  let s := (name.map (fun c => if isWord c then c else '_')).map Char.toLower
  (if startsIdent s then s else '_' :: s).take 63

def measurementTable (name : Str) : Str := safeIdent name

def tagCol (name : Str) : Str := "t_".toList ++ safeIdent name

def fieldCol (name : Str) : Str := "f_".toList ++ safeIdent name

/-- The identifier the database stores: at most 63 bytes are kept. The names
this service sends are ASCII, so a byte is a character. -/
def pgIdent (name : Str) : Str := name.take 63

theorem pgIdent_pgIdent (c : Str) : pgIdent (pgIdent c) = pgIdent c := by
  rw [pgIdent, pgIdent, List.take_take, min_self]

/-- A text that the database does not cut. -/
theorem pgIdent_of_length_lt {c : Str} (h : (pgIdent c).length < 63) : pgIdent c = c := by
  refine List.take_of_length_le ?_
  rw [pgIdent, List.length_take] at h
  omega

theorem isDigit_of_mem_decimal {n : ℕ} {c : Char} (h : c ∈ Nat.toDigits 10 n) : c.isDigit :=
  Nat.isDigit_of_mem_toDigits (by omega) (by omega) h

theorem toNat_of_isDigit {c : Char} (hc : c.isDigit) : 48 ≤ c.toNat ∧ c.toNat ≤ 57 := by
  simp only [Char.isDigit, Bool.and_eq_true, decide_eq_true_eq, UInt32.le_iff_toNat_le] at hc
  exact hc

/-- Decimal text with leading zeros up to the given width. -/
def zeroPad (width n : ℕ) : Str := List.leftpad width '0' (Nat.toDigits 10 n)

theorem zeroPad_isDigit (width n : ℕ) : ∀ c ∈ zeroPad width n, c.isDigit := by
  intro c hc
  rcases List.mem_append.mp hc with hc | hc
  · rw [List.eq_of_mem_replicate hc]
    decide
  · exact isDigit_of_mem_decimal hc

theorem notMem_zeroPad {c : Char} (hc : c.isDigit = false) (width n : ℕ) :
    c ∉ zeroPad width n := by
  intro hmem
  have h := zeroPad_isDigit width n c hmem
  rw [hc] at h
  contradiction

theorem ofDigitChars_zeroPad (width n : ℕ) : Nat.ofDigitChars 10 (zeroPad width n) 0 = n := by
  rw [zeroPad, List.leftpad, Nat.ofDigitChars_append, Nat.ofDigitChars_replicate_zero,
    Nat.mul_zero, Nat.ofDigitChars_ten_toDigits]

theorem zeroPad_injective (width : ℕ) : Function.Injective (zeroPad width) := by
  intro n m h
  rw [← ofDigitChars_zeroPad width n, h, ofDigitChars_zeroPad]

private theorem append_sep_inj_aux {c : Char} {u u' v v' a : Str} (hv : c ∉ v)
    (hu : u' = u ++ a) (h : c :: v = a ++ c :: v') : u = u' ∧ v = v' := by
  cases a with
  | nil =>
    rw [List.append_nil] at hu
    exact ⟨hu.symm, (List.cons.inj h).2⟩
  | cons b a =>
    obtain ⟨-, htail⟩ := List.cons.inj h
    exact absurd (by simp [htail]) hv

/-- Texts with one separator after which it does not occur again are equal only
if both parts are. -/
theorem append_sep_inj {c : Char} {u u' v v' : Str} (hv : c ∉ v) (hv' : c ∉ v')
    (h : u ++ c :: v = u' ++ c :: v') : u = u' ∧ v = v' := by
  rcases List.append_eq_append_iff.mp h with ⟨a, hu, ha⟩ | ⟨a, hu, ha⟩
  · exact append_sep_inj_aux hv hu ha
  · obtain ⟨hu', hv'⟩ := append_sep_inj_aux hv' hu ha
    exact ⟨hu'.symm, hv'.symm⟩

end Names

end TimescaleLp
