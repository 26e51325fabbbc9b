import TimescaleLp.SqlText
import Mathlib.Data.Nat.Digits.Defs

/-!
Tokens of an SQL text. The text is read one character at a time; what has been
begun goes on as long as its characters do. Quoted names and texts are closed by a
quote that stands alone, so a quoted part gives one token whatever it contains,
and parts that do not run into each other are read one by one.
-/
namespace TimescaleLp.Lexing

open SqlText

inductive Token
  | word (w : List Char)
  | ident (name : List Char)
  | text (s : List Char)
  | param (n : ℕ)
  | sym (c : Char)
deriving DecidableEq

/-- What has been begun. -/
inductive Mode
  | plain
  | word (w : List Char)
  | quoted (quote : Char) (s : List Char)
  | shut (quote : Char) (s : List Char)
  | param (digits : List Char)
deriving DecidableEq

/-- Numbers count as words. -/
def isWordChar (c : Char) : Bool := c.isAlphanum || c == '_'

def isQuote (c : Char) : Bool := c == '"' || c == '\''

/-- What a character begins, and the token it is itself. -/
def begins (c : Char) : Mode × List Token :=
  if isQuote c then (.quoted c [], [])
  else if c = '$' then (.param [], [])
  else if isWordChar c then (.word [c], [])
  else if c.isWhitespace then (.plain, [])
  else (.plain, [.sym c])

/-- How a character goes on with what has been begun. -/
def goesOn : Mode → Char → Option Mode
  | .plain, _ => none
  | .word w, c => if isWordChar c then some (.word (w ++ [c])) else none
  | .quoted quote s, c => some (if c = quote then .shut quote s else .quoted quote (s ++ [c]))
  | .shut quote s, c => if c = quote then some (.quoted quote (s ++ [c])) else none
  | .param digits, c => if c.isDigit then some (.param (digits ++ [c])) else none

def quotedToken (quote : Char) (s : List Char) : Token := if quote = '"' then .ident s else .text s

/-- The tokens of what ends here; a quote that is open cannot end. -/
def ended : Mode → Option (List Token)
  | .plain => some []
  | .word w => some [.word (w.map Char.toLower)]
  | .quoted _ _ => none
  | .shut quote s => some [quotedToken quote s]
  | .param digits => some [.param (Nat.ofDigitChars 10 digits 0)]

def step (m : Mode) (c : Char) : Mode × List Token :=
  match goesOn m c with
  | some m' => (m', [])
  | none => ((begins c).1, (ended m).getD [] ++ (begins c).2)

def scan : Mode → List Char → Mode × List Token
  | m, [] => (m, [])
  | m, c :: s => ((scan (step m c).1 s).1, (step m c).2 ++ (scan (step m c).1 s).2)

def lex (s : List Char) : Option (List Token) :=
  (ended (scan .plain s).1).map ((scan .plain s).2 ++ ·)

@[simp] theorem lex_nil : lex [] = some [] := rfl

example : lex "a >= $10 AND \"b\"\"c\" = 'd'".toList = some [.word ['a'], .sym '>', .sym '=',
    .param 10, .word "and".toList, .ident "b\"c".toList, .sym '=', .text ['d']] := by
  decide +kernel

variable {m : Mode} {s t : List Char} {ts : List Token}

theorem scan_append (m : Mode) (s t : List Char) : scan m (s ++ t) =
    ((scan (scan m s).1 t).1, (scan m s).2 ++ (scan (scan m s).1 t).2) := by
  induction s generalizing m with
  | nil => rfl
  | cons c s ih => rw [List.cons_append, scan, scan, ih, List.append_assoc]

/-- The text does not go on with what was begun before it. -/
def Apart (m : Mode) (t : List Char) : Prop := ∀ c ∈ t.head?, goesOn m c = none

theorem apart_plain (t : List Char) : Apart .plain t := fun _ _ => rfl

/-- A text that stands apart is read as on its own. -/
theorem scan_apart {cs : List Token} (hm : ended m = some cs) (h : Apart m t) (hne : t ≠ []) :
    scan m t = ((scan .plain t).1, cs ++ (scan .plain t).2) := by
  cases t with
  | nil => contradiction
  | cons c t =>
    have hstep : step m c = ((begins c).1, cs ++ (begins c).2) := by
      rw [step, h c rfl, hm]
      rfl
    have hplain : step .plain c = begins c := rfl
    rw [scan, scan, hstep, hplain, List.append_assoc]

theorem ended_scan {cs : List Token} (hm : ended m = some cs) (h : Apart m t) :
    (ended (scan m t).1).map ((scan m t).2 ++ ·) = (lex t).map (cs ++ ·) := by
  by_cases hne : t = []
  · rw [hne, lex_nil, scan, hm]
    simp
  · rw [lex, scan_apart hm h hne, Option.map_map]
    simp only [Function.comp_def, List.append_assoc]

/-- Parts that do not run into each other are read one by one. -/
theorem lex_append (hs : lex s = some ts) (h : Apart (scan .plain s).1 t) :
    lex (s ++ t) = (lex t).map (ts ++ ·) := by
  obtain ⟨cs, hcs, rfl⟩ := Option.map_eq_some_iff.mp hs
  rw [lex, scan_append]
  simp only [List.append_assoc]
  have hrest := ended_scan hcs h
  rw [show (fun cs' => (scan .plain s).2 ++ ((scan (scan .plain s).1 t).2 ++ cs')) =
    ((scan .plain s).2 ++ ·) ∘ ((scan (scan .plain s).1 t).2 ++ ·) from rfl, ← Option.map_map,
    hrest, Option.map_map]
  rfl

/-- A text after which nothing is begun. -/
theorem lex_append_plain (hs : scan .plain s = (.plain, ts)) (t : List Char) :
    lex (s ++ t) = (lex t).map (ts ++ ·) := by
  refine lex_append ?_ ?_
  · rw [lex, hs]
    simp [ended]
  · rw [hs]
    exact apart_plain t

/-- Parts with a separator, each of which is read before the separator and before what
comes last. -/
theorem lex_intercalate_of_append {α : Type*} {sep : List Char} {us : List Token}
    (hsep : scan .plain sep = (.plain, us)) (f : α → List Char) (g : α → List Token) (as : List α)
    (rest : List Char) (has : ∀ a ∈ as,
      (∀ t, lex (f a ++ (sep ++ t)) = (lex (sep ++ t)).map (g a ++ ·)) ∧
        lex (f a ++ rest) = (lex rest).map (g a ++ ·)) :
    lex (sep.intercalate (as.map f) ++ rest) =
      (lex rest).map (us.intercalate (as.map g) ++ ·) := by
  induction as with
  | nil => exact (Option.map_id_apply (x := lex rest)).symm
  | cons a as ih =>
    obtain ⟨hsepA, hrestA⟩ := has a List.mem_cons_self
    cases as with
    | nil => simpa using hrestA
    | cons b as =>
      specialize ih fun b hb => has b (List.mem_cons_of_mem a hb)
      simp only [List.map_cons, List.intercalate_cons_cons, List.append_assoc] at ih ⊢
      rw [hsepA, lex_append_plain hsep, ih, Option.map_map, Option.map_map]
      rfl

/-- Parts with a separator, before a text that stands apart from them. -/
theorem lex_intercalate {α : Type*} {sep : List Char} {us : List Token} (hne : sep ≠ [])
    (hsep : scan .plain sep = (.plain, us)) (f : α → List Char) (g : α → List Token) (as : List α)
    (rest : List Char) (has : ∀ a ∈ as, lex (f a) = some (g a) ∧ Apart (scan .plain (f a)).1 sep ∧
      Apart (scan .plain (f a)).1 rest) :
    lex (sep.intercalate (as.map f) ++ rest) =
      (lex rest).map (us.intercalate (as.map g) ++ ·) := by
  refine lex_intercalate_of_append hsep f g as rest fun a ha => ?_
  obtain ⟨hlex, hsepA, hrestA⟩ := has a ha
  refine ⟨fun t => lex_append hlex fun c hc => ?_, lex_append hlex hrestA⟩
  rw [List.head?_append_of_ne_nil _ hne] at hc
  exact hsepA c hc

section Quotes

variable {quote : Char}

theorem scan_double (s t : List Char) :
    scan (.quoted quote s) (double quote t) = (.quoted quote (s ++ t), []) := by
  induction t generalizing s with
  | nil =>
    rw [List.append_nil]
    rfl
  | cons c t ih =>
    rw [double_cons]
    by_cases hc : c = quote
    · subst hc
      have htwo : scan (.quoted c s) [c, c] = (.quoted c (s ++ [c]), []) := by
        simp [scan, step, goesOn]
      rw [if_pos rfl, scan_append, htwo, ih, List.append_assoc, List.singleton_append]
      rfl
    · have hone : scan (.quoted quote s) [c] = (.quoted quote (s ++ [c]), []) := by
        simp [scan, step, goesOn, hc]
      rw [if_neg hc, scan_append, hone, ih, List.append_assoc, List.singleton_append]
      rfl

theorem scan_quoted (hquote : isQuote quote = true) (s : List Char) :
    scan .plain (quote :: double quote s ++ [quote]) = (.shut quote s, []) := by
  have hopen : step .plain quote = (.quoted quote [], []) := by
    simp [step, goesOn, begins, hquote, ended]
  have hshut : scan (.quoted quote s) [quote] = (.shut quote s, []) := by
    simp [scan, step, goesOn]
  rw [List.cons_append, scan, hopen, scan_append, scan_double, List.nil_append, hshut]
  rfl

/-- A quoted part is one token, whatever it contains. -/
theorem lex_quoted (hquote : isQuote quote = true) (s : List Char) {rest : List Char}
    (hrest : rest.head? ≠ some quote) :
    lex (quote :: double quote s ++ [quote] ++ rest) =
      (lex rest).map (quotedToken quote s :: ·) := by
  have hscan := scan_quoted hquote s
  refine lex_append (show lex _ = some [quotedToken quote s] from ?_) ?_
  · rw [lex, hscan]
    rfl
  · intro c hc
    rw [hscan, goesOn, if_neg]
    rintro rfl
    exact hrest hc

end Quotes

section Words

variable {w : List Char}

theorem isWordChar_false {c : Char} (hc : isWordChar c = true) : isQuote c = false ∧ c ≠ '$' := by
  constructor
  · by_contra hquote
    have hcases : c = '"' ∨ c = '\'' := by
      simpa only [isQuote, Bool.not_eq_false, Bool.or_eq_true, beq_iff_eq] using hquote
    rcases hcases with rfl | rfl
    · exact absurd hc (by decide)
    · exact absurd hc (by decide)
  · rintro rfl
    exact absurd hc (by decide)

theorem scan_word (v : List Char) (hw : ∀ c ∈ w, isWordChar c = true) :
    scan (.word v) w = (.word (v ++ w), []) := by
  induction w generalizing v with
  | nil => rw [List.append_nil]; rfl
  | cons c w ih =>
    have hstep : step (.word v) c = (.word (v ++ [c]), []) := by
      rw [step, goesOn, if_pos (hw c List.mem_cons_self)]
    rw [scan, hstep, ih _ fun d hd => hw d (List.mem_cons_of_mem c hd), List.append_assoc]
    rfl

theorem lex_word (hne : w ≠ []) (hw : ∀ c ∈ w, isWordChar c = true) {rest : List Char}
    (hrest : ∀ c ∈ rest.head?, isWordChar c = false) :
    lex (w ++ rest) = (lex rest).map (.word (w.map Char.toLower) :: ·) := by
  cases w with
  | nil => contradiction
  | cons c w =>
    have hc := hw c List.mem_cons_self
    have hstep : step .plain c = (.word [c], []) := by
      simp [step, goesOn, begins, isWordChar_false hc, hc, ended]
    have hscan : scan .plain (c :: w) = (.word (c :: w), []) := by
      rw [scan, hstep, scan_word _ fun d hd => hw d (List.mem_cons_of_mem c hd)]
      rfl
    refine lex_append (show lex _ = some [.word ((c :: w).map Char.toLower)] from ?_) ?_
    · rw [lex, hscan]
      rfl
    · intro d hd
      rw [hscan, goesOn, if_neg]
      simp [hrest d hd]

theorem scan_digits (v : List Char) (hw : ∀ c ∈ w, c.isDigit = true) :
    scan (.param v) w = (.param (v ++ w), []) := by
  induction w generalizing v with
  | nil => rw [List.append_nil]; rfl
  | cons c w ih =>
    have hstep : step (.param v) c = (.param (v ++ [c]), []) := by
      rw [step, goesOn, if_pos (hw c List.mem_cons_self)]
    rw [scan, hstep, ih _ fun d hd => hw d (List.mem_cons_of_mem c hd), List.append_assoc]
    rfl

theorem scan_param (n : ℕ) :
    scan .plain ('$' :: Nat.toDigits 10 n) = (.param (Nat.toDigits 10 n), []) := by
  have hstep : step .plain '$' = (.param [], []) := by decide
  rw [scan, hstep, scan_digits [] fun c hc => Nat.isDigit_of_mem_toDigits (by decide) (by decide) hc]
  rfl

end Words

end TimescaleLp.Lexing
