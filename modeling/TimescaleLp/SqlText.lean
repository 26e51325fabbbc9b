import Mathlib.Data.List.Basic

/-!
Texts and names inside SQL. Quoted text ends at a quote that stands alone; two
quotes are one quote of the text. A name may stand without quotes: it is then read
in lower case and as far as its characters go. In both forms it is cut to a
maximal length.
-/
namespace TimescaleLp.SqlText

universe u

section Quotes

variable {α : Type u} [DecidableEq α] (quote : α)

/-- Every quote twice. -/
def double (s : List α) : List α := s.flatMap fun c => if c = quote then [c, c] else [c]

/-- The text behind an opening quote, and what follows the closing one. -/
def readQuoted : List α → Option (List α × List α)
  | [] => none
  | [c] => if c = quote then some ([], []) else none
  | c :: d :: s =>
    if c = quote then
      if d = quote then (readQuoted s).map (Prod.map (quote :: ·) id) else some ([], d :: s)
    else (readQuoted (d :: s)).map (Prod.map (c :: ·) id)

variable {quote} {u s rest : List α}

theorem double_cons (c : α) (s : List α) :
    double quote (c :: s) = (if c = quote then [c, c] else [c]) ++ double quote s := rfl

theorem double_eq_self (hs : quote ∉ s) : double quote s = s := by
  induction s with
  | nil => rfl
  | cons c s ih =>
    obtain ⟨hc, hs⟩ := not_or.mp (List.mem_cons.not.mp hs)
    rw [double_cons, if_neg (Ne.symm hc), ih hs, List.singleton_append]

theorem readQuoted_cons {c : α} (hc : c ≠ quote) (s : List α) :
    readQuoted quote (c :: s) = (readQuoted quote s).map (Prod.map (c :: ·) id) := by
  cases s with
  | nil => simp [readQuoted, hc]
  | cons d s => rw [readQuoted, if_neg hc]

theorem readQuoted_close (hrest : rest.head? ≠ some quote) :
    readQuoted quote (quote :: rest) = some ([], rest) := by
  cases rest with
  | nil => simp [readQuoted]
  | cons d rest =>
    have hd : d ≠ quote := fun heq => hrest (congrArg some heq)
    rw [readQuoted, if_pos rfl, if_neg hd]

/-- A text without quotes is read as it stands, whatever follows. -/
theorem readQuoted_append (hu : quote ∉ u) (v : List α) :
    readQuoted quote (u ++ v) = (readQuoted quote v).map (Prod.map (u ++ ·) id) := by
  induction u with
  | nil => exact (Option.map_id_apply (x := readQuoted quote v)).symm
  | cons c u ih =>
    obtain ⟨hc, hu⟩ := not_or.mp (List.mem_cons.not.mp hu)
    rw [List.cons_append, readQuoted_cons (Ne.symm hc), ih hu, Option.map_map]
    rfl

/-- Every text can be quoted. -/
theorem readQuoted_double (s : List α) (hrest : rest.head? ≠ some quote) :
    readQuoted quote (double quote s ++ quote :: rest) = some (s, rest) := by
  induction s with
  | nil => exact readQuoted_close hrest
  | cons c s ih =>
    rw [double_cons, List.append_assoc]
    by_cases hc : c = quote
    · subst hc
      rw [if_pos rfl, List.cons_append, List.singleton_append, readQuoted, if_pos rfl, if_pos rfl,
        ih]
      rfl
    · rw [if_neg hc, List.singleton_append, readQuoted_cons hc, ih]
      rfl

end Quotes

/-- How names are read at a place of a text. -/
structure Rules where
  maxLength : ℕ
  starts : Char → Bool
  goesOn : Char → Bool

/-- A name at the start of a text, and what follows it. -/
def readName (r : Rules) : List Char → Option (List Char × List Char)
  | [] => none
  | c :: s =>
    if c = '"' then
      ((readQuoted '"' s).filter fun read => read.1 ≠ []).map
        (Prod.map (List.take r.maxLength) id)
    else if r.starts c then
      some (((c :: s.takeWhile r.goesOn).map Char.toLower).take r.maxLength, s.dropWhile r.goesOn)
    else none

/-- A name that is read as it stands. -/
structure Bare (r : Rules) (s : List Char) : Prop where
  starts : ∃ c, s.head? = some c ∧ r.starts c = true
  goesOn : ∀ c ∈ s.tail, r.goesOn c = true
  lower : ∀ c ∈ s, c.toLower = c
  quote : '"' ∉ s

/-- No name goes on here. -/
def Ends (r : Rules) (rest : List Char) : Prop := ∀ c ∈ rest.head?, r.goesOn c = false ∧ c ≠ '"'

variable {r : Rules} {s rest : List Char}

theorem readName_bare (hs : Bare r s) (hrest : Ends r rest) :
    readName r (s ++ rest) = some (s.take r.maxLength, rest) := by
  obtain ⟨c, hc, hstarts⟩ := hs.starts
  cases s with
  | nil => contradiction
  | cons d s =>
    cases hc
    have hquote : c ≠ '"' := fun heq => hs.quote (heq ▸ List.mem_cons_self)
    have htail : ∀ d ∈ s, r.goesOn d = true := hs.goesOn
    have hlower : (c :: s).map Char.toLower = c :: s :=
      (List.map_congr_left hs.lower).trans (List.map_id _)
    have hstop : rest.takeWhile r.goesOn = [] ∧ rest.dropWhile r.goesOn = rest := by
      cases rest with
      | nil => exact ⟨rfl, rfl⟩
      | cons e rest => simp [(hrest e rfl).1]
    rw [List.cons_append, readName, if_neg hquote, if_pos hstarts,
      List.takeWhile_append_of_pos htail, List.dropWhile_append_of_pos htail, hstop.1, hstop.2,
      List.append_nil, hlower]

theorem readName_double (hs : s ≠ []) (hrest : Ends r rest) :
    readName r ('"' :: double '"' s ++ '"' :: rest) = some (s.take r.maxLength, rest) := by
  have hclose : rest.head? ≠ some '"' := fun heq => (hrest '"' heq).2 rfl
  rw [List.cons_append, readName, if_pos rfl, readQuoted_double s hclose]
  simp [hs]

end TimescaleLp.SqlText
