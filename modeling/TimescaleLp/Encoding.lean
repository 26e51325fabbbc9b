import TimescaleLp.LineErrors
import TimescaleLp.Numerals

/-!
The documented encoding of a point: a backslash before each delimiter of a name
and before each backslash, strings in double quotes, integers with the suffix
`i`. Lemmas say how the parser's scans run through the encoded parts; whether a
part leaves quotes open depends on which of its double quotes directly follow a
backslash.
-/
namespace TimescaleLp.LineProtocol

open Texts Escaping

variable {F : Type}

def encodeMeasurement (m : Str) : Str := escape '\\' [',', ' '] m

/-- What is escaped in tag keys, tag values and field keys. -/
abbrev delimiters : List Char := [',', '=', ' ']

theorem ne_of_mem_delimiters {c : Char} (h : c ∈ delimiters) : c ≠ '\\' ∧ c ≠ '"' := by
  simp only [List.mem_cons, List.not_mem_nil, or_false] at h
  rcases h with rfl | rfl | rfl <;> decide

/-- A tag key, tag value or field key. -/
def encodeName (name : Str) : Str := escape '\\' delimiters name

def encodeTag (tag : Str × Str) : Str := encodeName tag.1 ++ '=' :: encodeName tag.2

def encodeHead (m : Str) (tags : List (Str × Str)) : Str :=
  encodeMeasurement m ++ tags.flatMap fun tag => ',' :: encodeTag tag

def encodeValue [Numerics F] : Value F → Str
  | .bool b => if b then "true".toList else "false".toList
  | .int n => intText n ++ ['i']
  | .float x => Numerics.text x
  | .str s => '"' :: escape '\\' ['"'] s ++ ['"']

def encodeField [Numerics F] (field : Str × Value F) : Str :=
  encodeName field.1 ++ '=' :: encodeValue field.2

/-- Fields joined by commas. -/
def encodeFields [Numerics F] (fields : List (Str × Value F)) : Str :=
  List.intercalate [','] (fields.map encodeField)

def encodeTime (ts : Option ℤ) : Str := ts.elim [] fun n => ' ' :: intText n

def encodeLine [Numerics F] (p : Point F) (ts : Option ℤ) : Str :=
  encodeHead p.measurement p.tags.entries ++ ' ' :: encodeFields p.fields.entries ++ encodeTime ts

/-- The double quotes of a name that do not directly follow a backslash. -/
def countedQuotes (name : Str) : ℕ := toggles '\\' '"' none name

def headQuotes (m : Str) (tags : List (Str × Str)) : ℕ :=
  countedQuotes m + (tags.map fun tag => countedQuotes tag.1 + countedQuotes tag.2).sum

/-- A text without delimiters, quotes and backslashes. -/
def IsBare (s : Str) : Prop := ∀ c ∈ s, c ≠ '\\' ∧ c ≠ '"' ∧ c ∉ delimiters

theorem IsBare.ne_sep {s : Str} (hs : IsBare s) {sep : Char} (hsep : sep ∈ delimiters) :
    ∀ c ∈ s, c ≠ '\\' ∧ c ≠ '"' ∧ c ≠ sep := by
  intro c hc
  obtain ⟨hesc, hquote, hdelim⟩ := hs c hc
  refine ⟨hesc, hquote, ?_⟩
  rintro rfl
  exact hdelim hsep

theorem toggles_of_ne {prev : Option Char} (h : prev ≠ some '\\') (s : Str) :
    toggles '\\' '"' prev s = countedQuotes s := by
  cases s with
  | nil => rfl
  | cons c s => simp [countedQuotes, toggles, h]

section Scans
variable {sep : Char} {respectQuotes : Bool}

/-- A scan of the parser. -/
abbrev Scans (sep : Char) (respectQuotes : Bool) :=
  Passes '\\' '"' sep respectQuotes

theorem scans_bare (hsep : sep ∈ delimiters) {s : Str} (h : IsBare s) (prev : Option Char)
    (q : Bool) : Scans sep respectQuotes prev q s (lastOf prev s) q :=
  passes_of_plain (h.ne_sep hsep) prev q

/-- A delimiter that is not the separator of the scan. -/
theorem scans_delimiter {c : Char} (hc : c ∈ delimiters) (hne : c ≠ sep)
    (prev : Option Char) (q : Bool) : Scans sep respectQuotes prev q [c] (some c) q :=
  passes_plain (ne_of_mem_delimiters hc).1 (fun _ => (ne_of_mem_delimiters hc).2)
    (fun h => absurd h hne)

/-- A delimiter between quotes. -/
theorem scans_quoted_delimiter {c : Char} (hc : c ∈ delimiters) (prev : Option Char) :
    Scans sep respectQuotes prev true [c] (some c) true :=
  passes_plain (ne_of_mem_delimiters hc).1 (fun _ => (ne_of_mem_delimiters hc).2) (fun _ => rfl)

theorem scans_name (hsep : sep ∈ delimiters) (prev : Option Char) (q : Bool) (name : Str) :
    Scans sep true prev q (encodeName name) (lastOf prev name)
      (xor q (toggles '\\' '"' prev name).bodd) :=
  passes_escape (by decide) (by decide) hsep prev q name

theorem scans_name_raw (hsep : sep ∈ delimiters) (prev : Option Char) (q : Bool)
    (name : Str) :
    Scans sep false prev q (encodeName name) (lastOf prev name) q :=
  passes_escape_raw (by decide) hsep prev q name

end Scans

/-- The scan runs through `u` without splitting; neither before nor at the end of
it stands a backslash. -/
def Moves (sep : Char) (q : Bool) (u : Str) (q' : Bool) : Prop :=
  ∀ prev, prev ≠ some '\\' → ∃ prev', prev' ≠ some '\\' ∧ Scans sep true prev q u prev' q'

section Moves
variable {sep : Char}

theorem Moves.append {q q' q'' : Bool} {u v : Str} (hu : Moves sep q u q')
    (hv : Moves sep q' v q'') : Moves sep q (u ++ v) q'' := by
  intro prev hprev
  obtain ⟨prev', hprev', hu⟩ := hu prev hprev
  obtain ⟨prev'', hprev'', hv⟩ := hv prev' hprev'
  exact ⟨prev'', hprev'', hu.append hv⟩

theorem Moves.nil (q : Bool) : Moves sep q [] q :=
  fun prev hprev => ⟨prev, hprev, Passes.nil prev q⟩

/-- A delimiter where the scan does not split. -/
theorem moves_delimiter {c : Char} (hc : c ∈ delimiters) {q : Bool} (hsplit : c = sep → q = true) :
    Moves sep q [c] q := by
  intro prev _
  have hne := ne_of_mem_delimiters hc
  exact ⟨some c, fun h => hne.1 (Option.some.inj h), passes_plain hne.1 (fun _ => hne.2) hsplit⟩

/-- A name with the delimiter behind it, where the scan does not split there. -/
theorem moves_name (hsep : sep ∈ delimiters) {c : Char} (hc : c ∈ delimiters) (q : Bool)
    (name : Str) (hsplit : c = sep → xor q (countedQuotes name).bodd = true) :
    Moves sep q (encodeName name ++ [c]) (xor q (countedQuotes name).bodd) := by
  intro prev hprev
  have hname := scans_name hsep prev q name
  rw [toggles_of_ne hprev] at hname
  have hne := ne_of_mem_delimiters hc
  refine ⟨some c, fun h => hne.1 (Option.some.inj h), hname.append ?_⟩
  exact passes_plain hne.1 (fun _ => hne.2) hsplit

theorem moves_bare (hsep : sep ∈ delimiters) {s : Str} (h : IsBare s) (q : Bool) :
    Moves sep q s q := by
  intro prev hprev
  refine ⟨lastOf prev s, ?_, scans_bare hsep h prev q⟩
  cases hlast : s.getLast? with
  | none => rwa [lastOf, hlast, Option.none_or]
  | some c =>
    rw [lastOf, hlast, Option.some_or]
    intro heq
    exact (h c (List.mem_of_getLast? hlast)).1 (Option.some.inj heq)

/-- Splitting after a text that the scan runs through. -/
theorem Moves.splitLoop_cons (hsep : sep ∈ delimiters) {u : Str} (hu : Moves sep false u false)
    {prev : Option Char} (hprev : prev ≠ some '\\') (t : Str) :
    splitLoop '\\' '"' sep true prev false [] (u ++ sep :: t) =
      u :: splitLoop '\\' '"' sep true (some sep) false [] t := by
  obtain ⟨prev', _, hu⟩ := hu prev hprev
  have hne := ne_of_mem_delimiters hsep
  exact splitLoop_cons_of_passes hne.1 hne.2 hu t

theorem Moves.splitLoop_eq {q q' : Bool} {u : Str} (hu : Moves sep q u q') {prev : Option Char}
    (hprev : prev ≠ some '\\') : splitLoop '\\' '"' sep true prev q [] u = [u] := by
  obtain ⟨prev', _, hu⟩ := hu prev hprev
  exact splitLoop_of_passes hu []

/-- Behind a text that leaves quotes open, a delimiter is an ordinary character. -/
theorem Moves.exists_splitLoop_open {u : Str} (hu : Moves sep false u true) {c : Char}
    (hc : c ∈ delimiters) {prev : Option Char} (hprev : prev ≠ some '\\') (t : Str) :
    ∃ w parts, splitLoop '\\' '"' sep true prev false [] (u ++ c :: t) =
      (u ++ c :: w) :: parts := by
  obtain ⟨prev', _, hscan⟩ := hu prev hprev
  obtain ⟨w, parts, hrest⟩ := exists_splitLoop_eq_cons '\\' '"' sep true (some c) true (u ++ [c]) t
  refine ⟨w, parts, ?_⟩
  rw [hscan, ← List.singleton_append (x := c), scans_quoted_delimiter hc prev', List.nil_append,
    hrest, List.append_assoc, List.singleton_append]

end Moves

theorem isBare_intText (n : ℤ) : IsBare (intText n) := by
  intro c hc
  have hchar := mem_intText hc
  have hne : ∀ d : Char, isNumeralChar d = false → c ≠ d := by
    intro d hd heq
    rw [heq, hd] at hchar
    contradiction
  refine ⟨hne _ (by decide), hne _ (by decide), ?_⟩
  intro hmem
  simp only [List.mem_cons, List.not_mem_nil, or_false] at hmem
  rcases hmem with h | h | h <;> exact hne _ (by decide) h

/-- The values the encoding is about. -/
inductive IsExact : Value F → Prop
  | bool (b : Bool) : IsExact (.bool b)
  | int (n : ℤ) : IsExact (.int n)
  | str (s : Str) : IsExact (.str s)

/-- A string that ends in a backslash: the scans take the closing quote for an
escaped one. -/
def leavesOpen : Value F → Bool
  | .str s => s.getLast? = some '\\'
  | _ => false

section Values
variable [Numerics F]

/-- The encoding of integers and booleans has no delimiter. -/
theorem isBare_encodeValue {v : Value F} (hv : IsExact v) (hstr : ∀ s, v ≠ .str s) :
    IsBare (encodeValue v) := by
  cases hv with
  | bool b => cases b <;> simp [IsBare, encodeValue]
  | int n =>
    intro c hc
    rcases List.mem_append.mp hc with hc | hc
    · exact isBare_intText n c hc
    · rw [List.mem_singleton.mp hc]
      decide
  | str s => exact absurd rfl (hstr s)

theorem moves_encodeValue {sep : Char} (hsep : sep ∈ delimiters) {v : Value F} (hv : IsExact v) :
    Moves sep false (encodeValue v) (leavesOpen v) := by
  by_cases hstr : ∃ s, v = .str s
  · obtain ⟨s, rfl⟩ := hstr
    intro prev hprev
    refine ⟨some '"', by decide, ?_⟩
    have hopen : Scans sep true prev false ['"'] (some '"') true := passes_quote hprev false
    have hinner : Scans sep true (some '"') true (escape '\\' ['"'] s) (lastOf (some '"') s) true :=
      passes_escape_quoted (by decide) (by decide) (some '"') s
    refine (hopen.append hinner).append ?_
    have hsepne := ne_of_mem_delimiters hsep
    by_cases hlast : s.getLast? = some '\\'
    · have hopen : leavesOpen (.str s : Value F) = true := by simp [leavesOpen, hlast]
      rw [lastOf, hlast, Option.some_or, hopen]
      exact passes_quote_after_escape (by decide) hsepne.2.symm true
    · have hclosed : leavesOpen (.str s : Value F) = false := by simp [leavesOpen, hlast]
      rw [hclosed]
      refine passes_quote ?_ true
      cases hs : s.getLast? with
      | none => rw [lastOf, hs]; decide
      | some c => rwa [lastOf, hs, Option.some_or, ← hs]
  · have hnot : ∀ s, v ≠ .str s := fun s h => hstr ⟨s, h⟩
    have hclosed : leavesOpen v = false := by
      cases hv with
      | bool b => rfl
      | int n => rfl
      | str s => exact absurd rfl (hnot s)
    rw [hclosed]
    exact moves_bare hsep (isBare_encodeValue hv hnot) false

/-- A field ends outside quotes where its key does and its string is closed. -/
theorem moves_encodeField {sep : Char} (hsep : sep ∈ delimiters) (hne : sep ≠ '=')
    {field : Str × Value F} (hv : IsExact field.2) (heven : (countedQuotes field.1).bodd = false) :
    Moves sep false (encodeField field) (leavesOpen field.2) := by
  have hkey := moves_name hsep (c := '=') (by decide) false field.1 (fun h => absurd h.symm hne)
  rw [heven, Bool.xor_false] at hkey
  have h := hkey.append (moves_encodeValue hsep hv)
  rwa [List.append_assoc, List.singleton_append] at h

end Values

end TimescaleLp.LineProtocol
