import TimescaleLp.StringQuotes

/-!
The documented form of a line: a head, a field section and an optional integer
timestamp with one space between them, delimiters of names escaped, every string
closed by its first quote that is not escaped. The parser accepts more than
that; an accepted line has the form exactly when three slips do not show.
-/
namespace TimescaleLp.LineProtocol

open Texts Escaping Folds

variable {F : Type}

/-- The text behind the first double quote with an even number of backslashes
directly before it; `run` is their number so far. -/
def afterString (run : ℕ) : Str → Option Str
  | [] => none
  | c :: s =>
    if c = '"' ∧ run % 2 = 0 then some s else afterString (if c = '\\' then run + 1 else 0) s

/-- A string value that ends at its first quote that is not escaped. -/
def StringCloses (v : Str) : Prop := ∃ s, v = '"' :: s ∧ afterString 0 s = some []

/-- The delimiters occur behind a backslash only. -/
def escapedOnly (delims : List Char) : Str → Bool
  | c :: d :: s =>
    if c = '\\' then escapedOnly delims s else c ∉ delims && escapedOnly delims (d :: s)
  | [c] => c ∉ delims
  | [] => true

/-- A line is its sections with one space between them. -/
def IsLine (line head fieldsSection : Str) (ts : Option Str) : Prop :=
  line = head ++ ' ' :: fieldsSection ++ ts.elim [] fun ts => ' ' :: ts

variable (F) in
/-- The sections that are read make up the line in the documented form, and the
time is that of the third one, if there is one. -/
structure Documented [Numerics F] (precision : Precision) (line : Str) (time : Time)
    (head fieldsSection : Str) (rest : List Str) : Prop where
  sections : splitTopSpace line = head :: fieldsSection :: rest
  whole : IsLine line head fieldsSection rest.head?
  headForm : HeadForm head
  headSpaces : escapedOnly [' '] head
  fields : ∀ fp ∈ splitTop fieldsSection ',' true, fp = [] ∨ ∃ k v, splitTop fp '=' true = [k, v] ∧
    k ≠ [] ∧ ValueForm F v ∧ escapedOnly delimiters k ∧ (v.head? = some '"' → StringCloses v)
  timestamp : ∀ ts, rest.head? = some ts →
    ∃ n, int ts = some n ∧ fromTimestamp (n * precisionToNs precision) = .ok time

/-- Between the first and the last quote of a value no quote is left unescaped,
and no backslash is left unpaired. -/
def closesLast : Str → Bool
  | c :: d :: s => if c = '\\' then closesLast s else c ≠ '"' && closesLast (d :: s)
  | [c] => c ≠ '"' && c ≠ '\\'
  | [] => true

/-- The line has at most two spaces where the scan splits; splitting its head and
its field keys without regard to quotes leaves them whole; and no string has a
quote before its last one that closes it. -/
def PlainlyRead (line : Str) : Prop :=
  (splitTopSpace line).length ≤ 3 ∧
    (∀ head ∈ (splitTopSpace line)[0]?, splitTop head ' ' false = [head]) ∧
    ∀ fieldsSection ∈ (splitTopSpace line)[1]?, ∀ fp ∈ splitTop fieldsSection ',' true,
      ∀ k v, splitTop fp '=' true = [k, v] →
        (∀ d ∈ delimiters, splitTop k d false = [k]) ∧
          (isQuoted v → closesLast (v.drop 1).dropLast)

theorem escapedOnly_iff_forall (delims : List Char) (s : Str) :
    escapedOnly delims s ↔ ∀ d ∈ delims, escapedOnly [d] s := by
  induction s using escapedOnly.induct with
  | case1 d s ih => simpa only [escapedOnly, if_true] using ih
  | case2 c d s hc ih =>
    simp only [escapedOnly, if_neg hc, Bool.and_eq_true, decide_eq_true_eq, List.mem_singleton, ih]
    constructor
    · intro ⟨hnot, hrest⟩ e he
      exact ⟨fun heq => hnot (heq ▸ he), hrest e he⟩
    · intro h
      exact ⟨fun hmem => (h c hmem).1 rfl, fun e he => (h e he).2⟩
  | case3 c =>
    simp only [escapedOnly, decide_eq_true_eq, List.mem_singleton]
    exact ⟨fun hnot e he heq => hnot (heq ▸ he), fun h hmem => h c hmem rfl⟩
  | case4 => simp [escapedOnly]

/-- A scan without regard to quotes leaves a text whole exactly when the
separator occurs behind a backslash only. -/
theorem splitLoop_raw_eq_iff {d : Char} (hd : d ≠ '\\') (prev : Option Char) (buf s : Str) :
    splitLoop '\\' '"' d false prev false buf s = [buf ++ s] ↔ escapedOnly [d] s := by
  induction s using escapedOnly.induct generalizing prev buf with
  | case1 c s ih =>
    have hscan : Scans d false prev false ['\\', c] (some c) false :=
      passes_pair (by decide) prev false c
    have htext : '\\' :: c :: s = ['\\', c] ++ s := rfl
    rw [htext, hscan, ← List.append_assoc, ih]
    simp [escapedOnly]
  | case2 c c' s hc ih =>
    rw [splitLoop_cons, if_neg fun h => Bool.false_ne_true h.1, if_neg hc]
    by_cases hsep : c = d
    · rw [if_pos ⟨hsep, rfl⟩]
      refine iff_of_false ?_ (by rw [escapedOnly, if_neg hc]; simp [hsep])
      intro h
      exact splitLoop_ne_nil _ _ _ _ _ _ _ _ (List.cons.inj h).2
    · have htext : buf ++ c :: c' :: s = buf ++ [c] ++ c' :: s := by simp
      rw [if_neg fun h => hsep h.1, htext, ih]
      rw [escapedOnly, if_neg hc]
      simp [hsep]
  | case3 c =>
    rw [splitLoop_cons, if_neg fun h => Bool.false_ne_true h.1]
    by_cases hc : c = '\\'
    · rw [if_pos hc]
      simp [escapedOnly, hc, hd.symm]
    by_cases hsep : c = d
    · rw [if_neg hc, if_pos ⟨hsep, rfl⟩]
      refine iff_of_false ?_ (by simp [escapedOnly, hsep])
      intro h
      exact splitLoop_ne_nil _ _ _ _ _ _ _ _ (List.cons.inj h).2
    · rw [if_neg hc, if_neg fun h => hsep h.1, splitLoop]
      simp [escapedOnly, hsep]
  | case4 => simp [splitLoop, escapedOnly]

theorem splitTop_raw_eq_iff {d : Char} (hd : d ≠ '\\') (s : Str) :
    splitTop s d false = [s] ↔ escapedOnly [d] s :=
  splitLoop_raw_eq_iff hd none [] s

/-- Pairs from the left give the same end as the run of backslashes before a quote. -/
theorem afterString_eq_nil_iff {run : ℕ} (hrun : run % 2 = 0) (inner : Str) :
    afterString run (inner ++ ['"']) = some [] ↔ closesLast inner := by
  induction inner using closesLast.induct generalizing run with
  | case1 d s ih =>
    have hodd : (run + 1) % 2 ≠ 0 := by omega
    have hnext : (if d = '\\' then run + 1 + 1 else 0) % 2 = 0 := by split <;> omega
    rw [closesLast, if_pos rfl, ← ih hnext, List.cons_append, List.cons_append, afterString,
      if_neg (fun h => absurd h.1 (by decide)), if_pos rfl, afterString, if_neg fun h => hodd h.2]
  | case2 c d s hc ih =>
    rw [closesLast, if_neg hc, List.cons_append, afterString]
    by_cases hquote : c = '"'
    · rw [if_pos ⟨hquote, hrun⟩]
      simp [hquote]
    · rw [if_neg fun h => hquote h.1, if_neg hc, ih (Nat.zero_mod 2)]
      simp [hquote]
  | case3 c =>
    rw [List.singleton_append, afterString]
    by_cases hquote : c = '"'
    · rw [if_pos ⟨hquote, hrun⟩]
      simp [closesLast, hquote]
    rw [if_neg fun h => hquote h.1]
    by_cases hc : c = '\\'
    · have hodd : (run + 1) % 2 ≠ 0 := by omega
      simp [afterString, closesLast, hc, hodd]
    · simp [afterString, closesLast, hc, hquote]
  | case4 => simp [afterString, closesLast, hrun]

theorem stringCloses_iff {v : Str} (h : isQuoted v) :
    StringCloses v ↔ closesLast (v.drop 1).dropLast := by
  obtain ⟨inner, rfl⟩ := isQuoted_iff.mp h
  rw [← afterString_eq_nil_iff (Nat.zero_mod 2)]
  unfold StringCloses
  simp

/-- A value that starts with a double quote is read as a string only. -/
theorem isQuoted_of_valueForm [Numerics F] {v : Str} (h : ValueForm F v)
    (hquote : v.head? = some '"') : isQuoted v := by
  obtain ⟨s, rfl⟩ := List.head?_eq_some_iff.mp hquote
  rcases h.2 with hq | ht | hf | hnumber
  · exact hq
  · simp [isTrueWord, lower] at ht
  · simp [isFalseWord, lower] at hf
  · split at hnumber
    · rename_i hsuffix
      obtain ⟨c, s, rfl⟩ : ∃ c t, s = c :: t := by
        refine List.exists_cons_of_ne_nil ?_
        intro hs
        rw [hs] at hsuffix
        exact absurd hsuffix (by decide)
      rw [List.dropLast_cons_of_ne_nil (List.cons_ne_nil c s), int_quote] at hnumber
      contradiction
    · simp [float, isFloat_quote] at hnumber

/-- The sections make up the line with one space between them when they are at
most three. -/
theorem isLine_iff {line head fieldsSection : Str} {rest : List Str}
    (h : splitTopSpace line = head :: fieldsSection :: rest) :
    IsLine line head fieldsSection rest.head? ↔ rest.length ≤ 1 := by
  have hjoin : List.intercalate [' '] (head :: fieldsSection :: rest) = line := by
    rw [← h, splitTopSpace_eq]
    exact intercalate_split '\\' '"' ' ' true line
  unfold IsLine
  rw [← hjoin]
  cases rest with
  | nil => simp [List.intercalate]
  | cons ts rest =>
    cases rest with
    | nil => simp [List.intercalate]
    | cons u rest =>
      refine iff_of_false ?_ (by simp)
      intro heq
      have hlength := congrArg List.length heq
      simp [List.intercalate] at hlength

theorem getLast?_strip_ne (s : Str) : (strip s).getLast? ≠ some ' ' := by
  intro h
  have hne : strip s ≠ [] := by
    intro hs
    rw [hs] at h
    contradiction
  rw [List.getLast?_eq_some_getLast hne] at h
  have hspace := List.rdropWhile_last_not isSpace (s.dropWhile isSpace) hne
  exact hspace ((Option.some.inj h).symm ▸ (by decide : isSpace ' ' = true))

section Accepted
variable [Numerics F] {precision : Precision}

/-- The timestamp section of an accepted line of three sections is an integer,
and the time is its date. -/
theorem timestamp_of_parseTime {defaultTsNs : Option ℤ} {now time : Time} {ts : Str} (hts : ts ≠ [])
    (h : parseTime precision defaultTsNs now (some ts) = .ok time) :
    ∃ n, int ts = some n ∧ fromTimestamp (n * precisionToNs precision) = .ok time := by
  unfold parseTime at h
  rw [Option.getD_some, if_pos hts] at h
  cases hint : int ts with
  | none =>
    rw [hint] at h
    contradiction
  | some n =>
    rw [hint] at h
    refine ⟨n, rfl, ?_⟩
    cases hdate : fromTimestamp (n * precisionToNs precision) with
    | error e =>
      simp only [hdate] at h
      contradiction
    | ok t =>
      simp only [hdate] at h
      cases Except.ok.inj h
      rfl

theorem timestamp_ne_nil {line head fieldsSection : Str} {ts : Str}
    (h : splitTopSpace (strip line) = [head, fieldsSection, ts]) : ts ≠ [] := by
  intro hts
  have hline := (isLine_iff h).mpr le_rfl
  unfold IsLine at hline
  refine getLast?_strip_ne line ?_
  rw [hline, hts]
  exact List.getLast?_concat

theorem escapedOnly_key_iff (k : Str) :
    escapedOnly delimiters k ↔ ∀ d ∈ delimiters, splitTop k d false = [k] := by
  rw [escapedOnly_iff_forall]
  refine forall₂_congr fun d hd => (splitTop_raw_eq_iff ?_ k).symm
  intro h
  exact absurd (h ▸ hd) (by decide)

theorem Documented.plainlyRead {line head fieldsSection : Str} {rest : List Str} {time : Time}
    (h : Documented F precision line time head fieldsSection rest) : PlainlyRead line := by
  unfold PlainlyRead
  rw [h.sections]
  refine ⟨Nat.add_le_add_right ((isLine_iff h.sections).mp h.whole) 2, ?_, ?_⟩
  · intro head' hhead
    cases Option.some.inj hhead
    exact (splitTop_raw_eq_iff (by decide) head).mpr h.headSpaces
  · intro fieldsSection' hsection fp hfp k v hkv
    cases Option.some.inj hsection
    rcases h.fields fp hfp with hnil | ⟨k', v', hkv', _, _, hkey, hstring⟩
    · exact absurd hnil (splitTop_ne_nil hkv)
    · rw [hkv] at hkv'
      obtain ⟨rfl, hv⟩ := List.cons.inj hkv'
      obtain ⟨rfl, _⟩ := List.cons.inj hv
      refine ⟨(escapedOnly_key_iff k).mp hkey, ?_⟩
      intro hquoted
      obtain ⟨inner, hinner⟩ := isQuoted_iff.mp hquoted
      exact (stringCloses_iff hquoted).mp (hstring (by rw [hinner]; rfl))

/-- An accepted line has the documented form exactly when it is plainly read. -/
theorem documented_iff {defaultTsNs : Option ℤ} {now : Time} {line : Str} {p : Point F}
    (h : parseLine precision defaultTsNs now line = .ok p) :
    (∃ head fieldsSection rest,
        Documented F precision (strip line) p.time head fieldsSection rest) ↔
      PlainlyRead (strip line) := by
  constructor
  · intro ⟨head, fieldsSection, rest, hd⟩
    exact hd.plainlyRead
  · intro ⟨hthree, hspaces, hvalues⟩
    obtain ⟨_, _, head, fieldsSection, rest, hsections, hhead, hfields, htime⟩ :=
      parseLine_ok_iff.mp h
    rw [hsections] at hspaces hvalues
    rw [hsections, List.length_cons, List.length_cons] at hthree
    have hparts := ((parseFields_exists_iff (F := F) fieldsSection).mp ⟨_, hfields⟩).1
    have hrest : rest.length ≤ 1 := by omega
    refine ⟨head, fieldsSection, rest, hsections, (isLine_iff hsections).mpr hrest,
      (parseHead_exists_iff head).mp ⟨_, hhead⟩,
      (splitTop_raw_eq_iff (by decide) head).mp (hspaces head rfl), ?_, ?_⟩
    · intro fp hfp
      refine (hparts fp hfp).imp id ?_
      intro ⟨k, v, hkv, hk, hform⟩
      obtain ⟨hkey, hstring⟩ := hvalues fieldsSection rfl fp hfp k v hkv
      refine ⟨k, v, hkv, hk, hform, (escapedOnly_key_iff k).mpr hkey, ?_⟩
      intro hquote
      have hquoted := isQuoted_of_valueForm hform hquote
      exact (stringCloses_iff hquoted).mpr (hstring hquoted)
    · intro ts hts
      obtain ⟨rest, rfl⟩ := List.head?_eq_some_iff.mp hts
      have hone : rest = [] := List.length_eq_zero_iff.mp (by simpa using hrest)
      rw [hone] at hsections htime
      exact timestamp_of_parseTime (timestamp_ne_nil hsections) htime

end Accepted

theorem exists_of_isOk {β : Type} {r : Except Raised β} (h : r.isOk) : ∃ b, r = .ok b := by
  cases r with
  | ok b => exact ⟨b, rfl⟩
  | error e => contradiction

/-- An integer field and a timestamp with one space before it. -/
theorem documented_iff_timestamp :
    ∃ p : Point ℤ, parseLine .ns none 0 "m v=1i 1000".toList = .ok p ∧
      ∃ head fieldsSection rest,
        Documented ℤ .ns (strip "m v=1i 1000".toList) p.time head fieldsSection rest := by
  obtain ⟨p, hp⟩ : ∃ p : Point ℤ, parseLine .ns none 0 "m v=1i 1000".toList = .ok p :=
    exists_of_isOk (by decide +kernel)
  refine ⟨p, hp, (documented_iff hp).mpr ?_⟩
  have hsections : splitTopSpace (strip "m v=1i 1000".toList) =
      ["m".toList, "v=1i".toList, "1000".toList] := by decide +kernel
  have hparts : splitTop "v=1i".toList ',' true = ["v=1i".toList] := by decide +kernel
  have hfield : splitTop "v=1i".toList '=' true = ["v".toList, "1i".toList] := by decide +kernel
  unfold PlainlyRead
  rw [hsections]
  refine ⟨le_rfl, ?_, ?_⟩
  · intro head hhead
    cases Option.some.inj hhead
    decide +kernel
  · intro fieldsSection hsection fp hfp k v hkv
    cases Option.some.inj hsection
    rw [hparts, List.mem_singleton] at hfp
    rw [hfp, hfield] at hkv
    obtain ⟨hk, hv⟩ := List.cons.inj hkv
    obtain ⟨hv, _⟩ := List.cons.inj hv
    rw [← hk, ← hv]
    exact ⟨(escapedOnly_key_iff _).mp (by decide), by decide⟩

/-- Two spaces before the timestamp: it is not read and the clock is taken. -/
theorem not_documented_spaces :
    ∃ p : Point ℤ, parseLine .ns none 5 "m v=1i  1000".toList = .ok p ∧ p.time = 5 ∧
      ¬∃ head fieldsSection rest,
        Documented ℤ .ns (strip "m v=1i  1000".toList) p.time head fieldsSection rest := by
  have htime : ((parseLine .ns none 5 "m v=1i  1000".toList : Except Raised (Point ℤ)).toOption.map
      Point.time) = some 5 := by decide +kernel
  obtain ⟨p, hp⟩ : ∃ p : Point ℤ, parseLine .ns none 5 "m v=1i  1000".toList = .ok p :=
    exists_of_isOk (by decide +kernel)
  rw [hp] at htime
  refine ⟨p, hp, Option.some.inj htime, ?_⟩
  intro ⟨head, fieldsSection, rest, hd⟩
  have hsections : splitTopSpace (strip "m v=1i  1000".toList) =
      ["m".toList, "v=1i".toList, [], "1000".toList] := by decide +kernel
  have hwhole := (isLine_iff hd.sections).mp hd.whole
  have hlength := congrArg List.length hd.sections
  rw [hsections] at hlength
  simp only [List.length_cons, List.length_nil] at hlength
  omega

end TimescaleLp.LineProtocol
