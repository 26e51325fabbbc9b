import Mathlib.Algebra.GroupWithZero.Nat
import Mathlib.Data.List.Basic
import Mathlib.Data.List.Flatten
import Mathlib.Data.Nat.Bits

/-!
Texts with an escape symbol and a quote symbol. A scan splits a text at a
separator; it takes an escape symbol together with the symbol after it, and a
separator between quotes is an ordinary symbol. Whether a quote symbol counts is
decided by the one symbol before it alone.
-/
namespace TimescaleLp.Escaping

universe u

variable {α : Type u} [DecidableEq α] (esc quote : α)

/-- The scan from the symbol after `prev`. The part read so far is `buf`. -/
def splitLoop (sep : α) (respectQuotes : Bool) :
    Option α → Bool → List α → List α → List (List α)
  | _, _, buf, [] => [buf]
  | prev, inQuotes, buf, c :: s =>
    if respectQuotes ∧ c = quote ∧ prev ≠ some esc then
      splitLoop sep respectQuotes (some c) (!inQuotes) (buf ++ [c]) s
    else if c = esc then
      match s with
      | [] => if c = sep ∧ inQuotes = false then [buf, []] else [buf ++ [c]]
      | d :: s => splitLoop sep respectQuotes (some d) inQuotes (buf ++ [c, d]) s
    else if c = sep ∧ inQuotes = false then
      buf :: splitLoop sep respectQuotes (some c) inQuotes [] s
    else splitLoop sep respectQuotes (some c) inQuotes (buf ++ [c]) s

def split (sep : α) (respectQuotes : Bool) (s : List α) : List (List α) :=
  splitLoop esc quote sep respectQuotes none false [] s

theorem splitLoop_cons (sep : α) (respectQuotes : Bool) (prev : Option α) (inQuotes : Bool)
    (buf : List α) (c : α) (s : List α) :
    splitLoop esc quote sep respectQuotes prev inQuotes buf (c :: s) =
      if respectQuotes ∧ c = quote ∧ prev ≠ some esc then
        splitLoop esc quote sep respectQuotes (some c) (!inQuotes) (buf ++ [c]) s
      else if c = esc then
        match s with
        | [] => if c = sep ∧ inQuotes = false then [buf, []] else [buf ++ [c]]
        | d :: s => splitLoop esc quote sep respectQuotes (some d) inQuotes (buf ++ [c, d]) s
      else if c = sep ∧ inQuotes = false then
        buf :: splitLoop esc quote sep respectQuotes (some c) inQuotes [] s
      else splitLoop esc quote sep respectQuotes (some c) inQuotes (buf ++ [c]) s := by
  cases s <;> rfl

/-- Take off escape symbols that stand before a delimiter or another one. -/
def unescape (delims : List α) : List α → List α
  | c :: d :: s =>
    if c = esc ∧ (d ∈ delims ∨ d = esc) then d :: unescape delims s
    else c :: unescape delims (d :: s)
  | s => s

/-- The first part starts with what had been read of it. -/
theorem exists_splitLoop_eq_cons (sep : α) (respectQuotes : Bool) (prev : Option α)
    (inQuotes : Bool) (buf s : List α) :
    ∃ w parts, splitLoop esc quote sep respectQuotes prev inQuotes buf s = (buf ++ w) :: parts := by
  induction prev, inQuotes, buf, s using splitLoop.induct esc quote sep respectQuotes with
  | case1 _ _ buf => exact ⟨[], [], by rw [splitLoop, List.append_nil]⟩
  | case2 prev q buf c s hquote ih =>
    obtain ⟨w, parts, h⟩ := ih
    exact ⟨c :: w, parts, by rw [splitLoop_cons, if_pos hquote, h, List.append_assoc]; rfl⟩
  | case3 prev q buf hquote hsep =>
    exact ⟨[], [[]], by rw [splitLoop_cons, if_neg hquote, if_pos rfl]; simp [hsep]⟩
  | case4 prev q buf hquote hsep =>
    exact ⟨[esc], [], by rw [splitLoop_cons, if_neg hquote, if_pos rfl]; simp [hsep]⟩
  | case5 prev q buf d s hquote ih =>
    obtain ⟨w, parts, h⟩ := ih
    refine ⟨esc :: d :: w, parts, ?_⟩
    rw [splitLoop_cons, if_neg hquote, if_pos rfl]
    simp only [h, List.append_assoc]
    rfl
  | case6 prev q buf c s hquote hesc hsep ih =>
    exact ⟨[], _, by rw [splitLoop_cons, if_neg hquote, if_neg hesc, if_pos hsep, List.append_nil]⟩
  | case7 prev q buf c s hquote hesc hsep ih =>
    obtain ⟨w, parts, h⟩ := ih
    refine ⟨c :: w, parts, ?_⟩
    rw [splitLoop_cons, if_neg hquote, if_neg hesc, if_neg hsep, h, List.append_assoc]
    rfl

theorem splitLoop_ne_nil (sep : α) (respectQuotes : Bool) (prev : Option α) (inQuotes : Bool)
    (buf s : List α) : splitLoop esc quote sep respectQuotes prev inQuotes buf s ≠ [] := by
  obtain ⟨w, parts, h⟩ := exists_splitLoop_eq_cons esc quote sep respectQuotes prev inQuotes buf s
  rw [h]
  exact List.cons_ne_nil _ _

/-- The parts joined by the separator are the text. -/
theorem intercalate_splitLoop (sep : α) (respectQuotes : Bool) (prev : Option α)
    (inQuotes : Bool) (buf s : List α) :
    List.intercalate [sep] (splitLoop esc quote sep respectQuotes prev inQuotes buf s) =
      buf ++ s := by
  induction prev, inQuotes, buf, s using splitLoop.induct esc quote sep respectQuotes with
  | case1 => simp [splitLoop, List.intercalate]
  | case2 prev q buf c s hquote ih =>
    rw [splitLoop_cons, if_pos hquote, ih, List.append_assoc]
    rfl
  | case3 prev q buf hquote hsep =>
    rw [splitLoop_cons, if_neg hquote, if_pos rfl]
    simp [hsep, List.intercalate]
  | case4 prev q buf hquote hsep =>
    rw [splitLoop_cons, if_neg hquote, if_pos rfl]
    simp [hsep, List.intercalate]
  | case5 prev q buf d s hquote ih =>
    rw [splitLoop_cons, if_neg hquote, if_pos rfl]
    simpa using ih
  | case6 prev q buf c s hquote hesc hsep ih =>
    rw [splitLoop_cons, if_neg hquote, if_neg hesc, if_pos hsep,
      List.intercalate_cons_of_ne_nil (splitLoop_ne_nil _ _ _ _ _ _ _ _), ih, hsep.1]
    simp
  | case7 prev q buf c s hquote hesc hsep ih =>
    rw [splitLoop_cons, if_neg hquote, if_neg hesc, if_neg hsep, ih, List.append_assoc]
    rfl

theorem intercalate_split (sep : α) (respectQuotes : Bool) (s : List α) :
    List.intercalate [sep] (split esc quote sep respectQuotes s) = s :=
  intercalate_splitLoop esc quote sep respectQuotes none false [] s

theorem mem_of_mem_splitLoop {sep : α} {respectQuotes : Bool} {prev : Option α} {inQuotes : Bool}
    {buf s part : List α} (h : part ∈ splitLoop esc quote sep respectQuotes prev inQuotes buf s)
    {a : α} (ha : a ∈ part) : a ∈ buf ++ s := by
  rw [← intercalate_splitLoop esc quote sep respectQuotes prev inQuotes buf s]
  generalize splitLoop esc quote sep respectQuotes prev inQuotes buf s = parts at h
  induction parts with
  | nil => exact absurd h List.not_mem_nil
  | cons u parts ih =>
    by_cases hnil : parts = []
    · rw [hnil] at h ⊢
      rw [List.intercalate_singleton]
      exact List.mem_singleton.mp h ▸ ha
    · rw [List.intercalate_cons_of_ne_nil hnil]
      rcases List.mem_cons.mp h with rfl | h
      · exact List.mem_append_left _ (List.mem_append_left _ ha)
      · exact List.mem_append_right _ (ih h)

/-- Apart from the separator the parts have the symbols of the text. -/
theorem sum_count_splitLoop {a sep : α} (hne : a ≠ sep) (respectQuotes : Bool) (prev : Option α)
    (inQuotes : Bool) (buf s : List α) :
    ((splitLoop esc quote sep respectQuotes prev inQuotes buf s).map (List.count a)).sum =
      (buf ++ s).count a := by
  have hjoin : ∀ parts : List (List α),
      (List.intercalate [sep] parts).count a = (parts.map (List.count a)).sum := by
    intro parts
    induction parts with
    | nil => rfl
    | cons u parts ih =>
      cases parts with
      | nil => simp [List.intercalate]
      | cons v parts =>
        rw [List.intercalate_cons_cons, List.append_assoc, List.singleton_append,
          List.count_append, List.count_cons_of_ne hne.symm, ih]
        rfl
  rw [← hjoin, intercalate_splitLoop]

/-- Put an escape symbol before every special symbol and before every escape symbol. -/
def escape (special : List α) (s : List α) : List α :=
  s.flatMap fun c => if c = esc ∨ c ∈ special then [esc, c] else [c]

theorem escape_cons (special : List α) (c : α) (s : List α) :
    escape esc special (c :: s) =
      (if c = esc ∨ c ∈ special then [esc, c] else [c]) ++ escape esc special s := by
  rw [escape, List.flatMap_cons, escape]

private theorem unescape_pair {delims : List α} {d : α} (hd : d ∈ delims ∨ d = esc)
    (s : List α) : unescape esc delims (esc :: d :: s) = d :: unescape esc delims s := by
  rw [unescape, if_pos ⟨rfl, hd⟩]

private theorem unescape_plain (delims : List α) {c : α} (hc : c ≠ esc) (s : List α) :
    unescape esc delims (c :: s) = c :: unescape esc delims s := by
  cases s with
  | nil => rfl
  | cons d s => rw [unescape, if_neg fun h => hc h.1]

theorem unescape_eq_nil_iff (delims s : List α) : unescape esc delims s = [] ↔ s = [] := by
  cases s with
  | nil => exact Iff.rfl
  | cons c s =>
    cases s with
    | nil => exact Iff.rfl
    | cons d s =>
      rw [unescape]
      split <;> simp

theorem unescape_sublist (delims s : List α) : (unescape esc delims s).Sublist s := by
  induction s using unescape.induct esc delims with
  | case1 c d s h ih =>
    rw [unescape, if_pos h]
    exact (ih.cons_cons d).cons c
  | case2 c d s h ih =>
    rw [unescape, if_neg h]
    exact ih.cons_cons c
  | case3 s h => rw [unescape.eq_2 _ _ _ h]

/-- Escaping adds escape symbols only. -/
theorem count_escape {a : α} (hne : a ≠ esc) (special s : List α) :
    (escape esc special s).count a = s.count a := by
  induction s with
  | nil => rfl
  | cons c s ih =>
    rw [escape_cons, List.count_append, ih]
    split
    · rw [List.count_cons_of_ne hne.symm, ← List.count_append]
      rfl
    · rw [← List.count_append]
      rfl

theorem escape_eq_self {special s : List α} (h : ∀ c ∈ s, c ≠ esc ∧ c ∉ special) :
    escape esc special s = s := by
  induction s with
  | nil => rfl
  | cons c s ih =>
    obtain ⟨hc, hs⟩ := List.forall_mem_cons.mp h
    rw [escape_cons, if_neg fun hspecial => hspecial.elim hc.1 hc.2, ih hs, List.singleton_append]

/-- Unescaping reads an escaped text back, whatever follows it. -/
theorem unescape_escape_append {special delims : List α} (hsub : ∀ c ∈ special, c ∈ delims)
    (s t : List α) :
    unescape esc delims (escape esc special s ++ t) = s ++ unescape esc delims t := by
  induction s with
  | nil => rfl
  | cons c s ih =>
    rw [escape_cons, List.append_assoc]
    split
    · rename_i hc
      have hd : c ∈ delims ∨ c = esc := hc.symm.imp (hsub c) id
      exact (unescape_pair esc hd _).trans (congrArg (List.cons c) ih)
    · rename_i hc
      exact (unescape_plain esc delims (fun h => hc (Or.inl h)) _).trans
        (congrArg (List.cons c) ih)

theorem unescape_escape {special delims : List α} (hsub : ∀ c ∈ special, c ∈ delims)
    (s : List α) : unescape esc delims (escape esc special s) = s := by
  have h := unescape_escape_append esc hsub s []
  rw [List.append_nil] at h
  exact h.trans (List.append_nil s)

/-- The scan runs through `u` from one position to another without splitting. -/
def Passes (sep : α) (respectQuotes : Bool) (prev : Option α) (inQuotes : Bool) (u : List α)
    (prev' : Option α) (inQuotes' : Bool) : Prop :=
  ∀ buf t, splitLoop esc quote sep respectQuotes prev inQuotes buf (u ++ t) =
    splitLoop esc quote sep respectQuotes prev' inQuotes' (buf ++ u) t

section Passes
variable {esc quote} {sep : α} {respectQuotes : Bool}

theorem Passes.nil (prev : Option α) (q : Bool) :
    Passes esc quote sep respectQuotes prev q [] prev q := by
  intro buf t
  rw [List.nil_append, List.append_nil]

theorem Passes.append {prev prev' prev'' : Option α} {q q' q'' : Bool} {u v : List α}
    (hu : Passes esc quote sep respectQuotes prev q u prev' q')
    (hv : Passes esc quote sep respectQuotes prev' q' v prev'' q'') :
    Passes esc quote sep respectQuotes prev q (u ++ v) prev'' q'' := by
  intro buf t
  rw [List.append_assoc, hu, hv, List.append_assoc]

/-- An ordinary symbol; a separator is one between quotes. -/
theorem passes_plain {prev : Option α} {q : Bool} {c : α} (hesc : c ≠ esc)
    (hquote : respectQuotes = true → c ≠ quote) (hsep : c = sep → q = true) :
    Passes esc quote sep respectQuotes prev q [c] (some c) q := by
  intro buf t
  have hno : ¬(respectQuotes = true ∧ c = quote ∧ prev ≠ some esc) := fun h => hquote h.1 h.2.1
  have hrest : ¬(c = sep ∧ q = false) := by
    intro h
    have := hsep h.1
    simp_all
  rw [List.singleton_append, splitLoop_cons, if_neg hno, if_neg hesc, if_neg hrest]

theorem passes_pair (hne : esc ≠ quote) (prev : Option α) (q : Bool) (d : α) :
    Passes esc quote sep respectQuotes prev q [esc, d] (some d) q := by
  intro buf t
  have hno : ¬(respectQuotes = true ∧ esc = quote ∧ prev ≠ some esc) := fun h => hne h.2.1
  rw [List.cons_append, splitLoop_cons, if_neg hno, if_pos rfl]
  rfl

/-- A quote symbol that counts opens or closes quotes. -/
theorem passes_quote {prev : Option α} (hprev : prev ≠ some esc) (q : Bool) :
    Passes esc quote sep true prev q [quote] (some quote) (!q) := by
  intro buf t
  rw [List.singleton_append, splitLoop_cons, if_pos ⟨rfl, rfl, hprev⟩]

/-- Directly after an escape symbol a quote symbol is not seen, also where that
symbol was itself escaped. -/
theorem passes_quote_after_escape (hne : esc ≠ quote) (hsep : quote ≠ sep) (q : Bool) :
    Passes esc quote sep respectQuotes (some esc) q [quote] (some quote) q := by
  intro buf t
  have hno : ¬(respectQuotes = true ∧ quote = quote ∧ some esc ≠ some esc) := fun h => h.2.2 rfl
  rw [List.singleton_append, splitLoop_cons, if_neg hno, if_neg hne.symm,
    if_neg fun h => hsep h.1]

end Passes

/-- The number of quote symbols that do not stand directly after an escape
symbol; the text is read after `prev`. -/
def toggles (prev : Option α) : List α → ℕ
  | [] => 0
  | c :: s => (if c = quote ∧ prev ≠ some esc then 1 else 0) + toggles (some c) s

/-- The symbol before the end of `s`, read after `prev`. -/
def lastOf (prev : Option α) (s : List α) : Option α := s.getLast?.or prev

omit [DecidableEq α] in
theorem lastOf_cons (prev : Option α) (c : α) (s : List α) :
    lastOf prev (c :: s) = lastOf (some c) s := by
  rw [lastOf, lastOf, List.getLast?_cons]
  cases s.getLast? <;> rfl

/-- A text without any of the three symbols. -/
theorem passes_of_plain {esc quote sep : α} {respectQuotes : Bool} {u : List α}
    (h : ∀ c ∈ u, c ≠ esc ∧ c ≠ quote ∧ c ≠ sep) (prev : Option α) (q : Bool) :
    Passes esc quote sep respectQuotes prev q u (lastOf prev u) q := by
  induction u generalizing prev with
  | nil => exact Passes.nil prev q
  | cons c u ih =>
    obtain ⟨⟨hesc, hquote, hsep⟩, hu⟩ := List.forall_mem_cons.mp h
    rw [lastOf_cons]
    exact (passes_plain hesc (fun _ => hquote) fun heq => absurd heq hsep).append (ih hu (some c))

section Escaped
variable {esc quote} {sep : α} {special : List α}

/-- An escaped text never splits; it leaves quotes open when an odd number of
its quote symbols count. -/
theorem passes_escape (hne : esc ≠ quote) (hquote : quote ∉ special) (hsep : sep ∈ special)
    (prev : Option α) (q : Bool) (u : List α) :
    Passes esc quote sep true prev q (escape esc special u) (lastOf prev u)
      (xor q (toggles esc quote prev u).bodd) := by
  induction u generalizing prev q with
  | nil =>
    rw [toggles, Nat.bodd_zero, Bool.xor_false]
    exact Passes.nil prev q
  | cons c u ih =>
    rw [escape_cons, lastOf_cons, toggles, Nat.bodd_add]
    by_cases hc : c = esc ∨ c ∈ special
    · have hno : ¬(c = quote ∧ prev ≠ some esc) := by
        intro h
        rcases hc with hc | hc
        · exact hne (hc.symm.trans h.1)
        · exact hquote (h.1 ▸ hc)
      rw [if_pos hc, if_neg hno, Nat.bodd_zero, Bool.false_xor]
      exact (passes_pair hne prev q c).append (ih (some c) q)
    · rw [if_neg hc]
      have hesc : c ≠ esc := fun h => hc (Or.inl h)
      by_cases hcount : c = quote ∧ prev ≠ some esc
      · obtain ⟨rfl, hprev⟩ := hcount
        rw [if_pos ⟨rfl, hprev⟩, Nat.bodd_one, ← Bool.xor_assoc, Bool.xor_true]
        exact (passes_quote hprev q).append (ih (some c) (!q))
      · rw [if_neg hcount, Nat.bodd_zero, Bool.false_xor]
        refine Passes.append ?_ (ih (some c) q)
        have hcsep : c ≠ sep := fun h => hc (Or.inr (h ▸ hsep))
        by_cases hcq : c = quote
        · have hprev : prev = some esc := by
            by_contra h
            exact hcount ⟨hcq, h⟩
          rw [hcq] at hcsep ⊢
          rw [hprev]
          exact passes_quote_after_escape hne hcsep q
        · exact passes_plain hesc (fun _ => hcq) (fun h => absurd h hcsep)

/-- An escaped text passes where its unescaped symbols are ordinary ones. -/
theorem passes_escape_of_plain {respectQuotes : Bool} (hne : esc ≠ quote) {q : Bool}
    (hplain : ∀ c, ¬(c = esc ∨ c ∈ special) →
      (respectQuotes = true → c ≠ quote) ∧ (c = sep → q = true)) (prev : Option α) (u : List α) :
    Passes esc quote sep respectQuotes prev q (escape esc special u) (lastOf prev u) q := by
  induction u generalizing prev with
  | nil => exact Passes.nil prev q
  | cons c u ih =>
    rw [escape_cons, lastOf_cons]
    refine Passes.append ?_ (ih (some c))
    split
    · exact passes_pair hne prev q c
    · rename_i hc
      exact passes_plain (fun h => hc (Or.inl h)) (hplain c hc).1 (hplain c hc).2

/-- Where quotes are not respected an escaped text passes as it is. -/
theorem passes_escape_raw (hne : esc ≠ quote) (hsep : sep ∈ special) (prev : Option α) (q : Bool)
    (u : List α) :
    Passes esc quote sep false prev q (escape esc special u) (lastOf prev u) q :=
  passes_escape_of_plain hne (fun _ hc => ⟨fun h => absurd h Bool.false_ne_true,
    fun h => absurd (Or.inr (h ▸ hsep)) hc⟩) prev u

/-- A text whose quote symbols are escaped too passes between quotes. -/
theorem passes_escape_quoted (hne : esc ≠ quote) (hquote : quote ∈ special) (prev : Option α)
    (u : List α) :
    Passes esc quote sep true prev true (escape esc special u) (lastOf prev u) true :=
  passes_escape_of_plain hne (fun _ hc => ⟨fun _ h => hc (Or.inr (h ▸ hquote)), fun _ => rfl⟩) prev u

end Escaped

section Split
variable {esc quote} {sep : α} {respectQuotes : Bool}

/-- The scan splits at a separator outside quotes. -/
theorem splitLoop_sep (hesc : sep ≠ esc) (hquote : sep ≠ quote) (prev : Option α)
    (buf t : List α) :
    splitLoop esc quote sep respectQuotes prev false buf (sep :: t) =
      buf :: splitLoop esc quote sep respectQuotes (some sep) false [] t := by
  rw [splitLoop_cons, if_neg fun h => hquote h.2.1, if_neg hesc, if_pos ⟨rfl, rfl⟩]

theorem splitLoop_of_passes {prev prev' : Option α} {q q' : Bool} {u : List α}
    (h : Passes esc quote sep respectQuotes prev q u prev' q') (buf : List α) :
    splitLoop esc quote sep respectQuotes prev q buf u = [buf ++ u] := by
  have h := h buf []
  rwa [List.append_nil, splitLoop] at h

/-- A text that passes and a separator in front of the rest. -/
theorem splitLoop_cons_of_passes (hesc : sep ≠ esc) (hquote : sep ≠ quote)
    {prev prev' : Option α} {q : Bool} {u : List α}
    (h : Passes esc quote sep respectQuotes prev q u prev' false) (t : List α) :
    splitLoop esc quote sep respectQuotes prev q [] (u ++ sep :: t) =
      u :: splitLoop esc quote sep respectQuotes (some sep) false [] t := by
  rw [h, List.nil_append, splitLoop_sep hesc hquote]

end Split

/-- Where the scan stands after a text: the symbol before, and whether it is in
quotes. There is no such place after an escape symbol with nothing to escape. -/
def scanEnd (respectQuotes : Bool) : Option α → Bool → List α → Option (Option α × Bool)
  | prev, inQuotes, [] => some (prev, inQuotes)
  | prev, inQuotes, c :: s =>
    if respectQuotes ∧ c = quote ∧ prev ≠ some esc then scanEnd respectQuotes (some c) (!inQuotes) s
    else if c = esc then
      match s with
      | [] => none
      | d :: s => scanEnd respectQuotes (some d) inQuotes s
    else scanEnd respectQuotes (some c) inQuotes s

/-- A text after which a separator splits. -/
def endsOutside (respectQuotes : Bool) (s : List α) : Bool :=
  (scanEnd esc quote respectQuotes none false s).any fun e => !e.2

/-- How `f` takes texts apart: its parts make up the text and have no parts of
their own, and any such parts are found again, as long as each separator between
them stands where it counts. -/
structure Splits (sep : α) (respectQuotes : Bool) (f : List α → List (List α)) : Prop where
  join : ∀ s, List.intercalate [sep] (f s) = s
  whole : ∀ s, ∀ part ∈ f s, f part = [part]
  parts : ∀ parts, parts ≠ [] → (∀ part ∈ parts, f part = [part]) →
    (∀ part ∈ parts.dropLast, endsOutside esc quote respectQuotes part = true) →
    f (List.intercalate [sep] parts) = parts

section Splits
variable {esc quote} {sep : α} {respectQuotes : Bool}

theorem scanEnd_cons (prev : Option α) (inQuotes : Bool) (c : α) (s : List α) :
    scanEnd esc quote respectQuotes prev inQuotes (c :: s) =
      if respectQuotes ∧ c = quote ∧ prev ≠ some esc then
        scanEnd esc quote respectQuotes (some c) (!inQuotes) s
      else if c = esc then
        match s with
        | [] => none
        | d :: s => scanEnd esc quote respectQuotes (some d) inQuotes s
      else scanEnd esc quote respectQuotes (some c) inQuotes s := by
  cases s <;> rfl

theorem scanEnd_of_plain {s : List α} (h : ∀ c ∈ s, c ≠ esc ∧ c ≠ quote) (prev : Option α)
    (q : Bool) : scanEnd esc quote respectQuotes prev q s = some (lastOf prev s, q) := by
  induction s generalizing prev with
  | nil => rfl
  | cons c s ih =>
    obtain ⟨⟨hesc, hquote⟩, hs⟩ := List.forall_mem_cons.mp h
    rw [scanEnd_cons, if_neg fun hc => hquote hc.2.1, if_neg hesc, ih hs, lastOf_cons]

/-- Only whether the symbol before is an escape symbol matters. -/
theorem passes_restart {prev prev' : Option α} (hprev : prev ≠ some esc)
    (hprev' : prev' ≠ some esc) (q : Bool) :
    Passes esc quote sep respectQuotes prev q [] prev' q := by
  intro buf t
  rw [List.nil_append, List.append_nil]
  cases t with
  | nil => rfl
  | cons c t =>
    rw [splitLoop_cons, splitLoop_cons]
    simp only [ne_eq, hprev, hprev', not_false_eq_true]

theorem passes_other {prev : Option α} {q : Bool} {c : α}
    (hquote : ¬(respectQuotes = true ∧ c = quote ∧ prev ≠ some esc)) (hesc : c ≠ esc)
    (hsep : ¬(c = sep ∧ q = false)) :
    Passes esc quote sep respectQuotes prev q [c] (some c) q := by
  intro buf t
  rw [List.singleton_append, splitLoop_cons, if_neg hquote, if_neg hesc, if_neg hsep]

theorem passes_counted {prev : Option α} (q : Bool) {c : α}
    (hquote : respectQuotes = true ∧ c = quote ∧ prev ≠ some esc) :
    Passes esc quote sep respectQuotes prev q [c] (some c) (!q) := by
  intro buf t
  rw [List.singleton_append, splitLoop_cons, if_pos hquote]

/-- What is left whole passes, unless it ends in the middle of an escape. -/
theorem passes_of_whole (hne : esc ≠ quote) {prev prev' : Option α} {q q' : Bool}
    {buf u : List α} (hwhole : splitLoop esc quote sep respectQuotes prev q buf u = [buf ++ u])
    (hend : scanEnd esc quote respectQuotes prev q u = some (prev', q')) :
    Passes esc quote sep respectQuotes prev q u prev' q' := by
  induction prev, q, buf, u using splitLoop.induct esc quote sep respectQuotes with
  | case1 prev q buf =>
    cases hend
    exact Passes.nil _ _
  | case2 prev q buf c s hquote ih =>
    rw [splitLoop_cons, if_pos hquote] at hwhole
    rw [scanEnd_cons, if_pos hquote] at hend
    exact (passes_counted q hquote).append (ih (by simpa using hwhole) hend)
  | case3 prev q buf hquote hsep =>
    rw [scanEnd_cons, if_neg hquote, if_pos rfl] at hend
    contradiction
  | case4 prev q buf hquote hsep =>
    rw [scanEnd_cons, if_neg hquote, if_pos rfl] at hend
    contradiction
  | case5 prev q buf d s hquote ih =>
    rw [splitLoop_cons, if_neg hquote, if_pos rfl] at hwhole
    rw [scanEnd_cons, if_neg hquote, if_pos rfl] at hend
    exact (passes_pair hne prev q d).append (ih (by simpa using hwhole) hend)
  | case6 prev q buf c s hquote hesc hsep ih =>
    rw [splitLoop_cons, if_neg hquote, if_neg hesc, if_pos hsep] at hwhole
    exact absurd (List.cons.inj hwhole).2 (splitLoop_ne_nil _ _ _ _ _ _ _ _)
  | case7 prev q buf c s hquote hesc hsep ih =>
    rw [splitLoop_cons, if_neg hquote, if_neg hesc, if_neg hsep] at hwhole
    rw [scanEnd_cons, if_neg hquote, if_neg hesc] at hend
    exact (passes_other hquote hesc hsep).append (ih (by simpa using hwhole) hend)

/-- Each part is left whole, from whatever place within a part the scan goes on. -/
theorem split_part (hne : esc ≠ quote) (hesc : sep ≠ esc) {prev : Option α} {q : Bool}
    {buf s part : List α} (hbuf : Passes esc quote sep respectQuotes none false buf prev q)
    (hpart : part ∈ splitLoop esc quote sep respectQuotes prev q buf s) :
    split esc quote sep respectQuotes part = [part] := by
  induction prev, q, buf, s using splitLoop.induct esc quote sep respectQuotes with
  | case1 prev q buf =>
    obtain rfl := List.mem_singleton.mp hpart
    exact splitLoop_of_passes hbuf []
  | case2 prev q buf c s hquote ih =>
    rw [splitLoop_cons, if_pos hquote] at hpart
    exact ih (hbuf.append (passes_counted q hquote)) hpart
  | case3 prev q buf hquote hsep => exact absurd hsep.1.symm hesc
  | case4 prev q buf hquote hsep =>
    rw [splitLoop_cons, if_neg hquote, if_pos rfl, if_neg hsep] at hpart
    obtain rfl := List.mem_singleton.mp hpart
    have hlast : splitLoop esc quote sep respectQuotes prev q buf [esc] = [buf ++ [esc]] := by
      rw [splitLoop_cons, if_neg hquote, if_pos rfl, if_neg hsep]
    exact (hbuf [] [esc]).trans hlast
  | case5 prev q buf d s hquote ih =>
    rw [splitLoop_cons, if_neg hquote, if_pos rfl] at hpart
    exact ih (hbuf.append (passes_pair hne prev q d)) hpart
  | case6 prev q buf c s hquote hcesc hsep ih =>
    rw [splitLoop_cons, if_neg hquote, if_neg hcesc, if_pos hsep] at hpart
    rcases List.mem_cons.mp hpart with rfl | hpart
    · exact splitLoop_of_passes hbuf []
    · -- the scan restarts at a part boundary as at the start
      rw [hsep.2] at hpart ih
      refine ih (passes_restart (Option.some_ne_none esc).symm ?_ false) hpart
      exact fun h => hcesc (Option.some.inj h)
  | case7 prev q buf c s hquote hcesc hsep ih =>
    rw [splitLoop_cons, if_neg hquote, if_neg hcesc, if_neg hsep] at hpart
    exact ih (hbuf.append (passes_other hquote hcesc hsep)) hpart

/-- Whole parts are found again in their join. -/
theorem split_intercalate (hne : esc ≠ quote) (hesc : sep ≠ esc) (hquote : sep ≠ quote)
    {parts : List (List α)} (hparts : parts ≠ [])
    (hwhole : ∀ part ∈ parts, split esc quote sep respectQuotes part = [part])
    (hends : ∀ part ∈ parts.dropLast, endsOutside esc quote respectQuotes part = true) :
    split esc quote sep respectQuotes (List.intercalate [sep] parts) = parts := by
  induction parts with
  | nil => contradiction
  | cons u parts ih =>
    obtain ⟨hu, hrest⟩ := List.forall_mem_cons.mp hwhole
    cases parts with
    | nil =>
      rw [List.intercalate_singleton]
      exact hu
    | cons v parts =>
      rw [List.dropLast_cons_cons] at hends
      obtain ⟨hend, hends⟩ := List.forall_mem_cons.mp hends
      obtain ⟨⟨prev, q⟩, hscan, hq⟩ := (Option.any_eq_true _ _).mp hend
      obtain rfl : q = false := by simpa using hq
      have hpass : Passes esc quote sep respectQuotes none false u prev false :=
        passes_of_whole hne hu hscan
      have hrestart : Passes esc quote sep respectQuotes (some sep) false [] none false :=
        passes_restart (fun h => hesc (Option.some.inj h)) (Option.some_ne_none esc).symm false
      rw [List.intercalate_cons_cons, List.append_assoc, List.singleton_append, split,
        splitLoop_cons_of_passes hesc hquote hpass]
      refine congrArg (List.cons u) ?_
      exact (hrestart [] _).trans (ih (List.cons_ne_nil v parts) hrest hends)

/-- Parts without any of the three symbols are found again in their join. -/
theorem split_intercalate_of_plain (hne : esc ≠ quote) (hesc : sep ≠ esc) (hquote : sep ≠ quote)
    {parts : List (List α)} (hparts : parts ≠ [])
    (hplain : ∀ part ∈ parts, ∀ c ∈ part, c ≠ esc ∧ c ≠ quote ∧ c ≠ sep) :
    split esc quote sep respectQuotes (List.intercalate [sep] parts) = parts := by
  refine split_intercalate hne hesc hquote hparts (fun part hpart => ?_) fun part hpart => ?_
  · exact splitLoop_of_passes (passes_of_plain (hplain part hpart) none false) []
  · rw [endsOutside, scanEnd_of_plain fun c hc =>
      (hplain part (List.dropLast_subset parts hpart) c hc).imp id And.left]
    rfl

theorem splits_split (hne : esc ≠ quote) (hesc : sep ≠ esc) (hquote : sep ≠ quote) :
    Splits esc quote sep respectQuotes (split esc quote sep respectQuotes) where
  join := intercalate_split esc quote sep respectQuotes
  whole _ _ hpart := split_part hne hesc (Passes.nil none false) hpart
  parts _ hparts hwhole hends := split_intercalate hne hesc hquote hparts hwhole hends

end Splits

end TimescaleLp.Escaping
