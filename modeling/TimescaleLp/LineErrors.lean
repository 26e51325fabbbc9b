import TimescaleLp.Reading

/-!
What one bad line does to a payload. A line error becomes an entry of the error
list and leaves the other lines alone; an exception of another type leaves
`parse_batch`, and with it every point of the payload is lost.
-/
namespace TimescaleLp.LineProtocol

open Texts Folds

variable {F : Type}

theorem strip_strip (s : Str) : strip (strip s) = strip s := by
  have hhead : ∀ t : Str, (∀ c, t.head? = some c → isSpace c = false) →
      t.dropWhile isSpace = t := by
    intro t ht
    cases t with
    | nil => rfl
    | cons c t => rw [List.dropWhile_cons, if_neg (by simp [ht c rfl])]
  unfold strip
  rw [hhead, List.rdropWhile_idempotent]
  intro c hc
  have hkept : (s.dropWhile isSpace).head? = some c := by
    obtain ⟨t, ht⟩ := List.rdropWhile_prefix isSpace (s.dropWhile isSpace)
    rw [← ht, List.head?_append, hc]
    rfl
  have hnot := List.head?_dropWhile_not isSpace s
  rw [hkept] at hnot
  exact hnot

/-- A line that is neither blank nor a comment. -/
def isCounted (line : Str) : Bool := strip line ≠ [] && !isComment (strip line)

/-- The counted lines of a payload with their numbers. -/
def countedLines (body : Str) : List (ℕ × Str) :=
  (numbered (splitlines body)).filter fun line => isCounted line.2

/-- What a line contributes. -/
inductive Outcome (F : Type)
  | point (p : Point F)
  | failed (number : ℕ) (message : Str)

def Outcome.point? : Outcome F → Option (Point F)
  | .point p => some p
  | .failed _ _ => none

def Outcome.failed? : Outcome F → Option (ℕ × Str)
  | .point _ => none
  | .failed number message => some (number, message)

section Lines
variable [Numerics F] (repr : Str → Str) (precision : Precision) (now : ℕ → Time)

/-- The contribution of a line on its own; `none` when an exception leaves it. -/
def lineOutcome (line : ℕ × Str) : Option (Outcome F) :=
  match parseLine precision none (now line.1) (strip line.2) with
  | .ok p => some (.point p)
  | .error (.lineProtocolError e) => some (.failed line.1 (e.text repr))
  | .error _ => none

variable (F) in
/-- The parse returns, with one point or one numbered error for each counted
line, in order, and each of them depends on its own line alone. -/
def Collects (body : Str) : Prop :=
  ∃ outcomes : List (Outcome F),
    (countedLines body).map (lineOutcome repr precision now) = outcomes.map some ∧
      parseBatch repr precision now body =
        .ok (outcomes.filterMap Outcome.point?, outcomes.filterMap Outcome.failed?)

variable (F) in
/-- A line with an integer suffix behind something that is no integer, or with an
integer timestamp that is no date, where everything before it is well formed. -/
def StrayLine (s : Str) : Prop :=
  ∃ head fieldsSection rest, splitTopSpace s = head :: fieldsSection :: rest ∧ HeadForm head ∧
    ((∃ before fp after, splitTop fieldsSection ',' true = before ++ fp :: after ∧
        (∀ p ∈ before, FieldForm F p) ∧ StrayField fp) ∨
      ((∀ fp ∈ splitTop fieldsSection ',' true, FieldForm F fp) ∧
        (∃ fp ∈ splitTop fieldsSection ',' true, fp ≠ []) ∧
        StrayTime precision (rest.head?.getD [])))

theorem uncaught_parseSections_iff (time : Time) (s : Str) :
    Uncaught (parseSections precision none time (splitTopSpace s) : Except Raised (Point F)) ↔
      StrayLine F precision s := by
  unfold StrayLine
  cases hs : splitTopSpace s with
  | nil => exact iff_of_false (not_uncaught_line _) fun ⟨_, _, _, h, _⟩ => nomatch h
  | cons head tail =>
    cases tail with
    | nil =>
      refine iff_of_false (not_uncaught_line _) ?_
      intro ⟨_, _, _, h, _⟩
      exact nomatch (List.cons.inj h).2
    | cons fieldsSection rest =>
      unfold parseSections
      rw [uncaught_bind_iff]
      constructor
      · intro h
        rcases h with h | ⟨⟨m, tags⟩, hhead, h⟩
        · exact absurd h (not_uncaught_parseHead head)
        refine ⟨head, fieldsSection, rest, rfl, (parseHead_exists_iff head).mp ⟨_, hhead⟩, ?_⟩
        rcases uncaught_bind_iff.mp h with h | ⟨fields, hfields, h⟩
        · exact Or.inl ((uncaught_parseFields_iff fieldsSection).mp h)
        · obtain ⟨hform, hne⟩ := (parseFields_exists_iff fieldsSection).mp ⟨fields, hfields⟩
          rcases uncaught_bind_iff.mp h with h | ⟨t, _, h⟩
          · exact Or.inr ⟨hform, hne, (uncaught_parseTime_iff precision time rest.head?).mp h⟩
          · exact absurd h (not_uncaught_ok _)
      · intro ⟨head', fieldsSection', rest', heq, hhead, h⟩
        obtain ⟨rfl, htail⟩ := List.cons.inj heq
        obtain ⟨rfl, rfl⟩ := List.cons.inj htail
        obtain ⟨⟨m, tags⟩, hhead⟩ := (parseHead_exists_iff head).mpr hhead
        refine Or.inr ⟨(m, tags), hhead, uncaught_bind_iff.mpr ?_⟩
        rcases h with h | ⟨hform, hne, h⟩
        · exact Or.inl ((uncaught_parseFields_iff fieldsSection).mpr h)
        · obtain ⟨fields, hfields⟩ :=
            (parseFields_exists_iff (F := F) fieldsSection).mpr ⟨hform, hne⟩
          exact Or.inr ⟨fields, hfields, uncaught_bind_iff.mpr
            (Or.inl ((uncaught_parseTime_iff precision time rest.head?).mpr h))⟩

/-- A counted line is stray exactly when it contributes nothing. -/
theorem lineOutcome_eq_none_iff {line : ℕ × Str} (hline : isCounted line.2) :
    (lineOutcome repr precision now line : Option (Outcome F)) = none ↔
      StrayLine F precision (strip line.2) := by
  have hcounted : ¬(strip (strip line.2) = [] ∨ isComment (strip (strip line.2))) := by
    rw [strip_strip]
    simpa [isCounted] using hline
  rw [← uncaught_parseSections_iff precision (now line.1)]
  unfold lineOutcome parseLine
  rw [if_neg hcounted, strip_strip]
  cases parseSections (F := F) precision none (now line.1) (splitTopSpace (strip line.2)) with
  | ok p => exact iff_of_false (fun h => nomatch h) (not_uncaught_ok p)
  | error e =>
    cases e with
    | lineProtocolError l => exact iff_of_false (fun h => nomatch h) (not_uncaught_line l)
    | valueError => exact iff_of_true rfl ⟨_, rfl, fun l h => nomatch h⟩
    | dateError d => exact iff_of_true rfl ⟨_, rfl, fun l h => nomatch h⟩

theorem lineOutcome_eq_some {line : ℕ × Str} {o : Outcome F}
    (h : lineOutcome repr precision now line = some o) :
    (∃ p, parseLine precision none (now line.1) (strip line.2) = .ok p ∧ o = .point p) ∨
      ∃ e, parseLine (F := F) precision none (now line.1) (strip line.2) =
        .error (.lineProtocolError e) ∧ o = .failed line.1 (e.text repr) := by
  unfold lineOutcome at h
  split at h
  · rename_i p hp
    exact Or.inl ⟨p, hp, (Option.some.inj h).symm⟩
  · rename_i e he
    exact Or.inr ⟨e, he, (Option.some.inj h).symm⟩
  · contradiction

/-- The loop goes through all lines where each counted one contributes something. -/
theorem parseBatchLoop_of_outcomes {lines : List (ℕ × Str)} {outcomes : List (Outcome F)}
    (h : (lines.filter fun line => isCounted line.2).map (lineOutcome repr precision now) =
      outcomes.map some) (points : List (Point F)) (errors : List (ℕ × Str)) :
    parseBatchLoop repr precision now points errors lines =
      .ok (points ++ outcomes.filterMap Outcome.point?,
        errors ++ outcomes.filterMap Outcome.failed?) := by
  induction lines generalizing points errors outcomes with
  | nil =>
    cases outcomes with
    | nil => simp [parseBatchLoop]
    | cons o outcomes => contradiction
  | cons line lines ih =>
    obtain ⟨number, raw⟩ := line
    unfold parseBatchLoop
    by_cases hblank : strip raw = [] ∨ isComment (strip raw)
    · have hnot : isCounted raw = false := by
        rcases hblank with hb | hb <;> simp [isCounted, hb]
      rw [if_pos hblank]
      rw [List.filter_cons, if_neg (by simp [hnot])] at h
      exact ih h points errors
    · have hcounted : isCounted raw = true := by
        simpa [isCounted] using hblank
      rw [if_neg hblank]
      rw [List.filter_cons, if_pos hcounted, List.map_cons] at h
      cases outcomes with
      | nil => contradiction
      | cons o outcomes =>
        obtain ⟨hfirst, hrest⟩ := List.cons.inj h
        rcases lineOutcome_eq_some repr precision now hfirst with ⟨p, hp, rfl⟩ | ⟨e, he, rfl⟩
        · simp only [hp]
          rw [ih hrest]
          simp [List.filterMap_cons, Outcome.point?, Outcome.failed?]
        · simp only [he]
          rw [ih hrest]
          simp [List.filterMap_cons, Outcome.point?, Outcome.failed?]

theorem parseBatch_collects_iff (body : Str) :
    Collects F repr precision now body ↔
      ∀ line ∈ countedLines body, ¬StrayLine F precision (strip line.2) := by
  constructor
  · intro ⟨outcomes, hmap, _⟩ line hline hstray
    have hcounted := (List.mem_filter.mp hline).2
    have hnone := (lineOutcome_eq_none_iff repr precision now hcounted).mpr hstray
    have hmem := List.mem_map_of_mem (f := lineOutcome (F := F) repr precision now) hline
    rw [hmap, hnone, List.mem_map] at hmem
    obtain ⟨o, _, ho⟩ := hmem
    contradiction
  · intro h
    have hmap : (countedLines body).map (lineOutcome (F := F) repr precision now) =
        ((countedLines body).filterMap (lineOutcome repr precision now)).map some := by
      rw [List.map_filterMap_some_eq_filter_map_isSome, List.filter_eq_self.mpr]
      intro o ho
      obtain ⟨line, hline, rfl⟩ := List.mem_map.mp ho
      rw [Option.isSome_iff_ne_none]
      intro hnone
      have hcounted := (List.mem_filter.mp hline).2
      exact h line hline ((lineOutcome_eq_none_iff repr precision now hcounted).mp hnone)
    exact ⟨_, hmap, parseBatchLoop_of_outcomes repr precision now hmap [] []⟩

end Lines

/-- The good line in front of the bad one is lost too. -/
theorem parseBatch_not_collects_suffix :
    ¬Collects ℤ id .ns (fun _ => 0) "good v=2\nbad v=1xi\n".toList := by
  intro ⟨outcomes, _, h⟩
  have hraises : (parseBatch id .ns (fun _ => 0) "good v=2\nbad v=1xi\n".toList :
      Except Raised (List (Point ℤ) × List (ℕ × Str))).isOk = false := by
    decide +kernel
  rw [h] at hraises
  exact Bool.false_ne_true hraises.symm

end TimescaleLp.LineProtocol
