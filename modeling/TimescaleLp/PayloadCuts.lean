import TimescaleLp.LineProtocol

/-!
Payloads cut at line feeds. The lines of a payload are read one by one, and nothing
but the number of a line goes from one to the next. So the points and the errors of a
payload are those of its pieces, wherever it is cut, with the line numbers going on
from piece to piece; an exception that leaves a piece leaves the whole.
-/
namespace TimescaleLp.PayloadCuts

open Texts LineProtocol

variable {F : Type}

/-- The lines of a piece that a line feed ends. -/
def lineCount (piece : Str) : ℕ := (splitlines (piece ++ ['\n'])).length

/-- Line numbers after so many lines. -/
def later {α : Type} (before : ℕ) (e : ℕ × α) : ℕ × α := (before + e.1, e.2)

section Lines

theorem splitlinesLoop_feed (a b : Str) (afterReturn : Bool) (buf : Str)
    (hbuf : afterReturn = true → buf = []) : splitlinesLoop afterReturn buf (a ++ '\n' :: b) =
      splitlinesLoop afterReturn buf (a ++ ['\n']) ++ splitlines b := by
  induction a generalizing afterReturn buf with
  | nil =>
    cases afterReturn with
    | false => rfl
    | true =>
      cases hbuf rfl
      rfl
  | cons c a ih =>
    simp only [List.cons_append, splitlinesLoop]
    split
    · exact ih false buf (by simp)
    · split
      · rw [ih _ [] fun _ => rfl, List.cons_append]
      · exact ih false _ (by simp)

/-- A line feed at the end makes no line, or an empty one. -/
theorem splitlinesLoop_last (a : Str) (afterReturn : Bool) (buf : Str) :
    splitlinesLoop afterReturn buf (a ++ ['\n']) = splitlinesLoop afterReturn buf a ∨
      splitlinesLoop afterReturn buf (a ++ ['\n']) = splitlinesLoop afterReturn buf a ++ [[]] := by
  induction a generalizing afterReturn buf with
  | nil =>
    cases afterReturn with
    | true => exact Or.inl rfl
    | false =>
      cases buf with
      | nil => exact Or.inr rfl
      | cons c buf => exact Or.inl rfl
  | cons c a ih =>
    simp only [List.cons_append, splitlinesLoop]
    split
    · exact ih false buf
    · split
      · exact (ih _ []).imp (congrArg _) (congrArg _)
      · exact ih false _

theorem numbered_append (xs ys : List Str) :
    numbered (xs ++ ys) = numbered xs ++ (numbered ys).map (later xs.length) := by
  rw [numbered, List.zipIdx_append, List.map_append, numbered, numbered, List.map_map]
  congr 1
  rw [Nat.zero_add, List.zipIdx_eq_map_add, List.map_map]
  refine List.map_congr_left fun e _ => ?_
  simp only [Function.comp_apply, later]
  congr 1

end Lines

section Loop

variable [Numerics F] (repr : Str → Str) (precision : Precision) (now : ℕ → Time)

theorem loop_append (xs ys : List (ℕ × Str)) (points : List (Point F)) (errors : List (ℕ × Str)) :
    parseBatchLoop repr precision now points errors (xs ++ ys) =
      (parseBatchLoop repr precision now points errors xs).bind fun found =>
        parseBatchLoop repr precision now found.1 found.2 ys := by
  induction xs generalizing points errors with
  | nil => rfl
  | cons line xs ih =>
    obtain ⟨number, raw⟩ := line
    rw [List.cons_append, parseBatchLoop, parseBatchLoop]
    split
    · exact ih points errors
    · split
      · exact ih _ errors
      · exact ih points _
      · rfl

/-- What was collected before stays in front. -/
theorem loop_collected (lines : List (ℕ × Str)) (points points' : List (Point F))
    (errors errors' : List (ℕ × Str)) :
    parseBatchLoop repr precision now (points ++ points') (errors ++ errors') lines =
      (parseBatchLoop repr precision now points' errors' lines).map fun found =>
        (points ++ found.1, errors ++ found.2) := by
  induction lines generalizing points' errors' with
  | nil => rfl
  | cons line lines ih =>
    obtain ⟨number, raw⟩ := line
    rw [parseBatchLoop, parseBatchLoop]
    split
    · exact ih points' errors'
    · split
      · rw [List.append_assoc]
        exact ih _ errors'
      · rw [List.append_assoc]
        exact ih points' _
      · rfl

/-- Only the numbers of the errors depend on where the lines stand. -/
theorem loop_later (before : ℕ) (lines : List (ℕ × Str)) (points : List (Point F))
    (errors : List (ℕ × Str)) :
    parseBatchLoop repr precision now points (errors.map (later before))
        (lines.map (later before)) =
      (parseBatchLoop repr precision (fun n => now (before + n)) points errors lines).map
        fun found => (found.1, found.2.map (later before)) := by
  induction lines generalizing points errors with
  | nil => rfl
  | cons line lines ih =>
    obtain ⟨number, raw⟩ := line
    rw [List.map_cons, later, parseBatchLoop, parseBatchLoop]
    split
    · exact ih points errors
    · dsimp only
      cases parseLine (F := F) precision none (now (before + number)) (strip raw) with
      | ok p => exact ih _ errors
      | error e =>
        cases e with
        | lineProtocolError e =>
          have hnext := ih points (errors ++ [(number, e.text repr)])
          rwa [List.map_append] at hnext
        | _ => rfl

/-- A line feed at the end changes nothing. -/
theorem parseBatch_last (body : Str) :
    parseBatch (F := F) repr precision now (body ++ ['\n']) = parseBatch repr precision now body := by
  rw [parseBatch, splitlines, parseBatch, splitlines]
  obtain hsame | hempty := splitlinesLoop_last body false []
  · rw [hsame]
  · rw [hempty, numbered_append, loop_append]
    -- the empty line is skipped
    cases parseBatchLoop (F := F) repr precision now [] [] (numbered (splitlinesLoop false [] body)) <;>
      rfl

theorem parseBatch_feed (a b : Str) : parseBatch (F := F) repr precision now (a ++ '\n' :: b) =
    (parseBatch repr precision now a).bind fun found =>
      (parseBatch repr precision (fun n => now (lineCount a + n)) b).map fun rest =>
        (found.1 ++ rest.1, found.2 ++ rest.2.map (later (lineCount a))) := by
  rw [← parseBatch_last repr precision now a, parseBatch, splitlines, splitlinesLoop_feed _ _ _ _ fun _ => rfl,
    numbered_append, loop_append, parseBatch, ← splitlines]
  refine congrArg _ (funext fun found => ?_)
  have hlater := loop_later (F := F) repr precision now (lineCount a) (numbered (splitlines b)) [] []
  have hfront := loop_collected repr precision now
    ((numbered (splitlines b)).map (later (lineCount a))) found.1 [] found.2 []
  rw [List.append_nil, List.append_nil] at hfront
  rw [List.map_nil] at hlater
  rw [← lineCount, hfront, hlater, parseBatch]
  cases parseBatchLoop (F := F) repr precision (fun n => now (lineCount a + n)) [] []
    (numbered (splitlines b)) <;> rfl

/-- Pieces parsed one after another, each from the line at which the one before ended. -/
def parsePieces : ℕ → List Str → Except Raised (List (Point F) × List (ℕ × Str))
  | _, [] => .ok ([], [])
  | before, piece :: pieces =>
    (parseBatch repr precision (fun n => now (before + n)) piece).bind fun found =>
      (parsePieces (before + lineCount piece) pieces).map fun rest =>
        (found.1 ++ rest.1, found.2.map (later before) ++ rest.2)

theorem later_later {α : Type} (before n : ℕ) (e : ℕ × α) :
    later before (later n e) = later (before + n) e := by
  rw [later, later, later, Nat.add_assoc]

theorem later_zero {α : Type} : (later 0 : ℕ × α → ℕ × α) = id :=
  funext fun e => Prod.ext (Nat.zero_add e.1) rfl

theorem parsePieces_eq (pieces : List Str) (before : ℕ) :
    parsePieces (F := F) repr precision now before pieces =
      (parseBatch repr precision (fun n => now (before + n)) (['\n'].intercalate pieces)).map
        fun found => (found.1, found.2.map (later before)) := by
  induction pieces generalizing before with
  | nil => rfl
  | cons piece pieces ih =>
    cases pieces with
    | nil =>
      rw [parsePieces, parsePieces, List.intercalate_singleton]
      cases parseBatch (F := F) repr precision (fun n => now (before + n)) piece with
      | ok found => simp [Except.bind, Except.map]
      | error e => rfl
    | cons next pieces =>
      have hjoin : ['\n'].intercalate (piece :: next :: pieces) =
          piece ++ '\n' :: ['\n'].intercalate (next :: pieces) := by
        simp [List.intercalate]
      rw [parsePieces, ih, hjoin, parseBatch_feed]
      simp only [Nat.add_assoc]
      cases parseBatch (F := F) repr precision (fun n => now (before + n)) piece with
      | error e => rfl
      | ok found =>
        simp only [Except.bind]
        cases parseBatch (F := F) repr precision (fun n => now (before + (lineCount piece + n)))
            (['\n'].intercalate (next :: pieces)) with
        | error e => rfl
        | ok rest => simp [Except.map, Function.comp_def, later_later]

/-- A payload is read as its pieces are, however it is cut at line feeds. -/
theorem parseBatch_intercalate (pieces : List Str) :
    parseBatch (F := F) repr precision now (['\n'].intercalate pieces) =
      parsePieces repr precision now 0 pieces := by
  rw [parsePieces_eq]
  simp only [Nat.zero_add]
  cases parseBatch (F := F) repr precision now (['\n'].intercalate pieces) with
  | error e => rfl
  | ok found => simp [Except.map, later_zero]

/-- The error of the second piece is on the third line of the whole. -/
example : (parseBatch id .ns (fun _ => 0) "a v=1 1\n\nb\nc v=2 1".toList :
      Except Raised (List (Point ℤ) × List (ℕ × Str))).map (fun found => (found.1.length, found.2)) =
    (parsePieces id .ns (fun _ => 0) 0 ["a v=1 1\n".toList, "b\nc v=2 1".toList] :
      Except Raised (List (Point ℤ) × List (ℕ × Str))).map (fun found => (found.1.length, found.2)) := by
  decide +kernel

end Loop

end TimescaleLp.PayloadCuts
