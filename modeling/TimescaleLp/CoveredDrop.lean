import TimescaleLp.Sequence

/-!
Chunks that eviction drops without an export. The decision compares the chunk
with the time ranges of the objects of the table, which need not hold the rows of
the chunk. What was exported is older than what hot holds, so a row is safe
exactly if write-through recorded it or a newer row of its key.
-/
namespace TimescaleLp.CoveredDrop

open ColdStore Tiering Schedule Sequence

universe u

section Pass

variable {V : Type u} (P : World V → Str → Time × Time → Prop)

/-- The condition holds for each chunk the loop drops as covered, in the state
it is dropped in. -/
def DropsOfTable (table : Str) (intervals : List (Time × Time)) (w : World V) :
    List (Time × Time) → Prop
  | [] => True
  | chunk :: chunks =>
    (isCovered chunk.1 chunk.2 intervals = true → P w table chunk) ∧
      DropsOfTable table intervals (evictChunk table intervals w chunk) chunks

def Drops (w : World V) : List (Str × List (Time × Time)) → Prop
  | [] => True
  | (table, chunks) :: eligible =>
    DropsOfTable P table (coverage w.cold table) w chunks ∧
      Drops (evictTable w table chunks) eligible

instance decidableDropsOfTable [∀ w table chunk, Decidable (P w table chunk)] (table : Str)
    (intervals : List (Time × Time)) (w : World V) :
    (chunks : List (Time × Time)) → Decidable (DropsOfTable P table intervals w chunks)
  | [] => isTrue trivial
  | chunk :: chunks =>
    have := decidableDropsOfTable table intervals (evictChunk table intervals w chunk) chunks
    inferInstanceAs (Decidable (_ ∧ _))

instance decidableDrops [∀ w table chunk, Decidable (P w table chunk)] (w : World V) :
    (eligible : List (Str × List (Time × Time))) → Decidable (Drops P w eligible)
  | [] => isTrue trivial
  | (table, chunks) :: eligible =>
    have := decidableDrops (evictTable w table chunks) eligible
    inferInstanceAs (Decidable (_ ∧ _))

end Pass

variable {F : Type}

/-- The rows of a chunk, as far as hot has them. -/
def chunkRows (w : World (Value F)) (table : Str) (chunk : Time × Time) : Set (Row (Value F)) :=
  {r | r ∈ Engine.hotRange (w.hot table) chunk.1 chunk.2}

def HeldInCold (w : World (Value F)) (table : Str) (chunk : Time × Time) : Prop :=
  Covers (held w.cold table) (chunkRows w table chunk)

instance (w : World (Value F)) (table : Str) (chunk : Time × Time) :
    Decidable (HeldInCold w table chunk) :=
  decidable_of_iff (∀ r ∈ Engine.hotRange (w.hot table) chunk.1 chunk.2,
      ∃ s ∈ heldRows w.cold table, s.key = r.key ∧ r.seq ≤ s.seq) (by
    simp only [HeldInCold, Versions.Covers, chunkRows, Set.mem_ofPred_eq, mem_heldRows_iff])

/-- Each row of the chunk, or a newer one of its key, was recorded by a write
with write-through. -/
def WrittenThrough (recorded : List (Batch F)) (w : World (Value F)) (table : Str)
    (chunk : Time × Time) : Prop :=
  Covers (rowsOf recorded table) (chunkRows w table chunk)

/-- What a pass drops as covered, cold holds. -/
def SafeDrops (h : History F) : Call F → Prop
  | .evict eligible => Drops HeldInCold h.service.toWorld eligible
  | _ => True

instance : ∀ (h : History F) (call : Call F), Decidable (SafeDrops h call)
  | h, .evict eligible => inferInstanceAs (Decidable (Drops HeldInCold h.service.toWorld eligible))
  | _, .write .. | _, .delete .. | _, .compact _ => isTrue trivial

/-- What a pass drops as covered was written through. -/
def WrittenDrops (h : History F) : Call F → Prop
  | .evict eligible => Drops (WrittenThrough h.recorded) h.service.toWorld eligible
  | _ => True

section Rows

variable {w : World (Value F)} {recorded : List (Batch F)}

/-- An exported row is too old to stand for a hot row of its key. -/
theorem heldInCold_iff (h : Inv w recorded) (table : Str) (chunk : Time × Time) :
    HeldInCold w table chunk ↔ WrittenThrough recorded w table chunk := by
  constructor
  · intro hheld r hr
    obtain ⟨s, ⟨k, e, rows, hk, hm, -, hrows, hs⟩, hkey, hseq⟩ := hheld r hr
    have hhot : (w.hot table).get? s.key = some r.stored := by
      rw [hkey]
      exact ((Engine.mem_hotRange_iff _ _ _ r).mp hr).1
    by_cases hin : k ∈ exportKeys
    · have hlt := (h.exported table s ⟨k, e, rows, hk, hm, hin, hrows, hs⟩).2 r.stored hhot
      exact absurd hseq (Nat.not_le.mpr hlt)
    · exact ⟨s, h.vault.kept_subset table ⟨k, e, rows, hk, hm, hin, hrows, hs⟩, hkey, hseq⟩
  · intro hwritten
    have hkept := (h.vault.covers table).mono (heldIn_mono _ _ fun _ _ _ => trivial)
      (Set.Subset.refl _)
    exact hkept.trans hwritten

theorem dropsOfTable_iff (h : Inv w recorded) (table : Str) (intervals : List (Time × Time))
    (chunks : List (Time × Time)) : DropsOfTable HeldInCold table intervals w chunks ↔
      DropsOfTable (WrittenThrough recorded) table intervals w chunks := by
  induction chunks generalizing w with
  | nil => exact Iff.rfl
  | cons chunk chunks ih =>
    exact and_congr (imp_congr_right fun _ => heldInCold_iff h table chunk) (ih h.evictChunk)

theorem drops_iff (h : Inv w recorded) (eligible : List (Str × List (Time × Time))) :
    Drops HeldInCold w eligible ↔ Drops (WrittenThrough recorded) w eligible := by
  induction eligible generalizing w with
  | nil => exact Iff.rfl
  | cons e eligible ih =>
    exact and_congr (dropsOfTable_iff h e.1 _ e.2) (ih (h.evictTable e.1 e.2))

end Rows

/-- Every drop of a run is safe exactly if what it drops was written through. -/
theorem safeDrops_iff [Numerics F] (digest : Str → ℕ) (clock : ℕ) (calls : List (Call F)) :
    Runs.Along (step digest) SafeDrops (start clock) calls ↔
      Runs.Along (step digest) WrittenDrops (start clock) calls := by
  refine Runs.along_congr (I := fun h => Inv h.service.toWorld h.recorded)
    (fun _ _ _ hinv hstep => step_inv digest hinv hstep) ?_ (start_inv clock)
  intro h call hinv
  cases call with
  | evict eligible => exact drops_iff hinv eligible
  | _ => exact Iff.rfl

/-- A staging object of one batch spans a day in which it has no row; a row of
that day is written without write-through, and its chunk counts as covered. -/
def gap : List (Call ℤ) :=
  [.write true (fun _ => none) [cpuPoint 0 1, cpuPoint 172800000000 2],
    .write false (fun _ => none) [cpuPoint 86400000000 3],
    .evict [("cpu".toList, [(86400000000, 172800000000)])]]

theorem gap_unsafe : ¬Runs.Along (step fun _ => 0) SafeDrops (start 1) gap := by
  decide +kernel

end TimescaleLp.CoveredDrop
