import TimescaleLp.Tiering
import Mathlib.Data.List.Induction

/-!
Eviction of chunks that cold does not cover. Each chunk is exported to an object
named after the UTC day it starts on, so of the chunks of one day the last one
exported is what the object holds, and what was stored there before is replaced.
-/
namespace TimescaleLp.Eviction

open ColdStore Tiering

universe u

variable {V : Type u}

/-- The objects the chunks of a table are exported to. -/
def exports (table : Str) (chunks : List (Time × Time)) : List Str :=
  chunks.map fun chunk => exportKey table chunk.1

/-- No later chunk of the list is exported to the same object. -/
def LastOfDay (table : Str) (chunks : List (Time × Time)) (chunk : Time × Time) : Prop :=
  ∃ before after, chunks = before ++ chunk :: after ∧
    exportKey table chunk.1 ∉ exports table after

/-- An export key has one last chunk. -/
theorem LastOfDay.unique {table : Str} {chunks : List (Time × Time)} {a b : Time × Time}
    (ha : LastOfDay table chunks a) (hb : LastOfDay table chunks b)
    (hkey : exportKey table a.1 = exportKey table b.1) : a = b := by
  obtain ⟨before, after, rfl, hafter⟩ := ha
  obtain ⟨before', after', hsplit, hafter'⟩ := hb
  rcases List.append_eq_append_iff.mp hsplit with ⟨mid, hmid, hrest⟩ | ⟨mid, hmid, hrest⟩
  · cases mid with
    | nil => exact (List.cons.inj hrest).1
    | cons x mid =>
      rw [(List.cons.inj hrest).2] at hafter
      exact absurd (by simp [exports, hkey]) hafter
  · cases mid with
    | nil => exact ((List.cons.inj hrest).1).symm
    | cons x mid =>
      rw [(List.cons.inj hrest).2] at hafter'
      exact absurd (by simp [exports, hkey]) hafter'

def Disjoint (a b : Time × Time) : Prop := a.2 ≤ b.1 ∨ b.2 ≤ a.1

/-- What is stored at the object of a table's export was recorded for the table. -/
def ExportsOk (c : Cold V) (table : Str) (chunks : List (Time × Time)) : Prop :=
  ∀ k ∈ exports table chunks, ∀ e, c.manifest.get? k = some e → e.measurement = table

/-- What eviction of a list of chunks leaves, none of them covered. -/
structure Exported (w w' : World V) (table : Str) (chunks : List (Time × Time)) : Prop where
  hot : ∀ k, (w'.hot table).get? k =
    if ∃ chunk ∈ chunks, chunk.1 ≤ k.time ∧ k.time < chunk.2 then none
    else (w.hot table).get? k
  files : ∀ k, k ∉ exports table chunks → w'.cold.files k = w.cold.files k
  entries : ∀ k, k ∉ exports table chunks →
    w'.cold.manifest.get? k = w.cold.manifest.get? k
  exported : ∀ k ∈ exports table chunks, ∃ chunk, LastOfDay table chunks chunk ∧
    exportKey table chunk.1 = k ∧ ∃ rows, w'.cold.files k = some rows ∧
      ∀ r, r ∈ rows ↔ r ∈ Engine.hotRange (w.hot table) chunk.1 chunk.2
  listed : ∀ k ∈ exports table chunks, ∃ e, w'.cold.manifest.get? k = some e ∧
    e.measurement = table

theorem get?_dropChunk (hot : Table V) (start stop : Time) (k : Key) :
    (dropChunk hot start stop).get? k =
      if start ≤ k.time ∧ k.time < stop then none else hot.get? k := by
  rw [dropChunk, Dict.get?_filter]
  split
  · rename_i h
    cases hot.get? k <;> simp [h]
  · rename_i h
    have htest : (!(decide (start ≤ k.time) && decide (k.time < stop))) = true := by
      rw [← Bool.decide_and, Bool.not_eq_true', decide_eq_false_iff_not]
      exact h
    cases hot.get? k <;> simp [htest]

section Chunk

variable {table : Str} {intervals : List (Time × Time)} {w : World V} {chunk : Time × Time}

theorem hot_evictChunk (table' : Str) : (evictChunk table intervals w chunk).hot table' =
    if table' = table then dropChunk (w.hot table) chunk.1 chunk.2 else w.hot table' := by
  rw [evictChunk]
  split <;> simp [Function.update_apply]

theorem nextSeq_evictChunk : (evictChunk table intervals w chunk).nextSeq = w.nextSeq := by
  rw [evictChunk]
  split <;> rfl

/-- A covered chunk is dropped and cold is left alone. -/
theorem cold_evictChunk_covered (h : isCovered chunk.1 chunk.2 intervals = true) :
    (evictChunk table intervals w chunk).cold = w.cold := by
  rw [evictChunk, if_pos h]

variable (h : isCovered chunk.1 chunk.2 intervals = false)
include h

theorem files_evictChunk (k : Str) : (evictChunk table intervals w chunk).cold.files k =
    if k = exportKey table chunk.1 then some (Engine.hotRange (w.hot table) chunk.1 chunk.2)
    else w.cold.files k := by
  rw [evictChunk, if_neg (by simp [h])]
  exact files_writeTable _ _ _ _

theorem get?_evictChunk_of_ne {k : Str} (hk : k ≠ exportKey table chunk.1) :
    (evictChunk table intervals w chunk).cold.manifest.get? k = w.cold.manifest.get? k := by
  rw [evictChunk, if_neg (by simp [h])]
  exact get?_record_of_ne _ _ hk

variable (table w) in
theorem get?_evictChunk_self : ∃ e,
    (evictChunk table intervals w chunk).cold.manifest.get? (exportKey table chunk.1) = some e ∧
      ((∀ old, w.cold.manifest.get? (exportKey table chunk.1) = some old →
        old.measurement = table) → e.measurement = table) := by
  rw [evictChunk, if_neg (by simp [h])]
  refine ⟨_, get?_record_self _ _, ?_⟩
  intro hold
  show (onConflict _ (w.cold.manifest.get? (exportKey table chunk.1))).measurement = table
  cases hentry : w.cold.manifest.get? (exportKey table chunk.1) with
  | none => rfl
  | some old => exact hold old hentry

end Chunk

theorem exports_append (table : Str) (chunks : List (Time × Time)) (chunk : Time × Time) :
    exports table (chunks ++ [chunk]) = exports table chunks ++ [exportKey table chunk.1] := by
  simp [exports]

theorem mem_exports_append {table : Str} {chunks : List (Time × Time)} {chunk : Time × Time}
    {k : Str} : k ∈ exports table (chunks ++ [chunk]) ↔
      k ∈ exports table chunks ∨ k = exportKey table chunk.1 := by
  rw [exports_append, List.mem_append, List.mem_singleton]

theorem exported_nil (w : World V) (table : Str) : Exported w w table [] :=
  ⟨by simp, fun _ _ => rfl, fun _ _ => rfl, by simp [exports], by simp [exports]⟩

/-- One more chunk: the ones before it took none of its rows. -/
theorem Exported.append {w w' : World V} {table : Str} {chunks : List (Time × Time)}
    (h : Exported w w' table chunks) {chunk : Time × Time} {intervals : List (Time × Time)}
    (hcovered : isCovered chunk.1 chunk.2 intervals = false)
    (hdisjoint : ∀ ch ∈ chunks, Disjoint ch chunk)
    (hok : ExportsOk w.cold table (chunks ++ [chunk])) :
    Exported w (evictChunk table intervals w' chunk) table (chunks ++ [chunk]) := by
  refine ⟨?_, ?_, ?_, ?_, ?_⟩
  · intro k
    rw [hot_evictChunk, if_pos rfl, get?_dropChunk, h.hot k]
    simp only [List.mem_append, List.mem_singleton, or_and_right, exists_or, exists_eq_left]
    by_cases hin : ∃ ch ∈ chunks, ch.1 ≤ k.time ∧ k.time < ch.2 <;>
      by_cases hc : chunk.1 ≤ k.time ∧ k.time < chunk.2 <;>
      simp only [hin, hc, and_self, true_or, false_or, or_self, if_true, if_false]
  · intro k hk
    rw [mem_exports_append, not_or] at hk
    rw [files_evictChunk hcovered, if_neg hk.2, h.files k hk.1]
  · intro k hk
    rw [mem_exports_append, not_or] at hk
    rw [get?_evictChunk_of_ne hcovered hk.2, h.entries k hk.1]
  · intro k hk
    by_cases hkc : k = exportKey table chunk.1
    · subst hkc
      refine ⟨chunk, ⟨chunks, [], rfl, by simp [exports]⟩, rfl,
        Engine.hotRange (w'.hot table) chunk.1 chunk.2, ?_, fun r => ?_⟩
      · rw [files_evictChunk hcovered, if_pos rfl]
      · rw [Engine.mem_hotRange_iff, Engine.mem_hotRange_iff, h.hot]
        refine and_congr_left fun hr => ?_
        rw [if_neg]
        intro hbefore
        obtain ⟨ch, hch, hin⟩ := hbefore
        have hdis := hdisjoint ch hch
        unfold Disjoint at hdis
        grind
    · obtain ⟨ch, ⟨before, after, rfl, hafter⟩, hkey, rows, hrows, hmem⟩ :=
        h.exported k ((mem_exports_append.mp hk).resolve_right hkc)
      refine ⟨ch, ⟨before, after ++ [chunk], by simp, ?_⟩, hkey, rows, ?_, hmem⟩
      · rw [mem_exports_append, not_or]
        exact ⟨hafter, fun heq => hkc (hkey.symm.trans heq)⟩
      · rw [files_evictChunk hcovered, if_neg hkc, hrows]
  · intro k hk
    by_cases hkc : k = exportKey table chunk.1
    · subst hkc
      obtain ⟨e, he, hm⟩ := get?_evictChunk_self table w' hcovered
      refine ⟨e, he, hm ?_⟩
      intro old hold
      by_cases hin : exportKey table chunk.1 ∈ exports table chunks
      · obtain ⟨e', he', hm'⟩ := h.listed _ hin
        cases hold.symm.trans he'
        exact hm'
      · rw [h.entries _ hin] at hold
        exact hok _ hk old hold
    · obtain ⟨e, he, hm⟩ := h.listed k ((mem_exports_append.mp hk).resolve_right hkc)
      exact ⟨e, (get?_evictChunk_of_ne hcovered hkc).trans he, hm⟩

/-- The chunks are exported one after another, each from the rows it had. -/
theorem exported_foldl (table : Str) (intervals : List (Time × Time)) (w : World V)
    (chunks : List (Time × Time))
    (hcovered : ∀ chunk ∈ chunks, isCovered chunk.1 chunk.2 intervals = false)
    (hdisjoint : chunks.Pairwise Disjoint) (hok : ExportsOk w.cold table chunks) :
    Exported w (chunks.foldl (evictChunk table intervals) w) table chunks := by
  induction chunks using List.reverseRecOn with
  | nil => exact exported_nil w table
  | append_singleton chunks chunk ih =>
    obtain ⟨hpairs, -, hlast⟩ := List.pairwise_append.mp hdisjoint
    have hbefore := ih (fun ch hch => hcovered ch (List.mem_append_left _ hch)) hpairs
      (fun k hk => hok k (mem_exports_append.mpr (Or.inl hk)))
    rw [List.foldl_append]
    exact hbefore.append (hcovered chunk (by simp)) (fun ch hch => hlast ch hch chunk (by simp)) hok

/-- What cold holds after the chunks are exported: the objects that are not
exported to, and the rows of the last chunk of each day. -/
theorem mem_held_iff {w w' : World V} {table : Str} {chunks : List (Time × Time)}
    (h : Exported w w' table chunks) (r : Row V) : r ∈ held w'.cold table ↔
      r ∈ heldIn w.cold table (fun k _ => k ∉ exports table chunks) ∨
        ∃ chunk, LastOfDay table chunks chunk ∧
          r ∈ Engine.hotRange (w.hot table) chunk.1 chunk.2 := by
  constructor
  · rintro ⟨k, e, rows, hk, hm, -, hrows, hr⟩
    by_cases hin : k ∈ exports table chunks
    · obtain ⟨chunk, hlast, -, rows', hrows', hmem⟩ := h.exported k hin
      cases hrows.symm.trans hrows'
      exact Or.inr ⟨chunk, hlast, (hmem r).mp hr⟩
    · rw [h.entries k hin] at hk
      rw [h.files k hin] at hrows
      exact Or.inl ⟨k, e, rows, hk, hm, hin, hrows, hr⟩
  · rintro (⟨k, e, rows, hk, hm, hin, hrows, hr⟩ | ⟨chunk, hlast, hr⟩)
    · exact ⟨k, e, rows, (h.entries k hin).trans hk, hm, trivial, (h.files k hin).trans hrows, hr⟩
    · obtain ⟨before, after, hsplit, hafter⟩ := id hlast
      have hin : exportKey table chunk.1 ∈ exports table chunks := by
        rw [hsplit]
        simp [exports]
      obtain ⟨chunk', hlast', hkey, rows, hrows, hmem⟩ := h.exported _ hin
      obtain ⟨e, he, hm⟩ := h.listed _ hin
      have hsame : chunk' = chunk := hlast'.unique hlast hkey
      exact ⟨_, e, rows, he, hm, trivial, hrows, (hmem r).mpr (hsame ▸ hr)⟩

section Tables

/-- Compacted and exported objects are listed for the table in their key. -/
def ColdKeysOk (c : Cold V) : Prop :=
  ∀ table day a e, '/' ∉ day → c.manifest.get? (coldKey table day a) = some e →
    e.measurement = table

/-- Nothing about a table has changed, neither its rows nor its objects. -/
structure SameTable (w w' : World V) (table : Str) : Prop where
  hot : w'.hot table = w.hot table
  listing : objects w'.cold table none = objects w.cold table none
  heldIn : ∀ P, heldIn w'.cold table P = heldIn w.cold table P

variable {table other : Str} {w w' : World V} {intervals : List (Time × Time)}

theorem SameTable.refl (w : World V) (table : Str) : SameTable w w table :=
  ⟨rfl, rfl, fun _ => rfl⟩

theorem SameTable.trans {w'' : World V} (h : SameTable w w' table)
    (h' : SameTable w' w'' table) : SameTable w w'' table :=
  ⟨h'.hot.trans h.hot, h'.listing.trans h.listing, fun P => (h'.heldIn P).trans (h.heldIn P)⟩

theorem coldKeysOk_evictChunk (chunk : Time × Time) (h : ColdKeysOk w.cold) :
    ColdKeysOk (evictChunk table intervals w chunk).cold := by
  cases hcov : isCovered chunk.1 chunk.2 intervals with
  | true =>
    rw [cold_evictChunk_covered hcov]
    exact h
  | false =>
    intro table' day a e hday he
    by_cases hk : coldKey table' day a = exportKey table chunk.1
    · obtain ⟨e', he', hm⟩ := get?_evictChunk_self table w hcov
      rw [hk, he'] at he
      cases he
      rw [(coldKey_inj hday (slash_notMem_dayOf _) hk).1]
      exact hm fun old hold => h _ _ _ old (slash_notMem_dayOf _) hold
    · rw [get?_evictChunk_of_ne hcov hk] at he
      exact h table' day a e hday he

/-- The chunks of one table leave every other table alone. -/
theorem sameTable_evictChunk (chunk : Time × Time) (h : ColdKeysOk w.cold) (hne : table ≠ other) :
    SameTable w (evictChunk other intervals w chunk) table := by
  have hhot : (evictChunk other intervals w chunk).hot table = w.hot table := by
    rw [hot_evictChunk, if_neg hne]
  cases hcov : isCovered chunk.1 chunk.2 intervals with
  | true =>
    refine ⟨hhot, ?_, ?_⟩ <;> simp only [cold_evictChunk_covered hcov, implies_true]
  | false =>
    have hold : ∀ e, w.cold.manifest.get? (exportKey other chunk.1) = some e →
        e.measurement = other := fun e he => h _ _ _ e (slash_notMem_dayOf _) he
    refine ⟨hhot, ?_, ?_⟩
    · rw [evictChunk, if_neg (by simp [hcov])]
      exact objects_record _ _ _ _ hne.symm hold
    · intro P
      have hkey : ∀ k e, e.measurement = table →
          ((evictChunk other intervals w chunk).cold.manifest.get? k = some e ↔
            w.cold.manifest.get? k = some e) ∧
          (w.cold.manifest.get? k = some e ∨
            (evictChunk other intervals w chunk).cold.manifest.get? k = some e →
              (evictChunk other intervals w chunk).cold.files k = w.cold.files k) := by
        intro k e hm
        by_cases hk : k = exportKey other chunk.1
        · subst hk
          obtain ⟨e', he', hm'⟩ := get?_evictChunk_self other w hcov
          have hnew : ∀ e, (evictChunk other intervals w chunk).cold.manifest.get?
              (exportKey other chunk.1) = some e → e.measurement = other := by
            intro e he
            cases he'.symm.trans he
            exact hm' hold
          refine ⟨⟨fun he => ?_, fun he => ?_⟩, fun he => ?_⟩
          · exact absurd (hm.symm.trans (hnew e he)) hne
          · exact absurd (hm.symm.trans (hold e he)) hne
          · exact absurd (hm.symm.trans (he.elim (hold e) (hnew e))) hne
        · rw [get?_evictChunk_of_ne hcov hk, files_evictChunk hcov, if_neg hk]
          exact ⟨Iff.rfl, fun _ => rfl⟩
      ext r
      constructor
      · rintro ⟨k, e, rows, hk, hm, hP, hrows, hr⟩
        obtain ⟨hentry, hfile⟩ := hkey k e hm
        exact ⟨k, e, rows, hentry.mp hk, hm, hP, hfile (Or.inr hk) ▸ hrows, hr⟩
      · rintro ⟨k, e, rows, hk, hm, hP, hrows, hr⟩
        obtain ⟨hentry, hfile⟩ := hkey k e hm
        exact ⟨k, e, rows, hentry.mpr hk, hm, hP, (hfile (Or.inl hk)).trans hrows, hr⟩

variable (table other) in
theorem evictTable_frame (chunks : List (Time × Time)) (h : ColdKeysOk w.cold) :
    ColdKeysOk (evictTable w other chunks).cold ∧
      (table ≠ other → SameTable w (evictTable w other chunks) table) := by
  rw [evictTable]
  generalize coverage w.cold other = intervals
  induction chunks generalizing w with
  | nil => exact ⟨h, fun _ => SameTable.refl w table⟩
  | cons chunk chunks ih =>
    obtain ⟨hok, hsame⟩ := ih (coldKeysOk_evictChunk chunk h)
    exact ⟨hok, fun hne => (sameTable_evictChunk chunk h hne).trans (hsame hne)⟩

variable (table) in
theorem evictTables_frame (eligible : List (Str × List (Time × Time))) (h : ColdKeysOk w.cold) :
    ColdKeysOk (eligible.foldl (fun w e => evictTable w e.1 e.2) w).cold ∧
      (table ∉ eligible.map Prod.fst →
        SameTable w (eligible.foldl (fun w e => evictTable w e.1 e.2) w) table) := by
  induction eligible generalizing w with
  | nil => exact ⟨h, fun _ => SameTable.refl w table⟩
  | cons e eligible ih =>
    obtain ⟨hok, hsame⟩ := evictTable_frame table e.1 e.2 h
    obtain ⟨hok', hsame'⟩ := ih hok
    refine ⟨hok', fun hnot => ?_⟩
    rw [List.map_cons, List.mem_cons, not_or] at hnot
    exact (hsame hnot.1).trans (hsame' hnot.2)

end Tables

/-- Every row the pass drops, and every row that cold held, can be read from cold. -/
def AllReadable (w w' : World V) (table : Str) (chunks : List (Time × Time)) : Prop :=
  ∀ r, (∃ chunk ∈ chunks, r ∈ Engine.hotRange (w.hot table) chunk.1 chunk.2) ∨
    r ∈ held w.cold table → r ∈ held w'.cold table

/-- The rows of a chunk that is not the last of its day, and the rows of an
object at a key that is exported to, are also in an object that is not exported
to or in the last chunk of a day. -/
def KeptElsewhere (w : World V) (table : Str) (chunks : List (Time × Time)) : Prop :=
  ∀ r, (∃ chunk ∈ chunks, r ∈ Engine.hotRange (w.hot table) chunk.1 chunk.2) ∨
    r ∈ heldIn w.cold table (fun k _ => k ∈ exports table chunks) →
      r ∈ heldIn w.cold table (fun k _ => k ∉ exports table chunks) ∨
        ∃ chunk, LastOfDay table chunks chunk ∧
          r ∈ Engine.hotRange (w.hot table) chunk.1 chunk.2

/-- Chunks of different days whose export objects are new lose nothing. -/
theorem keptElsewhere_of_fresh {w : World V} {table : Str} {chunks : List (Time × Time)}
    (hdays : (exports table chunks).Nodup)
    (hfresh : ∀ k ∈ exports table chunks, w.cold.manifest.get? k = none) :
    KeptElsewhere w table chunks := by
  rintro r (⟨chunk, hchunk, hr⟩ | ⟨k, e, rows, hk, -, hin, -⟩)
  · obtain ⟨before, after, rfl⟩ := List.append_of_mem hchunk
    refine Or.inr ⟨chunk, ⟨before, after, rfl, ?_⟩, hr⟩
    rw [exports, List.map_append, List.map_cons] at hdays
    exact (List.nodup_cons.mp (List.nodup_append.mp hdays).2.1).1
  · rw [hfresh k hin] at hk
    contradiction

/-- A pass over chunks that cold does not cover loses no row exactly if what its
exports replace is kept elsewhere. -/
theorem allReadable_iff {w : World V} {eligible : List (Str × List (Time × Time))} {table : Str}
    {chunks : List (Time × Time)} (hok : ColdKeysOk w.cold)
    (htables : (eligible.map Prod.fst).Nodup) (hmem : (table, chunks) ∈ eligible)
    (hdisjoint : chunks.Pairwise Disjoint)
    (hcovered : ∀ chunk ∈ chunks, isCovered chunk.1 chunk.2 (coverage w.cold table) = false) :
    AllReadable w (evictOnce w eligible).1 table chunks ↔ KeptElsewhere w table chunks := by
  obtain ⟨before, after, rfl⟩ := List.append_of_mem hmem
  rw [List.map_append, List.map_cons, List.nodup_middle, List.nodup_cons, List.mem_append,
    not_or] at htables
  obtain ⟨⟨hbefore, hafter⟩, -⟩ := htables
  obtain ⟨hok₁, hsame₁⟩ := evictTables_frame table before hok
  have hsame₁ := hsame₁ hbefore
  have hheld : ∀ r, r ∈ held (evictOnce w (before ++ (table, chunks) :: after)).1.cold table ↔
      r ∈ heldIn w.cold table (fun k _ => k ∉ exports table chunks) ∨
        ∃ chunk, LastOfDay table chunks chunk ∧
          r ∈ Engine.hotRange (w.hot table) chunk.1 chunk.2 := by
    intro r
    simp only [evictOnce, List.foldl_append, List.foldl_cons]
    generalize before.foldl (fun w e => evictTable w e.1 e.2) w = w₁ at hok₁ hsame₁
    have hcoverage : coverage w₁.cold table = coverage w.cold table := by
      rw [coverage, coverage, hsame₁.listing]
    obtain ⟨hok₂, -⟩ := evictTable_frame table table chunks hok₁
    obtain ⟨-, hsame₃⟩ := evictTables_frame table after hok₂
    have hexports : ExportsOk w₁.cold table chunks := by
      intro k hk e he
      obtain ⟨chunk, -, rfl⟩ := List.mem_map.mp hk
      exact hok₁ _ _ _ e (slash_notMem_dayOf _) he
    rw [held, (hsame₃ hafter).heldIn]
    refine (mem_held_iff (exported_foldl table _ w₁ chunks ?_ hdisjoint hexports) r).trans ?_
    · rw [hcoverage]
      exact hcovered
    · rw [hsame₁.heldIn, hsame₁.hot]
  have hsplit : ∀ r, r ∈ held w.cold table ↔
      r ∈ heldIn w.cold table (fun k _ => k ∈ exports table chunks) ∨
        r ∈ heldIn w.cold table (fun k _ => k ∉ exports table chunks) := by
    intro r
    constructor
    · rintro ⟨k, e, rows, hk, hm, -, hrows, hr⟩
      by_cases hin : k ∈ exports table chunks
      · exact Or.inl ⟨k, e, rows, hk, hm, hin, hrows, hr⟩
      · exact Or.inr ⟨k, e, rows, hk, hm, hin, hrows, hr⟩
    · rintro (⟨k, e, rows, hk, hm, -, hrows, hr⟩ | ⟨k, e, rows, hk, hm, -, hrows, hr⟩) <;>
        exact ⟨k, e, rows, hk, hm, trivial, hrows, hr⟩
  constructor
  · intro h r hr
    exact (hheld r).mp (h r (hr.imp_right fun hr => (hsplit r).mpr (Or.inl hr)))
  · rintro h r (hr | hr)
    · exact (hheld r).mpr (h r (Or.inl hr))
    · rcases (hsplit r).mp hr with hr | hr
      · exact (hheld r).mpr (h r (Or.inr hr))
      · exact (hheld r).mpr (Or.inl hr)

/-- A table with two rows that were written with write-through off. -/
def hotOnly (time time' : Time) : World Unit where
  nextSeq := 3
  hot := fun table => if table = "cpu".toList then
    (Dict.single ⟨time, 0⟩ ⟨1, fun _ => none⟩).set ⟨time', 0⟩ ⟨2, fun _ => none⟩ else Dict.empty
  cold := ColdStore.empty

theorem coldKeysOk_hotOnly (time time' : Time) : ColdKeysOk (hotOnly time time').cold := by
  simp [ColdKeysOk, hotOnly, ColdStore.empty]

def wholeDays : List (Time × Time) := [(0, 86400000000), (86400000000, 172800000000)]

theorem wholeDays_readable : AllReadable (hotOnly 3600000000 90000000000)
    (evictOnce (hotOnly 3600000000 90000000000) [("cpu".toList, wholeDays)]).1 "cpu".toList
    wholeDays := by
  refine (allReadable_iff (coldKeysOk_hotOnly _ _) ?_ ?_ ?_ ?_).mpr
    (keptElsewhere_of_fresh ?_ fun _ _ => rfl)
  · exact List.nodup_singleton _
  · exact List.mem_singleton_self _
  · simp [wholeDays, Disjoint]
  · decide +kernel
  · decide +kernel

def halfDays : List (Time × Time) := [(0, 43200000000), (43200000000, 86400000000)]

/-- With a chunk interval of twelve hours the export of the afternoon replaces
the export of the morning. -/
theorem halfDays_lost : ∃ (w : World Unit) (table : Str) (chunks : List (Time × Time)),
    ColdKeysOk w.cold ∧ chunks.Pairwise Disjoint ∧
      (∀ chunk ∈ chunks, isCovered chunk.1 chunk.2 (coverage w.cold table) = false) ∧
      ¬AllReadable w (evictOnce w [(table, chunks)]).1 table chunks := by
  refine ⟨hotOnly 3600000000 46800000000, "cpu".toList, halfDays, coldKeysOk_hotOnly _ _,
    by simp [halfDays, Disjoint], by decide +kernel, ?_⟩
  intro h
  have hmorning : (⟨⟨3600000000, 0⟩, 1, fun _ => none⟩ : Row Unit) ∈ Engine.hotRange
      ((hotOnly 3600000000 46800000000).hot "cpu".toList) 0 43200000000 := by
    rw [Engine.mem_hotRange_iff]
    exact ⟨rfl, by norm_num, by norm_num⟩
  have hheld := h _ (Or.inl ⟨(0, 43200000000), by simp [halfDays], hmorning⟩)
  have hnone : ∀ r ∈ heldRows (evictOnce (hotOnly 3600000000 46800000000)
      [("cpu".toList, halfDays)]).1.cold "cpu".toList, r.key ≠ ⟨3600000000, 0⟩ := by
    decide +kernel
  exact hnone _ ((mem_heldRows_iff _ _ _).mpr hheld) rfl

end TimescaleLp.Eviction
