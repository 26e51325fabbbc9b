import Mathlib.Data.Set.Basic
import Mathlib.Data.List.Nodup
import Mathlib.Order.Defs.LinearOrder

/-!
Rows that carry a key and a version. A read returns a newest row of a key. One
set of rows covers another when it has, for each of its rows, a row of the same
key that is at least as new. Covering is what a merge of overlapping files has
to preserve: between a set and a covering subset no read can tell a difference.
-/
namespace TimescaleLp.Versions

universe u v w

variable {ρ : Type u} {κ : Type v} {ν : Type w} [LinearOrder ν] (key : ρ → κ) (ver : ρ → ν)

/-- The row has the key and no row of that key in the set is newer. -/
def Newest (S : Set ρ) (k : κ) (r : ρ) : Prop :=
  r ∈ S ∧ key r = k ∧ ∀ s ∈ S, key s = k → ver s ≤ ver r

def Covers (S T : Set ρ) : Prop :=
  ∀ r ∈ T, ∃ s ∈ S, key s = key r ∧ ver r ≤ ver s

/-- A key and a version determine the row. -/
def Distinct (S : Set ρ) : Prop :=
  ∀ r ∈ S, ∀ s ∈ S, key r = key s → ver r = ver s → r = s

variable {key ver}

omit [LinearOrder ν] in
theorem Distinct.mono {S T : Set ρ} (hsub : S ⊆ T) (h : Distinct key ver T) :
    Distinct key ver S :=
  fun r hr s hs => h r (hsub hr) s (hsub hs)

theorem covers_of_subset {S T : Set ρ} (h : T ⊆ S) : Covers key ver S T :=
  fun r hr => ⟨r, h hr, rfl, le_rfl⟩

theorem Covers.trans {S T U : Set ρ} (h : Covers key ver S T) (h' : Covers key ver T U) :
    Covers key ver S U := by
  intro r hr
  obtain ⟨s, hs, hkey, hver⟩ := h' r hr
  obtain ⟨t, ht, hkey', hver'⟩ := h s hs
  exact ⟨t, ht, hkey'.trans hkey, hver.trans hver'⟩

theorem Covers.union {S T U : Set ρ} (h : Covers key ver S T) (h' : Covers key ver S U) :
    Covers key ver S (T ∪ U) := by
  rintro r (hr | hr)
  · exact h r hr
  · exact h' r hr

theorem Covers.mono {S S' T T' : Set ρ} (h : Covers key ver S T) (hS : S ⊆ S') (hT : T' ⊆ T) :
    Covers key ver S' T' :=
  (covers_of_subset hS).trans (h.trans (covers_of_subset hT))

/-- A covering subset answers every read like the whole set. -/
theorem newest_iff_of_covers {S T : Set ρ} (hsub : S ⊆ T) (hcov : Covers key ver S T)
    (hdist : Distinct key ver T) (k : κ) (r : ρ) :
    Newest key ver S k r ↔ Newest key ver T k r := by
  constructor
  · rintro ⟨hr, hkey, hmax⟩
    refine ⟨hsub hr, hkey, ?_⟩
    intro t ht htk
    obtain ⟨s, hs, hsk, hver⟩ := hcov t ht
    exact hver.trans (hmax s hs (hsk.trans htk))
  · rintro ⟨hr, hkey, hmax⟩
    obtain ⟨s, hs, hsk, hver⟩ := hcov r hr
    have heq : s = r := hdist s (hsub hs) r hr hsk
      (le_antisymm (hmax s (hsub hs) (hsk.trans hkey)) hver)
    subst heq
    exact ⟨hs, hkey, fun t ht htk => hmax t (hsub ht) htk⟩

/-- A read of a key sees the rows of the key only. -/
theorem newest_congr {S T : Set ρ} {k : κ} (h : ∀ r, key r = k → (r ∈ S ↔ r ∈ T)) (r : ρ) :
    Newest key ver S k r ↔ Newest key ver T k r := by
  unfold Newest
  grind

/-- A row is not read when there is a newer one. -/
theorem newest_insert_of_lt {S : Set ρ} {k : κ} {a s : ρ} (hs : s ∈ S) (hkey : key s = k)
    (hlt : ver a < ver s) (r : ρ) :
    Newest key ver (insert a S) k r ↔ Newest key ver S k r := by
  constructor
  · rintro ⟨rfl | hr, hrk, hmax⟩
    · exact absurd (hmax s (Or.inr hs) hkey) (not_le.mpr hlt)
    · exact ⟨hr, hrk, fun t ht => hmax t (Or.inr ht)⟩
  · rintro ⟨hr, hrk, hmax⟩
    refine ⟨Or.inr hr, hrk, ?_⟩
    rintro t (rfl | ht) htk
    · exact hlt.le.trans (hmax s hs hkey)
    · exact hmax t ht htk

variable (key ver) [DecidableEq κ]

/-- Keep one newest row of each key; of two rows with the same version the
earlier one is kept. -/
def dedup : List ρ → List ρ
  | [] => []
  | r :: rs =>
    if (dedup rs).any (fun s => key s = key r ∧ ver r < ver s) then dedup rs
    else r :: (dedup rs).filter (fun s => key s ≠ key r)

theorem dedup_subset (rows : List ρ) : ∀ r ∈ dedup key ver rows, r ∈ rows := by
  induction rows with
  | nil => simp [dedup]
  | cons r rs ih =>
    intro s hs
    rw [dedup] at hs
    split at hs
    · exact List.mem_cons_of_mem r (ih s hs)
    · rcases List.mem_cons.mp hs with rfl | hs
      · exact List.mem_cons_self
      · exact List.mem_cons_of_mem r (ih s (List.mem_of_mem_filter hs))

theorem dedup_covers (rows : List ρ) :
    Covers key ver {r | r ∈ dedup key ver rows} {r | r ∈ rows} := by
  induction rows with
  | nil => simp [Covers]
  | cons r rs ih =>
    intro t ht
    have ht := List.mem_cons.mp ht
    rw [dedup]
    split
    · rename_i hany
      rcases ht with rfl | ht
      · obtain ⟨s, hs, hnew⟩ := List.any_eq_true.mp hany
        have hnew := of_decide_eq_true hnew
        exact ⟨s, hs, hnew.1, le_of_lt hnew.2⟩
      · exact ih t ht
    · rename_i hany
      rcases ht with rfl | ht
      · exact ⟨t, List.mem_cons_self, rfl, le_rfl⟩
      · obtain ⟨s, hs, hkey, hver⟩ := ih t ht
        by_cases hsr : key s = key r
        · have hle : ver s ≤ ver r := by
            by_contra hlt
            exact hany (List.any_eq_true.mpr ⟨s, hs, by simpa [hsr] using hlt⟩)
          exact ⟨r, List.mem_cons_self, hsr.symm.trans hkey, hver.trans hle⟩
        · exact ⟨s, List.mem_cons_of_mem r (List.mem_filter.mpr ⟨hs, by simpa using hsr⟩), hkey, hver⟩

theorem dedup_keys_nodup (rows : List ρ) : ((dedup key ver rows).map key).Nodup := by
  induction rows with
  | nil => exact List.nodup_nil
  | cons r rs ih =>
    rw [dedup]
    split
    · exact ih
    · rw [List.map_cons, List.nodup_cons]
      refine ⟨?_, ih.sublist (List.filter_sublist.map key)⟩
      intro hmem
      obtain ⟨s, hs, hkey⟩ := List.mem_map.mp hmem
      have hne := (List.mem_filter.mp hs).2
      exact absurd hkey (by simpa using hne)

/-- Each row that is kept is a newest row of its key. -/
theorem newest_of_mem_dedup (rows : List ρ) (r : ρ) (hr : r ∈ dedup key ver rows) :
    Newest key ver {s | s ∈ rows} (key r) r := by
  refine ⟨dedup_subset key ver rows r hr, rfl, ?_⟩
  intro t ht htk
  obtain ⟨s, hs, hsk, hver⟩ := dedup_covers key ver rows t ht
  have heq : s = r :=
    List.inj_on_of_nodup_map (dedup_keys_nodup key ver rows) hs hr (hsk.trans htk)
  exact heq ▸ hver

theorem exists_newest (rows : List ρ) (r : ρ) (hr : r ∈ rows) :
    ∃ s, Newest key ver {t | t ∈ rows} (key r) s := by
  obtain ⟨s, hs, hkey, -⟩ := dedup_covers key ver rows r hr
  exact ⟨s, hkey ▸ newest_of_mem_dedup key ver rows s hs⟩

end TimescaleLp.Versions
