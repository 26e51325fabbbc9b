import TimescaleLp.Versions

/-!
Replicas of a log of versioned rows. A replica has for each row of the log one that
is at least as new, and none of a version that the log does not have; what else is
in a row is left open. Reads of a replica then show for each key the newest version
of the log, also when the replica grows while it is read.
-/
namespace TimescaleLp.Replicas

open Versions

universe u v w

variable {ρ : Type u} {κ : Type v} {ν : Type w} [LinearOrder ν] (key : ρ → κ) (ver : ρ → ν)

omit [LinearOrder ν] in
/-- Each version in the set is one of the log. -/
def Echoes (S T : Set ρ) : Prop := ∀ r ∈ S, ∃ t ∈ T, key t = key r ∧ ver t = ver r

/-- What a key reads as in the set is its newest version in the log. -/
def ReadsAs (S T : Set ρ) (k : κ) : Prop :=
  (∀ r, Newest key ver S k r → ∃ t, Newest key ver T k t ∧ ver t = ver r) ∧
    ∀ t, Newest key ver T k t → ∃ r, Newest key ver S k r ∧ ver r = ver t

/-- A key of the old log is found, as a version that the new log has and that no
version of the old one is newer than. -/
structure Between (S old new : Set ρ) (k : κ) : Prop where
  found : ∀ t ∈ old, key t = k → ∃ r, Newest key ver S k r
  newest : ∀ r, Newest key ver S k r →
    (∃ t ∈ new, key t = k ∧ ver t = ver r) ∧ ∀ t ∈ old, key t = k → ver t ≤ ver r

variable {key ver} {S S' T T' : Set ρ} {k : κ}

omit [LinearOrder ν] in
theorem Echoes.mono (h : Echoes key ver S T) (hS : S' ⊆ S) (hT : T ⊆ T') : Echoes key ver S' T' := by
  intro r hr
  obtain ⟨t, ht, hkey, hver⟩ := h r (hS hr)
  exact ⟨t, hT ht, hkey, hver⟩

omit [LinearOrder ν] in
theorem echoes_of_subset (h : S ⊆ T) : Echoes key ver S T := fun r hr => ⟨r, h hr, rfl, rfl⟩

omit [LinearOrder ν] in
theorem Echoes.union (h : Echoes key ver S T) (h' : Echoes key ver S' T) :
    Echoes key ver (S ∪ S') T := by
  rintro r (hr | hr)
  · exact h r hr
  · exact h' r hr

/-- It is enough that the rows of the key are covered. -/
theorem Echoes.readsAs (h : Echoes key ver S T)
    (hcovers : ∀ t ∈ T, key t = k → ∃ s ∈ S, key s = k ∧ ver t ≤ ver s) :
    ReadsAs key ver S T k := by
  have hbound : ∀ t, Newest key ver T k t → ∀ s ∈ S, key s = k → ver s ≤ ver t := by
    intro t ht s hs hsk
    obtain ⟨t', ht', hkey, hver⟩ := h s hs
    exact hver.ge.trans (ht.2.2 t' ht' (hkey.trans hsk))
  constructor
  · intro r hr
    obtain ⟨t, ht, hkey, hver⟩ := h r hr.1
    refine ⟨t, ⟨ht, hkey.trans hr.2.1, fun t' ht' htk => ?_⟩, hver⟩
    obtain ⟨s, hs, hsk, hle⟩ := hcovers t' ht' htk
    exact hle.trans ((hr.2.2 s hs hsk).trans hver.ge)
  · intro t ht
    obtain ⟨s, hs, hsk, hle⟩ := hcovers t ht.1 ht.2.1
    have heq : ver s = ver t := le_antisymm (hbound t ht s hs hsk) hle
    exact ⟨s, ⟨hs, hsk, fun s' hs' hsk' => heq ▸ hbound t ht s' hs' hsk'⟩, heq⟩

/-- A list of rows that covers the old log and echoes the new one. -/
theorem between_of_covers [DecidableEq κ] {old new : Set ρ} {rows : List ρ}
    (h : Echoes key ver {r | r ∈ rows} new)
    (hcovers : ∀ t ∈ old, key t = k → ∃ s ∈ rows, key s = k ∧ ver t ≤ ver s) :
    Between key ver {r | r ∈ rows} old new k where
  found t ht htk := by
    obtain ⟨s, hs, rfl, -⟩ := hcovers t ht htk
    exact exists_newest key ver rows s hs
  newest r hr := by
    obtain ⟨t, ht, hkey, hver⟩ := h r hr.1
    refine ⟨⟨t, ht, hkey.trans hr.2.1, hver⟩, fun t' ht' htk => ?_⟩
    obtain ⟨s, hs, hsk, hle⟩ := hcovers t' ht' htk
    exact hle.trans (hr.2.2 s hs hsk)

end TimescaleLp.Replicas
