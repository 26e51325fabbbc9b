import TimescaleLp.Vault

/-!
The batches the process has built and the write calls that carry them. A batch
is carried by one call until it is recorded, and its sequence numbers belong to
no other batch.
-/
namespace TimescaleLp

open Schedule Vault

variable {F ι κ : Type}

/-- The batch of a write call that is not in the manifest yet. -/
def Writer.pending : Writer F → Option (Batch F)
  | .built b => some b
  | .staged b => some b
  | _ => none

/-- The batches built so far and the write calls that carry them. -/
structure Ledger (s : Sys F ι κ) : Prop where
  drawn : LogOk s.drawn
  keys : ∀ b ∈ s.drawn, (b.records.map Row.key).Nodup
  seqs : ∀ b ∈ s.drawn, ∀ r ∈ b.records, r.seq < s.world.nextSeq
  recorded : ∀ b ∈ s.recorded, b ∈ s.drawn
  pending : ∀ w b, (s.writers w).pending = some b → b ∈ s.drawn ∧ b ∉ s.recorded
  owner : ∀ w w' b, (s.writers w).pending = some b →
    (s.writers w').pending = some b → w = w'
  logged : ∀ w b, s.writers w = .recorded b → b ∈ s.recorded

namespace Ledger

variable {s t : Sys F ι κ} {w : ι} {b : Batch F}

theorem log (h : Ledger s) : LogOk s.recorded :=
  h.drawn.mono h.recorded

/-- A batch in work can join the log. -/
theorem log_append (h : Ledger s) (hb : (s.writers w).pending = some b) :
    LogOk (s.recorded ++ [b]) ∧ b ∉ s.recorded := by
  obtain ⟨hdrawn, hnew⟩ := h.pending w b hb
  refine ⟨h.drawn.mono ?_, hnew⟩
  intro b' hb'
  rcases List.mem_append.mp hb' with hb' | hb'
  · exact h.recorded b' hb'
  · exact List.mem_singleton.mp hb' ▸ hdrawn

/-- A step that builds and records nothing. Write calls keep the unrecorded
batch they have, or drop it. -/
theorem frame (h : Ledger s) (hdrawn : t.drawn = s.drawn)
    (hrecorded : t.recorded = s.recorded) (hseq : s.world.nextSeq ≤ t.world.nextSeq)
    (hpending : ∀ w b, (t.writers w).pending = some b →
      (s.writers w).pending = some b)
    (hlogged : ∀ w b, t.writers w = .recorded b → b ∈ s.recorded) : Ledger t where
  drawn := hdrawn ▸ h.drawn
  keys := hdrawn ▸ h.keys
  seqs b hb r hr := (h.seqs b (hdrawn ▸ hb) r hr).trans_le hseq
  recorded b hb := hdrawn ▸ h.recorded b (hrecorded ▸ hb)
  pending w b hb := by
    rw [hdrawn, hrecorded]
    exact h.pending w b (hpending w b hb)
  owner w w' b hb hb' := h.owner w w' b (hpending w b hb) (hpending w' b hb')
  logged w b hb := hrecorded ▸ hlogged w b hb

/-- A new batch has numbers that no batch before it has. -/
theorem log_build (h : Ledger s) {n : ℕ} (hdrawn : b.Drawn s.world.nextSeq n) :
    LogOk (s.drawn ++ [b]) ∧ b ∉ s.drawn := by
  refine h.drawn.append hdrawn fun b' hb' r' hr' r hr => ?_
  have hlt := h.seqs b' hb' r' hr'
  have hle := (hdrawn.seqs r hr).1
  omega

section Writers

variable [DecidableEq ι]

/-- One write call moves on with its batch, or drops it. -/
theorem move (h : Ledger s) (x : Writer F) (hdrawn : t.drawn = s.drawn)
    (hrecorded : t.recorded = s.recorded) (hseq : t.world.nextSeq = s.world.nextSeq)
    (hwriters : t.writers = Function.update s.writers w x)
    (hpending : ∀ b, x.pending = some b → (s.writers w).pending = some b)
    (hlogged : ∀ b, x = .recorded b → b ∈ s.recorded) : Ledger t := by
  refine h.frame hdrawn hrecorded hseq.ge ?_ ?_
  · rw [hwriters]
    exact (Function.forall_update_iff s.writers fun w x => ∀ b, x.pending = some b →
      (s.writers w).pending = some b).mpr ⟨hpending, fun _ _ _ hb => hb⟩
  · rw [hwriters]
    exact (Function.forall_update_iff s.writers fun _ x => ∀ b, x = .recorded b →
      b ∈ s.recorded).mpr ⟨hlogged, fun w' _ b hb => h.logged w' b hb⟩

theorem build (h : Ledger s) {n : ℕ} (hn : s.world.nextSeq ≤ n)
    (hdrawn : b.Drawn s.world.nextSeq n) : Ledger (build s w n b) := by
  obtain ⟨hlog, hfresh⟩ := h.log_build hdrawn
  refine ⟨hlog, ?_, ?_, ?_, ?_, ?_, ?_⟩
  · intro b' hb'
    rcases List.mem_append.mp hb' with hb' | hb'
    · exact h.keys b' hb'
    · exact List.mem_singleton.mp hb' ▸ hdrawn.keys
  · intro b' hb' r hr
    rcases List.mem_append.mp hb' with hb' | hb'
    · exact (h.seqs b' hb' r hr).trans_le hn
    · cases List.mem_singleton.mp hb'
      exact (hdrawn.seqs r hr).2
  · exact fun b' hb' => List.mem_append_left _ (h.recorded b' hb')
  · refine (Function.forall_update_iff s.writers fun _ x => ∀ b', x.pending = some b' →
      b' ∈ s.drawn ++ [b] ∧ b' ∉ s.recorded).mpr ⟨?_, ?_⟩
    · rintro b' ⟨⟩
      exact ⟨by simp, fun hrec => hfresh (h.recorded b hrec)⟩
    · intro w' _ b' hb'
      exact ⟨List.mem_append_left _ (h.pending w' b' hb').1, (h.pending w' b' hb').2⟩
  · have hnew : ∀ w' b', (s.writers w').pending = some b' → b' ≠ b := by
      rintro w' b' hb' rfl
      exact hfresh (h.pending w' b' hb').1
    refine (Function.forall_update_iff s.writers fun w₁ x => ∀ w₂ b', x.pending = some b' →
      Writer.pending (Function.update s.writers w (.built b) w₂) = some b' → w₁ = w₂).mpr ⟨?_, ?_⟩
    · rintro w₂ b' ⟨⟩ h₂
      by_contra hne
      rw [Function.update_of_ne (Ne.symm hne)] at h₂
      exact hnew w₂ b h₂ rfl
    · intro w₁ _ w₂ b' h₁ h₂
      by_cases hw : w₂ = w
      · subst hw
        rw [Function.update_self] at h₂
        cases h₂
        exact absurd rfl (hnew w₁ b h₁)
      · rw [Function.update_of_ne hw] at h₂
        exact h.owner w₁ w₂ b' h₁ h₂
  · exact (Function.forall_update_iff s.writers fun _ x => ∀ b', x = .recorded b' →
      b' ∈ s.recorded).mpr ⟨by simp, fun w' _ b' hb' => h.logged w' b' hb'⟩

theorem record (h : Ledger s) (hb : s.writers w = .staged b) :
    Ledger (record s w b) := by
  have hpend : (s.writers w).pending = some b := by rw [hb]; rfl
  have hother : ∀ w', w' ≠ w → ∀ b', (s.writers w').pending = some b' →
      b' ∈ s.drawn ∧ b' ∉ s.recorded ++ [b] := by
    intro w' hw b' hb'
    obtain ⟨hin, hout⟩ := h.pending w' b' hb'
    refine ⟨hin, ?_⟩
    simp only [List.mem_append, List.mem_singleton, not_or]
    exact ⟨hout, fun heq => hw (h.owner w' w b (heq ▸ hb') hpend)⟩
  refine ⟨h.drawn, h.keys, h.seqs, ?_, ?_, ?_, ?_⟩
  · intro b' hb'
    rcases List.mem_append.mp hb' with hb' | hb'
    · exact h.recorded b' hb'
    · exact List.mem_singleton.mp hb' ▸ (h.pending w b hpend).1
  · exact (Function.forall_update_iff s.writers fun _ x => ∀ b', x.pending = some b' →
      b' ∈ s.drawn ∧ b' ∉ s.recorded ++ [b]).mpr ⟨by simp [Writer.pending], hother⟩
  · refine (Function.forall_update_iff s.writers fun w₁ x => ∀ w₂ b', x.pending = some b' →
      Writer.pending (Function.update s.writers w (.recorded b) w₂) = some b' →
        w₁ = w₂).mpr ⟨by simp [Writer.pending], ?_⟩
    intro w₁ _ w₂ b' h₁ h₂
    by_cases hw : w₂ = w
    · subst hw
      simp [Writer.pending] at h₂
    · rw [Function.update_of_ne hw] at h₂
      exact h.owner w₁ w₂ b' h₁ h₂
  · refine (Function.forall_update_iff s.writers fun _ x => ∀ b', x = .recorded b' →
      b' ∈ s.recorded ++ [b]).mpr ⟨?_, ?_⟩
    · rintro b' ⟨⟩
      simp
    · exact fun w' _ b' hb' => List.mem_append_left _ (h.logged w' b' hb')

end Writers

end Ledger

end TimescaleLp
