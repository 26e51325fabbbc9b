import Mathlib.Data.Prod.Lex
import TimescaleLp.Clearance
import TimescaleLp.Endless

/-!
Staging drains. A pass that goes on comes to its end, whatever is written meanwhile:
it lists a measurement once, and works through what it has listed. When the compactor
begins a pass over all measurements again and again, each object that a write call
has staged and recorded is merged and removed at some time, and stays so.
-/
namespace TimescaleLp.Settling

open Clearance
open Upkeep (step start later_step)

variable {F ι μ : Type} [DecidableEq ι] [DecidableEq μ] [Numerics F] {digest : Str → ℕ}

/-- What a pass has left to do: measurements, days, and calls for the objects of a day. -/
def left : Pass → ℕ ×ₗ ℕ ×ₗ ℕ
  | .listing todo => toLex (todo.length, toLex (0, 0))
  | .merging _ groups todo => toLex (todo.length, toLex (groups.length + 1, 0))
  | .recording job _ groups todo =>
    toLex (todo.length, toLex (groups.length + 1, 2 * job.objs.length + 2))
  | .removing _ rest groups todo =>
    toLex (todo.length, toLex (groups.length + 1, 2 * rest.length + 1))
  | .forgetting _ _ rest groups todo =>
    toLex (todo.length, toLex (groups.length + 1, 2 * rest.length + 2))
  | _ => toLex (0, toLex (0, 0))

/-- The steps of a pass are taken, and passes over all measurements begin. -/
structure Fair (r : Runs.Endless
    (step digest : Upkeep F ι μ → Upkeep.Event F ι μ → Option (Upkeep F ι μ))) : Prop where
  advances : ∀ n, (∀ m, n ≤ m → ((r.state m).sys.passes ()).resting = false) →
    ∃ m, n ≤ m ∧ r.event m = .sys (.advance ())
  begins : ∀ n, (∀ m, n ≤ m → ∃ k, m ≤ k ∧ ((r.state k).sys.passes ()).resting = true) →
    ∃ m, n ≤ m ∧ r.event m = .sys (.begin () none)

/-- Cold holds each key of the object in a version that is not older, without exports. -/
def Merged (c : Cold (Value F)) (b : Batch F) : Prop :=
  Versions.Covers Row.key Row.seq (Vault.kept Sequence.exportKeys c b.table) {r | r ∈ b.records}

section Pass

variable {V : Type} {c c' : Cold V} {pass pass' : Pass}

theorem left_lt {a a' b b' d d' : ℕ} (h : a' < a ∨ a' = a ∧ (b' < b ∨ b' = b ∧ d' < d)) :
    toLex (a', toLex (b', d')) < toLex (a, toLex (b, d)) := by
  rw [Prod.Lex.toLex_lt_toLex]
  refine h.imp_right fun h => ⟨h.1, ?_⟩
  rw [Prod.Lex.toLex_lt_toLex]
  exact h.2

theorem left_step (hstep : Passes.step c pass = some (pass', c')) :
    pass'.resting = true ∨ left pass' < left pass := by
  cases pass with
  | idle => contradiction
  | listing todo =>
    cases todo with
    | nil =>
      cases hstep
      exact Or.inl rfl
    | cons m todo =>
      cases hstep
      exact Or.inr (left_lt (by simp))
  | merging m groups todo =>
    cases groups with
    | nil =>
      cases hstep
      exact Or.inr (left_lt (by simp))
    | cons g groups =>
      obtain ⟨day, objs⟩ := g
      simp only [Passes.step] at hstep
      split at hstep
      · cases hstep
        exact Or.inl rfl
      · cases hstep
        exact Or.inr (left_lt (by simp))
  | recording job rows groups todo =>
    cases hstep
    exact Or.inr (left_lt (by simp))
  | removing job rest groups todo =>
    cases rest with
    | nil =>
      cases hstep
      exact Or.inr (left_lt (by simp))
    | cons o rest =>
      cases hstep
      exact Or.inr (left_lt (by simp [Nat.mul_succ]))
  | forgetting job o rest groups todo =>
    cases hstep
    exact Or.inr (left_lt (by simp))
  | ended ok => contradiction

end Pass

section Run

variable {n : ℕ}
  {r : Runs.Endless (step digest : Upkeep F ι μ → Upkeep.Event F ι μ → Option (Upkeep F ι μ))}

theorem inv_at {first : ℕ} (hfirst : 1 ≤ first) (hstart : r.state 0 = start first) (n : ℕ) :
    Inv (r.state n) :=
  r.invariant (fun _ _ _ hs h => step_inv hs h) (hstart ▸ start_inv hfirst) n

/-- The pass moves on, and all the steps before leave it where it is. -/
theorem pass_moves (hinv : ∀ n, Inv (r.state n)) (hfair : Fair r)
    (hgoing : ((r.state n).sys.passes ()).resting = false) :
    ∃ m, n ≤ m ∧ (((r.state m).sys.passes ()).resting = true ∨
      left ((r.state m).sys.passes ()) < left ((r.state n).sys.passes ())) := by
  have hkeep : ∀ k, n ≤ k → (r.state k).sys.passes () = (r.state n).sys.passes () →
      ¬r.event k = .sys (.advance ()) →
        (r.state (k + 1)).sys.passes () = (r.state n).sys.passes () := by
    intro k hk hsame hother
    have heffect := effect_of_step (hinv k).upkeep (r.next k)
    generalize r.event k = e at hother heffect
    cases heffect with
    | began hrest =>
      rw [hsame, hgoing] at hrest
      contradiction
    | advanced => exact absurd rfl hother
    | besides _ hbesides => exact hbesides.pass.trans hsame
  obtain ⟨m, hnm, hsame, hadvance⟩ := Runs.Endless.meets
    (P := fun m => (r.state m).sys.passes () = (r.state n).sys.passes ()) rfl hkeep fun hforever =>
      hfair.advances n fun m hm => (hforever m hm).symm ▸ hgoing
  refine ⟨m + 1, by omega, ?_⟩
  have heffect := effect_of_step (hinv m).upkeep (r.next m)
  rw [hadvance] at heffect
  cases heffect with
  | advanced hlog hstep =>
    rw [hsame] at hstep
    exact left_step hstep
  | besides he => contradiction

/-- Each pass ends. -/
theorem rests (hinv : ∀ n, Inv (r.state n)) (hfair : Fair r) (n : ℕ) :
    ∃ m, n ≤ m ∧ ((r.state m).sys.passes ()).resting = true :=
  r.descends (fun s => left (s.sys.passes ()))
    (P := fun s => (s.sys.passes ()).resting = true)
    fun _ _ hgoing => pass_moves hinv hfair (Bool.eq_false_iff.mpr hgoing)

theorem recorded_later (hinv : ∀ n, Inv (r.state n)) {b : Batch F} {m : ℕ} (h : n ≤ m)
    (hb : b ∈ (r.state n).sys.recorded) : b ∈ (r.state m).sys.recorded := by
  induction m, h using Nat.le_induction with
  | base => exact hb
  | succ m _ ih => exact (later_step digest (hinv m).upkeep (r.next m)).recorded b ih

omit [DecidableEq ι] [DecidableEq μ] [Numerics F] in
/-- What is recorded stays in cold, in whatever object. -/
theorem merged_of_inv {s : Upkeep F ι μ} (hs : Upkeep.Inv s) {b : Batch F}
    (hb : b ∈ s.sys.recorded) : Merged s.sys.world.cold b :=
  fun row hrow => hs.vault.covers b.table row ⟨b, hb, rfl, hrow⟩

/-- In a fair run each pass ends, and each staging object that is recorded at some time
is merged and removed at some later time, for good. -/
theorem always_drained {first : ℕ} (hfirst : 1 ≤ first) (hstart : r.state 0 = start first)
    (hfair : Fair r) :
    (∀ n, ∃ m, n ≤ m ∧ ((r.state m).sys.passes ()).resting = true) ∧
      ∀ n, ∀ b ∈ (r.state n).sys.recorded, ∃ m, n ≤ m ∧ ∀ k, m ≤ k →
        Gone (r.state k).sys.world.cold b ∧ Merged (r.state k).sys.world.cold b := by
  have hinv := inv_at hfirst hstart
  refine ⟨rests hinv hfair, fun n b hb => ?_⟩
  obtain ⟨m, hnm, hbegin⟩ := hfair.begins n fun m _ => rests hinv hfair m
  have hclears : Clears (r.state (m + 1)) b := by
    have heffect := effect_of_step (hinv m).upkeep (r.next m)
    rw [hbegin] at heffect
    cases heffect with
    | began hrest hpass hcold hlog =>
      exact clears_begin (hinv m).upkeep (recorded_later hinv hnm hb) (fun _ h => by contradiction)
        hpass hcold hlog
    | besides he => contradiction
  obtain ⟨k, hmk, hrest⟩ := rests hinv hfair (m + 1)
  have hlater : Clears (r.state k) b :=
    (r.since (I := fun s => Inv s ∧ Clears s b)
      (fun _ _ _ hs h => ⟨step_inv hs.1 h, hs.2.step hs.1 h⟩) hmk ⟨hinv _, hclears⟩).2
  refine ⟨k, by omega, fun j hj => ?_⟩
  obtain ⟨hupkeep, hrecorded, hgone⟩ :=
    r.since (I := fun s => Upkeep.Inv s ∧ b ∈ s.sys.recorded ∧ Gone s.sys.world.cold b)
      (fun _ _ _ hs h => ⟨Upkeep.step_inv digest hs.1 h, gone_step hs.1 hs.2.1 hs.2.2 h⟩) hj
      ⟨(hinv k).upkeep, hlater.recorded, hlater.gone (hinv k) hrest⟩
  exact ⟨hgone, merged_of_inv hupkeep hrecorded⟩

end Run

section Idle

open Schedule (advance)

variable {s : Upkeep F ι μ} {pass pass' : Pass}

/-- The same stores, with the compactor elsewhere. -/
def stoodAt (s : Upkeep F ι μ) (pass : Pass) : Upkeep F ι μ :=
  { s with sys := advance s.sys () pass s.sys.world.cold }

omit [DecidableEq ι] [DecidableEq μ] [Numerics F] in
theorem stoodAt_self (h : s.sys.passes () = pass) : stoodAt s pass = s := by
  rw [stoodAt, advance, ← h, Function.update_eq_self]

theorem step_stoodAt (h : Passes.step s.sys.world.cold pass = some (pass', s.sys.world.cold)) :
    step digest (stoodAt s pass) (.sys (.advance ())) = some (stoodAt s pass') := by
  have hpass : (stoodAt s pass).sys.passes () = pass := Upkeep.passes_advance _ _ _ _
  have hstep : Schedule.step digest true (stoodAt s pass).sys (.advance ()) =
      some (advance (stoodAt s pass).sys () pass' s.sys.world.cold) := by
    rw [Schedule.step, hpass, show (stoodAt s pass).sys.world.cold = s.sys.world.cold from rfl, h]
    rfl
  rw [step, hstep, stoodAt, stoodAt, advance, advance, advance]
  simp only [Option.map_some, Function.update_idem]

/-- A pass over all measurements where one is listed. -/
def vainly : List (Upkeep.Event F ι μ) := List.replicate 3 (.sys (.advance ()))

/-- A pass that finds nothing to merge leaves everything as it was. -/
theorem exec_vainly {m : Str} (hend : s.sys.passes () = .ended true)
    (hlisted : Tiering.passMeasurements s.sys.world.cold none = [m])
    (hplan : (Tiering.planCompaction
      (ColdStore.objects s.sys.world.cold m (some .staging))).entries = []) :
    Runs.exec (step digest) s (.sys (.begin () none) :: vainly) = some s := by
  have hbegin : step digest s (.sys (.begin () none)) = some (stoodAt s (.listing [m])) := by
    rw [step, Schedule.step, hend, if_pos (show (Pass.ended true).resting = true from rfl),
      Passes.begin, hlisted]
    rfl
  have hlist : Passes.step s.sys.world.cold (.listing [m]) =
      some (.merging m [] [], s.sys.world.cold) := by
    rw [Passes.step, hplan]
  simp only [Runs.exec, vainly, List.replicate, hbegin, Option.bind_some, step_stoodAt hlist,
    step_stoodAt (show Passes.step s.sys.world.cold (.merging m [] []) = some (.listing [], _) from rfl),
    step_stoodAt (show Passes.step s.sys.world.cold (.listing []) = some (.ended true, _) from rfl),
    stoodAt_self hend]

end Idle

section Lasso

/-- A row is written and merged, and then passes find nothing more. -/
def settled : List (Upkeep.Event ℤ Bool Unit) :=
  Upkeep.ingested false 0 ++ .sys (.begin () none) :: List.replicate 8 (.sys (.advance ()))

theorem settled_drained : ∃ r : Runs.Endless (step fun _ => 0 : Upkeep ℤ Bool Unit →
      Upkeep.Event ℤ Bool Unit → Option (Upkeep ℤ Bool Unit)),
    r.state 0 = start 1 ∧ Fair r ∧ (∃ n, (r.state n).sys.recorded ≠ []) ∧
      (∀ n, ∃ m, n ≤ m ∧ ((r.state m).sys.passes ()).resting = true) ∧
      ∀ n, ∀ b ∈ (r.state n).sys.recorded, ∃ m, n ≤ m ∧ ∀ k, m ≤ k →
        Gone (r.state k).sys.world.cold b ∧ Merged (r.state k).sys.world.cold b := by
  have hrun : (Runs.exec (step fun _ => 0) (start 1) settled).any (fun s =>
      (s.sys.passes ()).succeeded && (!s.sys.recorded.isEmpty &&
        (decide (Tiering.passMeasurements s.sys.world.cold none = ["cpu".toList]) &&
          (Tiering.planCompaction (ColdStore.objects s.sys.world.cold "cpu".toList
            (some .staging))).entries.isEmpty))) = true := by decide +kernel
  obtain ⟨s, hs, hrest⟩ := (Option.any_eq_true _ _).mp hrun
  simp only [Bool.and_eq_true, decide_eq_true_eq, List.isEmpty_iff, Bool.not_eq_true'] at hrest
  obtain ⟨hend, hrecorded, hlisted, hplan⟩ := hrest
  have hend := Pass.ended_of_succeeded hend
  have hloop : Runs.exec (step fun _ => 0) s (.sys (.begin () none) :: vainly) = some s :=
    exec_vainly hend hlisted hplan
  obtain ⟨e, es, hsettled⟩ : ∃ e es, settled = e :: es := ⟨_, _, rfl⟩
  rw [hsettled] at hs
  let path : Runs.Path (step fun _ => 0) s := ⟨(start 1, e, es), hs⟩
  have hrecurs := path.lasso_recurs hloop
  have hfair : Fair (path.lasso hloop) := by
    constructor
    · intro n hgoing
      obtain ⟨m, hm, hstate, -⟩ := hrecurs n
      have hrest := hgoing m hm
      rw [hstate, hend] at hrest
      contradiction
    · intro n _
      obtain ⟨m, hm, -, hevent⟩ := hrecurs n
      exact ⟨m, hm, hevent⟩
  obtain ⟨n, -, hstate, -⟩ := hrecurs 0
  refine ⟨path.lasso hloop, rfl, hfair, ⟨n, ?_⟩, always_drained le_rfl rfl hfair⟩
  rw [hstate]
  simpa using hrecorded

end Lasso

end TimescaleLp.Settling
