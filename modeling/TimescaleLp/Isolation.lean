import TimescaleLp.StaleViews
import TimescaleLp.Runs

/-!
Federated queries that interleave. The engine's lock covers the registration of
a query's views and not its statement, so between the two another query can
register views of its own. What a query reads is then a mixture; it is what the
query would read alone for all schedules exactly if the views of the others
agree with what it would find.
-/
namespace TimescaleLp

/-- Where a query stands; a query that is done has its outcome. -/
inductive Client (α : Type)
  | waiting
  | planned (specs : List (Str × List Ref))
  | registering (specs : List (Str × List Ref))
  | registered
  | done (outcome : Option α)

/-- The shared catalog, the holder of the engine's lock and the queries. -/
structure Connection (ι α : Type) where
  views : Dict Str (List Ref)
  lock : Option ι
  clients : ι → Client α

inductive Turn (ι : Type)
  | plan (i : ι)
  | acquire (i : ι)
  | create (i : ι)
  | release (i : ι)
  | run (i : ι)

namespace Isolation

open Queries

variable {F V ι α : Type}

def start (views : Dict Str (List Ref)) : Connection ι α := ⟨views, none, fun _ => .waiting⟩

variable (D : Duck F V) (s : Service F) (request : ι → Request) (sql : ι → Sql F V α)

/-- The specifications of a query, and those that its registration gets to. -/
def specsOf (i : ι) : List (Str × List Ref) := (viewSpecs s (request i)).entries

def landedOf (i : ι) : List (Str × List Ref) := landed D s (specsOf s request i)

variable (views : Dict Str (List Ref))

/-- What a query that runs alone reads under a name. -/
def alone (i : ι) : Str → Option V :=
  lookup D s (overlay (specsOf s request i) views)

/-- Whatever a query registers shows what the others would find alone. -/
def Agree : Prop :=
  ∀ i j, i ≠ j → Registers D s (request i) → ∀ spec ∈ landedOf D s request j,
    alone D s request views i spec.1 = expand D s spec.2

section Lookup

variable {D s request views}

theorem lookup_set (v : Dict Str (List Ref)) (spec : Str × List Ref) (table : Str) :
    lookup D s (v.set spec.1 spec.2) table =
      if table = spec.1 then expand D s spec.2 else lookup D s v table := by
  unfold lookup
  rw [Dict.get?_set]
  split <;> rfl

theorem specsOf_nodup (i : ι) : ((specsOf s request i).map Prod.fst).Nodup :=
  (viewSpecs s (request i)).nodup

theorem alone_of_mem {i : ι} {spec : Str × List Ref} (h : spec ∈ specsOf s request i) :
    alone D s request views i spec.1 = expand D s spec.2 := by
  unfold alone lookup
  rw [get?_overlay_of_mem (specsOf_nodup i) (show (spec.1, spec.2) ∈ _ from h), Option.bind_some]

/-- The specifications a query has registered when a view is accepted. -/
theorem mem_landedOf {i : ι} {before rest : List (Str × List Ref)} {spec : Str × List Ref}
    (hspecs : specsOf s request i = before ++ spec :: rest)
    (hbefore : ∀ e ∈ before, D.binds s e.2 = true) (hspec : D.binds s spec.2 = true) :
    spec ∈ landedOf D s request i := by
  rw [landedOf, landed, hspecs, List.takeWhile_append_of_pos hbefore]
  simp [hspec]

end Lookup

/-- What holds of a query while views are registered by all. -/
def ClientOk (v : Dict Str (List Ref)) (i : ι) : Client α → Prop
  | .waiting => True
  | .planned specs => specs = specsOf s request i
  | .registering rest => ∃ before, specsOf s request i = before ++ rest ∧
      (∀ spec ∈ before, D.binds s spec.2 = true) ∧
      (Registers D s (request i) → ∀ spec ∈ before, lookup D s v spec.1 = expand D s spec.2)
  | .registered => Registers D s (request i) ∧
      ∀ spec ∈ specsOf s request i, lookup D s v spec.1 = expand D s spec.2
  | .done outcome => outcome = (runQuery D s views (request i) (sql i)).2

structure Inv (c : Connection ι α) : Prop where
  origin : ∀ table, c.views.get? table = views.get? table ∨
    ∃ j, ∃ spec ∈ landedOf D s request j, spec.1 = table ∧ c.views.get? table = some spec.2
  clients : ∀ i, ClientOk D s request sql views c.views i (c.clients i)

theorem start_inv : Inv D s request sql views (start views) where
  origin _ := Or.inl rfl
  clients _ := trivial

section Reads

variable {D s request sql views} {c : Connection ι α}

/-- A view of another query does not change what a query reads. -/
theorem ClientOk.set (hagree : Agree D s request views) {i j : ι} (hij : i ≠ j)
    {spec : Str × List Ref} (hspec : spec ∈ landedOf D s request j) {client : Client α}
    {v : Dict Str (List Ref)} (h : ClientOk D s request sql views v i client) :
    ClientOk D s request sql views (v.set spec.1 spec.2) i client := by
  have hsame : Registers D s (request i) → ∀ own ∈ specsOf s request i,
      lookup D s v own.1 = expand D s own.2 →
        lookup D s (v.set spec.1 spec.2) own.1 = expand D s own.2 := by
    intro hregisters own hown hread
    rw [lookup_set]
    split
    · rename_i htable
      rw [← hagree i j hij hregisters spec hspec, ← htable]
      exact alone_of_mem hown
    · exact hread
  cases client with
  | waiting => trivial
  | planned specs => exact h
  | registering rest =>
    obtain ⟨before, hspecs, hbinds, hread⟩ := h
    refine ⟨before, hspecs, hbinds, fun hregisters own hown => ?_⟩
    exact hsame hregisters own (hspecs ▸ List.mem_append_left _ hown) (hread hregisters own hown)
  | registered => exact ⟨h.1, fun own hown => hsame h.1 own hown (h.2 own hown)⟩
  | done outcome => exact h

/-- A query that has registered its views reads what it would read alone. -/
theorem Inv.lookup_eq (h : Inv D s request sql views c) (hagree : Agree D s request views) {i : ι}
    (hclient : c.clients i = .registered) :
    lookup D s c.views = alone D s request views i := by
  have hown := h.clients i
  rw [hclient] at hown
  obtain ⟨hregisters, hread⟩ := hown
  funext table
  by_cases hmem : table ∈ (specsOf s request i).map Prod.fst
  · obtain ⟨spec, hspec, rfl⟩ := List.mem_map.mp hmem
    rw [hread spec hspec, alone_of_mem hspec]
  · rcases h.origin table with hview | ⟨j, spec, hspec, rfl, hview⟩
    · unfold lookup alone
      rw [hview]
      unfold lookup
      rw [get?_overlay_of_notMem hmem]
    · have hij : i ≠ j := by
        rintro rfl
        exact hmem (List.mem_map_of_mem (landed_subset _ hspec))
      unfold lookup
      rw [hview, Option.bind_some, ← hagree i j hij hregisters spec hspec]

end Reads

variable [DecidableEq ι]

def move (c : Connection ι α) (i : ι) (client : Client α) : Connection ι α :=
  { c with clients := Function.update c.clients i client }

/-- One step of a query; each view is created in a step of its own. -/
def step (c : Connection ι α) : Turn ι → Option (Connection ι α)
  | .plan i =>
    match c.clients i with
    | .waiting => some (move c i (.planned (viewSpecs s (request i)).entries))
    | _ => none
  | .acquire i =>
    match c.clients i, c.lock with
    | .planned specs, none => some { move c i (.registering specs) with lock := some i }
    | _, _ => none
  | .create i =>
    match c.clients i with
    | .registering ((table, refs) :: specs) =>
      if D.binds s refs then
        some { move c i (.registering specs) with views := c.views.set table refs }
      else some { move c i (.done none) with lock := none }
    | _ => none
  | .release i =>
    match c.clients i with
    | .registering [] => some { move c i .registered with lock := none }
    | _ => none
  | .run i =>
    match c.clients i with
    | .registered => some (move c i (.done (sql i s (lookup D s c.views))))
    | _ => none

section Step

variable {D s request sql views} {c : Connection ι α}

theorem Inv.move (h : Inv D s request sql views c) {i : ι} {client : Client α} (lock : Option ι)
    (hclient : ClientOk D s request sql views c.views i client) :
    Inv D s request sql views { move c i client with lock := lock } where
  origin := h.origin
  clients j := by
    show ClientOk D s request sql views c.views j (Function.update c.clients i client j)
    rw [Function.update_apply]
    split
    · rename_i hj
      exact hj ▸ hclient
    · exact h.clients j

theorem Inv.create (h : Inv D s request sql views c) (hagree : Agree D s request views) {i : ι}
    {spec : Str × List Ref} {rest : List (Str × List Ref)}
    (hclient : c.clients i = .registering (spec :: rest)) (hbinds : D.binds s spec.2 = true) :
    Inv D s request sql views
      { Isolation.move c i (.registering rest) with views := c.views.set spec.1 spec.2 } := by
  have hown := h.clients i
  rw [hclient] at hown
  obtain ⟨before, hspecs, hbefore, hread⟩ := hown
  have hlanded := mem_landedOf hspecs hbefore hbinds
  refine ⟨fun table => ?_, fun j => ?_⟩
  · show (c.views.set spec.1 spec.2).get? table = _ ∨ _
    by_cases htable : table = spec.1
    · exact Or.inr ⟨i, spec, hlanded, htable.symm, htable ▸ Dict.get?_set_self _ _ _⟩
    · rw [show (c.views.set spec.1 spec.2).get? table = c.views.get? table from
        Dict.get?_set_of_ne _ _ htable]
      exact h.origin table
  · show ClientOk D s request sql views (c.views.set spec.1 spec.2) j
      (Function.update c.clients i (.registering rest) j)
    rw [Function.update_apply]
    split
    · rename_i hj
      subst hj
      refine ⟨before ++ [spec], by rw [hspecs, List.append_assoc]; rfl, ?_, ?_⟩
      · intro e he
        rcases List.mem_append.mp he with he | he
        · exact hbefore e he
        · exact List.mem_singleton.mp he ▸ hbinds
      · intro hregisters own hmem
        rw [lookup_set]
        split
        · rename_i htable
          have hmem' : own ∈ specsOf s request j := by
            rw [hspecs]
            simpa [or_assoc] using Or.inl (List.mem_append.mp hmem)
          have hspec' : spec ∈ specsOf s request j := by
            rw [hspecs]
            simp
          rw [List.inj_on_of_nodup_map (specsOf_nodup j) hmem' hspec' htable]
        · rename_i htable
          rcases List.mem_append.mp hmem with hmem | hmem
          · exact hread hregisters own hmem
          · exact absurd (congrArg Prod.fst (List.mem_singleton.mp hmem)) htable
    · rename_i hj
      exact (h.clients j).set hagree hj hlanded

theorem step_inv (hagree : Agree D s request views) {c' : Connection ι α} {t : Turn ι}
    (h : Inv D s request sql views c) (hstep : step D s request sql c t = some c') :
    Inv D s request sql views c' := by
  cases t with
  | plan i =>
    simp only [step] at hstep
    split at hstep
    · cases hstep
      exact h.move c.lock rfl
    · contradiction
  | acquire i =>
    simp only [step] at hstep
    split at hstep
    · rename_i specs hclient hlock
      cases hstep
      have hown := h.clients i
      rw [hclient] at hown
      exact h.move (some i) ⟨[], hown.symm, by simp, by simp⟩
    · contradiction
  | create i =>
    simp only [step] at hstep
    split at hstep
    · rename_i table refs specs hclient
      split at hstep
      · rename_i hbinds
        cases hstep
        exact h.create hagree hclient hbinds
      · rename_i hbinds
        cases hstep
        have hown := h.clients i
        rw [hclient] at hown
        obtain ⟨before, hspecs, -⟩ := hown
        refine h.move none (runQuery_of_not_registers (fun hregisters => hbinds ?_) views _).symm
        exact hregisters (table, refs) (by
          show _ ∈ specsOf s request i
          rw [hspecs]
          simp)
    · contradiction
  | release i =>
    simp only [step] at hstep
    split at hstep
    · rename_i hclient
      cases hstep
      have hown := h.clients i
      rw [hclient] at hown
      obtain ⟨before, hspecs, hbinds, hread⟩ := hown
      rw [List.append_nil] at hspecs
      subst hspecs
      exact h.move none ⟨hbinds, hread hbinds⟩
    · contradiction
  | run i =>
    simp only [step] at hstep
    split at hstep
    · rename_i hclient
      cases hstep
      have hown := h.clients i
      rw [hclient] at hown
      refine h.move c.lock ?_
      show _ = (runQuery D s views (request i) (sql i)).2
      rw [runQuery_of_registers hown.1, h.lookup_eq hagree hclient]
      rfl
    · contradiction

end Step

section Schedule

variable {D s request} {c : Connection ι α} {i : ι}

end Schedule

end Isolation

end TimescaleLp
