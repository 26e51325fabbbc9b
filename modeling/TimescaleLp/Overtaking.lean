import TimescaleLp.Workers

/-!
Updates that overtake each other. Points of one series go to whichever worker
takes them, and the groups of different workers are committed in any order. The
hot row of a key has the values of the point that was committed last, which is
the one submitted last as long as no point is committed after a later one of its
series, time and field set.
-/
namespace TimescaleLp.Overtaking

open Names Schema Store Naming Columns Workers

variable {F ι κ : Type}

/-- Measurement, tags, time and field set are the same. -/
structure Same (p q : Point F) : Prop where
  measurement : p.measurement = q.measurement
  tags : ∀ t, p.tags.get? t = q.tags.get? t
  time : p.time = q.time
  fields : ∀ f, f ∈ p.fields.keys ↔ f ∈ q.fields.keys

theorem Same.symm {p q : Point F} (h : Same p q) : Same q p :=
  ⟨h.measurement.symm, fun t => (h.tags t).symm, h.time.symm, fun f => (h.fields f).symm⟩

/-- The group of the point has been committed. -/
def Landed (s : Feed F ι κ) (p : Sent F) : Prop := ∃ l ∈ s.landed, p ∈ l.points

/-- Promotions do not change what has landed. -/
theorem mem_recasted {landed : List (Landing F)} {e : Event F ι κ} {l : Landing F}
    (h : l ∈ recasted landed e) :
    ∃ old ∈ landed, l.points = old.points ∧ l.schema = old.schema := by
  cases e with
  | promote table col fromType toType =>
    obtain ⟨old, hold, rfl⟩ := List.mem_map.mp h
    exact ⟨old, hold, castLanding_frame table col fromType toType old⟩
  | build w schema points => exact ⟨l, h, rfl, rfl⟩
  | stage w => exact ⟨l, h, rfl, rfl⟩
  | record w => exact ⟨l, h, rfl, rfl⟩
  | commit w => exact ⟨l, h, rfl, rfl⟩
  | abandon w => exact ⟨l, h, rfl, rfl⟩
  | begin p measurement => exact ⟨l, h, rfl, rfl⟩
  | advance p => exact ⟨l, h, rfl, rfl⟩

/-- A cell after the casts of its table. -/
def castAll [Numerics F] (c : Str) (casts : List (Str × PgType × PgType))
    (v : Option (Value F)) : Option (Value F) :=
  casts.foldl (fun v e => if c = e.1 then v.bind (castValue e.2.1 e.2.2) else v) v

theorem castAll_concat [Numerics F] (c : Str) (casts : List (Str × PgType × PgType)) (col : Str)
    (fromType toType : PgType) (v : Option (Value F)) :
    castAll c (casts ++ [(col, fromType, toType)]) v =
      if c = col then (castAll c casts v).bind (castValue fromType toType)
      else castAll c casts v := by
  rw [castAll, List.foldl_append]
  rfl

variable (digest : Str → ℕ)

/-- Both points go to one row. -/
def SameRow (p q : Point F) : Prop :=
  measurementTable p.measurement = measurementTable q.measurement ∧
    pointKey digest p = pointKey digest q

/-- The hot row of the point has its field values, coerced to the types its
columns had when it was written and cast by the promotions since. -/
def Holds [Numerics F] (s : Feed F ι κ) (p : Sent F) : Prop :=
  ∃ l ∈ s.landed, p ∈ l.points ∧ ∃ stored,
    (s.sys.world.hot (measurementTable p.point.measurement)).get? (pointKey digest p.point) =
      some stored ∧
    ∀ f ∈ p.point.fields.keys, ∃ ty v,
      l.schema.fieldCols.get? f = some (fieldCol f, ty) ∧
      coerce (p.point.fields.get? f) ty = .ok v ∧
      stored.cells (colOfField f) = castAll (colOfField f) l.casts v

/-- A row whose points differ in their values only has those of the point
submitted last. -/
def LastHolds [Numerics F] (s : Feed F ι κ) : Prop :=
  ∀ p, Landed s p → (∀ q, Landed s q → SameRow digest p.point q.point →
    Same p.point q.point ∧ q.no ≤ p.no) → Holds digest s p

/-- No point is committed after a later one of its series, time and field set. -/
def InOrder (s : Feed F ι κ) : Workers.Event F ι κ → Prop
  | .commit w => ∀ points schema, s.made w = some (points, schema) → ∀ p ∈ points,
      ∀ q, Landed s q → Same p.point q.point → q.no < p.no
  | _ => True

variable [Numerics F]

/-- What a batch was made from. -/
structure Made (points : List (Sent F)) (schema : TableSchema) (b : Batch F) : Prop where
  canonical : ∃ m, Canonical m schema ∧ ∀ p ∈ points, p.point.measurement = m
  built : ∃ sources, Built digest schema (points.map (·.point)) b sources
  keys : (b.records.map Row.key).Nodup

structure Inv (s : Feed F ι κ) : Prop where
  ordered : Batcher.Ordered s.batcher
  sorted : s.batcher.accepted.Pairwise (fun p q => p.no < q.no)
  numbered : ∀ p ∈ s.batcher.accepted, p.no < s.batcher.accepted.length
  made : ∀ w b, Schedule.holds (s.sys.writers w) = some b → ∃ points schema,
    s.made w = some (points, schema) ∧ points.Sublist s.batcher.accepted ∧
      Made digest points schema b
  landed : ∀ l ∈ s.landed, ∀ p ∈ l.points, p ∈ s.batcher.accepted ∧
    l.schema.table = measurementTable p.point.measurement

theorem start_inv (world : World (Value F)) : Inv digest (start world : Feed F ι κ) where
  ordered i := List.Sublist.refl _
  sorted := List.Pairwise.nil
  numbered := by simp [start, Batcher.start]
  made := by simp [start, Schedule.holds]
  landed := by simp [start]

section Inv

variable {digest} {writeThroughOn : Bool} {c : BatcherSettings} {s t : Feed F ι κ}

/-- The invariant reads the batcher, the batches in work and what has landed. -/
theorem Inv.of_frame (hs : Inv digest s) (hordered : Batcher.Ordered t.batcher)
    (haccepted : t.batcher.accepted = s.batcher.accepted)
    (hmade : ∀ w b, Schedule.holds (t.sys.writers w) = some b → ∃ points schema,
      t.made w = some (points, schema) ∧ points.Sublist s.batcher.accepted ∧
        Made digest points schema b)
    (hlanded : ∀ l ∈ t.landed, ∀ p ∈ l.points, p ∈ s.batcher.accepted ∧
      l.schema.table = measurementTable p.point.measurement) : Inv digest t where
  ordered := hordered
  sorted := haccepted ▸ hs.sorted
  numbered := haccepted ▸ hs.numbered
  made := haccepted ▸ hmade
  landed := haccepted ▸ hlanded

/-- The group a batch is built from. -/
theorem made_of_group (hs : Inv digest s) {w : ι} {m : Str} {points : List (Sent F)}
    (hgroup : (m, points) ∈ groupsOf (flushBuf (s.batcher.workers w)))
    {schema : TableSchema} (hschema : Canonical m schema) {n n' : ℕ} {b : Batch F}
    (hb : buildBatch digest schema (points.map (·.point)) n = (n', .ok b)) :
    points.Sublist s.batcher.accepted ∧ Made digest points schema b := by
  obtain ⟨hpoints, hne⟩ := Dict.mem_groupBy_entries _ _ _ _ hgroup
  refine ⟨?_, ⟨m, hschema, fun p hp => ?_⟩, exists_built digest hb, ?_⟩
  · have hflush : (flushBuf (s.batcher.workers w)).Sublist (s.batcher.workers w).held := by
      cases s.batcher.workers w with
      | waiting buf flushAt => exact List.nil_sublist _
      | flushing buf => exact List.Sublist.refl _
      | closing buf => exact List.Sublist.refl _
      | ended => exact List.nil_sublist _
    rw [hpoints]
    exact (List.filter_sublist.trans hflush).trans
      ((List.sublist_append_left _ _).trans (hs.ordered w))
  · rw [hpoints] at hp
    simpa using (List.mem_filter.mp hp).2
  · exact (Batches.buildBatch_drawn digest (by simpa using hne) hb).keys

variable [DecidableEq ι]

theorem inv_submitted (hs : Inv digest s) {p : Point F} {b : Batcher (Sent F) ι}
    (hb : Batcher.Change c s.batcher (.put ⟨s.batcher.accepted.length, p⟩) b) :
    Inv digest { s with batcher := b } := by
  have hordered := hs.ordered.change c hb
  cases hb with
  | put hroom =>
    refine ⟨hordered, ?_, ?_, ?_, fun l hl q hq => ?_⟩
    · refine List.pairwise_append.mpr ⟨hs.sorted, List.pairwise_singleton _ _, ?_⟩
      intro q hq q' hq'
      rw [List.mem_singleton.mp hq']
      exact hs.numbered q hq
    · intro q hq
      show q.no < (s.batcher.accepted ++ [_]).length
      rw [List.length_append, List.length_singleton]
      rcases List.mem_append.mp hq with hq | hq
      · exact Nat.lt_succ_of_lt (hs.numbered q hq)
      · rw [List.mem_singleton.mp hq]
        exact Nat.lt_succ_self _
    · intro w b hb
      obtain ⟨points, schema, hmade, hsub, h⟩ := hs.made w b hb
      exact ⟨points, schema, hmade, hsub.trans (List.sublist_append_left _ _), h⟩
    · obtain ⟨hmem, htable⟩ := hs.landed l hl q hq
      exact ⟨List.mem_append_left _ hmem, htable⟩

/-- What a writer holds after one of them moves on. -/
theorem made_update (hs : Inv digest s) (w : ι) (x : Writer F)
    (made : Option (List (Sent F) × TableSchema))
    (hx : ∀ b, Schedule.holds x = some b → ∃ points schema, made = some (points, schema) ∧
      points.Sublist s.batcher.accepted ∧ Made digest points schema b) :
    ∀ w' b, Schedule.holds (Function.update s.sys.writers w x w') = some b → ∃ points schema,
      Function.update s.made w made w' = some (points, schema) ∧
        points.Sublist s.batcher.accepted ∧ Made digest points schema b := by
  intro w' b hb
  by_cases hw : w' = w
  · subst hw
    rw [Function.update_self] at hb ⊢
    exact hx b hb
  · rw [Function.update_of_ne hw] at hb ⊢
    exact hs.made w' b hb

/-- Staging and recording keep the batch of a writer. -/
theorem made_same (hs : Inv digest s) {w : ι} {x : Writer F} {b : Batch F}
    (hw : Schedule.holds (s.sys.writers w) = some b) (hx : Schedule.holds x = some b) :
    ∀ w' b', Schedule.holds (Function.update s.sys.writers w x w') = some b' →
      ∃ points schema, s.made w' = some (points, schema) ∧
        points.Sublist s.batcher.accepted ∧ Made digest points schema b' := by
  have h := made_update hs w x (s.made w) fun b' hb' => by
    rw [hx] at hb'
    exact hs.made w b' (hw.trans hb')
  rwa [Function.update_eq_self] at h

variable [DecidableEq κ]

theorem change_inv (hs : Inv digest s) {e : Workers.Event F ι κ}
    (h : Change digest writeThroughOn c s e t) : Inv digest t := by
  cases h with
  | submitted hb => exact inv_submitted hs hb
  | @settled e b hput hb =>
    have haccepted := Batcher.accepted_of_change c hput hb
    obtain ⟨hbatcher, -, hmade, hlanded⟩ := settle_frame { s with batcher := b } e
    refine hs.of_frame ?_ ?_ (fun w b' hb' => ?_) ?_
    · exact hbatcher ▸ hs.ordered.change c hb
    · exact (congrArg _ hbatcher).trans haccepted
    · rw [hmade]
      exact hs.made w b' (holds_settle { s with batcher := b } e hb')
    · rw [hlanded]
      exact hs.landed
  | @refused w measurement schema points n hidle =>
    have hsame : Function.update s.sys.writers w .idle = s.sys.writers := by
      rw [← hidle, Function.update_eq_self]
    refine hs.of_frame hs.ordered rfl ?_ hs.landed
    have hmade := made_update hs w .idle (some (points, schema.val))
      (by simp [Schedule.holds])
    rwa [hsame] at hmade
  | @built w measurement schema points n b hgroup hb =>
    refine hs.of_frame hs.ordered rfl (made_update hs w _ _ ?_) hs.landed
    intro b' hb'
    cases hb'
    exact ⟨points, _, rfl, made_of_group hs hgroup schema.property hb⟩
  | @committed w points schema b t hmade hb ht =>
    refine hs.of_frame hs.ordered rfl ?_ fun l hl p hp => ?_
    · have hidle := made_update hs w .idle (s.made w)
        (by simp [Schedule.holds])
      rwa [Function.update_eq_self] at hidle
    · rcases List.mem_append.mp hl with hl | hl
      · exact hs.landed l hl p hp
      · obtain ⟨points', schema', hmade', hsub, hof⟩ := hs.made w b (Schedule.holds_of_ready _ hb)
        cases hmade.symm.trans hmade'
        obtain ⟨m, hcanonical, hm⟩ := hof.canonical
        rw [List.mem_singleton.mp hl] at hp ⊢
        exact ⟨hsub.mem hp, hm p hp ▸ hcanonical.table⟩
  | @stored e sys he hsys =>
    have hlanded : ∀ l ∈ recasted s.landed e, ∀ p ∈ l.points, p ∈ s.batcher.accepted ∧
        l.schema.table = measurementTable p.point.measurement := by
      intro l hl p hp
      obtain ⟨old, hold, hpoints, hschema⟩ := mem_recasted hl
      rw [hschema]
      exact hs.landed old hold p (hpoints ▸ hp)
    cases hsys with
    | built => contradiction
    | refused => contradiction
    | committed => contradiction
    | abandoned => contradiction
    | staged hb hon => exact hs.of_frame hs.ordered rfl (made_same hs (by rw [hb]; rfl) rfl) hlanded
    | recorded hb => exact hs.of_frame hs.ordered rfl (made_same hs (by rw [hb]; rfl) rfl) hlanded
    | promoted => exact hs.of_frame hs.ordered rfl hs.made hlanded
    | began hp => exact hs.of_frame hs.ordered rfl hs.made hlanded
    | advanced hp => exact hs.of_frame hs.ordered rfl hs.made hlanded

end Inv

section Rows

variable {digest} {s t : Feed F ι κ}

omit [Numerics F] in
/-- The point that decides a row of the group was submitted last. -/
theorem last_of_group {points : List (Sent F)} (hsorted : points.Pairwise (fun p q => p.no < q.no))
    {k : Key} {q : Point F} (hq : lastOf digest (points.map (·.point)) k = some q) :
    ∃ last ∈ points, last.point = q ∧ pointKey digest q = k ∧
      ∀ p ∈ points, pointKey digest p.point = k → p = last ∨ p.no < last.no := by
  rw [lastOf, List.filter_map, List.getLast?_map, Option.map_eq_some_iff] at hq
  obtain ⟨last, hlast, rfl⟩ := hq
  have hmem := List.mem_filter.mp (List.mem_of_getLast? hlast)
  refine ⟨last, hmem.1, rfl, by simpa using hmem.2, fun p hp hkey => ?_⟩
  obtain ⟨before, hbefore⟩ := List.getLast?_eq_some_iff.mp hlast
  have hp' : p ∈ before ++ [last] := by
    rw [← hbefore]
    exact List.mem_filter.mpr ⟨hp, by simpa using hkey⟩
  have hpairs : (before ++ [last]).Pairwise (fun p q => p.no < q.no) := by
    rw [← hbefore]
    exact hsorted.sublist List.filter_sublist
  rcases List.mem_append.mp hp' with hp' | hp'
  · exact Or.inr ((List.pairwise_append.mp hpairs).2.2 p hp' last (List.mem_singleton_self last))
  · exact Or.inl (List.mem_singleton.mp hp')

omit [Numerics F] in
theorem landed_append (sys : Sys F ι κ) (done : ι → ℕ) (points : List (Sent F))
    (schema : TableSchema) (p : Sent F) :
    Landed { s with sys := sys, done := done, landed := s.landed ++ [⟨points, schema, []⟩] } p ↔
      Landed s p ∨ p ∈ points := by
  simp [Landed, or_and_right, exists_or]

/-- A row that is left alone holds what it held. -/
theorem Holds.of_frame {p : Sent F} (h : Holds digest s p) (hlanded : ∀ l ∈ s.landed, l ∈ t.landed)
    (hrow : (t.sys.world.hot (measurementTable p.point.measurement)).get? (pointKey digest p.point) =
      (s.sys.world.hot (measurementTable p.point.measurement)).get? (pointKey digest p.point)) :
    Holds digest t p := by
  obtain ⟨l, hl, hp, stored, hstored, hcells⟩ := h
  exact ⟨l, hlanded l hl, hp, stored, hrow.trans hstored, hcells⟩

/-- A promotion casts the row and the record of it alike. -/
theorem Holds.promote {p : Sent F} (h : Holds digest s p)
    (htables : ∀ l ∈ s.landed, p ∈ l.points →
      l.schema.table = measurementTable p.point.measurement)
    (table col : Str) (fromType toType : PgType) :
    Holds digest { s with
      sys := Schedule.promote s.sys table col fromType toType
      landed := s.landed.map (castLanding table col fromType toType) } p := by
  obtain ⟨l, hl, hp, stored, hstored, hcells⟩ := h
  have htable := htables l hl hp
  refine ⟨castLanding table col fromType toType l, List.mem_map_of_mem hl, ?_⟩
  by_cases hsame : l.schema.table = table
  · rw [castLanding, if_pos hsame]
    refine ⟨hp, ⟨stored.seq, castCells col fromType toType stored.cells⟩, ?_, fun f hf => ?_⟩
    · show (Function.update s.sys.world.hot table _ _).get? _ = _
      rw [← htable, hsame, Function.update_self, Schedule.promoted, Dict.get?_map, ← hsame, htable,
        hstored, Option.map_some]
    · obtain ⟨ty, v, hty, hv, hcell⟩ := hcells f hf
      refine ⟨ty, v, hty, hv, ?_⟩
      rw [castAll_concat, ← hcell]
      rfl
  · rw [castLanding, if_neg hsame]
    refine ⟨hp, stored, ?_, hcells⟩
    show (Function.update s.sys.world.hot table _ _).get? _ = _
    rw [Function.update_of_ne (htable ▸ hsame), hstored]

/-- The row of the last point of a group, right after the commit. -/
theorem holds_committed [DecidableEq ι] {w : ι} {points : List (Sent F)} {schema : TableSchema}
    {b : Batch F} {table : Table (Value F)} (hof : Made digest points schema b)
    (ht : Store.commit b (s.sys.world.hot b.table) = some table) (done : ι → ℕ)
    {r : Row (Value F)} (hr : r ∈ b.records) {p : Sent F} (hp : p ∈ points)
    (hlast : lastOf digest (points.map (·.point)) r.key = some p.point) :
    Holds digest { s with
      sys := Schedule.commit s.sys w b table
      done := done
      landed := s.landed ++ [⟨points, schema, []⟩] } p := by
  obtain ⟨m, hcanonical, hm⟩ := hof.canonical
  obtain ⟨sources, hbuilt⟩ := hof.built
  have hcols := Batches.commit_cols_nodup ht
  obtain ⟨q, hq, hrow⟩ := hbuilt.rows r hr
  cases hlast.symm.trans hq
  have htable : b.table = measurementTable p.point.measurement := by
    rw [hbuilt.table, hcanonical.table, hm p hp]
  have hp' : p.point ∈ points.map (·.point) := List.mem_map_of_mem hp
  refine ⟨_, List.mem_append_right _ List.mem_cons_self, hp,
    Batches.upserted b.cols ((s.sys.world.hot b.table).get? r.key) r, ?_, fun f hf => ?_⟩
  · show (Function.update s.sys.world.hot b.table table _).get? _ = _
    rw [← htable, Function.update_self, ← hrow.1]
    exact Batches.get?_commit_of_mem ht hof.keys hr
  · have hsample := (mem_fieldSamples_iff f).mpr ⟨p.point, hp', hf⟩
    obtain ⟨ty, v, hty, hv, hcell⟩ :=
      hbuilt.insertedCell_field digest hcanonical hcols hp' hrow hsample
    refine ⟨ty, v, hty, ?_, ?_⟩
    · rwa [hbuilt.pointCells_colOfField digest hcanonical hcols hp' hsample] at hv
    · show (insertedCell b.cols r (colOfField f)).getD _ = v
      rw [hcell, Option.getD_some]

/-- A commit in order keeps what holds of the last points. -/
theorem lastHolds_committed [DecidableEq ι] {w : ι} {points : List (Sent F)} {schema : TableSchema}
    {b : Batch F} {table : Table (Value F)} (hs : Inv digest s) (hlast : LastHolds digest s)
    (hsub : points.Sublist s.batcher.accepted) (hof : Made digest points schema b)
    (ht : Store.commit b (s.sys.world.hot b.table) = some table) (done : ι → ℕ)
    (horder : ∀ p ∈ points, ∀ q, Landed s q → Same p.point q.point → q.no < p.no) :
    LastHolds digest { s with
      sys := Schedule.commit s.sys w b table
      done := done
      landed := s.landed ++ [⟨points, schema, []⟩] } := by
  obtain ⟨m, hcanonical, hm⟩ := hof.canonical
  obtain ⟨sources, hbuilt⟩ := hof.built
  have htable : b.table = measurementTable m := hbuilt.table.trans hcanonical.table
  intro p hp hnewest
  simp only [landed_append] at hp hnewest
  rcases Schedule.get?_hot_commit hof.keys ht (measurementTable p.point.measurement)
    (pointKey digest p.point) (w := w) with ⟨r, hr, hrow, hkey, -⟩ | ⟨hnone, hget⟩
  · -- the group has points of the row, and the last of them must be `p`
    obtain ⟨q, hq, -⟩ := hbuilt.rows r hr
    obtain ⟨last, hmem, rfl, hlastkey, hlater⟩ := last_of_group (hs.sorted.sublist hsub) hq
    have hrows : SameRow digest p.point last.point :=
      ⟨by rw [hm last hmem, ← htable, hrow], by rw [hlastkey, hkey]⟩
    obtain ⟨hsame, hle⟩ := hnewest last (Or.inr hmem) hrows
    have hpoint : p = last := by
      rcases hp with hp | hp
      · have hlt := horder last hmem p hp hsame.symm
        omega
      · rcases hlater p hp hkey.symm with heq | hlt
        · exact heq
        · omega
    subst hpoint
    exact holds_committed hof ht done hr hmem hq
  · have hlanded : Landed s p := by
      refine hp.resolve_right fun hp => ?_
      obtain ⟨r, hr, hkey⟩ := hbuilt.keys p.point (List.mem_map_of_mem hp)
      exact hnone (by rw [htable, hm p hp]) r hr hkey
    refine (hlast p hlanded fun q hq => hnewest q (Or.inl hq)).of_frame ?_ hget
    exact fun l hl => List.mem_append_left _ hl

end Rows

section Run

variable {digest} {writeThroughOn : Bool} {c : BatcherSettings} {s t : Feed F ι κ}

theorem LastHolds.of_frame (h : LastHolds digest s) (hlanded : t.landed = s.landed)
    (hhot : t.sys.world.hot = s.sys.world.hot) : LastHolds digest t := by
  intro p hp hnewest
  unfold Landed at hp hnewest
  rw [hlanded] at hp hnewest
  refine (h p hp hnewest).of_frame (fun l hl => ?_) (by rw [hhot])
  rw [hlanded]
  exact hl

theorem LastHolds.promote (hs : Inv digest s) (h : LastHolds digest s) (table col : Str)
    (fromType toType : PgType) :
    LastHolds digest { s with
      sys := Schedule.promote s.sys table col fromType toType
      landed := s.landed.map (castLanding table col fromType toType) } := by
  have hlanded : ∀ q, Landed { s with
      sys := Schedule.promote s.sys table col fromType toType
      landed := s.landed.map (castLanding table col fromType toType) } q ↔ Landed s q := by
    intro q
    simp only [Landed, List.mem_map, exists_exists_and_eq_and]
    exact exists_congr fun l => by rw [(castLanding_frame table col fromType toType l).1]
  intro p hp hnewest
  simp only [hlanded] at hp hnewest
  exact (h p hp hnewest).promote (fun l hl hpl => (hs.landed l hl p hpl).2) table col fromType toType

variable [DecidableEq ι] [DecidableEq κ]

theorem change_lastHolds (hs : Inv digest s) (hlast : LastHolds digest s)
    {e : Workers.Event F ι κ} (horder : InOrder s e)
    (h : Change digest writeThroughOn c s e t) : LastHolds digest t := by
  cases h with
  | submitted hb => exact hlast.of_frame rfl rfl
  | @settled e b hput hb =>
    obtain ⟨-, hworld, -, hlanded⟩ := settle_frame { s with batcher := b } e
    exact hlast.of_frame hlanded (congrArg World.hot hworld)
  | refused hidle => exact hlast.of_frame rfl rfl
  | built hgroup hb => exact hlast.of_frame rfl rfl
  | committed hmade hb ht =>
    obtain ⟨points, schema, hmade', hsub, hof⟩ := hs.made _ _ (Schedule.holds_of_ready _ hb)
    cases hmade.symm.trans hmade'
    exact lastHolds_committed hs hlast hsub hof ht _ (horder _ _ hmade)
  | stored he hsys =>
    cases hsys with
    | built => contradiction
    | refused => contradiction
    | committed => contradiction
    | abandoned => contradiction
    | staged hb hon => exact hlast.of_frame rfl rfl
    | recorded hb => exact hlast.of_frame rfl rfl
    | promoted => exact hlast.promote hs _ _ _ _
    | began hp => exact hlast.of_frame rfl rfl
    | advanced hp => exact hlast.of_frame rfl rfl

/-- When no point is committed after a later one of its series, time and field
set, the hot row of a key has the values of the point submitted last throughout. -/
theorem always_lastHolds_of_inOrder [Fintype ι] (digest : Str → ℕ) (writeThroughOn : Bool)
    (c : BatcherSettings) (world : World (Value F)) (es : List (Workers.Event F ι κ))
    (horder : Runs.Along (step digest writeThroughOn c) InOrder (start world) es) :
    Runs.Always (step digest writeThroughOn c) (LastHolds digest) (start world) es := by
  refine Runs.always_of_along (I := fun s => Inv digest s ∧ LastHolds digest s) ?_
    (fun _ h => h.2) ⟨start_inv digest world, ?_⟩ horder
  · intro s e t hs hG h
    exact ⟨change_inv hs.1 (change_of_step h), change_lastHolds hs.1 hs.2 hG (change_of_step h)⟩
  · intro p hp
    simp [Landed, start] at hp

end Run

/-- The test of the order. -/
def committedLast (s : Feed F ι κ) : Workers.Event F ι κ → Bool
  | .commit w => (s.made w).all fun made => made.1.all fun p =>
      s.landed.all fun l => l.points.all fun q => decide (q.no < p.no)
  | _ => true

omit [Numerics F] in
theorem inOrder_of_committedLast {s : Feed F ι κ} {e : Workers.Event F ι κ}
    (h : committedLast s e = true) : InOrder s e := by
  cases e with
  | commit w =>
    intro points schema hmade p hp q hq hsame
    obtain ⟨l, hl, hq⟩ := hq
    simp only [committedLast, hmade, Option.all_some, List.all_eq_true, decide_eq_true_eq] at h
    exact h p hp l hl q hq
  | submit p => trivial
  | batch e => trivial
  | build w measurement schema => trivial
  | store e => trivial

theorem cpuSchema_canonical : Canonical "cpu".toList Schedule.cpuSchema where
  table := by decide
  tags t col h := by simp [Schedule.cpuSchema] at h
  fields f e h := by
    cases Dict.eq_of_get?_single h
    decide

/-- Two workers take a point each, build their rows and commit in a given order;
both flushes succeed. -/
def twoFlushes (commits : List Bool) : List (Workers.Event ℤ Bool Unit) :=
  [.submit (Schedule.cpuPoint 0 1), .batch (.take false 0), .submit (Schedule.cpuPoint 0 2),
    .batch (.take true 0), .build false "cpu".toList ⟨Schedule.cpuSchema, cpuSchema_canonical⟩,
    .build true "cpu".toList ⟨Schedule.cpuSchema, cpuSchema_canonical⟩] ++
    commits.map .commit ++ [.batch (.finish false (some 1)), .batch (.finish true (some 1))]

def emptyWorld : World (Value ℤ) := ⟨1, fun _ => Dict.empty, ColdStore.empty⟩

theorem twoFlushes_lastHolds : Runs.Always (step (fun _ => 0) false ⟨1, 500⟩)
    (LastHolds fun _ => 0) (start emptyWorld) (twoFlushes [false, true]) := by
  have hcheck : Runs.checkAlong (step (fun _ => 0) false ⟨1, 500⟩) committedLast
      (start emptyWorld) (twoFlushes [false, true]) = true := by decide +kernel
  exact always_lastHolds_of_inOrder _ _ _ _ _
    ((Runs.along_of_check hcheck).mono fun _ _ => inOrder_of_committedLast)

/-- The worker that took the first point commits last. -/
theorem twoFlushes_overtaken : ¬∀ es : List (Workers.Event ℤ Bool Unit),
    Runs.Always (step (fun _ => 0) false ⟨1, 500⟩) (LastHolds fun _ => 0) (start emptyWorld) es := by
  intro h
  have hlanded : (Runs.exec (step (fun _ => 0) false ⟨1, 500⟩) (start emptyWorld)
      (twoFlushes [true, false])).map (·.landed) =
        some [⟨[⟨1, Schedule.cpuPoint 0 2⟩], Schedule.cpuSchema, []⟩,
          ⟨[⟨0, Schedule.cpuPoint 0 1⟩], Schedule.cpuSchema, []⟩] := rfl
  have hhot : (Runs.exec (step (fun _ => 0) false ⟨1, 500⟩) (start emptyWorld)
      (twoFlushes [true, false])).any (fun s => ((s.sys.world.hot "cpu".toList).get? ⟨0, 0⟩).all
        fun stored => decide (stored.cells "f_a".toList = some (.int 1))) = true := by
    decide +kernel
  obtain ⟨s, hs, hlanded⟩ := Option.map_eq_some_iff.mp hlanded
  rw [hs, Option.any_some] at hhot
  have hholds := (h (twoFlushes [true, false])).last hs ⟨1, Schedule.cpuPoint 0 2⟩
    ⟨_, hlanded ▸ List.mem_cons_self, List.mem_cons_self⟩ ?_
  · obtain ⟨l, hl, hp, stored, hstored, hcells⟩ := hholds
    obtain ⟨ty, v, hty, hv, hcell⟩ := hcells "a".toList (by decide)
    rw [hlanded, List.mem_cons, List.mem_singleton] at hl
    rcases hl with rfl | rfl
    · cases (show some ("f_a".toList, PgType.bigint) = some (_, ty) from hty)
      cases (show Except.ok (some (Value.int 2)) = .ok v from hv)
      have hkey : (s.sys.world.hot "cpu".toList).get? ⟨0, 0⟩ = some stored := hstored
      rw [hkey, Option.all_some, decide_eq_true_eq] at hhot
      cases hhot.symm.trans hcell
    · have hno := congrArg Sent.no (List.mem_singleton.mp hp)
      contradiction
  · intro q hq hrow
    obtain ⟨l, hl, hq⟩ := hq
    rw [hlanded, List.mem_cons, List.mem_singleton] at hl
    rcases hl with rfl | rfl
    · rw [List.mem_singleton.mp hq]
      exact ⟨⟨rfl, fun _ => rfl, rfl, fun _ => Iff.rfl⟩, le_rfl⟩
    · rw [List.mem_singleton.mp hq]
      exact ⟨⟨rfl, fun _ => rfl, rfl, fun _ => Iff.rfl⟩, Nat.zero_le 1⟩

end TimescaleLp.Overtaking
