import TimescaleLp.Queries
import TimescaleLp.Ranking
import Mathlib.Data.List.Forall2
import Mathlib.Logic.Relation

/-!
Rows whose cells were converted. When the engine reads relations together, it casts
columns of different types to a common one and adds a column for a part of a path.
The keys and the versions of the rows stay as they are, so stores that differ in such
conversions alone have the same objects and tables, and a merge chooses the same rows.
-/
namespace TimescaleLp.Conversions

open ColdStore Tiering Queries Ranking

variable {F : Type}

/-- A row whose cells may have changed. -/
structure Converted (converts : Cells (Value F) → Cells (Value F) → Prop)
    (r r' : Row (Value F)) : Prop where
  key : r'.key = r.key
  seq : r'.seq = r.seq
  cells : converts r.cells r'.cells

variable (converts : Cells (Value F) → Cells (Value F) → Prop)

/-- The same rows in any order, converted any number of times. -/
def Alike (rows rows' : List (Row (Value F))) : Prop :=
  ∃ l, l.Perm rows ∧ List.Forall₂ (Converted (Relation.ReflTransGen converts)) l rows'

structure AlikeStores (w w' : World (Value F)) : Prop where
  hot : w'.hot = w.hot
  manifest : w'.cold.manifest = w.cold.manifest
  files : ∀ k, Option.Rel (Alike converts) (w.cold.files k) (w'.cold.files k)

variable {converts}

section Rows

variable {rows rows' : List (Row (Value F))}

theorem Converted.refl (r : Row (Value F)) :
    Converted (Relation.ReflTransGen converts) r r := ⟨rfl, rfl, .refl⟩

theorem Converted.trans {r r' r'' : Row (Value F)}
    (h : Converted (Relation.ReflTransGen converts) r r')
    (h' : Converted (Relation.ReflTransGen converts) r' r'') :
    Converted (Relation.ReflTransGen converts) r r'' :=
  ⟨h'.key.trans h.key, h'.seq.trans h.seq, h.cells.trans h'.cells⟩

theorem alike_of_perm (h : rows'.Perm rows) : Alike converts rows rows' :=
  ⟨rows', h, List.forall₂_same.mpr fun r _ => Converted.refl r⟩

theorem Alike.refl (rows : List (Row (Value F))) : Alike converts rows rows :=
  alike_of_perm (List.Perm.refl rows)

theorem Alike.append {more more' : List (Row (Value F))} (h : Alike converts rows rows')
    (h' : Alike converts more more') : Alike converts (rows ++ more) (rows' ++ more') := by
  obtain ⟨l, hl, hrows⟩ := h
  obtain ⟨l', hl', hmore⟩ := h'
  exact ⟨l ++ l', hl.append hl', List.rel_append hrows hmore⟩

theorem Alike.mem_right (h : Alike converts rows rows') {r' : Row (Value F)} (hr' : r' ∈ rows') :
    ∃ r ∈ rows, Converted (Relation.ReflTransGen converts) r r' := by
  obtain ⟨l, hl, hrows⟩ := h
  obtain ⟨i, hi, rfl⟩ := List.mem_iff_getElem.mp hr'
  have hil : i < l.length := hrows.length_eq ▸ hi
  exact ⟨l[i], hl.subset (List.getElem_mem hil), hrows.get hil hi⟩

theorem Alike.mem_left (h : Alike converts rows rows') {r : Row (Value F)} (hr : r ∈ rows) :
    ∃ r' ∈ rows', Converted (Relation.ReflTransGen converts) r r' := by
  obtain ⟨l, hl, hrows⟩ := h
  obtain ⟨i, hi, rfl⟩ := List.mem_iff_getElem.mp (hl.mem_iff.mpr hr)
  have hi' : i < rows'.length := hrows.length_eq ▸ hi
  exact ⟨rows'[i], List.getElem_mem hi', hrows.get hi hi'⟩

/-- One more read. -/
theorem Alike.read (h : Alike converts rows rows') {read : List (Row (Value F))}
    (hread : List.Forall₂ (Converted converts) rows' read) : Alike converts rows read := by
  obtain ⟨l, hl, hrows⟩ := h
  refine ⟨l, hl, ?_⟩
  clear hl
  induction hread generalizing l with
  | nil => exact hrows
  | cons hr _ ih =>
    cases hrows with
    | cons hfirst hrest =>
      refine .cons ⟨hr.key.trans hfirst.key, hr.seq.trans hfirst.seq, ?_⟩ (ih _ hrest)
      exact hfirst.cells.tail hr.cells

/-- Rows of keys of their own are alike as soon as each is a converted one. -/
theorem alike_of_keys (hrows : (rows.map Row.key).Nodup) (hrows' : (rows'.map Row.key).Nodup)
    (hsound : ∀ r' ∈ rows', ∃ r ∈ rows, Converted (Relation.ReflTransGen converts) r r')
    (hcomplete : ∀ r ∈ rows, ∃ r' ∈ rows', r'.key = r.key) : Alike converts rows rows' := by
  obtain ⟨l, hl, hmem⟩ : ∃ l, List.Forall₂ (Converted (Relation.ReflTransGen converts)) l rows' ∧
      ∀ r ∈ l, r ∈ rows := by
    clear hrows' hcomplete
    induction rows' with
    | nil => exact ⟨[], .nil, fun r hr => absurd hr List.not_mem_nil⟩
    | cons r' rows' ih =>
      obtain ⟨r, hr, hconverted⟩ := hsound r' List.mem_cons_self
      obtain ⟨l, hl, hmem⟩ := ih fun s hs => hsound s (List.mem_cons_of_mem r' hs)
      exact ⟨r :: l, .cons hconverted hl, List.forall_mem_cons.mpr ⟨hr, hmem⟩⟩
  have hkeys : l.map Row.key = rows'.map Row.key := by
    clear hsound hcomplete hmem hrows'
    induction hl with
    | nil => rfl
    | cons hr _ ih => rw [List.map_cons, List.map_cons, hr.key, ih]
  have hnodup : (l.map Row.key).Nodup := hkeys ▸ hrows'
  refine ⟨l, (List.perm_ext_iff_of_nodup hnodup.of_map hrows.of_map).mpr fun r => ?_, hl⟩
  refine ⟨hmem r, fun hr => ?_⟩
  obtain ⟨r', hr', hkey⟩ := hcomplete r hr
  have hown : r'.key ∈ l.map Row.key := hkeys ▸ List.mem_map_of_mem hr'
  obtain ⟨s, hs, hskey⟩ := List.mem_map.mp hown
  rwa [← List.inj_on_of_nodup_map hrows (hmem s hs) hr (hskey.trans hkey)]

/-- Whichever rows are numbered first after a read, they are those that a merge keeps. -/
theorem Alike.firsts (h : Alike converts rows rows') {out : List (Row (Value F) × ℕ)}
    (hout : Numbering Row.key Row.seq rows' out)
    (hdistinct : Versions.Distinct Row.key Row.seq {r | r ∈ rows}) :
    Alike converts (Engine.dedupRows rows) (Ranking.firsts out) := by
  refine alike_of_keys (Versions.dedup_keys_nodup _ _ _) hout.keys_nodup ?_ ?_
  · intro r' hr'
    have hnewest := hout.newest hr'
    obtain ⟨r, hr, hconverted⟩ := h.mem_right hnewest.1
    obtain ⟨d, hd, hkey, hseq⟩ := Engine.dedupRows_covers rows r hr
    obtain ⟨d', hd', hconverted'⟩ := h.mem_left (Engine.dedupRows_subset rows d hd)
    have hle := hnewest.2.2 d' hd' (hconverted'.key.trans (hkey.trans hconverted.key.symm))
    rw [hconverted'.seq, hconverted.seq] at hle
    rw [hdistinct d (Engine.dedupRows_subset rows d hd) r hr hkey (le_antisymm hle hseq)] at hd
    exact ⟨r, hd, hconverted⟩
  · intro d hd
    obtain ⟨d', hd', hconverted⟩ := h.mem_left (Engine.dedupRows_subset rows d hd)
    obtain ⟨r', hr', hkey⟩ := hout.exists_first hd'
    exact ⟨r', hr', hkey.trans hconverted.key⟩

end Rows

section Stores

variable {w w' : World (Value F)}

theorem AlikeStores.objects (h : AlikeStores converts w w') (m : Str) (kind : Option Kind) :
    objects w'.cold m kind = objects w.cold m kind := by
  unfold ColdStore.objects
  rw [h.manifest]

theorem AlikeStores.file_right (h : AlikeStores converts w w') {k : Str}
    {rows' : List (Row (Value F))} (hfile : w'.cold.files k = some rows') :
    ∃ rows, w.cold.files k = some rows ∧ Alike converts rows rows' := by
  have hrel := h.files k
  rw [hfile] at hrel
  generalize hown : w.cold.files k = file at hrel
  cases hrel with
  | some halike => exact ⟨_, rfl, halike⟩

theorem AlikeStores.file_left (h : AlikeStores converts w w') {k : Str}
    {rows : List (Row (Value F))} (hfile : w.cold.files k = some rows) :
    ∃ rows', w'.cold.files k = some rows' ∧ Alike converts rows rows' := by
  have hrel := h.files k
  rw [hfile] at hrel
  generalize hother : w'.cold.files k = file at hrel
  cases hrel with
  | some halike => exact ⟨_, rfl, halike⟩

theorem AlikeStores.read_right (h : AlikeStores converts w w') {keys : List Str}
    {rows' : List (Row (Value F))} (hread : Engine.readParquet w'.cold keys = some rows') :
    ∃ rows, Engine.readParquet w.cold keys = some rows ∧ Alike converts rows rows' := by
  induction keys generalizing rows' with
  | nil =>
    cases hread
    exact ⟨[], rfl, Alike.refl []⟩
  | cons k keys ih =>
    obtain ⟨first, hfirst, hrest⟩ := Option.bind_eq_some_iff.mp hread
    obtain ⟨rest, hkeys, rfl⟩ := Option.map_eq_some_iff.mp hrest
    obtain ⟨own, hown, halike⟩ := h.file_right hfirst
    obtain ⟨others, hothers, halikes⟩ := ih hkeys
    exact ⟨own ++ others, by rw [Engine.readParquet, hown, Option.bind_some, hothers]; rfl,
      halike.append halikes⟩

/-- What can be read of the one can be read of the other. -/
theorem AlikeStores.readable (h : AlikeStores converts w w') {keys : List Str}
    {rows : List (Row (Value F))} (hread : Engine.readParquet w.cold keys = some rows) :
    ∃ rows', Engine.readParquet w'.cold keys = some rows' := by
  refine Engine.exists_readParquet fun k hk => ?_
  obtain ⟨rs, hrs, -⟩ := Engine.readParquet_exists _ _ rows hread k hk
  obtain ⟨rs', hrs', -⟩ := h.file_left hrs
  exact ⟨rs', hrs'⟩

theorem AlikeStores.viewRows_right (h : AlikeStores converts w w') {tier : Tier} {table : Str}
    {start stop : Option Time} {r' : Row (Value F)} (hr' : r' ∈ viewRows w' tier table start stop) :
    ∃ r ∈ viewRows w tier table start stop, Converted (Relation.ReflTransGen converts) r r' := by
  rcases hr' with ⟨htier, hr'⟩ | ⟨htier, o, ho, rows', hrows', hr'⟩
  · rw [h.hot] at hr'
    exact ⟨r', Or.inl ⟨htier, hr'⟩, Converted.refl r'⟩
  · obtain ⟨rows, hrows, halike⟩ := h.file_right hrows'
    obtain ⟨r, hr, hconverted⟩ := halike.mem_right hr'
    rw [h.objects] at ho
    exact ⟨r, Or.inr ⟨htier, o, ho, rows, hrows, hr⟩, hconverted⟩

theorem AlikeStores.viewRows_left (h : AlikeStores converts w w') {tier : Tier} {table : Str}
    {start stop : Option Time} {r : Row (Value F)} (hr : r ∈ viewRows w tier table start stop) :
    ∃ r' ∈ viewRows w' tier table start stop, Converted (Relation.ReflTransGen converts) r r' := by
  rcases hr with ⟨htier, hr⟩ | ⟨htier, o, ho, rows, hrows, hr⟩
  · rw [← h.hot] at hr
    exact ⟨r, Or.inl ⟨htier, hr⟩, Converted.refl r⟩
  · obtain ⟨rows', hrows', halike⟩ := h.file_left hrows
    obtain ⟨r', hr', hconverted⟩ := halike.mem_left hr
    rw [← h.objects] at ho
    exact ⟨r', Or.inr ⟨htier, o, ho, rows', hrows', hr'⟩, hconverted⟩

theorem AlikeStores.writeTable (h : AlikeStores converts w w') (key : Str)
    {rows rows' : List (Row (Value F))} (hrows : Alike converts rows rows') :
    AlikeStores converts { w with cold := ColdStore.writeTable w.cold key rows }
      { w' with cold := ColdStore.writeTable w'.cold key rows' } where
  hot := h.hot
  manifest := h.manifest
  files k := by
    show Option.Rel _ (Function.update w.cold.files key (some rows) k)
      (Function.update w'.cold.files key (some rows') k)
    rw [Function.update_apply, Function.update_apply]
    split
    · exact .some hrows
    · exact h.files k

end Stores

end TimescaleLp.Conversions
