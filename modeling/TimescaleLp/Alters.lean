import TimescaleLp.Naming

/-!
The statements of a migration, column by column. Which statements a call issues,
what they make of the columns of the table, and what is noted of them in the
schema object.
-/
namespace TimescaleLp.Alters

open Names Schema Promotion Naming

variable {F : Type}

def columnsOf (s : Service F) (table : Str) : Dict Str PgType :=
  (s.catalog.get? table).getD Dict.empty

/-- The columns after a statement; `ADD COLUMN IF NOT EXISTS` leaves a column
that exists alone. -/
def altered (columns : Dict Str PgType) : Migration → Dict Str PgType
  | .addTag t =>
    if columns.contains (colOfTag t) then columns else columns.set (colOfTag t) .text
  | .addField f ty =>
    if columns.contains (colOfField f) then columns else columns.set (colOfField f) ty
  | .widen _ col _ toType => columns.set (pgIdent col) toType

/-- The entry that a statement leaves in the field columns of the schema. -/
def recordOf : Migration → Option (Str × (Str × PgType))
  | .addTag _ => none
  | .addField f ty => some (f, (fieldCol f, ty))
  | .widen f col _ toType => some (f, (col, toType))

section Issued

variable {cached : TableSchema} {tagNames : List Str} {samples : Dict Str (Value F)}

theorem addTag_mem_migrations_iff (t : Str) :
    .addTag t ∈ migrations cached tagNames samples ↔
      t ∈ tagNames ∧ cached.tagCols.contains t = false := by
  simp only [migrations, List.mem_append, List.mem_map, List.mem_filter, List.mem_filterMap]
  constructor
  · rintro ((⟨t', ⟨ht, hnew⟩, heq⟩ | ⟨e, -, heq⟩) | ⟨e, -, heq⟩)
    · cases heq
      exact ⟨ht, by simpa using hnew⟩
    · contradiction
    · split at heq
      · contradiction
      · split at heq <;> cases heq
  · rintro ⟨ht, hnew⟩
    exact Or.inl (Or.inl ⟨t, ⟨ht, by simpa using hnew⟩, rfl⟩)

theorem addField_mem_migrations_iff (f : Str) (ty : PgType) :
    .addField f ty ∈ migrations cached tagNames samples ↔
      ∃ v, samples.get? f = some v ∧ cached.fieldCols.get? f = none ∧ ty = inferFieldType v := by
  simp only [migrations, List.mem_append, List.mem_map, List.mem_filter, List.mem_filterMap]
  constructor
  · rintro ((⟨t', -, heq⟩ | ⟨⟨f', v⟩, ⟨he, hnew⟩, heq⟩) | ⟨e, -, heq⟩)
    · contradiction
    · cases heq
      refine ⟨v, (Dict.get?_eq_some_iff _ _ _).mpr he, ?_, rfl⟩
      simpa [Dict.contains] using hnew
    · split at heq
      · contradiction
      · split at heq <;> cases heq
  · rintro ⟨v, hv, hnew, rfl⟩
    refine Or.inl (Or.inr ⟨(f, v), ⟨(Dict.get?_eq_some_iff _ _ _).mp hv, ?_⟩, rfl⟩)
    simp [Dict.contains, hnew]

theorem widen_mem_migrations_iff (f col : Str) (fromType toType : PgType) :
    .widen f col fromType toType ∈ migrations cached tagNames samples ↔
      ∃ v, samples.get? f = some v ∧ cached.fieldCols.get? f = some (col, fromType) ∧
        toType = widenedType fromType v ∧ toType ≠ fromType := by
  simp only [migrations, List.mem_append, List.mem_map, List.mem_filter, List.mem_filterMap]
  constructor
  · rintro ((⟨t', -, heq⟩ | ⟨e, -, heq⟩) | ⟨⟨f', v⟩, he, heq⟩)
    · contradiction
    · contradiction
    · split at heq
      · contradiction
      · rename_i col' current hget
        split at heq
        · contradiction
        · rename_i hne
          cases heq
          exact ⟨v, (Dict.get?_eq_some_iff _ _ _).mpr he, hget, rfl, hne⟩
  · rintro ⟨v, hv, hget, rfl, hne⟩
    refine Or.inr ⟨(f, v), (Dict.get?_eq_some_iff _ _ _).mp hv, ?_⟩
    simp [hget, hne]

end Issued

section Noted

theorem noted_fieldCols (schema : TableSchema) (ms : List Migration) :
    (noted schema ms).fieldCols =
      (ms.filterMap recordOf).foldl (fun d e => d.set e.1 e.2) schema.fieldCols := by
  induction ms generalizing schema with
  | nil => rfl
  | cons mg ms ih =>
    rw [noted_cons, ih]
    cases mg <;> rfl

private theorem get?_foldl_set_of_forall {es : List (Str × (Str × PgType))}
    {d : Dict Str (Str × PgType)} {f : Str} {e : Str × PgType}
    (hall : ∀ e', (f, e') ∈ es → e' = e) (h : (f, e) ∈ es ∨ d.get? f = some e) :
    (es.foldl (fun d e => d.set e.1 e.2) d).get? f = some e := by
  induction es generalizing d with
  | nil => exact h.resolve_left List.not_mem_nil
  | cons x es ih =>
    refine ih (fun e' he' => hall e' (List.mem_cons_of_mem x he')) ?_
    rw [Dict.get?_set]
    by_cases hx : f = x.1
    · right
      rw [if_pos hx, hall x.2 (by simp [hx])]
    · rw [if_neg hx]
      refine h.imp_left fun hmem => ?_
      rcases List.mem_cons.mp hmem with heq | hmem
      · exact absurd (congrArg Prod.fst heq) hx
      · exact hmem

private theorem get?_foldl_set_of_forall_ne {es : List (Str × (Str × PgType))}
    {d : Dict Str (Str × PgType)} {f : Str} (hnone : ∀ e, (f, e) ∉ es) :
    (es.foldl (fun d e => d.set e.1 e.2) d).get? f = d.get? f := by
  induction es generalizing d with
  | nil => rfl
  | cons x es ih =>
    rw [List.foldl_cons, ih fun e he => hnone e (List.mem_cons_of_mem x he), Dict.get?_set, if_neg]
    intro hx
    exact hnone x.2 (by simp [hx])

variable {schema : TableSchema} {ms : List Migration}

/-- What all statements about a field leave for it. -/
theorem get?_noted_of_forall {f : Str} {e : Str × PgType}
    (hall : ∀ mg ∈ ms, ∀ e', recordOf mg = some (f, e') → e' = e)
    (h : (∃ mg ∈ ms, recordOf mg = some (f, e)) ∨ schema.fieldCols.get? f = some e) :
    (noted schema ms).fieldCols.get? f = some e := by
  rw [noted_fieldCols]
  refine get?_foldl_set_of_forall (fun e' he' => ?_) (h.imp_left List.mem_filterMap.mpr)
  obtain ⟨mg, hmg, hrecord⟩ := List.mem_filterMap.mp he'
  exact hall mg hmg e' hrecord

theorem get?_noted_of_forall_ne {f : Str} (hnone : ∀ mg ∈ ms, ∀ e, recordOf mg ≠ some (f, e)) :
    (noted schema ms).fieldCols.get? f = schema.fieldCols.get? f := by
  rw [noted_fieldCols]
  refine get?_foldl_set_of_forall_ne fun e he => ?_
  obtain ⟨mg, hmg, hrecord⟩ := List.mem_filterMap.mp he
  exact hnone mg hmg e hrecord

theorem get?_noted_tagCols (t : Str) : (noted schema ms).tagCols.get? t =
    if .addTag t ∈ ms then some (tagCol t) else schema.tagCols.get? t := by
  induction ms generalizing schema with
  | nil => simp [noted]
  | cons mg ms ih =>
    rw [noted_cons, ih]
    cases mg with
    | addTag t' =>
      by_cases ht : t = t'
      · subst ht
        simp [noted]
      · simp [noted, Dict.get?_set, ht]
    | addField f ty => simp [noted]
    | widen f col fromType toType => simp [noted]

end Noted

section Recorded

variable {cached : TableSchema} {tagNames : List Str} {samples : Dict Str (Value F)}

/-- The entry a call leaves for a field: the type of a cached field is widened by
its sample, a new field gets the type of its sample. -/
def wantedEntry (cached : TableSchema) (samples : Dict Str (Value F)) (f : Str) :
    Option (Str × PgType) :=
  match cached.fieldCols.get? f, samples.get? f with
  | some (col, current), some v => some (col, widenedType current v)
  | some e, none => some e
  | none, some v => some (fieldCol f, inferFieldType v)
  | none, none => none

theorem wantedEntry_of_record {mg : Migration} (hmg : mg ∈ migrations cached tagNames samples)
    {f : Str} {e : Str × PgType} (h : recordOf mg = some (f, e)) :
    wantedEntry cached samples f = some e := by
  unfold wantedEntry
  cases mg with
  | addTag t => contradiction
  | addField f' ty =>
    cases h
    obtain ⟨v, hv, hnew, rfl⟩ := (addField_mem_migrations_iff _ _).mp hmg
    rw [hnew, hv]
  | widen f' col fromType toType =>
    cases h
    obtain ⟨v, hv, hget, rfl, -⟩ := (widen_mem_migrations_iff _ _ _ _).mp hmg
    rw [hget, hv]

/-- A call issues one statement for a field. -/
theorem record_inj {mg mg' : Migration} (hmg : mg ∈ migrations cached tagNames samples)
    (hmg' : mg' ∈ migrations cached tagNames samples) {f : Str} {e e' : Str × PgType}
    (h : recordOf mg = some (f, e)) (h' : recordOf mg' = some (f, e')) : mg = mg' := by
  have heq : e = e' := Option.some.inj
    ((wantedEntry_of_record hmg h).symm.trans (wantedEntry_of_record hmg' h'))
  subst heq
  cases mg with
  | addTag t => contradiction
  | addField f₁ ty =>
    cases h
    obtain ⟨-, -, hnew, -⟩ := (addField_mem_migrations_iff _ _).mp hmg
    cases mg' with
    | addTag t => contradiction
    | addField f₂ ty₂ =>
      cases h'
      rfl
    | widen f₂ col a b =>
      cases h'
      obtain ⟨-, -, hget, -⟩ := (widen_mem_migrations_iff _ _ _ _).mp hmg'
      exact absurd (hnew.symm.trans hget) (by simp)
  | widen f₁ col a b =>
    cases h
    obtain ⟨-, -, hget, -⟩ := (widen_mem_migrations_iff _ _ _ _).mp hmg
    cases mg' with
    | addTag t => contradiction
    | addField f₂ ty₂ =>
      cases h'
      obtain ⟨-, -, hnew, -⟩ := (addField_mem_migrations_iff _ _).mp hmg'
      exact absurd (hnew.symm.trans hget) (by simp)
    | widen f₂ col₂ a₂ b₂ =>
      cases h'
      obtain ⟨-, -, hget', -⟩ := (widen_mem_migrations_iff _ _ _ _).mp hmg'
      cases hget.symm.trans hget'
      rfl

/-- The entry of a field that a statement has been run for. -/
theorem get?_noted_of_record {ran : List Migration}
    (hran : ∀ mg ∈ ran, mg ∈ migrations cached tagNames samples)
    {mg : Migration} (hmg : mg ∈ ran) {f : Str} {e : Str × PgType}
    (h : recordOf mg = some (f, e)) : (noted cached ran).fieldCols.get? f = some e := by
  refine get?_noted_of_forall (fun mg' hmg' e' he' => ?_) (Or.inl ⟨mg, hmg, h⟩)
  have hwanted := wantedEntry_of_record (hran mg hmg) h
  exact Option.some.inj ((wantedEntry_of_record (hran mg' hmg') he').symm.trans hwanted)

/-- While a migration runs, a field it changes has its old entry or its new one. -/
theorem get?_noted_or {ran : List Migration}
    (hran : ∀ mg ∈ ran, mg ∈ migrations cached tagNames samples) {mg : Migration}
    (hmg : mg ∈ migrations cached tagNames samples) {f : Str} {e : Str × PgType}
    (h : recordOf mg = some (f, e)) : (noted cached ran).fieldCols.get? f = some e ∨
      (noted cached ran).fieldCols.get? f = cached.fieldCols.get? f := by
  by_cases hrecord : ∃ mg' ∈ ran, ∃ e', recordOf mg' = some (f, e')
  · obtain ⟨mg', hmg', e', he'⟩ := hrecord
    have hsame := record_inj hmg (hran mg' hmg') h he'
    exact Or.inl (get?_noted_of_record hran (hsame ▸ hmg') h)
  · push Not at hrecord
    exact Or.inr (get?_noted_of_forall_ne hrecord)

/-- What the schema object lists for the field of the statement that comes next. -/
theorem entry_of_pending {done rest : List Migration} {mg : Migration}
    (hissued : migrations cached tagNames samples = done ++ mg :: rest) {f : Str}
    {e : Str × PgType} (h : recordOf mg = some (f, e)) {old : Str × PgType}
    (hold : (noted cached done).fieldCols.get? f = some old) :
    old.1 = e.1 ∧ (old = e ∨ ∃ col a b, mg = .widen f col a b) := by
  have hran : ∀ mg' ∈ done, mg' ∈ migrations cached tagNames samples := by
    intro mg' hmg'
    rw [hissued]
    exact List.mem_append_left _ hmg'
  have hmg : mg ∈ migrations cached tagNames samples := by
    rw [hissued]
    exact List.mem_append_right _ List.mem_cons_self
  rcases get?_noted_or hran hmg h with hnew | hbase
  · cases hold.symm.trans hnew
    exact ⟨rfl, Or.inl rfl⟩
  · rw [hold] at hbase
    cases mg with
    | addTag t => contradiction
    | addField f' ty =>
      cases h
      obtain ⟨-, -, hnone, -⟩ := (addField_mem_migrations_iff _ _).mp hmg
      exact absurd (hbase.trans hnone) (by simp)
    | widen f' col a b =>
      cases h
      obtain ⟨-, -, hget, -⟩ := (widen_mem_migrations_iff _ _ _ _).mp hmg
      cases hbase.trans hget
      exact ⟨rfl, Or.inr ⟨_, _, _, rfl⟩⟩

/-- The field columns after a call. -/
theorem get?_noted_migrations (f : Str) :
    (noted cached (migrations cached tagNames samples)).fieldCols.get? f =
      wantedEntry cached samples f := by
  cases hwanted : wantedEntry cached samples f with
  | none =>
    rw [get?_noted_of_forall_ne]
    · unfold wantedEntry at hwanted
      split at hwanted <;> simp_all
    · intro mg hmg e he
      rw [wantedEntry_of_record hmg he] at hwanted
      contradiction
  | some e =>
    refine get?_noted_of_forall (fun mg hmg e' he' => ?_) ?_
    · exact Option.some.inj ((wantedEntry_of_record hmg he').symm.trans hwanted)
    · unfold wantedEntry at hwanted
      split at hwanted
      · rename_i col current v hget hv
        cases hwanted
        by_cases hsame : widenedType current v = current
        · rw [hsame]
          exact Or.inr hget
        · exact Or.inl ⟨.widen f col current _,
            (widen_mem_migrations_iff _ _ _ _).mpr ⟨v, hv, hget, rfl, hsame⟩, rfl⟩
      · rename_i e' hget hv
        cases hwanted
        exact Or.inr hget
      · rename_i v hnew hv
        cases hwanted
        exact Or.inl ⟨.addField f _, (addField_mem_migrations_iff _ _).mpr ⟨v, hv, hnew, rfl⟩, rfl⟩
      · contradiction

/-- The tags that the schema lists after a call. -/
theorem mem_tagCols_noted_iff (cached : TableSchema) (tagNames : List Str)
    (samples : Dict Str (Value F)) (t : Str) :
    t ∈ (noted cached (migrations cached tagNames samples)).tagCols.keys ↔
      t ∈ cached.tagCols.keys ∨ t ∈ tagNames := by
  rw [Dict.mem_keys_iff, get?_noted_tagCols, Dict.mem_keys_iff]
  have hissued : .addTag t ∈ migrations cached tagNames samples ↔
      t ∈ tagNames ∧ cached.tagCols.contains t = false := addTag_mem_migrations_iff t
  split
  · rename_i hmg
    exact iff_of_true ⟨_, rfl⟩ (Or.inr (hissued.mp hmg).1)
  · rename_i hmg
    refine ⟨Or.inl, fun h => h.elim id fun ht => ?_⟩
    rw [hissued, not_and, Bool.not_eq_false] at hmg
    exact Option.isSome_iff_exists.mp (hmg ht)

end Recorded

section Columns

variable {columns : Dict Str PgType} {ms : List Migration}

/-- Some statement changes the type of the column. -/
def Widens (ms : List Migration) (c : Str) : Prop :=
  ∃ f col fromType toType, .widen f col fromType toType ∈ ms ∧ pgIdent col = c

/-- What a list of statements makes of the column of a field. -/
inductive Fate (columns : Dict Str PgType) (ms : List Migration) (c : Str) : Option PgType → Prop
  | widened {f col fromType toType} (hmg : .widen f col fromType toType ∈ ms)
      (hcol : pgIdent col = c) : Fate columns ms c (some toType)
  | kept {ty} (hno : ¬Widens ms c) (hget : columns.get? c = some ty) : Fate columns ms c (some ty)
  | added {f ty} (hno : ¬Widens ms c) (hget : columns.get? c = none) (hmg : .addField f ty ∈ ms)
      (hcol : colOfField f = c) : Fate columns ms c (some ty)
  | absent (hno : ¬Widens ms c) (hget : columns.get? c = none)
      (hnone : ∀ f ty, .addField f ty ∈ ms → colOfField f ≠ c) : Fate columns ms c none

theorem get?_ite_set (columns : Dict Str PgType) (c c' : Str) (ty : PgType) :
    (if columns.contains c' then columns else columns.set c' ty).get? c =
      if c = c' ∧ columns.get? c' = none then some ty else columns.get? c := by
  unfold Dict.contains
  by_cases hc : c = c'
  · subst hc
    cases hget : columns.get? c <;> simp [hget]
  · cases columns.get? c' <;> simp [hc, Dict.get?_set]

/-- A statement about another column. -/
theorem Fate.cons {columns' : Dict Str PgType} {mg : Migration} {c : Str} {ty : Option PgType}
    (h : Fate columns' ms c ty) (hget : columns'.get? c = columns.get? c)
    (hwiden : ∀ f col a b, mg = .widen f col a b → pgIdent col ≠ c)
    (hadd : columns.get? c = none → ∀ f ty, mg = .addField f ty → colOfField f ≠ c) :
    Fate columns (mg :: ms) c ty := by
  have hno : ¬Widens ms c → ¬Widens (mg :: ms) c := by
    rintro hno ⟨f, col, a, b, hmem, hcol⟩
    rcases List.mem_cons.mp hmem with heq | hmem
    · exact hwiden f col a b heq.symm hcol
    · exact hno ⟨f, col, a, b, hmem, hcol⟩
  cases h with
  | widened hmg hcol => exact .widened (List.mem_cons_of_mem mg hmg) hcol
  | kept hms hkept => exact .kept (hno hms) (hget ▸ hkept)
  | added hms hnone hmg hcol => exact .added (hno hms) (hget ▸ hnone) (List.mem_cons_of_mem mg hmg) hcol
  | absent hms hnone hother =>
    refine .absent (hno hms) (hget ▸ hnone) fun f ty hmem => ?_
    rcases List.mem_cons.mp hmem with heq | hmem
    · exact hadd (hget ▸ hnone) f ty heq.symm
    · exact hother f ty hmem

/-- The column of a statement in the database. -/
def columnOf : Migration → Str
  | .addTag t => colOfTag t
  | .addField f _ => colOfField f
  | .widen _ col _ _ => pgIdent col

theorem mem_keys_altered (columns : Dict Str PgType) (mg : Migration) (c : Str) :
    c ∈ (altered columns mg).keys ↔ c ∈ columns.keys ∨ c = columnOf mg := by
  have hadd : ∀ c' ty, c ∈ (if columns.contains c' then columns else columns.set c' ty).keys ↔
      c ∈ columns.keys ∨ c = c' := by
    intro c' ty
    by_cases hcontains : columns.contains c' = true
    · rw [if_pos hcontains]
      refine ⟨Or.inl, fun h => h.elim id fun hc => ?_⟩
      rw [hc, Dict.mem_keys_iff]
      exact Option.isSome_iff_exists.mp hcontains
    · rw [if_neg hcontains, Dict.mem_keys_set]
  cases mg with
  | addTag t => exact hadd _ _
  | addField f ty => exact hadd _ _
  | widen f col fromType toType => exact Dict.mem_keys_set columns

/-- No statement drops a column. -/
theorem mem_keys_foldl_altered (columns : Dict Str PgType) (ms : List Migration) (c : Str) :
    c ∈ (ms.foldl altered columns).keys ↔ c ∈ columns.keys ∨ ∃ mg ∈ ms, c = columnOf mg := by
  induction ms generalizing columns with
  | nil => simp
  | cons mg ms ih =>
    rw [List.foldl_cons, ih, mem_keys_altered, or_assoc, List.exists_mem_cons_iff]

theorem fate {c : Str} (hc : ∀ t, c ≠ colOfTag t) (columns : Dict Str PgType)
    (ms : List Migration) : Fate columns ms c ((ms.foldl altered columns).get? c) := by
  induction ms generalizing columns with
  | nil =>
    have hno : ¬Widens [] c := by simp [Widens]
    cases hget : columns.get? c with
    | none => exact List.foldl_nil ▸ hget ▸ Fate.absent hno hget (by simp)
    | some ty => exact List.foldl_nil ▸ hget ▸ Fate.kept hno hget
  | cons mg ms ih =>
    have hrest := ih (altered columns mg)
    rw [List.foldl_cons]
    generalize (ms.foldl altered (altered columns mg)).get? c = result at hrest ⊢
    cases mg with
    | addTag t =>
      refine hrest.cons ?_ (by simp) (by simp)
      rw [altered, get?_ite_set, if_neg fun h => hc t h.1]
    | addField f ty =>
      by_cases hnew : c = colOfField f ∧ columns.get? (colOfField f) = none
      · -- the statement creates the column
        have hget : (altered columns (.addField f ty)).get? c = some ty := by
          rw [altered, get?_ite_set, if_pos hnew]
        cases hrest with
        | widened hmg hcol => exact .widened (List.mem_cons_of_mem _ hmg) hcol
        | kept hno hkept =>
          cases hget.symm.trans hkept
          refine .added ?_ (hnew.1 ▸ hnew.2) List.mem_cons_self hnew.1.symm
          rintro ⟨f', col, a, b, hmem, hcol⟩
          exact hno ⟨f', col, a, b, by simpa using hmem, hcol⟩
        | added hno hnone => exact absurd (hget.symm.trans hnone) (by simp)
        | absent hno hnone => exact absurd (hget.symm.trans hnone) (by simp)
      · refine hrest.cons ?_ (by simp) ?_
        · rw [altered, get?_ite_set, if_neg hnew]
        · rintro hnone f' ty' heq rfl
          cases heq
          exact hnew ⟨rfl, hnone⟩
    | widen f col fromType toType =>
      by_cases hcol : pgIdent col = c
      · have hget : (altered columns (.widen f col fromType toType)).get? c = some toType := by
          rw [altered, hcol, Dict.get?_set_self]
        cases hrest with
        | widened hmg hcol' => exact .widened (List.mem_cons_of_mem _ hmg) hcol'
        | kept hno hkept =>
          cases hget.symm.trans hkept
          exact .widened List.mem_cons_self hcol
        | added hno hnone => exact absurd (hget.symm.trans hnone) (by simp)
        | absent hno hnone => exact absurd (hget.symm.trans hnone) (by simp)
      · refine hrest.cons ?_ ?_ (by simp)
        · rw [altered, Dict.get?_set_of_ne _ _ (Ne.symm hcol)]
        · rintro f' col' a b heq
          cases heq
          exact hcol

end Columns

section Database

variable [Numerics F] {s s' : Service F}

omit [Numerics F] in
theorem columnsOf_addColumn (s : Service F) (table col : Str) (ty : PgType) (table' : Str) :
    columnsOf (addColumn s table col ty) table' =
      if table' = table then
        (if (columnsOf s table).contains (pgIdent col) then columnsOf s table
          else (columnsOf s table).set (pgIdent col) ty)
      else columnsOf s table' := by
  have hadd : addColumn s table col ty =
      if (columnsOf s table).contains (pgIdent col) then s
      else { s with catalog := s.catalog.set table ((columnsOf s table).set (pgIdent col) ty) } :=
    rfl
  rw [hadd]
  by_cases hcontains : (columnsOf s table).contains (pgIdent col) = true
  · rw [if_pos hcontains, if_pos hcontains]
    split
    · rename_i htable
      rw [htable]
    · rfl
  · rw [if_neg hcontains, if_neg hcontains]
    split
    · rename_i htable
      rw [htable, columnsOf, Dict.get?_set_self, Option.getD_some]
    · rename_i htable
      rw [columnsOf, Dict.get?_set_of_ne _ _ htable, columnsOf]

theorem columnsOf_migrate {schema schema' : TableSchema} {mg : Migration}
    (h : migrate s schema mg = some (s', schema')) (table : Str) :
    columnsOf s' table = if table = schema.table then altered (columnsOf s table) mg
      else columnsOf s table := by
  cases mg with
  | addTag t =>
    cases h
    rw [columnsOf_addColumn]
    split
    · rename_i htable
      rw [htable, altered, colOfTag]
    · rfl
  | addField f ty =>
    cases h
    rw [columnsOf_addColumn]
    split
    · rename_i htable
      rw [htable, altered, colOfField]
    · rfl
  | widen f col fromType toType =>
    obtain ⟨s₁, hs₁, heq⟩ := Option.map_eq_some_iff.mp h
    cases heq
    simp only [alterColumnType] at hs₁
    split at hs₁
    · cases hs₁
      simp only [columnsOf]
      by_cases htable : table = schema.table
      · rw [if_pos htable, htable, Dict.get?_set_self, Option.getD_some, altered]
      · rw [if_neg htable, Dict.get?_set_of_ne _ _ htable]
    · contradiction

/-- The columns after a transaction that succeeds. -/
theorem columnsOf_migrateAll {schema schema' : TableSchema} {ms : List Migration}
    (h : migrateAll s schema ms = (some s', schema')) (table : Str) :
    columnsOf s' table = if table = schema.table then ms.foldl altered (columnsOf s table)
      else columnsOf s table := by
  induction ms generalizing s schema with
  | nil =>
    cases h
    rw [List.foldl_nil, ite_self]
  | cons mg ms ih =>
    rw [migrateAll] at h
    split at h
    · cases h
    · rename_i s₁ schema₁ hmg
      have htable : schema₁.table = schema.table := by
        rw [(migrate_ok hmg).1, noted_table]
      rw [ih h, columnsOf_migrate hmg, htable, List.foldl_cons]
      split <;> rfl

omit [Numerics F] in
theorem columnsOf_createOrLoad (s : Service F) (m table : Str) :
    columnsOf (createOrLoad s m).1 table = columnsOf s table := by
  simp only [columnsOf, createOrLoad]
  by_cases htable : table = measurementTable m
  · rw [htable, Dict.get?_set_self, Option.getD_some]
  · rw [Dict.get?_set_of_ne _ _ htable]

theorem cache_migrate {schema schema' : TableSchema} {mg : Migration}
    (h : migrate s schema mg = some (s', schema')) : s'.cache = s.cache := by
  have hadd : ∀ col ty, (addColumn s schema.table col ty).cache = s.cache := by
    intro col ty
    simp only [addColumn]
    split <;> rfl
  cases mg with
  | addTag t =>
    cases h
    exact hadd _ _
  | addField f ty =>
    cases h
    exact hadd _ _
  | widen f col fromType toType =>
    obtain ⟨s₁, hs₁, heq⟩ := Option.map_eq_some_iff.mp h
    cases heq
    simp only [alterColumnType] at hs₁
    split at hs₁
    · cases hs₁
      rfl
    · contradiction

theorem cache_migrateAll {schema schema' : TableSchema} {ms : List Migration}
    (h : migrateAll s schema ms = (some s', schema')) : s'.cache = s.cache := by
  induction ms generalizing s schema with
  | nil =>
    cases h
    rfl
  | cons mg ms ih =>
    rw [migrateAll] at h
    split at h
    · cases h
    · rename_i s₁ schema₁ hmg
      exact (ih h).trans (cache_migrate hmg)

theorem lockedUpdate_some {m : Str} {cached schema : TableSchema} {tagNames : List Str}
    {samples : Dict Str (Value F)}
    (h : lockedUpdate s m cached tagNames samples = (s', some schema)) :
    (∀ table, columnsOf s' table = if table = cached.table then
      (migrations cached tagNames samples).foldl altered (columnsOf s table)
      else columnsOf s table) ∧
      ∀ m', s'.cache.get? m' = if m' = m then some schema else s.cache.get? m' := by
  simp only [lockedUpdate] at h
  split at h
  · rename_i s₁ schema₁ hall
    cases h
    have hcolumns := columnsOf_migrateAll hall
    refine ⟨hcolumns, fun m' => ?_⟩
    rw [Dict.get?_set, cache_migrateAll hall]
  · split at h <;> cases h

/-- Columns and cache after a call that succeeds. -/
theorem ensureSchema_some {m : Str} {schema : TableSchema} {tagNames : List Str}
    {samples : Dict Str (Value F)} (h : ensureSchema s m tagNames samples = (s', some schema)) :
    (∀ table, columnsOf s' table = if table = schema.table then
      (callMigrations s m tagNames samples).foldl altered (columnsOf s table)
      else columnsOf s table) ∧
      ∀ m', s'.cache.get? m' = if m' = m then some schema else s.cache.get? m' := by
  have htable : schema.table = (schemaOf s m).table := by
    rw [(ensureSchema_ok h).1, noted_table]
  rw [htable]
  simp only [ensureSchema] at h
  split at h
  · rename_i cached hcached
    rw [callMigrations, schemaOf_of_cached hcached]
    split at h
    · exact lockedUpdate_some h
    · rename_i hupdate
      cases h
      rw [migrations_eq_nil (by simpa using hupdate)]
      refine ⟨fun table => by rw [List.foldl_nil, ite_self], fun m' => ?_⟩
      split
      · rename_i hm
        rw [hm, hcached]
      · rfl
  · rename_i hcached
    rw [callMigrations, schemaOf_of_none hcached]
    obtain ⟨hcolumns, hcache⟩ := lockedUpdate_some h
    refine ⟨fun table => ?_, hcache⟩
    rw [hcolumns, columnsOf_createOrLoad]

end Database

end TimescaleLp.Alters
