import TimescaleLp.SchemaRules

/-!
Column names. Sanitizing leaves a sanitized name alone, also after the database
has cut it to 63 bytes, so a name read back from the database names its column
again. Whether a schema comes from a batch or from the database, the column of a
tag is `t_` and the sanitized tag, that of a field `f_` and the sanitized field.
-/
namespace TimescaleLp.Naming

open Names Schema Promotion SchemaRules

/-- The column of a tag in the database. -/
def colOfTag (t : Str) : Str := pgIdent (tagCol t)

def colOfField (f : Str) : Str := pgIdent (fieldCol f)

section Characters

variable {c : Char}

/-- The classes of characters as bounds on their codes. -/
theorem toNat_bounds (c : Char) :
    (c.isUpper = true ↔ 65 ≤ c.val.toNat ∧ c.val.toNat ≤ 90) ∧
      (c.isLower = true ↔ 97 ≤ c.val.toNat ∧ c.val.toNat ≤ 122) ∧
      (c.isDigit = true ↔ 48 ≤ c.val.toNat ∧ c.val.toNat ≤ 57) :=
  ⟨decide_eq_true_iff, Bool.and_eq_true_iff.trans (and_congr decide_eq_true_iff decide_eq_true_iff),
    Bool.and_eq_true_iff.trans (and_congr decide_eq_true_iff decide_eq_true_iff)⟩

theorem isAlpha_iff : c.isAlpha = true ↔ c.isUpper = true ∨ c.isLower = true :=
  Bool.or_eq_true_iff

theorem toLower_of_not_isUpper (h : ¬c.isUpper = true) : c.toLower = c :=
  dif_neg fun hbounds => h (decide_eq_true hbounds)

theorem isLower_toLower (h : c.isUpper = true) : c.toLower.isLower = true := by
  have hval : c.toLower.val = c.val + ('a'.val - 'A'.val) :=
    congrArg Char.val (dif_pos (of_decide_eq_true h))
  have hupper := (toNat_bounds c).1.mp h
  refine (toNat_bounds c.toLower).2.1.mpr ?_
  simp only [hval, UInt32.toNat_add, seval]
  omega

theorem not_isUpper_of_isLower (h : c.isLower = true) : ¬c.isUpper = true := by
  obtain ⟨hupper, hlower, -⟩ := toNat_bounds c
  rw [hupper]
  have hbounds := hlower.mp h
  omega

theorem not_isUpper_of_isDigit (h : c.isDigit = true) : ¬c.isUpper = true := by
  obtain ⟨hupper, -, hdigit⟩ := toNat_bounds c
  rw [hupper]
  have hbounds := hdigit.mp h
  omega

theorem isWord_iff (c : Char) : isWord c = true ↔
    c.isUpper = true ∨ c.isLower = true ∨ c.isDigit = true ∨ c = '_' := by
  simp [isWord, Char.isAlphanum, isAlpha_iff, or_assoc]

/-- What lower case makes of a letter, a digit or an underscore. -/
theorem toLower_of_isWord (h : isWord c = true) :
    c.toLower.isLower = true ∨ c.toLower.isDigit = true ∨ c.toLower = '_' := by
  by_cases hupper : c.isUpper = true
  · exact Or.inl (isLower_toLower hupper)
  · rw [toLower_of_not_isUpper hupper]
    exact ((isWord_iff c).mp h).resolve_left hupper

/-- The characters that sanitizing leaves alone. -/
theorem isWord_and_toLower_iff (c : Char) : isWord c = true ∧ c.toLower = c ↔
    c.isLower = true ∨ c.isDigit = true ∨ c = '_' := by
  constructor
  · intro ⟨hword, hlower⟩
    exact hlower ▸ toLower_of_isWord hword
  · intro h
    refine ⟨(isWord_iff c).mpr (Or.inr h), toLower_of_not_isUpper ?_⟩
    rcases h with h | h | rfl
    · exact not_isUpper_of_isLower h
    · exact not_isUpper_of_isDigit h
    · decide

end Characters

/-- What sanitizing makes of a name. -/
structure Clean (s : Str) : Prop where
  chars : ∀ c ∈ s, isWord c = true ∧ c.toLower = c
  starts : startsIdent s = true

section Clean

theorem Clean.take {s : Str} (h : Clean s) (n : ℕ) : Clean (s.take (n + 1)) where
  chars c hc := h.chars c (List.mem_of_mem_take hc)
  starts := by
    cases s with
    | nil => exact h.starts
    | cons c s => exact h.starts

theorem safeIdent_of_clean {s : Str} (h : Clean s) (hlen : s.length ≤ 63) : safeIdent s = s := by
  have hmap : (s.map (fun c => if isWord c then c else '_')).map Char.toLower = s := by
    rw [List.map_map]
    refine (List.map_congr_left fun c hc => ?_).trans (List.map_id s)
    simp [h.chars c hc]
  simp only [safeIdent, hmap, h.starts, if_true]
  exact List.take_of_length_le hlen

theorem clean_safeIdent (name : Str) : Clean (safeIdent name) := by
  have hchars : ∀ c ∈ (name.map (fun c => if isWord c then c else '_')).map Char.toLower,
      isWord c = true ∧ c.toLower = c := by
    intro c hc
    rw [List.map_map] at hc
    obtain ⟨a, -, rfl⟩ := List.mem_map.mp hc
    refine (isWord_and_toLower_iff _).mpr (toLower_of_isWord ?_)
    show isWord (if isWord a = true then a else '_') = true
    split
    · assumption
    · decide
  rw [safeIdent]
  split
  · rename_i hstarts
    exact Clean.take ⟨hchars, hstarts⟩ 62
  · refine Clean.take ⟨fun c hc => ?_, rfl⟩ 62
    rcases List.mem_cons.mp hc with rfl | hc
    · decide
    · exact hchars c hc

private theorem safeIdent_take (name : Str) : safeIdent ((safeIdent name).take 61) =
    (safeIdent name).take 61 :=
  safeIdent_of_clean ((clean_safeIdent name).take 60) ((List.length_take_le _ _).trans (by omega))

theorem safeIdent_drop {c : Str} (hc : (∃ t, c = colOfTag t) ∨ ∃ f, c = colOfField f) :
    safeIdent (c.drop 2) = c.drop 2 := by
  rcases hc with ⟨t, rfl⟩ | ⟨f, rfl⟩
  · exact safeIdent_take t
  · exact safeIdent_take f

theorem tagCol_drop (t : Str) : tagCol ((colOfTag t).drop 2) = colOfTag t := by
  show "t_".toList ++ safeIdent ((safeIdent t).take 61) = "t_".toList ++ (safeIdent t).take 61
  rw [safeIdent_take]

theorem fieldCol_drop (f : Str) : fieldCol ((colOfField f).drop 2) = colOfField f := by
  show "f_".toList ++ safeIdent ((safeIdent f).take 61) = "f_".toList ++ (safeIdent f).take 61
  rw [safeIdent_take]

theorem colOfTag_ne_colOfField (t f : Str) : colOfTag t ≠ colOfField f := by
  intro h
  have hhead : (colOfTag t).head? = (colOfField f).head? := congrArg List.head? h
  simp [colOfTag, colOfField, pgIdent, tagCol, fieldCol] at hhead

end Clean

/-- The schema maps each name to the column made from it. -/
structure Canonical (measurement : Str) (schema : TableSchema) : Prop where
  table : schema.table = measurementTable measurement
  tags : ∀ t col, schema.tagCols.get? t = some col → col = tagCol t
  fields : ∀ f e, schema.fieldCols.get? f = some e → e.1 = fieldCol f

def ColumnsOk (columns : Dict Str PgType) : Prop :=
  ∀ c ty, columns.get? c = some ty → (∃ t, c = colOfTag t) ∨ ∃ f, c = colOfField f

/-- All columns were made from names, and the cache knows them by such. -/
abbrev Named {F : Type} (s : Service F) : Prop := SchemaInv (fun _ => ColumnsOk) Canonical s

section Introspect

theorem get?_foldl_introspect {β : Type} (p : Str) (g : Str × PgType → β)
    (es : List (Str × PgType)) (d : Dict Str β) {x : Str} {v : β}
    (h : (es.foldl (fun d e => if p <+: e.1 then d.set (e.1.drop 2) (g e) else d) d).get? x =
      some v) :
    d.get? x = some v ∨ ∃ e ∈ es, p <+: e.1 ∧ x = e.1.drop 2 ∧ v = g e := by
  induction es generalizing d with
  | nil => exact Or.inl h
  | cons e es ih =>
    rw [List.foldl_cons] at h
    rcases ih _ h with hd | ⟨e', he', hrest⟩
    · split at hd
      · rename_i hp
        rw [Dict.get?_set] at hd
        split at hd
        · rename_i hx
          exact Or.inr ⟨e, List.mem_cons_self, hp, hx, (Option.some.inj hd).symm⟩
        · exact Or.inl hd
      · exact Or.inl hd
    · exact Or.inr ⟨e', List.mem_cons_of_mem e he', hrest⟩

theorem exists_get?_foldl_introspect {β : Type} (p : Str) (g : Str × PgType → β)
    (es : List (Str × PgType)) (d : Dict Str β) {x : Str}
    (h : (∃ v, d.get? x = some v) ∨ ∃ e ∈ es, p <+: e.1 ∧ x = e.1.drop 2) :
    ∃ v, (es.foldl (fun d e => if p <+: e.1 then d.set (e.1.drop 2) (g e) else d) d).get? x =
      some v := by
  induction es generalizing d with
  | nil => simpa using h
  | cons e es ih =>
    refine ih _ ?_
    beta_reduce
    rcases h with ⟨v, hv⟩ | ⟨e', he', hp, hx⟩
    · left
      split
      · rw [Dict.get?_set]
        split
        · exact ⟨_, rfl⟩
        · exact ⟨v, hv⟩
      · exact ⟨v, hv⟩
    · rcases List.mem_cons.mp he' with rfl | he'
      · left
        rw [if_pos hp, hx]
        exact ⟨_, Dict.get?_set_self _ _ _⟩
      · exact Or.inr ⟨e', he', hp, hx⟩

theorem not_prefix_colOfField (f : Str) : ¬"t_".toList <+: colOfField f := by
  rintro ⟨s, hs⟩
  have hhead := congrArg List.head? hs
  simp [colOfField, pgIdent, fieldCol] at hhead

theorem not_prefix_colOfTag (t : Str) : ¬"f_".toList <+: colOfTag t := by
  rintro ⟨s, hs⟩
  have hhead := congrArg List.head? hs
  simp [colOfTag, pgIdent, tagCol] at hhead

/-- A schema read back from the database. -/
theorem canonical_introspect (measurement : Str) {columns : Dict Str PgType}
    (h : ColumnsOk columns) : Canonical measurement ⟨measurement, measurementTable measurement,
      introspectTags columns, introspectFields columns⟩ where
  table := rfl
  tags t col hget := by
    rcases get?_foldl_introspect _ Prod.fst _ _ hget with hempty | ⟨e, he, hp, rfl, rfl⟩
    · simp at hempty
    · rcases h e.1 e.2 ((Dict.get?_eq_some_iff _ _ _).mpr he) with ⟨t, ht⟩ | ⟨f, hf⟩
      · rw [ht, tagCol_drop]
      · rw [hf] at hp
        exact absurd hp (not_prefix_colOfField f)
  fields f e hget := by
    rcases get?_foldl_introspect _ id _ _ hget with hempty | ⟨e', he, hp, rfl, rfl⟩
    · simp at hempty
    · rcases h e.1 e.2 ((Dict.get?_eq_some_iff _ _ _).mpr he) with ⟨t, ht⟩ | ⟨f, hf⟩
      · simp only [ht] at hp
        exact absurd hp (not_prefix_colOfTag t)
      · simp only [hf, fieldCol_drop]

end Introspect

section Migrate

variable {F : Type}

/-- A promotion rewrites the column of its field. -/
def Fits : Migration → Prop
  | .widen f col _ _ => col = fieldCol f
  | _ => True

theorem fits_migrations {measurement : Str} {schema : TableSchema} (h : Canonical measurement schema)
    (tagNames : List Str) (fieldSamples : Dict Str (Value F)) :
    ∀ mg ∈ migrations schema tagNames fieldSamples, Fits mg := by
  intro mg hmg
  simp only [migrations, List.mem_append, List.mem_map, List.mem_filterMap] at hmg
  rcases hmg with (⟨t, -, rfl⟩ | ⟨e, -, rfl⟩) | ⟨e, -, he⟩
  · trivial
  · trivial
  · split at he
    · contradiction
    · rename_i col current hget
      split at he
      · contradiction
      · cases he
        exact h.fields _ _ hget

theorem columnsOk_set {columns : Dict Str PgType} (h : ColumnsOk columns) {c : Str}
    (hc : (∃ t, c = colOfTag t) ∨ ∃ f, c = colOfField f) (ty : PgType) :
    ColumnsOk (columns.set c ty) :=
  Dict.forall_set h hc

theorem canonical_noted {m : Str} {schema : TableSchema} {mg : Migration} (hfits : Fits mg)
    (h : Canonical m schema) : Canonical m (noted schema [mg]) := by
  have hset : ∀ (f : Str) (ty : PgType) (f' : Str) (e : Str × PgType),
      (schema.fieldCols.set f (fieldCol f, ty)).get? f' = some e → e.1 = fieldCol f' :=
    fun f ty => Dict.forall_set h.fields rfl
  cases mg with
  | addTag t => exact ⟨h.table, Dict.forall_set h.tags rfl, h.fields⟩
  | addField f ty => exact ⟨h.table, h.tags, hset f ty⟩
  | widen f col fromType toType =>
    cases hfits
    exact ⟨h.table, h.tags, hset f toType⟩

theorem namedRule (m : Str) : SchemaRule (fun _ => ColumnsOk) Canonical Fits m where
  empty := by simp [ColumnsOk]
  load columns h := canonical_introspect m h
  table schema h := h.table
  columns mg hfits columns h := by
    cases mg with
    | addTag t => exact columnsOk_set h (Or.inl ⟨t, rfl⟩) _
    | addField f ty => exact columnsOk_set h (Or.inr ⟨f, rfl⟩) _
    | widen f col fromType toType =>
      cases hfits
      exact columnsOk_set h (Or.inr ⟨f, rfl⟩) _
  schema mg hfits schema h := canonical_noted hfits h

theorem namedCall : CallRule F (fun _ => ColumnsOk) Canonical Fits :=
  ⟨namedRule, fun _ _ h => fits_migrations h⟩

variable {s : Service F}



theorem Named.schemaOf (h : Named s) (m : Str) : Canonical m (schemaOf s m) :=
  SchemaInv.schemaOf h (namedRule m)

variable [Numerics F]

/-- The schema step of a call. -/
theorem Named.ensureSchema (h : Named s) (m : Str) (tagNames : List Str)
    (fieldSamples : Dict Str (Value F)) :
    Named (ensureSchema s m tagNames fieldSamples).1 ∧
      ∀ schema, (ensureSchema s m tagNames fieldSamples).2 = some schema → Canonical m schema :=
  SchemaInv.ensureSchema h (namedRule m) fun _ hcached =>
    fits_migrations hcached tagNames fieldSamples

/-- Promotions rewrite columns of fields. -/
theorem recast_of_ne {ms : List Migration} (hfits : ∀ mg ∈ ms, Fits mg) (cells : Cells (Value F))
    {c : Str} (hc : ∀ f, c ≠ colOfField f) : recast ms cells c = cells c := by
  induction ms generalizing cells with
  | nil => rfl
  | cons mg ms ih =>
    have hrest := fun cells => ih (fun mg' hmg' => hfits mg' (List.mem_cons_of_mem mg hmg')) cells
    cases mg with
    | addTag t => exact hrest cells
    | addField f ty => exact hrest cells
    | widen f col fromType toType =>
      have hcol : col = fieldCol f := hfits _ List.mem_cons_self
      rw [recast, hrest, castCells, if_neg]
      exact hcol ▸ hc f

theorem recast_colOfTag (h : Named s) (m : Str) (tagNames : List Str)
    (fieldSamples : Dict Str (Value F)) (cells : Cells (Value F)) (t : Str) :
    recast (callMigrations s m tagNames fieldSamples) cells (colOfTag t) = cells (colOfTag t) :=
  recast_of_ne (fits_migrations (h.schemaOf m) tagNames fieldSamples) cells
    (colOfTag_ne_colOfField t)

end Migrate

end TimescaleLp.Naming
