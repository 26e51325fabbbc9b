import TimescaleLp.Alters

/-!
What a schema object lists, column by column. An object of a table whose names
are in sanitized form is a map from column texts to types. A statement sets the
entry of one column, as it does in the database, where texts that are equal in
their first 63 characters are one column.
-/
namespace TimescaleLp.Listings

open Names Schema Promotion Naming Alters

/-- The schema has the column, with the type. -/
inductive Lists (schema : TableSchema) : Str → PgType → Prop
  | tag {t col} (h : schema.tagCols.get? t = some col) : Lists schema col .text
  | field {f col ty} (h : schema.fieldCols.get? f = some (col, ty)) : Lists schema col ty

def Agrees (schema : TableSchema) (columns : Dict Str PgType) : Prop :=
  ∀ col ty, Lists schema col ty → columns.get? (pgIdent col) = some ty

/-- Columns are made from names by a prefix alone. -/
structure Plain (schema : TableSchema) : Prop where
  tags : ∀ t col, schema.tagCols.get? t = some col → col = "t_".toList ++ t
  fields : ∀ f col ty, schema.fieldCols.get? f = some (col, ty) → col = "f_".toList ++ f

def IsColumn (c : Str) : Prop := "t_".toList <+: c ∨ "f_".toList <+: c

theorem not_tag_of_field {c : Str} (hf : "f_".toList <+: c) : ¬"t_".toList <+: c := by
  rintro ⟨u, rfl⟩
  obtain ⟨v, hv⟩ := hf
  cases hv

section Plain

variable {schema : TableSchema} (hplain : Plain schema) {col : Str} {ty : PgType}

include hplain

theorem Plain.tag_prefix {t : Str} (h : schema.tagCols.get? t = some col) :
    "t_".toList <+: col :=
  ⟨t, (hplain.tags t col h).symm⟩

theorem Plain.field_prefix {f : Str} (h : schema.fieldCols.get? f = some (col, ty)) :
    "f_".toList <+: col :=
  ⟨f, (hplain.fields f col ty h).symm⟩

theorem Plain.isColumn (h : Lists schema col ty) : IsColumn col := by
  cases h with
  | tag h => exact Or.inl (hplain.tag_prefix h)
  | field h => exact Or.inr (hplain.field_prefix h)

/-- A column that starts with `t_` is listed for a tag. -/
theorem Plain.tag_type (h : Lists schema col ty) (htag : "t_".toList <+: col) : ty = .text := by
  cases h with
  | tag h => rfl
  | field h => exact absurd htag (not_tag_of_field (hplain.field_prefix h))

theorem Plain.unique {ty' : PgType} (h : Lists schema col ty) (h' : Lists schema col ty') :
    ty = ty' := by
  cases h with
  | tag h => exact (hplain.tag_type h' (hplain.tag_prefix h)).symm
  | field h =>
    cases h' with
    | tag h' => exact absurd (hplain.tag_prefix h') (not_tag_of_field (hplain.field_prefix h))
    | field h' =>
      cases List.append_cancel_left ((hplain.fields _ _ _ h).symm.trans (hplain.fields _ _ _ h'))
      cases h.symm.trans h'
      rfl

end Plain

/-- The column a statement is about, with the type asked for. -/
def target : Migration → Str × PgType
  | .addTag t => (tagCol t, .text)
  | .addField f ty => (fieldCol f, ty)
  | .widen _ col _ toType => (col, toType)

def isWiden : Migration → Bool
  | .widen _ _ _ _ => true
  | _ => false

theorem get?_altered (columns : Dict Str PgType) (mg : Migration) (c : Str) :
    (altered columns mg).get? c =
      if c = pgIdent (target mg).1 ∧ (isWiden mg = true ∨ columns.get? c = none) then
        some (target mg).2
      else columns.get? c := by
  cases mg with
  | addTag t =>
    rw [altered, get?_ite_set]
    refine if_congr (and_congr_right fun hc => ?_) rfl rfl
    simp [hc, isWiden, colOfTag]
  | addField f ty =>
    rw [altered, get?_ite_set]
    refine if_congr (and_congr_right fun hc => ?_) rfl rfl
    simp [hc, isWiden, colOfField]
  | widen f col fromType toType =>
    rw [altered, Dict.get?_set]
    refine if_congr ?_ rfl rfl
    simp [isWiden, target]

section Noted

variable {schema : TableSchema} {mg : Migration} {col : Str} {ty : PgType}

private theorem lists_set_field_iff (hplain : Plain schema) {f c : Str} {new : PgType}
    (hnoted : Plain { schema with fieldCols := schema.fieldCols.set f (c, new) }) :
    Lists { schema with fieldCols := schema.fieldCols.set f (c, new) } col ty ↔
      if col = c then ty = new else Lists schema col ty := by
  have hset : Lists { schema with fieldCols := schema.fieldCols.set f (c, new) } c new :=
    .field (Dict.get?_set_self _ _ _)
  have hc : c = "f_".toList ++ f := hnoted.fields f c new (Dict.get?_set_self _ _ _)
  constructor
  · intro h
    split
    · rename_i hcol
      exact hnoted.unique h (hcol ▸ hset)
    · rename_i hcol
      cases h with
      | tag h => exact .tag h
      | @field f' _ _ h =>
        have hf : f' ≠ f := by
          rintro rfl
          exact hcol ((hnoted.fields _ _ _ h).trans hc.symm)
        exact .field ((Dict.get?_set_of_ne _ _ hf).symm.trans h)
  · intro h
    split at h
    · rename_i hcol
      rw [hcol, h]
      exact hset
    · rename_i hcol
      cases h with
      | tag h => exact .tag h
      | @field f' _ _ h =>
        have hf : f' ≠ f := by
          rintro rfl
          exact hcol ((hplain.fields _ _ _ h).trans hc.symm)
        exact .field ((Dict.get?_set_of_ne _ _ hf).trans h)

/-- A statement sets the entry of its column. -/
theorem lists_noted_iff (hplain : Plain schema) (hnoted : Plain (noted schema [mg])) :
    Lists (noted schema [mg]) col ty ↔
      if col = (target mg).1 then ty = (target mg).2 else Lists schema col ty := by
  cases mg with
  | addField f new => exact lists_set_field_iff hplain hnoted
  | widen f c fromType toType => exact lists_set_field_iff hplain hnoted
  | addTag t =>
    have hset : Lists (noted schema [.addTag t]) (tagCol t) .text :=
      .tag (Dict.get?_set_self _ _ _)
    have ht : tagCol t = "t_".toList ++ t := hnoted.tags t _ (Dict.get?_set_self _ _ _)
    constructor
    · intro h
      split
      · rename_i hcol
        exact hnoted.unique h (hcol ▸ hset)
      · rename_i hcol
        cases h with
        | field h => exact .field h
        | @tag t' _ h =>
          have hne : t' ≠ t := by
            rintro rfl
            exact hcol ((hnoted.tags _ _ h).trans ht.symm)
          exact .tag ((Dict.get?_set_of_ne _ _ hne).symm.trans h)
    · intro h
      split at h
      · rename_i hcol
        rw [hcol, h]
        exact hset
      · rename_i hcol
        cases h with
        | field h => exact .field h
        | @tag t' _ h =>
          have hne : t' ≠ t := by
            rintro rfl
            exact hcol ((hplain.tags _ _ h).trans ht.symm)
          exact .tag ((Dict.get?_set_of_ne _ _ hne).trans h)

theorem Plain.target_isColumn (hnoted : Plain (noted schema [mg])) :
    IsColumn (target mg).1 := by
  cases mg with
  | addTag t => exact hnoted.isColumn (.tag (Dict.get?_set_self _ _ _))
  | addField f new => exact hnoted.isColumn (.field (Dict.get?_set_self _ _ _))
  | widen f c fromType toType => exact hnoted.isColumn (.field (Dict.get?_set_self _ _ _))

theorem Plain.target_tag (hnoted : Plain (noted schema [mg])) (h : "t_".toList <+: (target mg).1) :
    (target mg).2 = .text := by
  cases mg with
  | addTag t => rfl
  | addField f new => exact hnoted.tag_type (.field (Dict.get?_set_self _ _ _)) h
  | widen f c fromType toType => exact hnoted.tag_type (.field (Dict.get?_set_self _ _ _)) h

/-- The next statement of a call: it keeps the object plain, and a column that it
adds is new to the object. -/
structure Next (schema : TableSchema) (mg : Migration) : Prop where
  plain : Plain (noted schema [mg])
  adds : isWiden mg = false → ∀ ty, Lists schema (target mg).1 ty → ty = (target mg).2

end Noted

section Issued

variable {F : Type} {base : TableSchema} {tagNames : List Str} {samples : Dict Str (Value F)}
  {done rest : List Migration} {mg : Migration}

/-- The names of a call are in sanitized form. -/
def Sanitary (tagNames : List Str) (samples : Dict Str (Value F)) : Prop :=
  (∀ t ∈ tagNames, safeIdent t = t) ∧ ∀ f ∈ samples.keys, safeIdent f = f

theorem plain_set_field {schema : TableSchema} (h : Plain schema) (f : Str) (ty : PgType) :
    Plain { schema with fieldCols := schema.fieldCols.set f ("f_".toList ++ f, ty) } := by
  refine ⟨h.tags, fun f' col ty' hget => ?_⟩
  exact Dict.forall_set (P := fun f e => e.1 = "f_".toList ++ f)
    (fun f e he => h.fields f e.1 e.2 he) rfl f' (col, ty') hget

theorem plain_noted {schema : TableSchema} (h : Plain schema) (hbase : Plain base)
    (hnames : Sanitary tagNames samples) (hmg : mg ∈ migrations base tagNames samples) :
    Plain (noted schema [mg]) := by
  cases mg with
  | addTag t =>
    obtain ⟨ht, -⟩ := (addTag_mem_migrations_iff t).mp hmg
    exact ⟨Dict.forall_set h.tags (by rw [tagCol, hnames.1 t ht]), h.fields⟩
  | addField f ty =>
    obtain ⟨v, hv, -, -⟩ := (addField_mem_migrations_iff f ty).mp hmg
    have hf : fieldCol f = "f_".toList ++ f := by
      rw [fieldCol, hnames.2 f ((Dict.mem_keys_iff _ _).mpr ⟨v, hv⟩)]
    rw [noted, noted, hf]
    exact plain_set_field h f ty
  | widen f col fromType toType =>
    obtain ⟨-, -, hget, -⟩ := (widen_mem_migrations_iff f col fromType toType).mp hmg
    rw [noted, noted, hbase.fields f col fromType hget]
    exact plain_set_field h f toType

theorem next_of_issued (hplain : Plain (noted base done)) (hbase : Plain base)
    (hnames : Sanitary tagNames samples)
    (hissued : migrations base tagNames samples = done ++ mg :: rest) :
    Next (noted base done) mg := by
  have hmg : mg ∈ migrations base tagNames samples := by
    rw [hissued]
    exact List.mem_append_right _ List.mem_cons_self
  have hnoted := plain_noted hplain hbase hnames hmg
  refine ⟨hnoted, fun hadds ty hlists => ?_⟩
  cases mg with
  | addTag t => exact hplain.tag_type hlists (hnoted.tag_prefix (Dict.get?_set_self _ _ _))
  | widen f col fromType toType => contradiction
  | addField f new =>
    have hcol : fieldCol f = "f_".toList ++ f :=
      hnoted.fields f _ _ (Dict.get?_set_self _ _ _)
    cases hlists with
    | tag h =>
      exact absurd (hplain.tag_prefix h) (not_tag_of_field ⟨f, hcol.symm⟩)
    | @field f' _ _ h =>
      cases List.append_cancel_left (hcol.symm.trans (hplain.fields f' _ _ h))
      rcases (entry_of_pending hissued rfl h).2 with hsame | ⟨col, a, b, hwiden⟩
      · exact congrArg Prod.snd hsame
      · contradiction

end Issued

section Table

variable {schema : TableSchema} {columns rows : Dict Str PgType} {mg : Migration}

/-- Columns of a table as the statements of this service make them. -/
structure Known (columns : Dict Str PgType) : Prop where
  idents : ∀ c ty, columns.get? c = some ty → pgIdent c = c
  tags : ∀ c ty, "t_".toList <+: c → columns.get? c = some ty → ty = .text

theorem Known.altered (h : Known columns) (hnoted : Plain (noted schema [mg])) :
    Known (altered columns mg) := by
  constructor
  · intro c ty hget
    rw [get?_altered] at hget
    split at hget
    · rename_i hc
      rw [hc.1, pgIdent_pgIdent]
    · exact h.idents c ty hget
  · intro c ty htag hget
    rw [get?_altered] at hget
    split at hget
    · rename_i hc
      cases hget
      refine hnoted.target_tag ?_
      rw [hc.1] at htag
      exact htag.trans (List.take_prefix _ _)
    · exact h.tags c ty htag hget

theorem isSome_altered {c : Str} (h : (columns.get? c).isSome = true) (mg : Migration) :
    ((altered columns mg).get? c).isSome = true := by
  rw [get?_altered]
  split
  · rfl
  · exact h

/-- The object that `_create_or_load` makes of the columns it reads. -/
def loaded (measurement : Str) (rows : Dict Str PgType) : TableSchema :=
  ⟨measurement, measurementTable measurement, introspectTags rows, introspectFields rows⟩

private theorem prefix_drop {p : Str} (hp : p.length = 2) {c : Str} (h : p <+: c) :
    c = p ++ c.drop 2 := by
  obtain ⟨u, rfl⟩ := h
  rw [← hp, List.drop_left]

theorem plain_loaded (m : Str) (rows : Dict Str PgType) : Plain (loaded m rows) := by
  constructor
  · intro t col hget
    rcases get?_foldl_introspect _ Prod.fst _ _ hget with hempty | ⟨e, -, hp, rfl, rfl⟩
    · simp at hempty
    · exact prefix_drop rfl hp
  · intro f col ty hget
    rcases get?_foldl_introspect _ id _ _ hget with hempty | ⟨e, -, hp, rfl, he⟩
    · simp at hempty
    · cases he
      exact prefix_drop rfl hp

theorem lists_loaded_iff (hrows : Known rows) (m : Str) (col : Str) (ty : PgType) :
    Lists (loaded m rows) col ty ↔ IsColumn col ∧ rows.get? col = some ty := by
  constructor
  · intro h
    refine ⟨(plain_loaded m rows).isColumn h, ?_⟩
    cases h with
    | tag h =>
      rcases get?_foldl_introspect _ Prod.fst _ _ h with hempty | ⟨⟨c, ty⟩, he, hp, -, rfl⟩
      · simp at hempty
      · have hget := (Dict.get?_eq_some_iff _ _ _).mpr he
        cases hrows.tags _ ty hp hget
        exact hget
    | field h =>
      rcases get?_foldl_introspect _ id _ _ h with hempty | ⟨e, he, -, -, rfl⟩
      · simp at hempty
      · exact (Dict.get?_eq_some_iff _ _ _).mpr he
  · rintro ⟨htag | hfield, hget⟩
    · have hmem := (Dict.get?_eq_some_iff _ _ _).mp hget
      obtain ⟨c, hc⟩ := exists_get?_foldl_introspect "t_".toList Prod.fst rows.entries Dict.empty
        (Or.inr ⟨_, hmem, htag, rfl⟩)
      have hcol := (plain_loaded m rows).tags _ c hc
      rw [hrows.tags col ty htag hget, prefix_drop rfl htag, ← hcol]
      exact .tag hc
    · have hmem := (Dict.get?_eq_some_iff _ _ _).mp hget
      obtain ⟨⟨c, ty'⟩, hc⟩ := exists_get?_foldl_introspect "f_".toList id rows.entries Dict.empty
        (Or.inr ⟨_, hmem, hfield, rfl⟩)
      have hcol : c = col :=
        ((plain_loaded m rows).fields _ c ty' hc).trans (prefix_drop rfl hfield).symm
      rcases get?_foldl_introspect _ id _ _ hc with hempty | ⟨e, he, -, -, rfl⟩
      · simp at hempty
      · cases hcol
        cases hget.symm.trans ((Dict.get?_eq_some_iff _ _ _).mpr he)
        exact .field hc

/-- An object that keeps up with the table, as to the texts that are not cut. -/
structure Follows (schema : TableSchema) (columns : Dict Str PgType) : Prop where
  types : ∀ col ty, col.length < 63 → Lists schema col ty → columns.get? col = some ty
  all : ∀ c ty, c.length < 63 → IsColumn c → columns.get? c = some ty → ∃ ty', Lists schema c ty'

theorem follows_loaded (hrows : Known rows) (m : Str) : Follows (loaded m rows) rows where
  types col ty _ h := ((lists_loaded_iff hrows m col ty).mp h).2
  all c ty _ hcolumn h := ⟨ty, (lists_loaded_iff hrows m c ty).mpr ⟨hcolumn, h⟩⟩

theorem agrees_loaded (hrows : Known rows) (m : Str) : Agrees (loaded m rows) rows := by
  intro col ty h
  obtain ⟨-, hget⟩ := (lists_loaded_iff hrows m col ty).mp h
  rw [hrows.idents col ty hget]
  exact hget

theorem exists_lists_noted (hplain : Plain schema) (hnoted : Plain (noted schema [mg])) {col : Str}
    {ty : PgType} (h : Lists schema col ty) : ∃ ty', Lists (noted schema [mg]) col ty' := by
  by_cases hcol : col = (target mg).1
  · exact ⟨_, (lists_noted_iff hplain hnoted).mpr (by rw [if_pos hcol])⟩
  · exact ⟨ty, (lists_noted_iff hplain hnoted).mpr (by rwa [if_neg hcol])⟩

theorem pgIdent_of_short {c : Str} (h : c.length < 63) : pgIdent c = c :=
  List.take_of_length_le h.le

/-- A statement leaves its column as the object then lists it. -/
theorem Follows.get?_target (h : Follows schema columns) (hnext : Next schema mg)
    (hshort : (target mg).1.length < 63) :
    (altered columns mg).get? (target mg).1 = some (target mg).2 := by
  rw [get?_altered]
  split
  · rfl
  · rename_i hkept
    rw [pgIdent_of_short hshort] at hkept
    push Not at hkept
    obtain ⟨hadds, hexists⟩ := hkept rfl
    obtain ⟨ty, hget⟩ := Option.ne_none_iff_exists'.mp hexists
    obtain ⟨ty', hlists⟩ := h.all _ ty hshort hnext.plain.target_isColumn hget
    rw [h.types _ ty' hshort hlists, hnext.adds (by simpa using hadds) ty' hlists]

theorem Follows.noted (h : Follows schema columns) (hplain : Plain schema)
    (hnext : Next schema mg) : Follows (Promotion.noted schema [mg]) (altered columns mg) := by
  constructor
  · intro col ty hshort hlists
    rw [lists_noted_iff hplain hnext.plain] at hlists
    split at hlists
    · rename_i hcol
      rw [hcol] at hshort
      rw [hcol, hlists]
      exact h.get?_target hnext hshort
    · rename_i hcol
      rw [get?_altered, if_neg]
      · exact h.types col ty hshort hlists
      · rintro ⟨hident, -⟩
        exact hcol (hident.trans (pgIdent_of_length_lt (hident ▸ hshort)))
  · intro c ty hshort hcolumn hget
    rw [get?_altered] at hget
    split at hget
    · rename_i hc
      have htarget := hc.1.trans (pgIdent_of_length_lt (hc.1 ▸ hshort))
      exact ⟨_, (lists_noted_iff hplain hnext.plain).mpr (by rw [if_pos htarget])⟩
    · obtain ⟨ty', hlisted⟩ := h.all c ty hshort hcolumn hget
      exact exists_lists_noted hplain hnext.plain hlisted

/-- A promotion leaves another object behind, if that lists the column. -/
theorem agrees_altered_iff (h : Agrees schema columns) :
    Agrees schema (altered columns mg) ↔ (isWiden mg = true → ∀ col ty, Lists schema col ty →
      pgIdent col = pgIdent (target mg).1 → ty = (target mg).2) := by
  constructor
  · intro hnew hwiden col ty hlists hident
    have hget := hnew col ty hlists
    rw [get?_altered, if_pos ⟨hident, Or.inl hwiden⟩] at hget
    exact (Option.some.inj hget).symm
  · intro hsame col ty hlists
    rw [get?_altered]
    split
    · rename_i hset
      rcases hset.2 with hwiden | hnone
      · rw [hsame hwiden col ty hlists hset.1]
      · exact absurd ((h col ty hlists).symm.trans hnone) (by simp)
    · exact h col ty hlists

/-- A statement keeps its own object in agreement with the database, unless
another entry has the column, or the table has it with another type. -/
theorem agrees_noted_iff (h : Agrees schema columns) (hplain : Plain schema)
    (hnext : Next schema mg) (hfollows : Follows schema columns) :
    Agrees (noted schema [mg]) (altered columns mg) ↔
      (isWiden mg = true → ∀ col ty, Lists schema col ty →
        pgIdent col = pgIdent (target mg).1 → ty = (target mg).2 ∨ col = (target mg).1) ∧
      (isWiden mg = false → 63 ≤ (target mg).1.length →
        ∀ ty, columns.get? (pgIdent (target mg).1) = some ty → ty = (target mg).2) := by
  have htarget : Lists (noted schema [mg]) (target mg).1 (target mg).2 :=
    (lists_noted_iff hplain hnext.plain).mpr (by rw [if_pos rfl])
  constructor
  · intro hnew
    refine ⟨fun hwiden col ty hlists hident => ?_, fun hadd _ ty hget => ?_⟩
    · by_cases hcol : col = (target mg).1
      · exact Or.inr hcol
      · have hother := hnew col ty
          ((lists_noted_iff hplain hnext.plain).mpr (by rwa [if_neg hcol]))
        rw [get?_altered, if_pos ⟨hident, Or.inl hwiden⟩] at hother
        exact Or.inl (Option.some.inj hother).symm
    · have hown := hnew _ _ htarget
      rw [get?_altered, if_neg (by simp [hadd, hget]), hget] at hown
      exact Option.some.inj hown
  · rintro ⟨hwidened, hadded⟩ col ty hlists
    rw [lists_noted_iff hplain hnext.plain] at hlists
    split at hlists
    · rename_i hcol
      rw [hcol, hlists]
      by_cases hshort : (target mg).1.length < 63
      · rw [pgIdent_of_short hshort]
        exact hfollows.get?_target hnext hshort
      · rw [get?_altered]
        split
        · rfl
        · rename_i hkept
          push Not at hkept
          obtain ⟨hadd, hexists⟩ := hkept rfl
          obtain ⟨ty', hget⟩ := Option.ne_none_iff_exists'.mp hexists
          rw [hget, hadded (by simpa using hadd) (by omega) ty' hget]
    · rename_i hcol
      rw [get?_altered]
      split
      · rename_i hset
        rcases hset.2 with hwiden | hnone
        · rw [(hwidened hwiden col ty hlists hset.1).resolve_right hcol]
        · exact absurd ((h col ty hlists).symm.trans hnone) (by simp)
      · exact h col ty hlists

end Table

end TimescaleLp.Listings
