import TimescaleLp.LineProtocol
import TimescaleLp.Retries
import TimescaleLp.TempTable

/-!
The column list of the temp table. The database refuses a list with one name
twice. Sanitizing forgets case and which symbol a name has, and the prefix of a
column takes two of the 63 characters away from the name, so two tags or two
fields of a batch can meet in one column; a tag never meets a field or one of
the fixed columns.
-/
namespace TimescaleLp.ColumnClash

open Names Schema Store Naming Columns

variable {F : Type}

/-- The columns `_write_measurement` lists; `none` when an exception comes before. -/
def writeColumns [Numerics F] (s : Service F) (measurement : Str) (points : List (Point F)) :
    Option (List Str) := do
  let schema ← (ensureSchema s measurement (tagNames points) (fieldSamples points)).2
  let sources ← columnSources schema (tagNames points) (fieldSamples points).keys
  return TempTable.fixedTypes.map Prod.fst ++ sources.map Prod.fst

/-- A name as far as its first character goes: no name of a column starts with a
digit or is empty. -/
def stem (name : Str) : Str := if name.head?.all Char.isDigit then '_' :: name else name

/-- Two letters or digits up to case, or two symbols. -/
def SameChar (c d : Char) : Prop :=
  c.toLower = d.toLower ∨ c.isAlphanum = false ∧ d.isAlphanum = false

instance (c d : Char) : Decidable (SameChar c d) := by
  unfold SameChar
  infer_instance

/-- Names of which the first 61 characters are the same for a column. -/
def Alike (a b : Str) : Prop := List.Forall₂ SameChar ((stem a).take 61) ((stem b).take 61)

instance (a b : Str) : Decidable (Alike a b) := by
  unfold Alike
  infer_instance

example : Alike "Host.name".toList "host_NAME".toList ∧ Alike "7d".toList "_7D".toList ∧
    ¬Alike "host1".toList "host2".toList := by
  decide

/-- Two distinct names in the points of a batch are alike. -/
def ClashIn (names : Point F → List Str) (points : List (Point F)) : Prop :=
  ∃ p ∈ points, ∃ q ∈ points, ∃ a ∈ names p, ∃ b ∈ names q, a ≠ b ∧ Alike a b

instance (names : Point F → List Str) (points : List (Point F)) :
    Decidable (ClashIn names points) := by
  unfold ClashIn
  infer_instance

/-- Two tags or two fields of the batch clash. -/
def Clash (points : List (Point F)) : Prop :=
  ClashIn (·.tags.keys) points ∨ ClashIn (·.fields.keys) points

instance (points : List (Point F)) : Decidable (Clash points) :=
  inferInstanceAs (Decidable (_ ∨ _))

section Alike

/-- What a character of a name becomes. -/
def folded (c : Char) : Char := (if isWord c then c else '_').toLower

theorem folded_eq (c : Char) : folded c = if c.isAlphanum then c.toLower else '_' := by
  unfold folded isWord
  cases hc : c.isAlphanum with
  | true => rfl
  | false =>
    by_cases h : c = '_'
    · rw [h]
      rfl
    · simp [h]

theorem isDigit_eq_false_of_isAlpha {c : Char} (h : c.isAlpha) : c.isDigit = false := by
  obtain ⟨hupper, hlower, hdigit⟩ := toNat_bounds c
  rw [isAlpha_iff, hupper, hlower] at h
  rw [← Bool.not_eq_true, hdigit]
  omega

theorem isAlpha_toLower (c : Char) : c.toLower.isAlpha = c.isAlpha := by
  by_cases hupper : c.isUpper
  · rw [isAlpha_iff.mpr (Or.inr (isLower_toLower hupper)), isAlpha_iff.mpr (Or.inl hupper)]
  · rw [toLower_of_not_isUpper hupper]

/-- Lower case keeps letters and digits apart from the other characters. -/
theorem isAlphanum_toLower (c : Char) : c.toLower.isAlphanum = c.isAlphanum := by
  by_cases hupper : c.isUpper
  · have halpha : c.isAlpha = true := isAlpha_iff.mpr (Or.inl hupper)
    rw [Char.isAlphanum, Char.isAlphanum, isAlpha_toLower, halpha, Bool.true_or, Bool.true_or]
  · rw [toLower_of_not_isUpper hupper]

theorem folded_eq_iff (c d : Char) : folded c = folded d ↔ SameChar c d := by
  have hnot : ∀ a : Char, a.isAlphanum → a.toLower ≠ '_' := by
    intro a ha heq
    rw [← isAlphanum_toLower, heq] at ha
    contradiction
  have hlower : c.isAlphanum ≠ d.isAlphanum → c.toLower ≠ d.toLower := by
    intro hne heq
    exact hne (by rw [← isAlphanum_toLower c, heq, isAlphanum_toLower])
  rw [folded_eq, folded_eq, SameChar]
  cases hc : c.isAlphanum with
  | true =>
    cases hd : d.isAlphanum with
    | true => simp
    | false => simpa [hc, hd] using iff_of_false (hnot c hc) (hlower (by simp [hc, hd]))
  | false =>
    cases hd : d.isAlphanum with
    | true => simpa [hc, hd] using iff_of_false (hnot d hd).symm (hlower (by simp [hc, hd]))
    | false => simp

/-- An underscore is put in front of a digit, and of nothing. -/
theorem startsIdent_folded (name : Str) :
    startsIdent (name.map folded) = !name.head?.all Char.isDigit := by
  cases name with
  | nil => rfl
  | cons c name =>
    rw [List.map_cons, startsIdent, folded_eq, List.head?_cons, Option.all_some]
    cases hdigit : c.isDigit with
    | true =>
      have halpha : c.isAlpha = false := by
        by_contra h
        rw [isDigit_eq_false_of_isAlpha (Bool.not_eq_false _ ▸ h)] at hdigit
        contradiction
      have hne : c ≠ '_' := by
        rintro rfl
        contradiction
      simp [Char.isAlphanum, hdigit, halpha, hne,
        toLower_of_not_isUpper (not_isUpper_of_isDigit hdigit)]
    | false =>
      cases halpha : c.isAlpha with
      | true =>
        rw [Char.isAlphanum, halpha, Bool.true_or, if_pos rfl, isAlpha_toLower, halpha]
        rfl
      | false => simp [Char.isAlphanum, halpha, hdigit]

theorem safeIdent_eq (name : Str) : safeIdent name = ((stem name).map folded).take 63 := by
  have hmap : (name.map (fun c => if isWord c then c else '_')).map Char.toLower =
      name.map folded := List.map_map
  rw [safeIdent, hmap, startsIdent_folded, stem]
  cases name.head?.all Char.isDigit with
  | true => rfl
  | false => rfl

/-- The columns of two names are the same exactly when these are alike. -/
theorem pgIdent_eq_iff (c : Char) (a b : Str) :
    pgIdent (c :: '_' :: safeIdent a) = pgIdent (c :: '_' :: safeIdent b) ↔ Alike a b := by
  have htake : ∀ name, pgIdent (c :: '_' :: safeIdent name) =
      c :: '_' :: ((stem name).take 61).map folded := by
    intro name
    rw [safeIdent_eq, pgIdent, List.take_succ_cons, List.take_succ_cons, List.take_take,
      List.map_take]
    rfl
  rw [htake, htake, List.cons_inj_right, List.cons_inj_right, ← List.forall₂_eq_eq_eq,
    List.forall₂_map_left_iff, List.forall₂_map_right_iff, Alike]
  simp only [folded_eq_iff]

end Alike

section Columns

theorem map_of_mapM {α β γ : Type} {g : α → Option β} {f : α → γ} {column : β → γ} {xs : List α}
    {ys : List β} (h : xs.mapM g = some ys) (hg : ∀ x y, g x = some y → column y = f x) :
    ys.map column = xs.map f := by
  have hmap : ∀ x ∈ xs, (g x).map column = some (f x) := by
    intro x hx
    obtain ⟨y, hy⟩ := exists_of_mapM h x hx
    rw [hy, Option.map_some, hg x y hy]
  refine List.map_injective_iff.mpr (Option.some_injective γ) ?_
  calc (ys.map column).map some
      = (ys.map some).map (Option.map column) := by simp
    _ = xs.map fun x => (g x).map column := by rw [← map_eq_of_mapM h, List.map_map]; rfl
    _ = (xs.map f).map some := by rw [List.map_congr_left hmap, List.map_map]; rfl

/-- One column for each name, in order. -/
theorem columnSources_fst {measurement : Str} {schema : TableSchema}
    (hschema : Canonical measurement schema) {tagNames fieldNames : List Str}
    {sources : List (Str × Source)}
    (h : columnSources schema tagNames fieldNames = some sources) :
    sources.map Prod.fst = tagNames.map tagCol ++ fieldNames.map fieldCol := by
  obtain ⟨tags, htags, h⟩ := Option.bind_eq_some_iff.mp h
  obtain ⟨fields, hfields, h⟩ := Option.bind_eq_some_iff.mp h
  cases h
  rw [List.map_append]
  refine congrArg₂ (· ++ ·) (map_of_mapM htags ?_) (map_of_mapM hfields ?_)
  · intro t e he
    obtain ⟨col, hcol, rfl⟩ := Option.map_eq_some_iff.mp he
    exact hschema.tags t col hcol
  · intro f e he
    obtain ⟨entry, hentry, rfl⟩ := Option.map_eq_some_iff.mp he
    exact hschema.fields f entry hentry

theorem colOfTag_eq_iff (t t' : Str) : colOfTag t = colOfTag t' ↔ Alike t t' :=
  pgIdent_eq_iff 't' t t'

theorem colOfField_eq_iff (f f' : Str) : colOfField f = colOfField f' ↔ Alike f f' :=
  pgIdent_eq_iff 'f' f f'

/-- The names of a batch get distinct columns when no two of its points clash. -/
theorem nodup_map_iff {col : Str → Str} (hcol : ∀ a b, col a = col b ↔ Alike a b)
    {names : Point F → List Str} {points : List (Point F)} {xs : List Str} (hxs : xs.Nodup)
    (hmem : ∀ a, a ∈ xs ↔ ∃ p ∈ points, a ∈ names p) :
    (xs.map col).Nodup ↔ ¬ClashIn names points := by
  rw [List.nodup_map_iff_inj_on hxs]
  constructor
  · intro hinj ⟨p, hp, q, hq, a, ha, b, hb, hne, halike⟩
    exact hne (hinj a ((hmem a).mpr ⟨p, hp, ha⟩) b ((hmem b).mpr ⟨q, hq, hb⟩)
      ((hcol a b).mpr halike))
  · intro hclash a ha b hb heq
    obtain ⟨p, hp, ha⟩ := (hmem a).mp ha
    obtain ⟨q, hq, hb⟩ := (hmem b).mp hb
    by_contra hne
    exact hclash ⟨p, hp, q, hq, a, ha, b, hb, hne, (hcol a b).mp heq⟩

/-- Neither a tag nor a field is stored under the name of a fixed column. -/
theorem fixed_ne {col stored : Str} (hcol : col ∈ TempTable.fixedTypes.map Prod.fst)
    (hstored : (∃ t, stored = colOfTag t) ∨ ∃ f, stored = colOfField f) : pgIdent col ≠ stored := by
  have hsecond : stored[1]? = some '_' := by
    rcases hstored with ⟨t, rfl⟩ | ⟨f, rfl⟩
    · rfl
    · rfl
  intro heq
  rw [← heq] at hsecond
  have hfixed : ∀ col ∈ TempTable.fixedTypes.map Prod.fst, (pgIdent col)[1]? ≠ some '_' := by
    decide
  exact hfixed col hcol hsecond

theorem nodup_names_iff (points : List (Point F)) :
    (((tagNames points).map tagCol ++ (fieldSamples points).keys.map fieldCol).map pgIdent).Nodup ↔
      ¬Clash points := by
  have htags : ((tagNames points).map colOfTag).Nodup ↔ ¬ClashIn (·.tags.keys) points :=
    nodup_map_iff colOfTag_eq_iff (List.nodup_dedup _) mem_tagNames_iff
  have hfields : ((fieldSamples points).keys.map colOfField).Nodup ↔
      ¬ClashIn (·.fields.keys) points :=
    nodup_map_iff colOfField_eq_iff (fieldSamples points).nodup mem_fieldSamples_iff
  have hcols : ((tagNames points).map tagCol ++ (fieldSamples points).keys.map fieldCol).map
      pgIdent = (tagNames points).map colOfTag ++ (fieldSamples points).keys.map colOfField := by
    rw [List.map_append, List.map_map, List.map_map]
    rfl
  rw [hcols, List.nodup_append, Clash, not_or, ← htags, ← hfields]
  constructor
  · intro ⟨ht, hf, _⟩
    exact ⟨ht, hf⟩
  · intro ⟨ht, hf⟩
    refine ⟨ht, hf, ?_⟩
    intro c hc c' hc'
    obtain ⟨t, _, rfl⟩ := List.mem_map.mp hc
    obtain ⟨f, _, rfl⟩ := List.mem_map.mp hc'
    exact colOfTag_ne_colOfField t f

theorem nodup_columns_iff (points : List (Point F)) :
    ((TempTable.fixedTypes.map Prod.fst ++ ((tagNames points).map tagCol ++
      (fieldSamples points).keys.map fieldCol)).map pgIdent).Nodup ↔ ¬Clash points := by
  have hfixed : ((TempTable.fixedTypes.map Prod.fst).map pgIdent).Nodup := by decide
  rw [← nodup_names_iff, List.map_append, List.nodup_append]
  constructor
  · intro ⟨_, hnames, _⟩
    exact hnames
  · intro hnames
    refine ⟨hfixed, hnames, ?_⟩
    intro c hc c' hc'
    obtain ⟨col, hcol, rfl⟩ := List.mem_map.mp hc
    obtain ⟨col', hcol', rfl⟩ := List.mem_map.mp hc'
    refine fixed_ne hcol ?_
    rcases List.mem_append.mp hcol' with hcol' | hcol'
    · obtain ⟨t, _, rfl⟩ := List.mem_map.mp hcol'
      exact Or.inl ⟨t, rfl⟩
    · obtain ⟨f, _, rfl⟩ := List.mem_map.mp hcol'
      exact Or.inr ⟨f, rfl⟩

end Columns

section Write
variable (digest : Str → ℕ) [Numerics F] {s : Service F} {measurement : Str}
  {points : List (Point F)}

omit digest in
theorem writeColumns_eq (hs : Named s) {cols : List Str}
    (h : writeColumns s measurement points = some cols) :
    cols = TempTable.fixedTypes.map Prod.fst ++
      ((tagNames points).map tagCol ++ (fieldSamples points).keys.map fieldCol) := by
  obtain ⟨schema, hschema, h⟩ := Option.bind_eq_some_iff.mp h
  obtain ⟨sources, hsources, h⟩ := Option.bind_eq_some_iff.mp h
  cases h
  rw [columnSources_fst ((hs.ensureSchema measurement _ _).2 schema hschema) hsources]

/-- The batch that is built has these columns, behind the fixed ones. -/
theorem writeColumns_of_prepare {s' : Service F} {b : Batch F}
    (h : prepare digest s measurement points = (s', .ok b)) :
    writeColumns s measurement points = some (TempTable.fixedTypes.map Prod.fst ++ b.cols) := by
  rw [prepare] at h
  rcases hensure : ensureSchema s measurement (tagNames points) (fieldSamples points) with
    ⟨s₁, _ | schema⟩
  · simp [hensure] at h
  · simp only [hensure] at h
    obtain ⟨sources, rows, hsources, _, hb⟩ :=
      Batches.buildBatch_ok digest (Prod.ext rfl (Prod.mk.inj h).2)
    rw [writeColumns, hensure, hb]
    exact Option.bind_eq_some_iff.mpr ⟨schema, rfl,
      Option.bind_eq_some_iff.mpr ⟨sources, hsources, rfl⟩⟩

/-- A batch with a clash is not written. -/
theorem isOk_eq_false_of_clash (hs : Named s) (hclash : Clash points) (on : Bool)
    (fault : Option Fault) :
    (writeMeasurement digest on fault s measurement points).2.isOk = false := by
  rw [writeMeasurement]
  rcases hprepare : prepare digest s measurement points with ⟨s', err | b⟩
  · rfl
  have hcols := List.append_cancel_left
    (writeColumns_eq hs (writeColumns_of_prepare digest hprepare))
  have hout := Sequence.outcome_storeBatch on fault s' b
  show (storeBatch on fault s' b).2.isOk = false
  generalize (storeBatch on fault s' b).1 = s'' at hout
  generalize (storeBatch on fault s' b).2 = res at hout ⊢
  cases hout with
  | unstaged | unrecorded | uncommitted => rfl
  | committed t hpasses ht =>
    have hnodup := Batches.commit_cols_nodup ht
    rw [hcols, nodup_names_iff] at hnodup
    exact absurd hclash hnodup

/-- In every state of the service the columns of a batch are distinct exactly
when its names do not clash; otherwise the batch is refused. -/
theorem columns_distinct_iff {clock : ℕ} {events : List (Retries.Event F)} {h : History F}
    (hrun : Runs.exec (Retries.step digest) (Sequence.start clock) events = some h)
    {cols : List Str} (hcols : writeColumns h.service measurement points = some cols) :
    ((cols.map pgIdent).Nodup ↔ ¬Clash points) ∧
      (Clash points → ∀ on fault,
        (writeMeasurement digest on fault h.service measurement points).2.isOk = false) := by
  obtain ⟨_, hs⟩ : Sequence.Inv h.service.toWorld h.recorded ∧ Named h.service :=
    Runs.exec_invariant (I := fun h => Sequence.Inv h.service.toWorld h.recorded ∧ Named h.service)
      (fun _ _ _ hI hstep => Retries.step_inv hI hstep)
      ⟨Sequence.start_inv clock, Writes.named_start clock⟩ hrun
  constructor
  · rw [writeColumns_eq hs hcols]
    exact nodup_columns_iff points
  · exact fun hclash on fault => isOk_eq_false_of_clash digest hs hclash on fault

end Write

def tagsPoint (tags : List Str) (h : tags.Nodup) : Point ℤ :=
  ⟨['m'], ⟨tags.map fun t => (t, ['x']), by simpa [List.map_map, Function.comp_def] using h⟩,
    Dict.single ['v'] (.int 1), 0⟩

/-- Tags that agree in all but their 61st character, and a field of a tag's name. -/
def apartPoint : Point ℤ :=
  tagsPoint [List.replicate 60 'a' ++ ['b'], List.replicate 60 'a' ++ ['c'], ['v']] (by decide)

theorem columns_distinct_apart : ∃ cols,
    writeColumns (Sequence.start 1 : History ℤ).service ['m'] [apartPoint] = some cols ∧
      (cols.map pgIdent).Nodup := by
  have hsome : (writeColumns (Sequence.start 1 : History ℤ).service ['m'] [apartPoint]).isSome := by
    decide +kernel
  obtain ⟨cols, hcols⟩ := Option.isSome_iff_exists.mp hsome
  have hrun : Runs.exec (Retries.step fun _ => 0) (Sequence.start 1 : History ℤ) [] =
    some (Sequence.start 1) := rfl
  exact ⟨cols, hcols, (columns_distinct_iff _ hrun hcols).1.mpr (by decide +kernel)⟩

/-- Two tags of one line that differ in a symbol. -/
theorem columns_not_distinct :
    ¬∀ (line : Str) (p : Point ℤ), LineProtocol.parseLine .ns none 0 line = .ok p → ∀ cols,
      writeColumns (Sequence.start 1 : History ℤ).service p.measurement [p] = some cols →
        (cols.map pgIdent).Nodup := by
  intro h
  have hread : ((LineProtocol.parseLine .ns none 0 "m,a.b=1,a_b=2 v=1i".toList).toOption.any
      fun p : Point ℤ => (writeColumns (Sequence.start 1 : History ℤ).service p.measurement
        [p]).any fun cols => decide ¬(cols.map pgIdent).Nodup) = true := by
    decide +kernel
  generalize "m,a.b=1,a_b=2 v=1i".toList = line at hread
  have hline := h line
  cases hparse : (LineProtocol.parseLine .ns none 0 line :
      Except LineProtocol.Raised (Point ℤ)) with
  | error e =>
    rw [hparse] at hread
    contradiction
  | ok p =>
    rw [hparse] at hread
    obtain ⟨q, hq, hany⟩ := (Option.any_eq_true _ _).mp hread
    obtain ⟨cols, hcols, hnot⟩ := (Option.any_eq_true _ _).mp hany
    cases Option.some.inj hq
    exact of_decide_eq_true hnot (hline p hparse cols hcols)

end TimescaleLp.ColumnClash
