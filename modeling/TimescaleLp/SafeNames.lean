import TimescaleLp.Retries
import TimescaleLp.SqlText

/-!
What the service puts into SQL and into object keys without quoting it. The names
that sanitizing makes are exactly those it leaves alone; in a literal, as a name
in the text of a statement and as a part of a path they are read as they stand.
-/
namespace TimescaleLp.SafeNames

open Names Schema SchemaRules Naming ColdStore SqlText

/-- At most 63 lower-case letters, digits and underscores of ASCII, with no digit
first and at least one in all. -/
structure SafeName (s : Str) : Prop where
  length : 1 ≤ s.length ∧ s.length ≤ 63
  starts : ∀ c ∈ s.head?, c.isLower = true ∨ c = '_'
  chars : ∀ c ∈ s, c.isLower = true ∨ c.isDigit = true ∨ c = '_'

instance (s : Str) : Decidable (SafeName s) :=
  decidable_of_iff ((1 ≤ s.length ∧ s.length ≤ 63) ∧ s.head?.all (fun c => c.isLower || c == '_') ∧
      s.all fun c => c.isLower || c.isDigit || c == '_') (by
    constructor
    · intro ⟨hlength, hstarts, hchars⟩
      exact ⟨hlength, by simpa [Option.all_eq_true] using hstarts, by simpa [or_assoc] using hchars⟩
    · intro h
      exact ⟨h.length, by simpa [Option.all_eq_true] using h.starts,
        by simpa [or_assoc] using h.chars⟩)

/-- `_quote_ident` -/
def quoteIdent (name : Str) : Str := '"' :: double '"' name ++ ['"']

/-- `tmp` of `_write_measurement` -/
def stageTable (table : Str) : Str := "_lp_stage_".toList ++ table

/-- Names in a statement of Postgres. Key words are not told apart here; none
starts with an underscore. -/
def statementRules : Rules where
  maxLength := 63
  starts c := c.isAlpha || c == '_' || decide (128 ≤ c.toNat)
  goesOn c := c.isAlphanum || c == '_' || c == '$' || decide (128 ≤ c.toNat)

/-- Names in the text of a `regclass`, such as `lp.cpu`. -/
def regclassRules : Rules where
  maxLength := 63
  starts c := decide (c ∉ ['.', ' ', '\t', '\n', '\r', '\x0b', '\x0c'])
  goesOn c := decide (c ∉ ['.', ' ', '\t', '\n', '\r', '\x0b', '\x0c'])

example : readName statementRules "Cpu$1(x)".toList = some ("cpu$1".toList, "(x)".toList) ∧
    readName statementRules (quoteIdent "Cpu\"1".toList) = some ("Cpu\"1".toList, []) ∧
    readName regclassRules "lp.cpu".toList = some ("lp".toList, ".cpu".toList) := by
  decide

/-- With quotes or without them, the name is read as the one that is stored. -/
def StandsAlone (r : Rules) (name : Str) : Prop :=
  ∀ rest, Ends r rest → readName r (name ++ rest) = some (pgIdent name, rest) ∧
    readName r (quoteIdent name ++ rest) = some (pgIdent name, rest)

/-- What the service counts on where it writes a table name without quotes. -/
structure Unescaped (table : Str) : Prop where
  escaped : double '\'' table = table
  /-- Inside a literal the name is text, and the literal goes on behind it. -/
  literal : ∀ rest, readQuoted '\'' (table ++ rest) =
    (readQuoted '\'' rest).map (Prod.map (table ++ ·) id)
  stored : pgIdent table = table
  regclass : StandsAlone regclassRules table
  stage : StandsAlone statementRules (stageTable table)
  /-- A path starts with the name as a part of its own, which leads nowhere else. -/
  staging : ∀ a b, (stagingKey table a b).splitOn '/' =
    [table, "staging".toList, zeroPad 20 a ++ '-' :: (zeroPad 20 b ++ ".parquet".toList)]
  cold : ∀ ts a, (coldKey table (dayOf ts) a).splitOn '/' =
    [table, "cold".toList, "dt=".toList ++ dayOf ts, zeroPad 20 a ++ ".parquet".toList]
  dotless : '.' ∉ table
  keys : ∀ ts a b, '\'' ∉ stagingKey table a b ∧ '\'' ∉ coldKey table (dayOf ts) a

/-- Names of tables, tags and fields that are read back from the database. -/
structure ReadsBack {F : Type} (s : Service F) : Prop where
  tables : ∀ table columns, s.catalog.get? table = some columns → measurementTable table = table
  tags : ∀ table columns, s.catalog.get? table = some columns → ∀ t col,
    (introspectTags columns).get? t = some col → safeIdent t = t ∧ tagCol t = col
  fields : ∀ table columns, s.catalog.get? table = some columns → ∀ f e,
    (introspectFields columns).get? f = some e → safeIdent f = f ∧ fieldCol f = e.1

section Fixed

theorem SafeName.clean {s : Str} (h : SafeName s) : Clean s where
  chars c hc := (isWord_and_toLower_iff c).mpr (h.chars c hc)
  starts := by
    cases s with
    | nil => exact absurd h.length.1 (by decide)
    | cons c s =>
      rcases h.starts c rfl with hc | hc
      · simp [startsIdent, isAlpha_iff, hc]
      · simp [startsIdent, hc]

theorem safeName_of_clean {s : Str} (h : Clean s) (hlen : s.length ≤ 63) : SafeName s := by
  have hchars : ∀ c ∈ s, c.isLower = true ∨ c.isDigit = true ∨ c = '_' := fun c hc =>
    (isWord_and_toLower_iff c).mp (h.chars c hc)
  cases s with
  | nil => exact absurd h.starts Bool.false_ne_true
  | cons c s =>
    refine ⟨⟨Nat.succ_pos _, hlen⟩, ?_, hchars⟩
    intro d hd
    cases hd
    have hsame : c.toLower = c := (h.chars c List.mem_cons_self).2
    have hupper : ¬c.isUpper = true := fun hupper =>
      not_isUpper_of_isLower (hsame ▸ isLower_toLower hupper) hupper
    simpa [startsIdent, isAlpha_iff, hupper] using h.starts

theorem safeName_safeIdent (name : Str) : SafeName (safeIdent name) :=
  safeName_of_clean (clean_safeIdent name) (List.length_take_le _ _)

example : safeIdent "Cpu Usage!".toList = "cpu_usage_".toList ∧ safeIdent [] = ['_'] ∧
    safeIdent "7ü".toList = "_7_".toList ∧ (safeIdent (List.replicate 100 'a')).length = 63 := by
  decide

theorem safeIdent_of_safeName {s : Str} (h : SafeName s) : safeIdent s = s :=
  safeIdent_of_clean h.clean h.length.2

end Fixed

section Unescaped

variable {r : Rules} {s : Str}

/-- The characters of a safe name start names and go on in them. -/
structure Admits (r : Rules) : Prop where
  maxLength : r.maxLength = 63
  starts : ∀ c, c.isLower = true ∨ c = '_' → r.starts c = true
  goesOn : ∀ c, c.isLower = true ∨ c.isDigit = true ∨ c = '_' → r.goesOn c = true

theorem standsAlone (hr : Admits r) (hstarts : ∃ c, s.head? = some c ∧ (c.isLower = true ∨ c = '_'))
    (hchars : ∀ c ∈ s, c.isLower = true ∨ c.isDigit = true ∨ c = '_') : StandsAlone r s := by
  obtain ⟨c, hhead, hc⟩ := hstarts
  have hbare : Bare r s := by
    refine ⟨⟨c, hhead, hr.starts c hc⟩, fun d hd => hr.goesOn d (hchars d (List.mem_of_mem_tail hd)),
      fun d hd => ((isWord_and_toLower_iff d).mpr (hchars d hd)).2, fun hquote => ?_⟩
    exact absurd (hchars '"' hquote) (by decide)
  have hne : s ≠ [] := by
    intro heq
    rw [heq] at hhead
    cases hhead
  intro rest hrest
  rw [pgIdent, ← hr.maxLength, quoteIdent, List.append_assoc]
  exact ⟨readName_bare hbare hrest, readName_double hne hrest⟩

theorem admits_statementRules : Admits statementRules where
  maxLength := rfl
  starts c hc := by
    rcases hc with hc | hc
    · simp [statementRules, isAlpha_iff, hc]
    · simp [statementRules, hc]
  goesOn c hc := by
    rcases hc with hc | hc | hc
    · simp [statementRules, Char.isAlphanum, isAlpha_iff, hc]
    · simp [statementRules, Char.isAlphanum, hc]
    · simp [statementRules, hc]

theorem admits_regclassRules : Admits regclassRules := by
  have hgoesOn : ∀ c : Char, c.isLower = true ∨ c.isDigit = true ∨ c = '_' →
      regclassRules.goesOn c = true := by
    intro c hc
    refine decide_eq_true fun hmem => ?_
    have hspecial : ['.', ' ', '\t', '\n', '\r', '\x0b', '\x0c'].all
        (fun d => !d.isLower && !d.isDigit && d != '_') = true := by
      decide
    have hnot := List.all_eq_true.mp hspecial c hmem
    simp only [Bool.and_eq_true, Bool.not_eq_true', bne_iff_ne, ne_eq] at hnot
    simp [hnot] at hc
  exact ⟨rfl, fun c hc => hgoesOn c (hc.imp_right Or.inr), hgoesOn⟩

theorem SafeName.notMem (h : SafeName s) {c : Char}
    (hc : ¬(c.isLower = true ∨ c.isDigit = true ∨ c = '_')) : c ∉ s :=
  fun hmem => hc (h.chars c hmem)

theorem SafeName.exists_head? (h : SafeName s) :
    ∃ c, s.head? = some c ∧ (c.isLower = true ∨ c = '_') := by
  cases s with
  | nil => exact absurd h.length.1 (by decide)
  | cons c s => exact ⟨c, rfl, h.starts c rfl⟩

theorem splitOn_stagingKey (hs : '/' ∉ s) (a b : ℕ) : (stagingKey s a b).splitOn '/' =
    [s, "staging".toList, zeroPad 20 a ++ '-' :: (zeroPad 20 b ++ ".parquet".toList)] := by
  have hjoin : stagingKey s a b = List.intercalate ['/'] [s, "staging".toList,
      zeroPad 20 a ++ '-' :: (zeroPad 20 b ++ ".parquet".toList)] := by
    simp [stagingKey, List.intercalate]
  rw [hjoin]
  refine List.splitOn_intercalate '/' ?_ (List.cons_ne_nil _ _)
  simp [hs, notMem_zeroPad]

theorem splitOn_coldKey (hs : '/' ∉ s) {day : Str} (hday : '/' ∉ day) (a : ℕ) :
    (coldKey s day a).splitOn '/' =
      [s, "cold".toList, "dt=".toList ++ day, zeroPad 20 a ++ ".parquet".toList] := by
  have hjoin : coldKey s day a = List.intercalate ['/'] [s, "cold".toList, "dt=".toList ++ day,
      zeroPad 20 a ++ ".parquet".toList] := by
    simp [coldKey, List.intercalate]
  rw [hjoin]
  refine List.splitOn_intercalate '/' ?_ (List.cons_ne_nil _ _)
  simp [hs, hday, notMem_zeroPad]

theorem SafeName.unescaped (h : SafeName s) : Unescaped s where
  escaped := double_eq_self (h.notMem (by decide))
  literal rest := readQuoted_append (h.notMem (by decide)) rest
  stored := List.take_of_length_le h.length.2
  regclass := standsAlone admits_regclassRules h.exists_head? h.chars
  stage := by
    refine standsAlone admits_statementRules ⟨'_', rfl, Or.inr rfl⟩ fun c hc => ?_
    have hstage : "_lp_stage_".toList.all (fun d => d.isLower || d.isDigit || d == '_') = true := by
      decide
    rcases List.mem_append.mp hc with hc | hc
    · simpa [or_assoc] using List.all_eq_true.mp hstage c hc
    · exact h.chars c hc
  staging a b := splitOn_stagingKey (h.notMem (by decide)) a b
  cold ts a := splitOn_coldKey (h.notMem (by decide)) (slash_notMem_dayOf ts) a
  dotless := h.notMem (by decide)
  keys ts a b := by
    have hs : '\'' ∉ s := h.notMem (by decide)
    constructor
    · simp [stagingKey, hs, notMem_zeroPad]
    · simp [coldKey, dayOf, hs, notMem_zeroPad]

end Unescaped

section ReadsBack

variable {F : Type}

/-- Tables have the names of measurements, and columns are made from names. -/
theorem readCall : CallRule F (fun table columns => SafeName table ∧ ColumnsOk columns)
    Canonical Fits where
  rule m := {
    empty := ⟨safeName_safeIdent m, (namedRule m).empty⟩
    load := fun columns h => (namedRule m).load columns h.2
    table := (namedRule m).table
    columns := fun mg hmg columns h => ⟨h.1, (namedRule m).columns mg hmg columns h.2⟩
    schema := (namedRule m).schema }
  issued := namedCall.issued

/-- A name read back is a stored column without its first two characters. -/
theorem safeIdent_of_introspected {β : Type} {p : Str} {g : Str × PgType → β}
    {columns : Dict Str PgType} (h : ColumnsOk columns) {x : Str} {v : β}
    (hget : (columns.entries.foldl (fun d e => if p <+: e.1 then d.set (e.1.drop 2) (g e) else d)
      Dict.empty).get? x = some v) : safeIdent x = x := by
  rcases get?_foldl_introspect p g _ _ hget with hempty | ⟨e, he, _, rfl, _⟩
  · simp at hempty
  · exact safeIdent_drop (h e.1 e.2 ((Dict.get?_eq_some_iff _ _ _).mpr he))

theorem readsBack_of_schemaInv {s : Service F}
    (h : SchemaInv (fun table columns => SafeName table ∧ ColumnsOk columns) Canonical s) :
    ReadsBack s where
  tables table columns hget := safeIdent_of_safeName (h.catalog table columns hget).1
  tags table columns hget t col ht := by
    have hcolumns := (h.catalog table columns hget).2
    have hcol := (canonical_introspect [] hcolumns).tags t col ht
    exact ⟨safeIdent_of_introspected hcolumns ht, hcol.symm⟩
  fields table columns hget f e hf := by
    have hcolumns := (h.catalog table columns hget).2
    have hcol := (canonical_introspect [] hcolumns).fields f e hf
    exact ⟨safeIdent_of_introspected (g := id) hcolumns hf, hcol.symm⟩

/-- Calls, also those that fail, and restarts leave only such names behind. -/
theorem readsBack_of_run [Numerics F] (digest : Str → ℕ) (clock : ℕ)
    (events : List (Retries.Event F)) : Runs.Always (Retries.step digest)
      (fun h => ReadsBack h.service) (Sequence.start clock) events :=
  Runs.always_of_invariant (I := fun h : History F =>
      SchemaInv (fun table columns => SafeName table ∧ ColumnsOk columns) Canonical h.service)
    (fun _ _ _ hs hstep => Retries.kept_step readCall hs hstep)
    (fun _ hs => readsBack_of_schemaInv hs) (Writes.kept_start clock)

end ReadsBack

/-- Sanitizing makes the safe names and leaves them alone. So do all names that
any run of calls and restarts has left in the database, and tables need no quotes. -/
theorem safeIdent_fixes {F : Type} [Numerics F] (digest : Str → ℕ) :
    (∀ name, SafeName (safeIdent name)) ∧ (∀ s, SafeName s → safeIdent s = s) ∧
      (∀ name, safeIdent (safeIdent name) = safeIdent name) ∧
      Set.range safeIdent = {s | SafeName s} ∧
      (∀ clock (events : List (Retries.Event F)), Runs.Always (Retries.step digest)
        (fun h => ReadsBack h.service) (Sequence.start clock) events) ∧
      ∀ name, Unescaped (measurementTable name) := by
  have hfixed : ∀ name, safeIdent (safeIdent name) = safeIdent name := fun name =>
    safeIdent_of_safeName (safeName_safeIdent name)
  have hrange : Set.range safeIdent = {s | SafeName s} := by
    ext s
    constructor
    · rintro ⟨name, rfl⟩
      exact safeName_safeIdent name
    · exact fun hs => ⟨s, safeIdent_of_safeName hs⟩
  exact ⟨safeName_safeIdent, fun s => safeIdent_of_safeName, hfixed, hrange,
    readsBack_of_run digest, fun name => (safeName_safeIdent name).unescaped⟩

/-- A name of that form, and the temp table of a measurement. -/
theorem safeIdent_fixes_load : safeIdent "_7d_load".toList = "_7d_load".toList ∧
    readName statementRules (stageTable "cpu_load".toList ++ " (".toList) =
      some (stageTable "cpu_load".toList, " (".toList) := by
  have hfixes := safeIdent_fixes (F := ℤ) fun _ => 0
  have htable : measurementTable "CPU/Load".toList = "cpu_load".toList := by decide
  have hstored : pgIdent (stageTable "cpu_load".toList) = stageTable "cpu_load".toList := by decide
  have hends : Ends statementRules " (".toList := by
    intro c hc
    cases hc
    decide
  have hread := ((hfixes.2.2.2.2.2 "CPU/Load".toList).stage _ hends).1
  rw [htable, hstored] at hread
  exact ⟨hfixes.2.1 _ (by decide), hread⟩

end TimescaleLp.SafeNames
