import TimescaleLp.Statements
import TimescaleLp.TempTable
import TimescaleLp.Writes

/-!
The statement that moves a batch from its temp table into the hypertable. Read back
and carried out, it is the commit of the batch: a new key gets a row with the
columns of the batch, and of a stored row it sets `seq` and these columns. The
database refuses it if the table lacks a column or its unique index, and assigns a
value of another type as its casts have it.
-/
namespace TimescaleLp.InsertText

open Names Schema Store Naming SafeNames Lexing Statements Columns TempTable

variable {F : Type}

/-- The columns of every batch. -/
def fixedCols : List Str := ["time".toList, "tag_hash".toList, "seq".toList]

/-- `col_list` -/
def colList (cols : List Str) : Str := ", ".toList.intercalate (cols.map quoteIdent)

def updateCols (cols : List Str) : List Str :=
  cols.filter fun c => !(["time".toList, "tag_hash".toList].contains c)

def assignment (c : Str) : Str := quoteIdent c ++ (" = EXCLUDED.".toList ++ quoteIdent c)

/-- An empty clause counts as none. -/
def setClause (cols : List Str) : Str :=
  let clause := ", ".toList.intercalate ((updateCols cols).map assignment)
  if clause = [] then assignment "time".toList else clause

def insertSql (tsdbSchema table : Str) (cols : List Str) (tmp : Str) : Str :=
  "\n                INSERT INTO ".toList ++ (qualified tsdbSchema table ++ (" (".toList ++
    (colList cols ++ (")\n                SELECT ".toList ++ (colList cols ++ (" FROM ".toList ++
      (tmp ++ ("\n                ON CONFLICT (time, tag_hash) DO UPDATE SET ".toList ++
        (setClause cols ++ "\n                ".toList)))))))))

structure InsertStatement where
  schema : Str
  table : Str
  cols : List Str
  selected : List Str
  source : Str
  sets : List (Str × Str)

def readIdents : List Token → List Str × List Token
  | .ident c :: .sym d :: ts =>
    if d = ',' then (c :: (readIdents ts).1, (readIdents ts).2) else ([c], .sym d :: ts)
  | .ident c :: ts => ([c], ts)
  | ts => ([], ts)

/-- `"c" = EXCLUDED."d"` -/
def readSet : List Token → Option (Str × Str)
  | [.ident c, .sym a, .word w, .sym b, .ident d] =>
    if a = '=' ∧ w = "excluded".toList ∧ b = '.' then some (c, d) else none
  | _ => none

def readWord : List Token → Option (Str × List Token)
  | .word w :: ts => some (w, ts)
  | _ => none

def insertInto : List Token := [.word "insert".toList, .word "into".toList]

/-- `ON CONFLICT (time, tag_hash) DO UPDATE SET` -/
def onConflict : List Token :=
  [.word "on".toList, .word "conflict".toList, .sym '(', .word "time".toList, .sym ',',
    .word "tag_hash".toList, .sym ')', .word "do".toList, .word "update".toList,
    .word "set".toList]

def readInsert (ts : List Token) : Option InsertStatement := do
  let ts ← expect insertInto ts
  let (schema, table, ts) ← readQualified ts
  let ts ← expect [.sym '('] ts
  let (cols, ts) := readIdents ts
  let ts ← expect [.sym ')', .word "select".toList] ts
  let (selected, ts) := readIdents ts
  let ts ← expect [.word "from".toList] ts
  let (source, ts) ← readWord ts
  let ts ← expect onConflict ts
  let sets ← (ts.splitOn (.sym ',')).mapM readSet
  some ⟨schema, table, cols, selected, source, sets⟩

/-- The columns that are not of every batch. -/
def dataCols (cols : List Str) : List Str := cols.filter fun c => !fixedCols.contains c

/-- What the statement makes of a row and what is stored under its key. -/
def InsertStatement.merge (i : InsertStatement) (old : Option (Stored (Value F)))
    (r : Row (Value F)) : Stored (Value F) :=
  match old with
  | none => ⟨if i.cols.contains "seq".toList then r.seq else 0,
      fun c => (insertedCell (dataCols i.cols) r c).getD none⟩
  | some old =>
    ⟨if i.sets.contains ("seq".toList, "seq".toList) then r.seq else old.seq, fun c =>
      match (i.sets.filter fun e => !fixedCols.contains e.1).find? fun e => pgIdent e.1 = c with
      | some e => (insertedCell (dataCols i.cols) r (pgIdent e.2)).getD none
      | none => old.cells c⟩

/-- A temp table: the types of its columns, and its rows. -/
structure Staged (F : Type) where
  types : List (Str × PgType)
  rows : List (Row (Value F))

/-- `assign` is the cast that an insert makes when the types of the two columns differ;
it may be refused. -/
def assigned (assign : PgType → PgType → Option (Value F) → Option (Option (Value F)))
    (columns : Dict Str PgType) (types : List (Str × PgType)) (cols : List Str)
    (r : Row (Value F)) : Option (Row (Value F)) :=
  (cols.mapM fun c => (columns.get? (pgIdent c)).bind fun toType =>
    ((types.find? fun e => e.1 = c).bind fun e => assign e.2 toType (r.cells c)).map (c, ·)).map
      fun values => ⟨r.key, r.seq, cellsOf values⟩

/-- The table, its columns and its unique index have to be there. A column that is named
twice is an error, and so is a key that is met twice. -/
def runInsert (assign : PgType → PgType → Option (Value F) → Option (Option (Value F)))
    (tsdbSchema : Str) (catalog : Dict Str (Dict Str PgType)) (unique : Str → Bool)
    (hot : Str → Table (Value F)) (temp : Str → Staged F) (sql : Str) :
    Option (Str → Table (Value F)) :=
  ((lex sql).bind readInsert).bind fun i =>
    let staged := temp (pgIdent i.source)
    if pgIdent i.schema = pgIdent tsdbSchema ∧ i.selected = i.cols ∧ (i.cols.map pgIdent).Nodup ∧
        (i.sets.map fun e => pgIdent e.1).Nodup ∧ (staged.rows.map Row.key).Nodup ∧
        unique (pgIdent i.table) = true then
      (catalog.get? (pgIdent i.table)).bind fun columns =>
        (staged.rows.mapM (assigned assign columns staged.types (dataCols i.cols))).map fun rows =>
          Function.update hot (pgIdent i.table)
            (rows.foldl (fun t r => t.set r.key (i.merge (t.get? r.key) r)) (hot (pgIdent i.table)))
    else none

section Reading

variable {cols : List Str} {rest : Str}

def identTokens (cols : List Str) : List Token :=
  [Token.sym ','].intercalate (cols.map fun c => [.ident c])

theorem lex_colList (cols : List Str) (hrest : rest.head? ≠ some '"') :
    lex (colList cols ++ rest) = (lex rest).map (identTokens cols ++ ·) := by
  have hcomma : scan .plain ", ".toList = (.plain, [.sym ',']) := by decide +kernel
  refine lex_intercalate (by simp) hcomma quoteIdent _ cols rest fun c _ => ?_
  rw [lex, scan_quoteIdent]
  exact ⟨rfl, apart_shut c (by simp), apart_shut c hrest⟩

theorem readIdents_identTokens (hne : cols ≠ []) {ts : List Token}
    (hts : ts.head? ≠ some (.sym ',')) : readIdents (identTokens cols ++ ts) = (cols, ts) := by
  induction cols with
  | nil => contradiction
  | cons c cols ih =>
    cases cols with
    | nil =>
      cases ts with
      | nil => simp [identTokens, readIdents]
      | cons t ts =>
        cases t with
        | sym d =>
          have hd : d ≠ ',' := fun heq => hts (by rw [heq]; rfl)
          simp [identTokens, readIdents, hd]
        | _ => simp [identTokens, readIdents]
    | cons d cols =>
      specialize ih (List.cons_ne_nil _ _)
      simp only [identTokens, List.map_cons, List.intercalate_cons_cons, List.cons_append,
        List.nil_append] at ih ⊢
      rw [readIdents, if_pos rfl, ih]

def setTokens (c : Str) : List Token :=
  [.ident c, .sym '=', .word "excluded".toList, .sym '.', .ident c]

theorem scan_assignment (c : Str) : scan .plain (assignment c) =
    (.shut '"' c, [.ident c, .sym '=', .word "excluded".toList, .sym '.']) := by
  have hequals : scan .plain " = EXCLUDED.".toList =
      (.plain, [.sym '=', .word "excluded".toList, .sym '.']) := by
    decide +kernel
  rw [assignment, scan_append, scan_quoteIdent, scan_apart rfl (apart_shut c (by simp)) (by simp),
    scan_append, hequals, scan_quoteIdent]
  rfl

theorem lex_assignments (cols : List Str) (hrest : rest.head? ≠ some '"') :
    lex (", ".toList.intercalate (cols.map assignment) ++ rest) =
      (lex rest).map ([Token.sym ','].intercalate (cols.map setTokens) ++ ·) := by
  have hcomma : scan .plain ", ".toList = (.plain, [.sym ',']) := by decide +kernel
  refine lex_intercalate (by simp) hcomma assignment setTokens cols rest fun c _ => ?_
  rw [lex, scan_assignment]
  exact ⟨rfl, apart_shut c (by simp), apart_shut c hrest⟩

theorem readSets (hne : cols ≠ []) :
    (([Token.sym ','].intercalate (cols.map setTokens)).splitOn (.sym ',')).mapM readSet =
      some (cols.map fun c => (c, c)) := by
  have hsplit : ([Token.sym ','].intercalate (cols.map setTokens)).splitOn (.sym ',') =
      cols.map setTokens := by
    refine List.splitOn_intercalate _ ?_ (by simpa using hne)
    intro ts hts
    obtain ⟨c, -, rfl⟩ := List.mem_map.mp hts
    simp [setTokens]
  rw [hsplit]
  clear hne hsplit
  induction cols with
  | nil => rfl
  | cons c cols ih =>
    have hread : readSet (setTokens c) = some (c, c) := by simp [setTokens, readSet]
    rw [List.map_cons, List.mapM_cons, hread, ih]
    rfl

/-- The statement is read back. -/
theorem readInsert_insertSql (tsdbSchema table : Str) {tmp : Str} (hcols : updateCols cols ≠ [])
    (htmp : tmp ≠ []) (hword : ∀ c ∈ tmp, isWordChar c = true) (hlower : ∀ c ∈ tmp, c.toLower = c) :
    (lex (insertSql tsdbSchema table cols tmp)).bind readInsert =
      some ⟨tsdbSchema, table, cols, cols, tmp, (updateCols cols).map fun c => (c, c)⟩ := by
  have hinsert : scan .plain "\n                INSERT INTO ".toList = (.plain, insertInto) := by
    decide +kernel
  have hparen : scan .plain " (".toList = (.plain, [.sym '(']) := by decide +kernel
  have hselect : scan .plain ")\n                SELECT ".toList =
      (.plain, [.sym ')', .word "select".toList]) := by
    decide +kernel
  have hfrom : scan .plain " FROM ".toList = (.plain, [.word "from".toList]) := by decide +kernel
  have hconflict : scan .plain
      "\n                ON CONFLICT (time, tag_hash) DO UPDATE SET ".toList =
        (.plain, onConflict) := by
    decide +kernel
  have hend : lex "\n                ".toList = some [] := by decide +kernel
  have hset : setClause cols = ", ".toList.intercalate ((updateCols cols).map assignment) := by
    unfold setClause
    refine if_neg fun hclause => ?_
    obtain ⟨c, rest, hrest⟩ := List.exists_cons_of_ne_nil hcols
    rw [hrest, List.map_cons] at hclause
    cases rest <;> simp [assignment, quoteIdent] at hclause
  have hne : cols ≠ [] := by
    rintro rfl
    exact hcols rfl
  have hlow : tmp.map Char.toLower = tmp := (List.map_congr_left hlower).trans (List.map_id _)
  unfold insertSql
  rw [lex_append_plain hinsert, lex_qualified _ _ (by simp), lex_append_plain hparen,
    lex_colList _ (by simp), lex_append_plain hselect, lex_colList _ (by simp),
    lex_append_plain hfrom, lex_word htmp hword (by simp [isWordChar]), hlow,
    lex_append_plain hconflict, hset, lex_assignments _ (by simp), hend]
  simp only [Option.map_some, Option.bind_some, readInsert, expect_append, Option.bind_eq_bind,
    readQualified_append]
  rw [readIdents_identTokens hne (by simp)]
  simp only [Option.bind_some, expect_append]
  rw [readIdents_identTokens hne (by simp)]
  simp only [Option.bind_some, expect_append, readWord]
  rw [List.append_nil, readSets hcols]
  rfl

end Reading

section Running

variable {b : Batch F}

/-- The columns of the batch, in the database, are not those of every batch. -/
def OwnCols (b : Batch F) : Prop := ∀ c ∈ b.cols, pgIdent c ∉ fixedCols

theorem pgIdent_of_mem_fixedCols : ∀ c ∈ fixedCols, pgIdent c = c := by decide

theorem OwnCols.notMem (h : OwnCols b) : ∀ c ∈ b.cols, c ∉ fixedCols := by
  intro c hc hfixed
  rw [← pgIdent_of_mem_fixedCols c hfixed] at hfixed
  exact h c hc hfixed

theorem OwnCols.not_contains (h : OwnCols b) : ∀ c ∈ b.cols, (!fixedCols.contains c) = true := by
  intro c hc
  simpa using h.notMem c hc

theorem OwnCols.dataCols (h : OwnCols b) : dataCols (fixedCols ++ b.cols) = b.cols := by
  have hfixed : fixedCols.filter (fun c => !fixedCols.contains c) = [] := by decide
  rw [InsertText.dataCols, List.filter_append, hfixed, List.nil_append, List.filter_eq_self]
  exact h.not_contains

theorem OwnCols.updateCols (h : OwnCols b) :
    updateCols (fixedCols ++ b.cols) = "seq".toList :: b.cols := by
  have hfixed : InsertText.updateCols fixedCols = ["seq".toList] := by decide
  have hsub : ∀ c ∈ ["time".toList, "tag_hash".toList], c ∈ fixedCols := by decide
  have hown : InsertText.updateCols b.cols = b.cols := by
    rw [InsertText.updateCols, List.filter_eq_self]
    intro c hc
    rw [Bool.not_eq_true', List.contains_eq_mem, decide_eq_false_iff_not]
    exact fun hmem => h.notMem c hc (hsub c hmem)
  rw [InsertText.updateCols, List.filter_append, ← InsertText.updateCols,
    ← InsertText.updateCols, hfixed, hown]
  rfl

theorem nodup_cons_fixed (h : OwnCols b) (cs : List Str) (hcs : ∀ c ∈ cs, c ∈ fixedCols)
    (hnodup : cs.Nodup) :
    ((cs ++ b.cols).map pgIdent).Nodup ↔ (b.cols.map pgIdent).Nodup := by
  have hsame : cs.map pgIdent = cs := by
    conv_rhs => rw [← List.map_id cs]
    exact List.map_congr_left fun c hc => pgIdent_of_mem_fixedCols c (hcs c hc)
  rw [List.map_append, hsame, List.nodup_append]
  refine ⟨fun h => h.2.1, fun h' => ⟨hnodup, h', ?_⟩⟩
  intro c hc d hd heq
  obtain ⟨e, he, rfl⟩ := List.mem_map.mp hd
  exact h e he (heq ▸ hcs c hc)

/-- A row of the batch is upserted. -/
theorem merge_eq (h : OwnCols b) (i : InsertStatement) (hcols : i.cols = fixedCols ++ b.cols)
    (hsets : i.sets = (InsertText.updateCols i.cols).map fun c => (c, c))
    (old : Option (Stored (Value F))) (r : Row (Value F)) :
    i.merge old r = Batches.upserted b.cols old r := by
  have hseq : "seq".toList ∈ fixedCols := by decide
  have hdata : (i.sets.filter fun e => !fixedCols.contains e.1) = b.cols.map fun c => (c, c) := by
    have hown : b.cols.filter ((fun e : Str × Str => !fixedCols.contains e.1) ∘ fun c => (c, c)) =
        b.cols := by
      rw [List.filter_eq_self]
      exact h.not_contains
    rw [hsets, hcols, h.updateCols, List.map_cons, List.filter_cons, if_neg (by simpa using hseq),
      List.filter_map, hown]
  cases old with
  | none =>
    have hmem : (fixedCols ++ b.cols).contains "seq".toList = true :=
      List.contains_iff_mem.mpr (List.mem_append_left _ hseq)
    simp only [InsertStatement.merge, hcols, if_pos hmem, h.dataCols, Batches.upserted,
      Option.bind_none]
  | some old =>
    have hmem : i.sets.contains ("seq".toList, "seq".toList) = true := by
      rw [hsets, hcols, h.updateCols]
      exact List.contains_iff_mem.mpr List.mem_cons_self
    simp only [InsertStatement.merge, if_pos hmem, hdata, hcols, h.dataCols, Batches.upserted,
      Option.bind_some, List.find?_map, Function.comp_def]
    refine congrArg _ (funext fun c => ?_)
    cases hfind : b.cols.find? fun col => pgIdent col = c with
    | none => simp [insertedCell, hfind]
    | some col =>
      have hcol : pgIdent col = c := by simpa using List.find?_some hfind
      simp [insertedCell, hcol, hfind]

theorem isWordChar_stageTable {table : Str} (h : SafeName table) :
    ∀ c ∈ stageTable table, isWordChar c = true ∧ c.toLower = c := by
  have hstage : "_lp_stage_".toList.all (fun c => isWordChar c && c.toLower == c) = true := by
    decide
  intro c hc
  rcases List.mem_append.mp hc with hc | hc
  · simpa using List.all_eq_true.mp hstage c hc
  · exact (isWord_and_toLower_iff c).mpr (h.chars c hc)

/-- The hypertable has the columns of a batch, of the types of its temp table. -/
def Fits (catalog : Dict Str (Dict Str PgType)) (schema : TableSchema) (b : Batch F) : Prop :=
  ∃ columns, catalog.get? b.table = some columns ∧
    ∀ c ∈ b.cols, columns.get? (pgIdent c) = some (colTypeFor c schema)

/-- The hypertable has the columns of a batch. -/
def Present (catalog : Dict Str (Dict Str PgType)) (b : Batch F) : Prop :=
  ∃ columns, catalog.get? b.table = some columns ∧
    ∀ c ∈ b.cols, ∃ ty, columns.get? (pgIdent c) = some ty

variable {assign : PgType → PgType → Option (Value F) → Option (Option (Value F))}

theorem find?_map_pair {α : Type} {cols : List Str} (f : Str → α) {c : Str} (hc : c ∈ cols) :
    (cols.map fun c => (c, f c)).find? (fun e => e.1 = c) = some (c, f c) := by
  induction cols with
  | nil => contradiction
  | cons d cols ih =>
    rw [List.map_cons, List.find?_cons]
    by_cases hd : d = c
    · simp [hd]
    · simp only [hd, decide_false]
      exact ih ((List.mem_cons.mp hc).resolve_left fun h => hd h.symm)

theorem find?_declaredTypes (schema : TableSchema) {c : Str} (hc : c ∈ b.cols) :
    (declaredTypes schema b.cols).find? (fun e => e.1 = c) = some (c, colTypeFor c schema) :=
  find?_map_pair (fun c => colTypeFor c schema) (List.mem_append_right _ hc)

theorem cellsOf_map (cols : List Str) (f : Str → Option (Value F)) {c : Str} (hc : c ∈ cols) :
    cellsOf (cols.map fun c => (c, f c)) c = f c := by
  rw [cellsOf, find?_map_pair f hc]
  rfl

/-- Between columns of one type values are assigned as they are. -/
theorem assigned_eq (hassign : ∀ ty v, assign ty ty v = some v) {columns : Dict Str PgType}
    {schema : TableSchema}
    (hcolumns : ∀ c ∈ b.cols, columns.get? (pgIdent c) = some (colTypeFor c schema))
    (r : Row (Value F)) : assigned assign columns (declaredTypes schema b.cols) b.cols r =
      some ⟨r.key, r.seq, cellsOf (b.cols.map fun c => (c, r.cells c))⟩ := by
  have hvalues : (b.cols.mapM fun c => (columns.get? (pgIdent c)).bind fun toType =>
      (((declaredTypes schema b.cols).find? fun e => e.1 = c).bind fun e =>
        assign e.2 toType (r.cells c)).map (c, ·)) = some (b.cols.map fun c => (c, r.cells c)) := by
    refine mapM_eq_some_map fun c hc => ?_
    rw [hcolumns c hc, find?_declaredTypes schema hc, Option.bind_some, Option.bind_some, hassign]
    rfl
  rw [assigned, hvalues]
  rfl

theorem assigned_eq_none {columns : Dict Str PgType} {types : List (Str × PgType)} {c : Str}
    (hc : c ∈ b.cols) (hnone : columns.get? (pgIdent c) = none) (r : Row (Value F)) :
    assigned assign columns types b.cols r = none := by
  rw [assigned, Option.map_eq_none_iff, Option.eq_none_iff_forall_ne_some]
  intro values hvalues
  obtain ⟨v, hv⟩ := exists_mapM_iff.mp ⟨values, hvalues⟩ c hc
  rw [hnone] at hv
  contradiction

/-- A row that agrees on the columns of a batch is upserted alike. -/
theorem upserted_congr {cols : List Str} (old : Option (Stored (Value F))) {r r' : Row (Value F)}
    (hseq : r'.seq = r.seq) (hcells : ∀ c ∈ cols, r'.cells c = r.cells c) :
    Batches.upserted cols old r' = Batches.upserted cols old r := by
  have hinserted : ∀ c, insertedCell cols r' c = insertedCell cols r c := by
    intro c
    rw [insertedCell, insertedCell]
    cases hfind : cols.find? fun col => pgIdent col = c with
    | none => rfl
    | some col => exact congrArg some (hcells col (List.mem_of_find?_eq_some hfind))
  simp only [Batches.upserted, hinserted, hseq]

theorem runInsert_eq (tsdbSchema : Str) (catalog : Dict Str (Dict Str PgType)) (unique : Str → Bool)
    (hot : Str → Table (Value F)) (temp : Str → Staged F) (h : OwnCols b)
    (htable : SafeName b.table)
    (hkeys : ((temp (pgIdent (stageTable b.table))).rows.map Row.key).Nodup) :
    runInsert assign tsdbSchema catalog unique hot temp
        (insertSql tsdbSchema b.table (fixedCols ++ b.cols) (stageTable b.table)) =
      if (b.cols.map pgIdent).Nodup ∧ unique b.table = true then
        (catalog.get? b.table).bind fun columns =>
          ((temp (pgIdent (stageTable b.table))).rows.mapM (assigned assign columns
            (temp (pgIdent (stageTable b.table))).types b.cols)).map fun rows =>
              Function.update hot b.table (rows.foldl (fun t r =>
                t.set r.key (Batches.upserted b.cols (t.get? r.key) r)) (hot b.table))
      else none := by
  have hne : InsertText.updateCols (fixedCols ++ b.cols) ≠ [] := by
    rw [h.updateCols]
    exact List.cons_ne_nil _ _
  have hword := isWordChar_stageTable htable
  have hstage : stageTable b.table ≠ [] := by
    change "_lp_stage_".toList ++ b.table ≠ []
    simp
  have hread := readInsert_insertSql tsdbSchema b.table hne hstage (fun c hc => (hword c hc).1)
    fun c hc => (hword c hc).2
  have hstored : pgIdent b.table = b.table := htable.unescaped.stored
  have hnodup := nodup_cons_fixed h fixedCols (fun c hc => hc) (by decide)
  have hsets : ((InsertText.updateCols (fixedCols ++ b.cols)).map fun c => (c, c)).map
      (fun e => pgIdent e.1) = (["seq".toList] ++ b.cols).map pgIdent := by
    rw [h.updateCols, List.map_map]
    rfl
  have hnodup' := nodup_cons_fixed h ["seq".toList] (by decide) (by decide)
  have hmerge : ∀ old r, InsertStatement.merge (F := F) ⟨tsdbSchema, b.table, fixedCols ++ b.cols,
      fixedCols ++ b.cols, stageTable b.table,
      (InsertText.updateCols (fixedCols ++ b.cols)).map fun c => (c, c)⟩ old r =
        Batches.upserted b.cols old r := merge_eq h _ rfl rfl
  rw [runInsert, hread, Option.bind_some]
  simp only [hstored, hsets, hnodup, hnodup', hkeys, h.dataCols, hmerge, true_and]
  by_cases hcols : (b.cols.map pgIdent).Nodup <;> simp [hcols]

/-- The statement of a batch, carried out on its temp table, is its commit. -/
theorem runInsert_insertSql (hassign : ∀ ty v, assign ty ty v = some v) (tsdbSchema : Str)
    {catalog : Dict Str (Dict Str PgType)} {unique : Str → Bool} (hot : Str → Table (Value F))
    {temp : Str → Staged F} (h : OwnCols b) (htable : SafeName b.table) {schema : TableSchema}
    (htemp : temp (pgIdent (stageTable b.table)) = ⟨declaredTypes schema b.cols, b.records⟩)
    (hkeys : (b.records.map Row.key).Nodup) (hfits : Fits catalog schema b)
    (hunique : unique b.table = true) :
    runInsert assign tsdbSchema catalog unique hot temp
        (insertSql tsdbSchema b.table (fixedCols ++ b.cols) (stageTable b.table)) =
      (commit b (hot b.table)).map (Function.update hot b.table) := by
  obtain ⟨columns, hcatalog, hcolumns⟩ := hfits
  have hrows : b.records.mapM (assigned assign columns (declaredTypes schema b.cols) b.cols) =
      some (b.records.map fun r =>
        ⟨r.key, r.seq, cellsOf (b.cols.map fun c => (c, r.cells c))⟩) :=
    mapM_eq_some_map fun r _ => assigned_eq hassign hcolumns r
  rw [runInsert_eq tsdbSchema catalog unique hot temp h htable (by rwa [htemp]), htemp, hcatalog,
    Option.bind_some, hrows, commit]
  by_cases hcols : (b.cols.map pgIdent).Nodup
  · have hsame : ∀ (old : Option (Stored (Value F))) (r : Row (Value F)), Batches.upserted b.cols old
        ⟨r.key, r.seq, cellsOf (b.cols.map fun c => (c, r.cells c))⟩ =
          Batches.upserted b.cols old r :=
      fun old r => upserted_congr old rfl fun c hc => cellsOf_map b.cols r.cells hc
    rw [if_pos ⟨hcols, hunique⟩, if_pos hcols, Option.map_some, Option.map_some, List.foldl_map]
    simp only [hsame]
    rfl
  · rw [if_neg fun hboth => hcols hboth.1, if_neg hcols, Option.map_none]

/-- A column or the index that is not there is an error. -/
theorem runInsert_eq_none (tsdbSchema : Str) {catalog : Dict Str (Dict Str PgType)}
    {unique : Str → Bool} (hot : Str → Table (Value F)) {temp : Str → Staged F} (h : OwnCols b)
    (htable : SafeName b.table) (htemp : (temp (pgIdent (stageTable b.table))).rows = b.records)
    (hkeys : (b.records.map Row.key).Nodup) (hne : b.records ≠ [])
    (hmissing : ¬Present catalog b ∨ unique b.table = false) :
    runInsert assign tsdbSchema catalog unique hot temp
      (insertSql tsdbSchema b.table (fixedCols ++ b.cols) (stageTable b.table)) = none := by
  rw [runInsert_eq tsdbSchema catalog unique hot temp h htable (by rwa [htemp]), htemp]
  split
  · rename_i hboth
    have hpresent := hmissing.resolve_right (by simp [hboth.2])
    cases hcatalog : catalog.get? b.table with
    | none => rfl
    | some columns =>
      have hcolumn : ∃ c ∈ b.cols, columns.get? (pgIdent c) = none := by
        by_contra hall
        push Not at hall
        exact hpresent ⟨columns, hcatalog, fun c hc => Option.ne_none_iff_exists'.mp (hall c hc)⟩
      obtain ⟨c, hc, hnone⟩ := hcolumn
      obtain ⟨r, rest, hrecords⟩ := List.exists_cons_of_ne_nil hne
      rw [Option.bind_some, hrecords, List.mapM_cons, assigned_eq_none hc hnone]
      rfl
  · rfl

/-- Columns of batches are those of tags and fields. -/
theorem ownCols_of_built [Numerics F] {digest : Str → ℕ} {m : Str} {schema : TableSchema}
    {points : List (Point F)} {sources : List (Str × Source)}
    (hb : Built digest schema points b sources) (hschema : Canonical m schema) : OwnCols b := by
  have hsecond : ∀ c ∈ fixedCols, (c.drop 1).head? ≠ some '_' := by decide
  intro c hc hfixed
  rw [hb.cols] at hc
  obtain ⟨e, he, rfl⟩ := List.mem_map.mp hc
  rcases hb.source digest hschema he with ⟨t, -, rfl⟩ | ⟨f, -, ty, rfl⟩
  · exact hsecond _ hfixed rfl
  · exact hsecond _ hfixed rfl

end Running

section Runs

variable [Numerics F] (digest : Str → ℕ) (tsdbSchema : Str)

/-- The data transaction of a call is the statement that it sends, whatever else there is
in temp tables, if the hypertable has the columns and the index that it relies on; it
fails if a column or the index is missing. -/
def CommitsAsSent (assign : PgType → PgType → Option (Value F) → Option (Option (Value F)))
    (s : Service F) : Prop :=
  ∀ measurement points s' b schema (unique : Str → Bool) (temp : Str → Staged F), points ≠ [] →
    prepare digest s measurement points = (s', .ok b) →
    s'.cache.get? measurement = some schema →
    temp (pgIdent (stageTable b.table)) = ⟨declaredTypes schema b.cols, b.records⟩ →
    (Fits s'.catalog schema b ∧ unique b.table = true →
      runInsert assign tsdbSchema s'.catalog unique s'.hot temp
          (insertSql tsdbSchema b.table (fixedCols ++ b.cols) (stageTable b.table)) =
        (commit b (s'.hot b.table)).map (Function.update s'.hot b.table)) ∧
    (¬Present s'.catalog b ∨ unique b.table = false →
      runInsert assign tsdbSchema s'.catalog unique s'.hot temp
        (insertSql tsdbSchema b.table (fixedCols ++ b.cols) (stageTable b.table)) = none)

variable {assign : PgType → PgType → Option (Value F) → Option (Option (Value F))}
  (hassign : ∀ ty v, assign ty ty v = some v)

include hassign

theorem commitsAsSent {s : Service F} (hs : Named s) : CommitsAsSent digest tsdbSchema assign s := by
  intro measurement points s' b schema unique temp hpoints hprepare hcached htemp
  obtain ⟨schema', sources, hprepared⟩ := Writes.exists_prepared digest hs hpoints hprepare
  have htable : SafeName b.table := hprepared.table ▸ safeName_safeIdent measurement
  have hown := ownCols_of_built hprepared.built hprepared.canonical
  have hkeys := hprepared.drawn.keys
  obtain ⟨p, hp⟩ := List.exists_mem_of_ne_nil _ hpoints
  obtain ⟨r, hr, -⟩ := hprepared.built.keys p hp
  refine ⟨fun ⟨hfits, hunique⟩ => ?_, fun hmissing => ?_⟩
  · exact runInsert_insertSql hassign tsdbSchema s'.hot hown htable htemp hkeys hfits hunique
  · exact runInsert_eq_none tsdbSchema s'.hot hown htable (by rw [htemp]) hkeys
      (List.ne_nil_of_mem hr) hmissing

/-- In every run, whatever was written and under whichever names. -/
theorem always_commitsAsSent (clock : ℕ) (events : List (Retries.Event F)) :
    Runs.Always (Retries.step digest) (fun h => CommitsAsSent digest tsdbSchema assign h.service)
      (Sequence.start clock) events :=
  Runs.always_of_invariant (I := fun h : History F => Named h.service)
    (fun _ _ _ hs hstep => Retries.kept_step namedCall hs hstep)
    (fun _ hs => commitsAsSent digest tsdbSchema hassign hs) (Writes.named_start clock)

end Runs

section Examples

def pointAt (v : Value ℤ) (time : ℤ) : Point ℤ :=
  ⟨"cpu".toList, Dict.empty, Dict.single "a".toList v, time⟩

/-- Values are assigned between columns of one type only. -/
def sameType (fromType toType : PgType) (v : Option (Value ℤ)) : Option (Option (Value ℤ)) :=
  if fromType = toType then some v else none

/-- After a restart a stored row is written again, along with a new one. -/
def rewritten : List (Retries.Event ℤ) :=
  [.call (.write true (fun _ => none) [pointAt (.int 1) 0]), .restart 9,
    .call (.write true (fun _ => none) [pointAt (.int 2) 0, pointAt (.int 3) 1])]

theorem rewritten_commitsAsSent :
    (Runs.exec (Retries.step fun _ => 0) (Sequence.start 1) rewritten).any (fun h =>
      ((h.service.hot "cpu".toList).get? ⟨0, 0⟩).any fun r =>
        r.seq = 9 ∧ r.cells (colOfField "a".toList) = some (.int 2)) = true ∧
    Runs.Always (Retries.step fun _ => 0)
      (fun h => CommitsAsSent (fun _ => 0) "lp".toList sameType h.service) (Sequence.start 1)
      rewritten :=
  ⟨by decide +kernel,
    always_commitsAsSent (fun _ => 0) "lp".toList (fun _ _ => if_pos rfl) 1 rewritten⟩

end Examples

end TimescaleLp.InsertText
