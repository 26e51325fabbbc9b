import TimescaleLp.Calendar
import TimescaleLp.Conversions
import TimescaleLp.Statements

/-!
The SQL of the query engine. Views, merges and exports are texts with the names of
objects and the bounds of chunks in them. They are read back token by token, and what
is read is carried out on the stores, where the database leaves open which row of a
version is numbered first, in which order rows come and how the cells of relations that
are read together are converted.
-/
namespace TimescaleLp.EngineText

open Names ColdStore Queries Calendar Lexing Statements SqlText SafeNames Ranking Conversions

variable {F : Type}

section Builders

/-- `ColdStore.uri` below the root of the store, with its scheme. -/
def uri (root key : Str) : Str := root ++ ('/' :: key)

/-- A text between quotes, which are not doubled. -/
def literal (s : Str) : Str := '\'' :: s ++ ['\'']

def readParquetRef (uris : List Str) : Str :=
  "read_parquet([".toList ++ (", ".toList.intercalate (uris.map literal) ++
    "], union_by_name=true)".toList)

/-- `_hot_ref` -/
def hotRef (tsdbSchema table : Str) : Str := "pg.".toList ++ qualified tsdbSchema table

def selectAll (ref : Str) : Str := "SELECT * FROM ".toList ++ ref

def buildFederatedViewSql (viewSchema table : Str) (refs : List Str) : Str :=
  "CREATE OR REPLACE VIEW ".toList ++ (qualified viewSchema table ++
    if refs = [] then " AS SELECT WHERE false".toList
    else " AS\nSELECT * EXCLUDE (seq, _rn) FROM (\n".toList ++
      ("  SELECT *, row_number() OVER (PARTITION BY time, tag_hash ORDER BY seq DESC) AS _rn\n".toList ++
        ("  FROM (\n".toList ++ ("\nUNION ALL BY NAME\n".toList.intercalate (refs.map selectAll) ++
          "\n  )\n) WHERE _rn = 1".toList))))

def compactSql (coldRowGroupSize : ℕ) (inputUris : List Str) (outputUri : Str) : Str :=
  "COPY (SELECT * EXCLUDE (_rn) FROM (".toList ++
    ("  SELECT *, row_number() OVER (PARTITION BY time, tag_hash ORDER BY seq DESC) AS _rn FROM ".toList ++
      (readParquetRef inputUris ++ (") WHERE _rn = 1) TO ".toList ++ (literal outputUri ++
        (" (FORMAT parquet, COMPRESSION zstd, ROW_GROUP_SIZE ".toList ++
          (Nat.toDigits 10 coldRowGroupSize ++ ", OVERWRITE_OR_IGNORE true)".toList))))))

/-- The text of `export_hot_range` -/
def exportSql (hotRef outputUri : Str) (start stop : Time) : Str :=
  "COPY (SELECT * FROM ".toList ++ (hotRef ++ (" WHERE time >= TIMESTAMPTZ ".toList ++
    (literal (isoformat start) ++ (" AND time < TIMESTAMPTZ ".toList ++
      (literal (isoformat stop) ++ (") TO ".toList ++ (literal outputUri ++
        " (FORMAT parquet, COMPRESSION zstd, OVERWRITE_OR_IGNORE true)".toList)))))))

/-- A relation in a view. -/
def refText (root tsdbSchema : Str) : Ref → Str
  | .hot table => hotRef tsdbSchema table
  | .parquet keys => readParquetRef (keys.map (uri root))

end Builders

section Readers

/-- A table of the attached database, or objects. -/
inductive Relation
  | postgres (schema table : Str)
  | parquet (uris : List Str)

inductive Selection
  | newest (source : Relation)
  | range (source : Relation) (since before : Str)

structure ViewStatement where
  schema : Str
  view : Str
  sources : List Relation

structure CopyStatement where
  selection : Selection
  path : Str
  options : List Token

def readUris : List Token → Option (List Str × List Token)
  | .text u :: .sym c :: ts =>
    if c = ']' then some ([u], ts)
    else if c = ',' then (readUris ts).map fun (us, ts) => (u :: us, ts)
    else none
  | _ => none

def pgTokens : List Token := [.word "pg".toList, .sym '.']

def readParquetTokens : List Token := [.word "read_parquet".toList, .sym '(', .sym '[']

def byNameTokens : List Token :=
  [.sym ',', .word "union_by_name".toList, .sym '=', .word "true".toList, .sym ')']

def readRelation (ts : List Token) : Option (Relation × List Token) :=
  match expect pgTokens ts with
  | some ts => (readQualified ts).map fun (schema, table, ts) => (.postgres schema table, ts)
  | none => do
    let ts ← expect readParquetTokens ts
    let (uris, ts) ← readUris ts
    let ts ← expect byNameTokens ts
    some (.parquet uris, ts)

def selectTokens : List Token := [.word "select".toList, .sym '*', .word "from".toList]

def unionTokens : List Token :=
  [.word "union".toList, .word "all".toList, .word "by".toList, .word "name".toList]

/-- Relations as long as there is a union. -/
def readUnion : ℕ → List Token → Option (List Relation × List Token)
  | 0, _ => none
  | n + 1, ts => do
    let ts ← expect selectTokens ts
    let (r, ts) ← readRelation ts
    match expect unionTokens ts with
    | none => some ([r], ts)
    | some ts => (readUnion n ts).map fun (rs, ts) => (r :: rs, ts)

/-- The newest row of each key first. -/
def rankTokens : List Token :=
  [.word "select".toList, .sym '*', .sym ',', .word "row_number".toList, .sym '(', .sym ')',
    .word "over".toList, .sym '(', .word "partition".toList, .word "by".toList,
    .word "time".toList, .sym ',', .word "tag_hash".toList, .word "order".toList, .word "by".toList,
    .word "seq".toList, .word "desc".toList, .sym ')', .word "as".toList, .word "_rn".toList]

def firstTokens : List Token :=
  [.sym ')', .word "where".toList, .word "_rn".toList, .sym '=', .word "1".toList]

def createViewTokens : List Token :=
  [.word "create".toList, .word "or".toList, .word "replace".toList, .word "view".toList]

def viewFrameTokens : List Token :=
  [.word "as".toList, .word "select".toList, .sym '*', .word "exclude".toList, .sym '(',
    .word "seq".toList, .sym ',', .word "_rn".toList, .sym ')', .word "from".toList, .sym '(']

/-- A view without relations is refused, since it selects no column. -/
def readView (ts : List Token) : Option ViewStatement := do
  let ts ← expect createViewTokens ts
  let (schema, view, ts) ← readQualified ts
  let ts ← expect viewFrameTokens ts
  let ts ← expect rankTokens ts
  let ts ← expect [.word "from".toList, .sym '('] ts
  let (sources, ts) ← readUnion ts.length ts
  let ts ← expect [.sym ')'] ts
  let ts ← expect firstTokens ts
  if ts = [] then some ⟨schema, view, sources⟩ else none

def mergeFrameTokens : List Token :=
  [.word "select".toList, .sym '*', .word "exclude".toList, .sym '(', .word "_rn".toList, .sym ')',
    .word "from".toList, .sym '(']

def readText : List Token → Option (Str × List Token)
  | .text s :: ts => some (s, ts)
  | _ => none

def readRange (source : Relation) (ts : List Token) : Option (Selection × List Token) := do
  let ts ← expect [.word "where".toList, .word "time".toList, .sym '>', .sym '=',
    .word "timestamptz".toList] ts
  let (since, ts) ← readText ts
  let ts ← expect [.word "and".toList, .word "time".toList, .sym '<', .word "timestamptz".toList] ts
  let (before, ts) ← readText ts
  some (.range source since before, ts)

def readSelection (ts : List Token) : Option (Selection × List Token) :=
  match expect mergeFrameTokens ts with
  | some ts => do
    let ts ← expect rankTokens ts
    let ts ← expect [.word "from".toList] ts
    let (source, ts) ← readRelation ts
    let ts ← expect firstTokens ts
    some (.newest source, ts)
  | none => do
    let ts ← expect selectTokens ts
    let (source, ts) ← readRelation ts
    readRange source ts

def readCopy (ts : List Token) : Option CopyStatement := do
  let ts ← expect [.word "copy".toList, .sym '('] ts
  let (selection, ts) ← readSelection ts
  let ts ← expect [.sym ')', .word "to".toList] ts
  let (path, ts) ← readText ts
  let options ← expect [.sym '('] ts
  some ⟨selection, path, options⟩

end Readers

section Relations

variable {rest : Str}

theorem lex_literal {s : Str} (hs : '\'' ∉ s) (hrest : rest.head? ≠ some '\'') :
    lex (literal s ++ rest) = (lex rest).map (.text s :: ·) := by
  have hlex := lex_quoted (show isQuote '\'' = true from rfl) s hrest
  rwa [double_eq_self hs] at hlex

def Relation.text : Relation → Str
  | .postgres schema table => hotRef schema table
  | .parquet uris => readParquetRef uris

def Relation.tokens : Relation → List Token
  | .postgres schema table => pgTokens ++ [.ident schema, .sym '.', .ident table]
  | .parquet uris => readParquetTokens ++
      ([Token.sym ','].intercalate (uris.map fun u => [.text u]) ++ (.sym ']' :: byNameTokens))

/-- Objects, at least one, without quotes in their names. -/
def Relation.Plain : Relation → Prop
  | .postgres _ _ => True
  | .parquet uris => uris ≠ [] ∧ ∀ u ∈ uris, '\'' ∉ u

theorem lex_relation {r : Relation} (h : r.Plain) (hrest : rest.head? ≠ some '"') :
    lex (r.text ++ rest) = (lex rest).map (r.tokens ++ ·) := by
  cases r with
  | postgres schema table =>
    have hpg : scan .plain "pg.".toList = (.plain, pgTokens) := by decide +kernel
    change lex ("pg.".toList ++ qualified schema table ++ rest) = _
    rw [List.append_assoc, lex_append_plain hpg, lex_qualified _ _ hrest, Option.map_map]
    rfl
  | parquet uris =>
    have hopen : scan .plain "read_parquet([".toList = (.plain, readParquetTokens) := by
      decide +kernel
    have hcomma : scan .plain ", ".toList = (.plain, [.sym ',']) := by decide +kernel
    have hshut : scan .plain "], union_by_name=true)".toList = (.plain, .sym ']' :: byNameTokens) := by
      decide +kernel
    have huris := lex_intercalate_of_append hcomma literal (fun u => [.text u]) uris
      ("], union_by_name=true)".toList ++ rest) fun u hu =>
        ⟨fun t => lex_literal (h.2 u hu) (by simp), lex_literal (h.2 u hu) (by simp)⟩
    change lex ("read_parquet([".toList ++ (", ".toList.intercalate (uris.map literal) ++
      "], union_by_name=true)".toList) ++ rest) = _
    rw [List.append_assoc, List.append_assoc, lex_append_plain hopen, huris,
      lex_append_plain hshut, Option.map_map, Option.map_map, Relation.tokens]
    simp only [Function.comp_def, List.append_assoc]

theorem readUris_tokens {uris : List Str} (hne : uris ≠ []) (ts : List Token) :
    readUris ([Token.sym ','].intercalate (uris.map fun u => [.text u]) ++ (.sym ']' :: ts)) =
      some (uris, ts) := by
  induction uris with
  | nil => contradiction
  | cons u us ih =>
    cases us with
    | nil => rfl
    | cons u' us =>
      specialize ih (List.cons_ne_nil u' us)
      simp only [List.map_cons, List.intercalate_cons_cons, List.cons_append, List.nil_append] at ih ⊢
      rw [readUris, if_neg (by decide), if_pos rfl, ih]
      rfl

theorem readRelation_tokens {r : Relation} (h : r.Plain) (ts : List Token) :
    readRelation (r.tokens ++ ts) = some (r, ts) := by
  cases r with
  | postgres schema table =>
    rw [Relation.tokens, List.append_assoc, readRelation, expect_append]
    rfl
  | parquet uris =>
    have hno : expect pgTokens ((Relation.parquet uris).tokens ++ ts) = none := by
      have hne : Token.word "pg".toList ≠ .word "read_parquet".toList := by decide +kernel
      rw [expect, if_neg]
      exact fun hprefix => hne (List.cons_prefix_cons.mp hprefix).1
    have huris := readUris_tokens h.1 (byNameTokens ++ ts)
    rw [readRelation, hno, Relation.tokens, List.append_assoc, List.append_assoc]
    simp only [List.cons_append, expect_append, bind, Option.bind_some, huris]

end Relations

section Statements

variable {r : Relation} {rs : List Relation}

theorem readUnion_tokens (hne : rs ≠ []) (hplain : ∀ r ∈ rs, r.Plain) {n : ℕ}
    (hn : rs.length ≤ n) (ts : List Token) :
    readUnion n (unionTokens.intercalate (rs.map fun r => selectTokens ++ r.tokens) ++
      (.sym ')' :: ts)) = some (rs, .sym ')' :: ts) := by
  induction rs generalizing n with
  | nil => contradiction
  | cons r rs ih =>
    obtain ⟨n, rfl⟩ : ∃ n', n = n' + 1 := ⟨n - 1, by simp at hn; omega⟩
    have hr := hplain r List.mem_cons_self
    cases rs with
    | nil =>
      have hno : expect unionTokens (.sym ')' :: ts) = none := by
        rw [expect, if_neg]
        intro h
        exact Token.noConfusion (List.cons_prefix_cons.mp h).1
      rw [List.map_singleton, List.intercalate_singleton, List.append_assoc, readUnion, expect_append]
      simp only [bind, Option.bind_some, readRelation_tokens hr, hno]
    | cons r' rs =>
      specialize ih (List.cons_ne_nil r' rs) (fun r hr => hplain r (List.mem_cons_of_mem _ hr))
        (Nat.le_of_succ_le_succ hn)
      simp only [List.map_cons, List.intercalate_cons_cons, List.append_assoc] at ih ⊢
      rw [readUnion, expect_append]
      simp only [bind, Option.bind_some, readRelation_tokens hr, expect_append, ih]
      rfl

/-- There are tokens enough for each relation. -/
theorem length_le_union (rs : List Relation) (ts : List Token) : rs.length ≤
    (unionTokens.intercalate (rs.map fun r => selectTokens ++ r.tokens) ++ ts).length := by
  have hselect : selectTokens.length = 3 := rfl
  induction rs with
  | nil => exact Nat.zero_le _
  | cons r rs ih =>
    cases rs with
    | nil =>
      simp only [List.map_singleton, List.intercalate_singleton, List.length_append, hselect,
        List.length_singleton]
      omega
    | cons r' rs =>
      simp only [List.map_cons, List.intercalate_cons_cons, List.length_append, List.length_cons,
        hselect] at ih ⊢
      omega

/-- The relations of a view are read back. -/
theorem readView_buildFederatedViewSql (viewSchema table : Str) (hne : rs ≠ [])
    (hplain : ∀ r ∈ rs, r.Plain) :
    (lex (buildFederatedViewSql viewSchema table (rs.map Relation.text))).bind readView =
      some ⟨viewSchema, table, rs⟩ := by
  have hcreate : scan .plain "CREATE OR REPLACE VIEW ".toList = (.plain, createViewTokens) := by
    decide +kernel
  have hframe : scan .plain " AS\nSELECT * EXCLUDE (seq, _rn) FROM (\n".toList =
      (.plain, viewFrameTokens) := by
    decide +kernel
  have hrank : scan .plain
      "  SELECT *, row_number() OVER (PARTITION BY time, tag_hash ORDER BY seq DESC) AS _rn\n".toList =
        (.plain, rankTokens) := by
    decide +kernel
  have hfrom : scan .plain "  FROM (\n".toList = (.plain, [.word "from".toList, .sym '(']) := by
    decide +kernel
  have hunion : scan .plain "\nUNION ALL BY NAME\n".toList = (.plain, unionTokens) := by
    decide +kernel
  have hselect : scan .plain "SELECT * FROM ".toList = (.plain, selectTokens) := by decide +kernel
  have hend : lex "\n  )\n) WHERE _rn = 1".toList = some (.sym ')' :: (firstTokens ++ [])) := by
    decide +kernel
  have hshut : expect [.sym ')'] (.sym ')' :: (firstTokens ++ [])) = some (firstTokens ++ []) :=
    expect_append [.sym ')'] _
  have hone : ∀ r ∈ rs, ∀ rest : Str, rest.head? ≠ some '"' →
      lex (selectAll r.text ++ rest) = (lex rest).map (selectTokens ++ r.tokens ++ ·) := by
    intro r hr rest hrest
    unfold selectAll
    rw [List.append_assoc, lex_append_plain hselect, lex_relation (hplain r hr) hrest, Option.map_map]
    simp only [Function.comp_def, List.append_assoc]
  have hrefs := lex_intercalate_of_append hunion (fun r : Relation => selectAll r.text)
    (fun r => selectTokens ++ r.tokens) rs "\n  )\n) WHERE _rn = 1".toList fun r hr =>
      ⟨fun t => hone r hr _ (by simp), hone r hr _ (by decide +kernel)⟩
  unfold buildFederatedViewSql
  rw [if_neg (by simpa using hne), lex_append_plain hcreate, lex_qualified _ _ (by simp),
    lex_append_plain hframe, lex_append_plain hrank, lex_append_plain hfrom, List.map_map]
  simp only [Function.comp_def]
  rw [hrefs, hend]
  have hread := readUnion_tokens hne hplain
    (length_le_union rs (.sym ')' :: (firstTokens ++ []))) (firstTokens ++ [])
  simp only [Option.map_some, Option.bind_some, readView, expect_append, readQualified_append, bind,
    hread, hshut]
  rw [if_pos trivial]

def overwriteTokens : List Token :=
  [.sym ',', .word "overwrite_or_ignore".toList, .word "true".toList, .sym ')']

def formatTokens : List Token :=
  [.word "format".toList, .word "parquet".toList, .sym ',', .word "compression".toList,
    .word "zstd".toList]

/-- The input and the output of a merge are read back. -/
theorem readCopy_compactSql (coldRowGroupSize : ℕ) {inputUris : List Str} {outputUri : Str}
    (hplain : (Relation.parquet inputUris).Plain) (hout : '\'' ∉ outputUri) :
    (lex (compactSql coldRowGroupSize inputUris outputUri)).bind readCopy =
      some ⟨.newest (.parquet inputUris), outputUri, formatTokens ++ ([.sym ',',
        .word "row_group_size".toList] ++ (.word ((Nat.toDigits 10 coldRowGroupSize).map Char.toLower) ::
          overwriteTokens))⟩ := by
  have hcopy : scan .plain "COPY (SELECT * EXCLUDE (_rn) FROM (".toList =
      (.plain, [.word "copy".toList, .sym '('] ++ mergeFrameTokens) := by
    decide +kernel
  have hrank : scan .plain
      "  SELECT *, row_number() OVER (PARTITION BY time, tag_hash ORDER BY seq DESC) AS _rn FROM ".toList =
        (.plain, rankTokens ++ [.word "from".toList]) := by
    decide +kernel
  have hfirst : scan .plain ") WHERE _rn = 1) TO ".toList =
      (.plain, firstTokens ++ [.sym ')', .word "to".toList]) := by
    decide +kernel
  have hformat : scan .plain " (FORMAT parquet, COMPRESSION zstd, ROW_GROUP_SIZE ".toList =
      (.plain, [.sym '('] ++ (formatTokens ++ [.sym ',', .word "row_group_size".toList])) := by
    decide +kernel
  have hover : lex ", OVERWRITE_OR_IGNORE true)".toList = some overwriteTokens := by decide +kernel
  have hdigits : ∀ c ∈ Nat.toDigits 10 coldRowGroupSize, isWordChar c = true := by
    intro c hc
    have hdigit := Nat.isDigit_of_mem_toDigits (by decide) (by decide) hc
    simp [isWordChar, Char.isAlphanum, hdigit]
  have hcomma : ∀ c ∈ ", OVERWRITE_OR_IGNORE true)".toList.head?, isWordChar c = false := by
    intro c hc
    cases (show ", OVERWRITE_OR_IGNORE true)".toList.head? = some ',' by simp).symm.trans hc
    decide
  have hrelation : ∀ rest : Str, rest.head? ≠ some '"' →
      lex (readParquetRef inputUris ++ rest) =
        (lex rest).map ((Relation.parquet inputUris).tokens ++ ·) :=
    fun rest hrest => lex_relation (r := .parquet inputUris) hplain hrest
  unfold compactSql
  rw [lex_append_plain hcopy, lex_append_plain hrank, hrelation _ (by simp), lex_append_plain hfirst,
    lex_literal hout (by simp), lex_append_plain hformat, lex_word Nat.toDigits_ne_nil hdigits hcomma,
    hover]
  simp only [Option.map_some, Option.bind_some, readCopy, readSelection, expect_append, bind,
    List.append_assoc, readRelation_tokens hplain, readText]

theorem readCopy_exportSql (tsdbSchema table : Str) {outputUri : Str} (hout : '\'' ∉ outputUri)
    (start stop : Time) :
    (lex (exportSql (hotRef tsdbSchema table) outputUri start stop)).bind readCopy =
      some ⟨.range (.postgres tsdbSchema table) (isoformat start) (isoformat stop), outputUri,
        formatTokens ++ overwriteTokens⟩ := by
  have hcopy : scan .plain "COPY (SELECT * FROM ".toList =
      (.plain, [.word "copy".toList, .sym '('] ++ selectTokens) := by
    decide +kernel
  have hsince : scan .plain " WHERE time >= TIMESTAMPTZ ".toList =
      (.plain, [.word "where".toList, .word "time".toList, .sym '>', .sym '=',
        .word "timestamptz".toList]) := by
    decide +kernel
  have hbefore : scan .plain " AND time < TIMESTAMPTZ ".toList =
      (.plain, [.word "and".toList, .word "time".toList, .sym '<', .word "timestamptz".toList]) := by
    decide +kernel
  have hto : scan .plain ") TO ".toList = (.plain, [.sym ')', .word "to".toList]) := by
    decide +kernel
  have hformat : lex " (FORMAT parquet, COMPRESSION zstd, OVERWRITE_OR_IGNORE true)".toList =
      some ([.sym '('] ++ (formatTokens ++ overwriteTokens)) := by
    decide +kernel
  have hno : ∀ ts, expect mergeFrameTokens (selectTokens ++ (pgTokens ++ ts)) = none := by
    intro ts
    have hne : Token.word "from".toList ≠ .word "exclude".toList := by decide +kernel
    rw [expect, if_neg]
    intro h
    have htail := (List.cons_prefix_cons.mp (List.cons_prefix_cons.mp h).2).2
    exact hne (List.cons_prefix_cons.mp htail).1.symm
  have hrelation : ∀ rest : Str, rest.head? ≠ some '"' → lex (hotRef tsdbSchema table ++ rest) =
      (lex rest).map ((Relation.postgres tsdbSchema table).tokens ++ ·) :=
    fun rest hrest => lex_relation (r := .postgres tsdbSchema table) trivial hrest
  have hread := readRelation_tokens (r := .postgres tsdbSchema table) trivial
  rw [Relation.tokens] at hrelation hread
  unfold exportSql
  rw [lex_append_plain hcopy, hrelation _ (by simp), lex_append_plain hsince,
    lex_literal (quote_notMem_isoformat start) (by simp), lex_append_plain hbefore,
    lex_literal (quote_notMem_isoformat stop) (by simp), lex_append_plain hto,
    lex_literal hout (by simp), hformat]
  simp only [List.append_assoc] at hread ⊢
  simp only [Option.map_some, Option.bind_some, readCopy, readSelection, expect_append, bind, hno,
    hread, readRange, readText]

end Statements

section Execution

/-- The object that a path names. -/
def keyOf (root path : Str) : Option Str :=
  if root ++ ['/'] <+: path then some (path.drop (root ++ ['/']).length) else none

def Relation.ref (root tsdbSchema : Str) : Relation → Option Ref
  | .postgres schema table => if schema = tsdbSchema then some (.hot table) else none
  | .parquet uris => (uris.mapM (keyOf root)).map .parquet

variable (converts : Cells (Value F) → Cells (Value F) → Prop)

/-- The rows numbered first, in any order. The cells are numbered as the read gives them. -/
def Firsts (rows result : List (Row (Value F))) : Prop :=
  ∃ read out, List.Forall₂ (Converted converts) rows read ∧
    Numbering Row.key Row.seq read out ∧ result = firsts out

/-- What a read of a view can give: every column but `seq`. -/
def ViewStatement.Shows (root tsdbSchema : Str) (s : Service F) (v : ViewStatement)
    (shown : List (Key × Cells (Value F))) : Prop :=
  ∃ refs rows result, v.sources.mapM (Relation.ref root tsdbSchema) = some refs ∧
    union s refs = some rows ∧ Firsts converts rows result ∧
    shown = result.map fun r => (r.key, r.cells)

/-- The rows of one table are read as they are. -/
def Selection.Yields (root tsdbSchema : Str) (s : Service F) : Selection → List (Row (Value F)) → Prop
  | .newest source, result => ∃ ref rows, source.ref root tsdbSchema = some ref ∧
      readRef s ref = some rows ∧ Firsts converts rows result
  | .range source since before, result => ∃ ref rows start stop,
      source.ref root tsdbSchema = some ref ∧ readRef s ref = some rows ∧
      readTimestamp since = some start ∧ readTimestamp before = some stop ∧
      result.Perm (rows.filter fun r => start ≤ r.key.time ∧ r.key.time < stop)

/-- A file that is there is replaced only if the options say so. -/
def CopyStatement.Writes (root tsdbSchema : Str) (s : Service F) (stmt : CopyStatement)
    (c' : Cold (Value F)) : Prop :=
  ∃ key result, keyOf root stmt.path = some key ∧
    stmt.selection.Yields converts root tsdbSchema s result ∧
    (s.cold.files key = none ∨ .word "overwrite_or_ignore".toList ∈ stmt.options) ∧
    c' = writeTable s.cold key result

variable {root tsdbSchema : Str}

@[simp] theorem keyOf_uri (key : Str) : keyOf root (uri root key) = some key := by
  have huri : uri root key = (root ++ ['/']) ++ key := by rw [uri, List.append_assoc]; rfl
  rw [keyOf, huri, if_pos (List.prefix_append _ _), List.drop_left]

/-- The relation as the service names it. -/
def relationOf (root tsdbSchema : Str) : Ref → Relation
  | .hot table => .postgres tsdbSchema table
  | .parquet keys => .parquet (keys.map (uri root))

theorem text_relationOf (ref : Ref) :
    (relationOf root tsdbSchema ref).text = refText root tsdbSchema ref := by
  cases ref <;> rfl

theorem ref_relationOf (ref : Ref) :
    (relationOf root tsdbSchema ref).ref root tsdbSchema = some ref := by
  cases ref with
  | hot table => exact if_pos rfl
  | parquet keys =>
    have hkeys : (keys.map (uri root)).mapM (keyOf root) = some keys := by
      induction keys with
      | nil => rfl
      | cons key keys ih => rw [List.map_cons, List.mapM_cons, keyOf_uri, ih]; rfl
    rw [relationOf, Relation.ref, hkeys]
    rfl

/-- Objects that a text can name. -/
def Nameable : Ref → Prop
  | .hot _ => True
  | .parquet keys => keys ≠ [] ∧ ∀ k ∈ keys, '\'' ∉ k

theorem quote_notMem_uri (hroot : '\'' ∉ root) {key : Str} (hkey : '\'' ∉ key) :
    '\'' ∉ uri root key := by
  simp [uri, hroot, hkey]

theorem plain_relationOf (hroot : '\'' ∉ root) (tsdbSchema : Str) {ref : Ref} (h : Nameable ref) :
    (relationOf root tsdbSchema ref).Plain := by
  cases ref with
  | hot table => trivial
  | parquet keys =>
    refine ⟨by simpa using h.1, fun u hu => ?_⟩
    obtain ⟨k, hk, rfl⟩ := List.mem_map.mp hu
    exact quote_notMem_uri hroot (h.2 k hk)

/-- A view is sent as the relations that it is over. -/
theorem exists_viewStatement (hroot : '\'' ∉ root) (tsdbSchema table : Str) {refs : List Ref}
    (hne : refs ≠ []) (hrefs : ∀ ref ∈ refs, Nameable ref) :
    ∃ v, (lex (buildFederatedViewSql tsdbSchema table
        (refs.map (refText root tsdbSchema)))).bind readView = some v ∧
      v.schema = tsdbSchema ∧ v.view = table ∧
      ∀ (s : Service F) shown, v.Shows converts root tsdbSchema s shown ↔ ∃ rows result,
        union s refs = some rows ∧ Firsts converts rows result ∧
        shown = result.map fun r => (r.key, r.cells) := by
  have hplain : ∀ r ∈ refs.map (relationOf root tsdbSchema), r.Plain := by
    intro r hr
    obtain ⟨ref, href, rfl⟩ := List.mem_map.mp hr
    exact plain_relationOf hroot tsdbSchema (hrefs ref href)
  have hread := readView_buildFederatedViewSql tsdbSchema table (by simpa using hne) hplain
  have htexts : (refs.map (relationOf root tsdbSchema)).map Relation.text =
      refs.map (refText root tsdbSchema) := by
    rw [List.map_map]
    exact List.map_congr_left fun ref _ => text_relationOf ref
  have hsources : (refs.map (relationOf root tsdbSchema)).mapM (Relation.ref root tsdbSchema) =
      some refs := by
    clear hne hrefs hplain hread htexts
    induction refs with
    | nil => rfl
    | cons ref refs ih => rw [List.map_cons, List.mapM_cons, ref_relationOf, ih]; rfl
  rw [htexts] at hread
  refine ⟨_, hread, rfl, rfl, fun s shown => ⟨?_, ?_⟩⟩
  · rintro ⟨refs', rows, result, hrefs', hrows, hfirsts, hshown⟩
    cases hsources.symm.trans hrefs'
    exact ⟨rows, result, hrows, hfirsts, hshown⟩
  · rintro ⟨rows, result, hrows, hfirsts, hshown⟩
    exact ⟨refs, rows, result, hsources, hrows, hfirsts, hshown⟩

/-- A merge is sent as its inputs and its output. -/
theorem exists_mergeStatement (hroot : '\'' ∉ root) (tsdbSchema : Str) (coldRowGroupSize : ℕ)
    {keys : List Str} (hne : keys ≠ []) (hkeys : ∀ k ∈ keys, '\'' ∉ k) {out : Str} (hout : '\'' ∉ out) :
    ∃ stmt, (lex (compactSql coldRowGroupSize (keys.map (uri root)) (uri root out))).bind readCopy =
        some stmt ∧
      ∀ (s : Service F) c', stmt.Writes converts root tsdbSchema s c' ↔ ∃ rows result,
        Engine.readParquet s.cold keys = some rows ∧ Firsts converts rows result ∧
        c' = writeTable s.cold out result := by
  have hplain : (Relation.parquet (keys.map (uri root))).Plain :=
    plain_relationOf hroot tsdbSchema (show Nameable (.parquet keys) from ⟨hne, hkeys⟩)
  have href : (relationOf root tsdbSchema (.parquet keys)).ref root tsdbSchema =
    some (.parquet keys) := ref_relationOf _
  rw [relationOf] at href
  refine ⟨_, readCopy_compactSql coldRowGroupSize hplain (quote_notMem_uri hroot hout),
    fun s c' => ⟨?_, ?_⟩⟩
  · rintro ⟨key, result, hkey, ⟨ref, rows, href', hrows, hfirsts⟩, -, rfl⟩
    cases (keyOf_uri out).symm.trans hkey
    cases href.symm.trans href'
    exact ⟨rows, result, hrows, hfirsts, rfl⟩
  · rintro ⟨rows, result, hrows, hfirsts, rfl⟩
    refine ⟨out, result, keyOf_uri out, ⟨_, rows, href, hrows, hfirsts⟩, Or.inr ?_, rfl⟩
    simp [overwriteTokens]

/-- An export is sent as its table, its bounds and its output. -/
theorem exists_exportStatement (hroot : '\'' ∉ root) (tsdbSchema table : Str) {out : Str}
    (hout : '\'' ∉ out) {start stop : Time} (hstart : Dated start) (hstop : Dated stop) :
    ∃ stmt, (lex (exportSql (hotRef tsdbSchema table) (uri root out) start stop)).bind readCopy =
        some stmt ∧
      ∀ (s : Service F) c', stmt.Writes converts root tsdbSchema s c' ↔
        s.catalog.contains table = true ∧ ∃ result,
          result.Perm (Engine.hotRange (s.hot table) start stop) ∧
          c' = writeTable s.cold out result := by
  have href : (Relation.postgres tsdbSchema table).ref root tsdbSchema = some (.hot table) :=
    if_pos rfl
  refine ⟨_, readCopy_exportSql tsdbSchema table (quote_notMem_uri hroot hout) start stop,
    fun s c' => ⟨?_, ?_⟩⟩
  · rintro ⟨key, result, hkey, ⟨ref, rows, t, t', href', hrows, ht, ht', hperm⟩, -, rfl⟩
    cases (keyOf_uri out).symm.trans hkey
    cases href.symm.trans href'
    cases (readTimestamp_isoformat hstart).symm.trans ht
    cases (readTimestamp_isoformat hstop).symm.trans ht'
    have hknown : s.catalog.contains table = true := by
      by_contra hno
      rw [readRef, if_neg hno] at hrows
      contradiction
    rw [mem_readRef_hot hrows] at hperm
    exact ⟨hknown, result, hperm, rfl⟩
  · rintro ⟨hknown, result, hperm, rfl⟩
    refine ⟨out, result, keyOf_uri out, ⟨_, Table.rows (s.hot table), start, stop, href, if_pos hknown,
      readTimestamp_isoformat hstart, readTimestamp_isoformat hstop, hperm⟩, Or.inr ?_, rfl⟩
    simp [overwriteTokens]

end Execution

end TimescaleLp.EngineText
