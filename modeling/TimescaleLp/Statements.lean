import TimescaleLp.Lexing
import TimescaleLp.SafeNames

/-!
The SQL that a call sends to the database. The texts are put together as the
service does it; they are read back token by token, and what is read is carried
out on the tables. That gives the operations of the store, whatever the names and
texts of a call contain.
-/
namespace TimescaleLp.Statements

open Names Schema Store Naming SafeNames Lexing

variable {F : Type}

/-- `qualified` of a table -/
def qualified (tsdbSchema table : Str) : Str := quoteIdent tsdbSchema ++ '.' :: quoteIdent table

/-- `${len(params)}` -/
def placeholder (n : ℕ) : Str := '$' :: Nat.toDigits 10 n

/-- Tokens that have to come next. -/
def expect (these ts : List Token) : Option (List Token) :=
  if these <+: ts then some (ts.drop these.length) else none

@[simp] theorem expect_append (these ts : List Token) : expect these (these ++ ts) = some ts := by
  simp [expect]

def readQualified : List Token → Option (Str × Str × List Token)
  | .ident schema :: .sym c :: .ident table :: ts =>
    if c = '.' then some (schema, table, ts) else none
  | _ => none

@[simp] theorem readQualified_append (schema table : Str) (ts : List Token) :
    readQualified ([.ident schema, .sym '.', .ident table] ++ ts) = some (schema, table, ts) := rfl

section Parts

variable {rest : Str}

theorem scan_quoteIdent (name : Str) : scan .plain (quoteIdent name) = (.shut '"' name, []) :=
  scan_quoted rfl name

theorem apart_shut (name : Str) (hrest : rest.head? ≠ some '"') :
    Apart (.shut '"' name) rest := by
  intro c hc
  rw [goesOn, if_neg]
  rintro rfl
  exact hrest hc

theorem lex_ident (name : Str) (hrest : rest.head? ≠ some '"') :
    lex (quoteIdent name ++ rest) = (lex rest).map (.ident name :: ·) :=
  lex_quoted rfl name hrest

theorem lex_qualified (tsdbSchema table : Str) (hrest : rest.head? ≠ some '"') :
    lex (qualified tsdbSchema table ++ rest) =
      (lex rest).map ([.ident tsdbSchema, .sym '.', .ident table] ++ ·) := by
  have hdot : scan .plain ['.'] = (.plain, [.sym '.']) := by decide
  rw [qualified, List.append_assoc, lex_ident _ (by simp), List.cons_append,
    ← List.singleton_append, lex_append_plain hdot, lex_ident _ hrest, Option.map_map, Option.map_map]
  rfl

end Parts

section Delete

inductive Param
  | time (t : Time)
  | text (v : Str)

/-- `where` and `params` of `delete_lp` -/
structure Where where
  clauses : List Str
  params : List Param

def Where.add (w : Where) (v : Param) (clause : Str → Str) : Where :=
  let params := w.params ++ [v]
  ⟨w.clauses ++ [clause (placeholder params.length)], params⟩

def timeWhere (start stop : Option Time) : Where :=
  let w := start.elim ⟨[], []⟩ fun t =>
    Where.add ⟨[], []⟩ (.time t) fun n => "time >= ".toList ++ n
  stop.elim w fun t => w.add (.time t) fun n => "time < ".toList ++ n

/-- A tag that the schema does not list ends the call. -/
def deleteWhere (schema : TableSchema) (tagFilters : List (Str × Str)) (start stop : Option Time) :
    Option Where :=
  tagFilters.foldlM (fun w e => (schema.tagCols.get? e.1).map fun col =>
    w.add (.text e.2) fun n => quoteIdent col ++ " = ".toList ++ n) (timeWhere start stop)

def deleteSql (tsdbSchema table : Str) (clauses : List Str) : Str :=
  "DELETE FROM ".toList ++ qualified tsdbSchema table ++
    if clauses = [] then [] else " WHERE ".toList ++ " AND ".toList.intercalate clauses

inductive Test
  | since
  | before
  | equals (col : Str)

/-- A test of a row against the parameter of a number. -/
structure Condition where
  test : Test
  param : ℕ

def readCondition : List Token → Option Condition
  | [.word w, .sym c, .sym d, .param n] =>
    if w = "time".toList ∧ c = '>' ∧ d = '=' then some ⟨.since, n⟩ else none
  | [.word w, .sym c, .param n] =>
    if w = "time".toList ∧ c = '<' then some ⟨.before, n⟩ else none
  | [.ident col, .sym c, .param n] => if c = '=' then some ⟨.equals col, n⟩ else none
  | _ => none

structure DeleteStatement where
  schema : Str
  table : Str
  conditions : List Condition

def readConditions (schema table : Str) : List Token → Option DeleteStatement
  | [] => some ⟨schema, table, []⟩
  | .word w :: ts =>
    if w = "where".toList then
      ((ts.splitOn (.word "and".toList)).mapM readCondition).map (⟨schema, table, ·⟩)
    else none
  | _ => none

def readDelete (ts : List Token) : Option DeleteStatement := do
  let ts ← expect [.word "delete".toList, .word "from".toList] ts
  let (schema, table, ts) ← readQualified ts
  readConditions schema table ts

/-- Names are cut to the length of an identifier. -/
def Test.passes (k : Key) (cells : Cells (Value F)) : Test → Param → Bool
  | .since, .time t => decide (t ≤ k.time)
  | .before, .time t => decide (k.time < t)
  | .equals col, .text v => textEq v (cells (pgIdent col))
  | _, _ => false

/-- Parameters are counted from one. -/
def Condition.holds (params : List Param) (k : Key) (cells : Cells (Value F)) (c : Condition) :
    Bool :=
  ((none :: params.map some)[c.param]?.join).any (c.test.passes k cells)

/-- A column that a condition names has to be one of texts. -/
def Test.known (columns : Dict Str PgType) : Test → Bool
  | .equals col => decide (columns.get? (pgIdent col) = some .text)
  | _ => true

/-- A text with U+0000 is refused. -/
def Param.accepted : Param → Bool
  | .time _ => true
  | .text v => !v.contains '\x00'

/-- The statement is refused as a whole if the table or a column is not there. -/
def runDelete (tsdbSchema : Str) (catalog : Dict Str (Dict Str PgType))
    (hot : Str → Table (Value F)) (params : List Param) (sql : Str) :
    Option ((Str → Table (Value F)) × ℕ) :=
  ((lex sql).bind readDelete).bind fun d =>
    if pgIdent d.schema = pgIdent tsdbSchema ∧
        (catalog.get? (pgIdent d.table)).any (fun columns =>
          d.conditions.all fun c => c.test.known columns) = true ∧
        params.all Param.accepted = true then
      let t := hot (pgIdent d.table)
      let kept := t.filter fun k r => !d.conditions.all (Condition.holds params k r.cells)
      some (Function.update hot (pgIdent d.table) kept, t.entries.length - kept.entries.length)
    else none

def Test.text : Test → Str
  | .since => "time >= ".toList
  | .before => "time < ".toList
  | .equals col => quoteIdent col ++ " = ".toList

def Test.tokens : Test → List Token
  | .since => [.word "time".toList, .sym '>', .sym '=']
  | .before => [.word "time".toList, .sym '<']
  | .equals col => [.ident col, .sym '=']

def Condition.clause (c : Condition) : Str := c.test.text ++ placeholder c.param

def Condition.tokens (c : Condition) : List Token := c.test.tokens ++ [.param c.param]

theorem scan_text (test : Test) : scan .plain test.text = (.plain, test.tokens) := by
  cases test with
  | since => decide +kernel
  | before => decide +kernel
  | equals col =>
    have hequals : scan .plain " = ".toList = (.plain, [.sym '=']) := by decide +kernel
    change scan .plain (quoteIdent col ++ " = ".toList) = _
    rw [scan_append, scan_quoteIdent, scan_apart rfl (apart_shut col (by simp)) (by simp), hequals]
    rfl

theorem scan_clause (c : Condition) :
    scan .plain c.clause = (.param (Nat.toDigits 10 c.param), c.test.tokens) := by
  rw [Condition.clause, scan_append, scan_text, placeholder, scan_param, List.append_nil]

theorem lex_clause (c : Condition) : lex c.clause = some c.tokens := by
  rw [lex, scan_clause, ended, Nat.ofDigitChars_ten_toDigits]
  rfl

theorem apart_clause (c : Condition) {rest : Str} (hrest : ∀ a ∈ rest.head?, a.isDigit = false) :
    Apart (scan .plain c.clause).1 rest := by
  intro a ha
  rw [scan_clause, goesOn, if_neg]
  simp [hrest a ha]

theorem readCondition_tokens (c : Condition) : readCondition c.tokens = some c := by
  obtain ⟨test, n⟩ := c
  cases test <;> simp [Condition.tokens, Test.tokens, readCondition]

theorem and_notMem_tokens (c : Condition) : .word "and".toList ∉ c.tokens := by
  obtain ⟨test, n⟩ := c
  cases test <;> simp [Condition.tokens, Test.tokens]

theorem splitOn_and {conditions : List Condition} (hne : conditions ≠ []) :
    ([Token.word "and".toList].intercalate (conditions.map Condition.tokens)).splitOn
      (.word "and".toList) = conditions.map Condition.tokens := by
  refine List.splitOn_intercalate _ ?_ (by simpa using hne)
  intro ts hts
  obtain ⟨c, -, rfl⟩ := List.mem_map.mp hts
  exact and_notMem_tokens c

theorem mapM_readCondition (conditions : List Condition) :
    (conditions.map Condition.tokens).mapM readCondition = some conditions := by
  induction conditions with
  | nil => rfl
  | cons c cs ih =>
    rw [List.map_cons, List.mapM_cons, readCondition_tokens, ih]
    rfl

/-- The conditions of a statement are read back. -/
theorem readDelete_deleteSql (tsdbSchema table : Str) (conditions : List Condition) :
    (lex (deleteSql tsdbSchema table (conditions.map Condition.clause))).bind readDelete =
      some ⟨tsdbSchema, table, conditions⟩ := by
  have hdelete : scan .plain "DELETE FROM ".toList =
      (.plain, [.word "delete".toList, .word "from".toList]) := by
    decide +kernel
  have hwhere : scan .plain " WHERE ".toList = (.plain, [.word "where".toList]) := by
    decide +kernel
  have hand : scan .plain " AND ".toList = (.plain, [.word "and".toList]) := by decide +kernel
  unfold deleteSql
  rw [List.append_assoc, lex_append_plain hdelete]
  by_cases hnone : conditions = []
  · have hqualified := lex_qualified tsdbSchema table (show ([] : Str).head? ≠ some '"' by simp)
    rw [hnone, List.map_nil, if_pos rfl, hqualified]
    simp only [lex_nil, Option.map_some, Option.bind_some, readDelete, expect_append]
    rfl
  · have hne : conditions.map Condition.clause ≠ [] := by simpa using hnone
    have hlex : lex (" AND ".toList.intercalate (conditions.map Condition.clause)) =
        some ([Token.word "and".toList].intercalate (conditions.map Condition.tokens)) := by
      have hjoin := lex_intercalate (by simp) hand Condition.clause Condition.tokens conditions []
        fun c _ => ⟨lex_clause c, apart_clause c (by simp), apart_clause c (by simp)⟩
      rw [List.append_nil] at hjoin
      rw [hjoin, lex_nil, Option.map_some, List.append_nil]
    have hread : readConditions tsdbSchema table (.word "where".toList ::
        [Token.word "and".toList].intercalate (conditions.map Condition.tokens)) =
          some ⟨tsdbSchema, table, conditions⟩ := by
      rw [readConditions, if_pos rfl, splitOn_and hnone, mapM_readCondition]
      rfl
    rw [if_neg hne, lex_qualified _ _ (by simp), lex_append_plain hwhere, hlex]
    simp only [Option.map_some, Option.bind_some, readDelete, expect_append]
    exact hread

/-- What a call asks of a row: the bounds that are given, and a test for each filter. -/
def asked (schema : TableSchema) (tagFilters : List (Str × Str)) (start stop : Option Time) :
    List (Test × Param) :=
  (start.toList.map fun t => (.since, .time t)) ++ (stop.toList.map fun t => (.before, .time t)) ++
    tagFilters.map fun e => (.equals ((schema.tagCols.get? e.1).getD []), .text e.2)

/-- Each test is of a parameter of its own. -/
def numbered (tests : List (Test × Param)) : List Condition :=
  (tests.zipIdx 1).map fun e => ⟨e.1.1, e.2⟩

def whereOf (tests : List (Test × Param)) : Where :=
  ⟨(numbered tests).map Condition.clause, tests.map Prod.snd⟩

theorem whereOf_add (tests : List (Test × Param)) (test : Test) (v : Param) :
    (whereOf tests).add v (fun n => test.text ++ n) = whereOf (tests ++ [(test, v)]) := by
  have hnumbered : numbered (tests ++ [(test, v)]) = numbered tests ++ [⟨test, tests.length + 1⟩] := by
    rw [numbered, List.zipIdx_append, List.map_append, Nat.add_comm]
    rfl
  rw [whereOf, whereOf, hnumbered, List.map_append, List.map_append, Where.add, List.length_append,
    List.length_map]
  rfl

theorem timeWhere_eq (start stop : Option Time) : timeWhere start stop =
    whereOf ((start.toList.map fun t => (.since, .time t)) ++
      stop.toList.map fun t => (.before, .time t)) := by
  have hadd : ∀ tests t, Where.add (whereOf tests) (.time t) (fun n => "time < ".toList ++ n) =
      whereOf (tests ++ [(.before, .time t)]) := fun tests t => whereOf_add tests .before (.time t)
  cases start with
  | none =>
    cases stop with
    | none => rfl
    | some stop => exact hadd [] stop
  | some start =>
    have hsince := whereOf_add [] .since (.time start)
    cases stop with
    | none => exact hsince
    | some stop => exact (congrArg (fun w => Where.add w _ _) hsince).trans (hadd _ stop)

/-- The clauses of the tags follow those of the bounds, one for each filter. -/
theorem deleteWhere_eq {schema : TableSchema} {tagFilters : List (Str × Str)}
    (h : ∀ e ∈ tagFilters, ∃ col, schema.tagCols.get? e.1 = some col) (start stop : Option Time) :
    deleteWhere schema tagFilters start stop =
      some (whereOf (asked schema tagFilters start stop)) := by
  rw [deleteWhere, timeWhere_eq, asked]
  generalize (start.toList.map fun t => (Test.since, Param.time t)) ++
    (stop.toList.map fun t => (Test.before, Param.time t)) = tests
  induction tagFilters generalizing tests with
  | nil => rw [List.map_nil, List.append_nil]; rfl
  | cons e tagFilters ih =>
    obtain ⟨col, hcol⟩ := h e List.mem_cons_self
    have hrest := ih (fun e' he' => h e' (List.mem_cons_of_mem e he'))
      (tests ++ [(.equals col, .text e.2)])
    have hadd := whereOf_add tests (.equals col) (.text e.2)
    rw [List.append_assoc, ← hadd] at hrest
    rw [List.foldlM_cons, hcol, List.map_cons, hcol, Option.getD_some]
    exact hrest

theorem deleteWhere_eq_none {schema : TableSchema} {tagFilters : List (Str × Str)}
    {e : Str × Str} (he : e ∈ tagFilters) (hnone : schema.tagCols.get? e.1 = none)
    (start stop : Option Time) : deleteWhere schema tagFilters start stop = none := by
  rw [deleteWhere]
  generalize timeWhere start stop = w
  induction tagFilters generalizing w with
  | nil => contradiction
  | cons e' tagFilters ih =>
    rw [List.foldlM_cons]
    cases hcol : schema.tagCols.get? e'.1 with
    | none => rfl
    | some col =>
      rcases List.mem_cons.mp he with rfl | he
      · cases hnone.symm.trans hcol
      · exact ih he _

theorem mem_numbered_iff {tests : List (Test × Param)} {c : Condition} :
    c ∈ numbered tests ↔ ∃ i e, tests[i]? = some e ∧ c = ⟨e.1, i + 1⟩ := by
  constructor
  · intro hc
    obtain ⟨⟨e, n⟩, hmem, rfl⟩ := List.mem_map.mp hc
    obtain ⟨hle, hget⟩ := List.mk_mem_zipIdx_iff_le_and_getElem?_sub.mp hmem
    exact ⟨n - 1, e, hget, by rw [Nat.sub_add_cancel hle]⟩
  · rintro ⟨i, e, hget, rfl⟩
    exact List.mem_map.mpr ⟨(e, i + 1),
      List.mk_mem_zipIdx_iff_le_and_getElem?_sub.mpr ⟨by omega, by simpa using hget⟩, rfl⟩

theorem holds_numbered {tests : List (Test × Param)} {i : ℕ} {e : Test × Param}
    (h : tests[i]? = some e) (k : Key) (cells : Cells (Value F)) :
    Condition.holds (tests.map Prod.snd) k cells ⟨e.1, i + 1⟩ = e.1.passes k cells e.2 := by
  simp [Condition.holds, h]

/-- The conditions hold of a row exactly if it passes the tests. -/
theorem all_numbered (tests : List (Test × Param)) (k : Key) (cells : Cells (Value F)) :
    (numbered tests).all (Condition.holds (tests.map Prod.snd) k cells) =
      tests.all fun e => e.1.passes k cells e.2 := by
  rw [Bool.eq_iff_iff, List.all_eq_true, List.all_eq_true]
  constructor
  · intro h e he
    obtain ⟨i, hi, rfl⟩ := List.mem_iff_getElem.mp he
    have hget : tests[i]? = some tests[i] := List.getElem?_eq_getElem hi
    rw [← holds_numbered hget]
    exact h _ (mem_numbered_iff.mpr ⟨i, _, hget, rfl⟩)
  · intro h c hc
    obtain ⟨i, e, hget, rfl⟩ := mem_numbered_iff.mp hc
    rw [holds_numbered hget]
    exact h e (List.mem_of_getElem? hget)

/-- The filters with their columns. -/
theorem filterColumns_eq {schema : TableSchema} {tagFilters : List (Str × Str)}
    (h : ∀ e ∈ tagFilters, ∃ col, schema.tagCols.get? e.1 = some col) :
    filterColumns schema tagFilters =
      some (tagFilters.map fun e => (pgIdent ((schema.tagCols.get? e.1).getD []), e.2)) := by
  induction tagFilters with
  | nil => rfl
  | cons e tagFilters ih =>
    obtain ⟨col, hcol⟩ := h e List.mem_cons_self
    have hrest := ih fun e' he' => h e' (List.mem_cons_of_mem e he')
    rw [filterColumns] at hrest
    rw [filterColumns, List.mapM_cons, hcol, hrest, List.map_cons, hcol]
    rfl

theorem filterColumns_eq_none {schema : TableSchema} {tagFilters : List (Str × Str)}
    {e : Str × Str} (he : e ∈ tagFilters) (hnone : schema.tagCols.get? e.1 = none) :
    filterColumns schema tagFilters = none := by
  induction tagFilters with
  | nil => contradiction
  | cons e' tagFilters ih =>
    rw [filterColumns, List.mapM_cons]
    cases hcol : schema.tagCols.get? e'.1 with
    | none => rfl
    | some col =>
      rcases List.mem_cons.mp he with rfl | he
      · cases hnone.symm.trans hcol
      · have hrest := ih he
        rw [filterColumns] at hrest
        rw [hrest]
        rfl

/-- The tests are those of the rows that a delete is meant to delete. -/
theorem all_asked (schema : TableSchema) (tagFilters : List (Str × Str)) (start stop : Option Time)
    (k : Key) (cells : Cells (Value F)) :
    ((asked schema tagFilters start stop).all fun e => e.1.passes k cells e.2) =
      deleteMatches (tagFilters.map fun e => (pgIdent ((schema.tagCols.get? e.1).getD []), e.2))
        start stop k cells := by
  rw [asked, List.all_append, List.all_append, deleteMatches]
  refine congrArg₂ and (congrArg₂ and ?_ ?_) ?_
  · cases start <;> simp [Test.passes]
  · cases stop <;> simp [Test.passes]
  · rw [List.all_map, List.all_map]
    rfl

/-- The table has a column of texts for each filter, and no value has a U+0000. -/
def Deletable (catalog : Dict Str (Dict Str PgType)) (schema : TableSchema)
    (tagFilters : List (Str × Str)) : Prop :=
  ∃ columns, catalog.get? schema.table = some columns ∧ ∀ e ∈ tagFilters,
    (∀ col, schema.tagCols.get? e.1 = some col → columns.get? (pgIdent col) = some .text) ∧
      '\x00' ∉ e.2

/-- What the database asks of a statement before it runs it. -/
theorem accepts_iff {catalog : Dict Str (Dict Str PgType)} {schema : TableSchema}
    {tagFilters : List (Str × Str)}
    (h : ∀ e ∈ tagFilters, ∃ col, schema.tagCols.get? e.1 = some col) (start stop : Option Time) :
    (catalog.get? schema.table).any (fun columns =>
        (numbered (asked schema tagFilters start stop)).all fun c => c.test.known columns) = true ∧
      ((asked schema tagFilters start stop).map Prod.snd).all Param.accepted = true ↔
        Deletable catalog schema tagFilters := by
  have hknown : ∀ columns : Dict Str PgType,
      ((numbered (asked schema tagFilters start stop)).all fun c => c.test.known columns) = true ↔
        ∀ e ∈ tagFilters, ∀ col, schema.tagCols.get? e.1 = some col →
          columns.get? (pgIdent col) = some .text := by
    intro columns
    have htests : ((numbered (asked schema tagFilters start stop)).all fun c =>
        c.test.known columns) = (asked schema tagFilters start stop).all fun e =>
          e.1.known columns := by
      rw [numbered, List.all_map]
      conv_rhs => rw [← List.zipIdx_map_fst 1 (asked schema tagFilters start stop), List.all_map]
      rfl
    rw [htests, asked, List.all_append, List.all_append, List.all_map, List.all_map, List.all_map]
    have hbounds : (start.toList.all fun _ => true) = true ∧ (stop.toList.all fun _ => true) = true :=
      ⟨by simp, by simp⟩
    simp only [Function.comp_def, Test.known, hbounds.1, hbounds.2, Bool.true_and,
      List.all_eq_true, decide_eq_true_iff]
    refine forall₂_congr fun e he => ?_
    obtain ⟨col, hcol⟩ := h e he
    simp [hcol]
  have haccepted : ((asked schema tagFilters start stop).map Prod.snd).all Param.accepted = true ↔
      ∀ e ∈ tagFilters, '\x00' ∉ e.2 := by
    simp [asked, Param.accepted]
  rw [haccepted, Option.any_eq_true]
  simp only [hknown, Deletable, forall₂_and, ← exists_and_right, and_assoc]

/-- A statement that is carried out deletes the rows that the call asks for. -/
theorem runDelete_of_deletable (tsdbSchema : Str) {catalog : Dict Str (Dict Str PgType)}
    (hot : Str → Table (Value F)) {schema : TableSchema} (hstored : pgIdent schema.table = schema.table)
    {tagFilters : List (Str × Str)}
    (h : ∀ e ∈ tagFilters, ∃ col, schema.tagCols.get? e.1 = some col) (start stop : Option Time)
    (hdeletable : Deletable catalog schema tagFilters) :
    let kept := (hot schema.table).filter fun k r => !deleteMatches
      (tagFilters.map fun e => (pgIdent ((schema.tagCols.get? e.1).getD []), e.2)) start stop k r.cells
    runDelete tsdbSchema catalog hot (whereOf (asked schema tagFilters start stop)).params
        (deleteSql tsdbSchema schema.table (whereOf (asked schema tagFilters start stop)).clauses) =
      some (Function.update hot schema.table kept,
        (hot schema.table).entries.length - kept.entries.length) := by
  have hread := readDelete_deleteSql tsdbSchema schema.table
    (numbered (asked schema tagFilters start stop))
  rw [runDelete, whereOf, hread, Option.bind_some, hstored,
    if_pos ⟨rfl, (accepts_iff h start stop).mpr hdeletable⟩]
  simp only [all_numbered, all_asked]

/-- A delete call is the statement that it sends. It has the bounds and filters of the
call as its conditions, and is carried out as the call is meant unless the database
refuses it. -/
structure Carried (tsdbSchema : Str) (s : Service F) (measurement : Str)
    (tagFilters : List (Str × Str)) (start stop : Option Time) : Prop where
  unsent : deleteWhere (deleteSchema s measurement).2 tagFilters start stop = none →
    deleteLp s measurement tagFilters start stop = ((deleteSchema s measurement).1, 0)
  sent : ∀ w, deleteWhere (deleteSchema s measurement).2 tagFilters start stop = some w →
    w.params = (asked (deleteSchema s measurement).2 tagFilters start stop).map Prod.snd ∧
      (lex (deleteSql tsdbSchema (deleteSchema s measurement).2.table w.clauses)).bind readDelete =
        some ⟨tsdbSchema, measurementTable measurement,
          numbered (asked (deleteSchema s measurement).2 tagFilters start stop)⟩
  run : ∀ w, deleteWhere (deleteSchema s measurement).2 tagFilters start stop = some w →
    Deletable (deleteSchema s measurement).1.catalog (deleteSchema s measurement).2 tagFilters →
    ∃ hot n, runDelete tsdbSchema (deleteSchema s measurement).1.catalog
        (deleteSchema s measurement).1.hot w.params
        (deleteSql tsdbSchema (deleteSchema s measurement).2.table w.clauses) = some (hot, n) ∧
      deleteLp s measurement tagFilters start stop =
        ({ (deleteSchema s measurement).1 with hot := hot }, n)
  refused : ∀ w, deleteWhere (deleteSchema s measurement).2 tagFilters start stop = some w →
    ¬Deletable (deleteSchema s measurement).1.catalog (deleteSchema s measurement).2 tagFilters →
    runDelete tsdbSchema (deleteSchema s measurement).1.catalog (deleteSchema s measurement).1.hot
      w.params (deleteSql tsdbSchema (deleteSchema s measurement).2.table w.clauses) = none

theorem carried (tsdbSchema : Str) {s : Service F} (hs : Named s) (measurement : Str)
    (tagFilters : List (Str × Str)) (start stop : Option Time) :
    Carried tsdbSchema s measurement tagFilters start stop := by
  have htable : (deleteSchema s measurement).2.table = measurementTable measurement :=
    (Writes.kept_deleteSchema (namedRule measurement) hs).2.table
  have hstored : pgIdent (deleteSchema s measurement).2.table =
      (deleteSchema s measurement).2.table := by
    rw [htable]
    exact (safeName_safeIdent measurement).unescaped.stored
  generalize hschema : (deleteSchema s measurement).2 = schema at htable hstored
  by_cases hfound : ∀ e ∈ tagFilters, ∃ col, schema.tagCols.get? e.1 = some col
  · have hwhere := deleteWhere_eq hfound start stop
    have hcolumns := filterColumns_eq hfound
    have hread := readDelete_deleteSql tsdbSchema schema.table
      (numbered (asked schema tagFilters start stop))
    constructor
    · intro hnone
      rw [hschema, hwhere] at hnone
      contradiction
    · intro w hw
      rw [hschema, hwhere] at hw
      cases hw
      rw [hschema, ← htable]
      exact ⟨rfl, hread⟩
    · intro w hw hdeletable
      rw [hschema, hwhere] at hw
      cases hw
      rw [hschema] at hdeletable ⊢
      exact ⟨_, _, runDelete_of_deletable tsdbSchema _ hstored hfound start stop hdeletable,
        by simp only [deleteLp, hschema, hcolumns]⟩
    · intro w hw hrefused
      rw [hschema, hwhere] at hw
      cases hw
      rw [hschema] at hrefused ⊢
      rw [runDelete, whereOf, hread, Option.bind_some, hstored,
        if_neg fun h => hrefused ((accepts_iff hfound start stop).mp h.2)]
  · push Not at hfound
    obtain ⟨e, he, hmissing⟩ := hfound
    have hnone : schema.tagCols.get? e.1 = none := Option.eq_none_iff_forall_ne_some.mpr hmissing
    have hwhere := deleteWhere_eq_none he hnone start stop
    have hcolumns := filterColumns_eq_none he hnone
    rw [← hschema] at hwhere
    refine ⟨fun _ => ?_, fun w hw => ?_, fun w hw => ?_, fun w hw => ?_⟩
    · simp only [deleteLp, hschema, hcolumns]
    · cases hwhere.symm.trans hw
    · cases hwhere.symm.trans hw
    · cases hwhere.symm.trans hw

/-- In every run, whatever was written and under whichever names. -/
theorem always_carried [Numerics F] (digest : Str → ℕ) (tsdbSchema : Str) (clock : ℕ)
    (events : List (Retries.Event F)) : Runs.Always (Retries.step digest)
      (fun h => ∀ measurement tagFilters start stop,
        Carried tsdbSchema h.service measurement tagFilters start stop)
      (Sequence.start clock) events :=
  Runs.always_of_invariant (I := fun h : History F => Named h.service)
    (fun _ _ _ hs hstep => Retries.kept_step namedCall hs hstep)
    (fun _ hs measurement => carried tsdbSchema hs measurement) (Writes.named_start clock)

end Delete

end TimescaleLp.Statements
