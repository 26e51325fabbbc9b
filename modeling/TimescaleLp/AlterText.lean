import TimescaleLp.Statements
import TimescaleLp.TypeSafety

/-!
The statements of a schema step. A promotion names its casts one by one, and
Postgres knows fewer casts than the service needs: a boolean becomes a number by
way of an integer. Read back and carried out cast by cast, the transaction of a call
is the migration of its table.
-/
namespace TimescaleLp.AlterText

open Names Schema Store Naming Promotion Alters FieldTypes TypeSafety SafeNames Lexing Statements

variable {F : Type}

def sqlType : PgType → Str
  | .boolean => "BOOLEAN".toList
  | .bigint => "BIGINT".toList
  | .doublePrecision => "DOUBLE PRECISION".toList
  | .text => "TEXT".toList
  | .real => "REAL".toList
  | .other dtype => dtype

/-- `_alter_using` -/
def alterUsing (col : Str) (fromType toType : PgType) : Str :=
  let target := (sqlType toType).map Char.toLower
  ['('] ++ (quoteIdent col ++
    if fromType = .boolean ∧ (toType = .bigint ∨ toType = .doublePrecision) then
      ")::int::".toList ++ target
    else ")::".toList ++ target)

/-- A statement of the transaction in `_ensure_schema` -/
def alterSql (tsdbSchema table : Str) (mg : Migration) : Str :=
  "ALTER TABLE ".toList ++ (qualified tsdbSchema table ++
    match mg with
    | .addTag t =>
      " ADD COLUMN IF NOT EXISTS ".toList ++ (quoteIdent (tagCol t) ++ " TEXT".toList)
    | .addField f ty =>
      " ADD COLUMN IF NOT EXISTS ".toList ++ (quoteIdent (fieldCol f) ++ ([' '] ++ sqlType ty))
    | .widen _ col fromType toType =>
      " ALTER COLUMN ".toList ++ (quoteIdent col ++ (" TYPE ".toList ++ (sqlType toType ++
        (" USING ".toList ++ alterUsing col fromType toType)))))

/-- Types that a cast can name. -/
inductive CastType
  | int
  | column (ty : PgType)
deriving DecidableEq

inductive Action
  | add (col : Str) (ty : PgType)
  | retype (col : Str) (ty : PgType) (source : Str) (casts : List CastType)

structure AlterStatement where
  schema : Str
  table : Str
  action : Action

def readType : List Token → Option (CastType × List Token)
  | .word w :: ts =>
    if w = "int".toList then some (.int, ts)
    else if w = "boolean".toList then some (.column .boolean, ts)
    else if w = "bigint".toList then some (.column .bigint, ts)
    else if w = "text".toList then some (.column .text, ts)
    else if w = "double".toList then
      (expect [.word "precision".toList] ts).map (.column .doublePrecision, ·)
    else none
  | _ => none

/-- A column cannot have a type that is not one of the service's. -/
def readColumnType (ts : List Token) : Option (PgType × List Token) :=
  (readType ts).bind fun e =>
    match e.1 with
    | .column ty => some (ty, e.2)
    | .int => none

/-- Casts up to the end of the statement. -/
def readCasts : ℕ → List Token → Option (List CastType)
  | _, [] => some []
  | 0, _ => none
  | n + 1, ts => do
    let ts ← expect [.sym ':', .sym ':'] ts
    let (ty, ts) ← readType ts
    (readCasts n ts).map (ty :: ·)

def readIdent : List Token → Option (Str × List Token)
  | .ident name :: ts => some (name, ts)
  | _ => none

def addColumnIfNotExists : List Token :=
  [.word "add".toList, .word "column".toList, .word "if".toList, .word "not".toList,
    .word "exists".toList]

def readAction (ts : List Token) : Option Action :=
  match expect addColumnIfNotExists ts with
  | some ts => do
    let (col, ts) ← readIdent ts
    let (ty, ts) ← readColumnType ts
    if ts = [] then some (.add col ty) else none
  | none => do
    let ts ← expect [.word "alter".toList, .word "column".toList] ts
    let (col, ts) ← readIdent ts
    let ts ← expect [.word "type".toList] ts
    let (ty, ts) ← readColumnType ts
    let ts ← expect [.word "using".toList, .sym '('] ts
    let (source, ts) ← readIdent ts
    let ts ← expect [.sym ')'] ts
    (readCasts ts.length ts).map (.retype col ty source)

def readAlter (ts : List Token) : Option AlterStatement := do
  let ts ← expect [.word "alter".toList, .word "table".toList] ts
  let (schema, table, ts) ← readQualified ts
  (readAction ts).map (⟨schema, table, ·⟩)

section Running

variable [Numerics F]

/-- `int` has 32 bits. -/
def toInt4 (n : ℤ) : Option (Value F) :=
  if -2 ^ 31 ≤ n ∧ n < 2 ^ 31 then some (.int n) else none

/-- One cast of Postgres. A boolean is cast to an integer and to a text only. -/
def castTo : CastType → Value F → Option (Value F)
  | .int, .bool b => some (.int (if b then 1 else 0))
  | .int, .int n => toInt4 n
  | .int, .float x => (Numerics.pgToInt x).bind toInt4
  | .int, .str s => (Numerics.pgIntOfText F s).bind toInt4
  | .column .boolean, .bool b => some (.bool b)
  | .column .bigint, .int n => some (.int n)
  | .column .bigint, .float x => (Numerics.pgToInt x).map .int
  | .column .bigint, .str s => (Numerics.pgIntOfText F s).map .int
  | .column .doublePrecision, .int n => some (.float (Numerics.ofInt n))
  | .column .doublePrecision, .float x => some (.float x)
  | .column .doublePrecision, .str s => (Numerics.pgOfText s).map .float
  | .column .text, .bool b => some (.str (if b then "true".toList else "false".toList))
  | .column .text, .int n => some (.str (intText n))
  | .column .text, .float x => some (.str (Numerics.pgText x))
  | .column .text, .str s => some (.str s)
  | _, _ => none

def castThrough (casts : List CastType) (v : Value F) : Option (Value F) :=
  casts.foldlM (fun v ty => castTo ty v) v

/-- The new value of the column in a row. -/
def recomputed (source : Str) (casts : List CastType) (cells : Cells (Value F)) :
    Option (Value F) :=
  (cells (pgIdent source)).bind (castThrough casts)

/-- A column that does not exist is an error, and so is a value without a cast. -/
def retype (s : Service F) (table col : Str) (ty : PgType) (source : Str) (casts : List CastType) :
    Option (Service F) :=
  let columns := columnsOf s table
  if columns.contains (pgIdent col) ∧ columns.contains (pgIdent source) ∧
      ∀ r ∈ (s.hot table).values, ∀ v ∈ r.cells (pgIdent source), (castThrough casts v).isSome then
    some { s with
      catalog := s.catalog.set table (columns.set (pgIdent col) ty)
      hot := Function.update s.hot table ((s.hot table).map fun _ r =>
        ⟨r.seq, fun c => if c = pgIdent col then recomputed source casts r.cells else r.cells c⟩) }
  else none

def runAction (s : Service F) (table : Str) : Action → Option (Service F)
  | .add col ty => some (addColumn s table col ty)
  | .retype col ty source casts => retype s table col ty source casts

def runAlter (tsdbSchema : Str) (s : Service F) (sql : Str) : Option (Service F) :=
  ((lex sql).bind readAlter).bind fun a =>
    if pgIdent a.schema = pgIdent tsdbSchema then runAction s (pgIdent a.table) a.action else none

end Running

section Reading

/-- The types of the columns that the service makes. -/
def columnTypes : List PgType := [.boolean, .bigint, .doublePrecision, .text]

theorem inferFieldType_mem (v : Value F) : inferFieldType v ∈ columnTypes := by
  cases v <;> simp [inferFieldType, columnTypes]

def typeTokens : PgType → List Token
  | .boolean => [.word "boolean".toList]
  | .bigint => [.word "bigint".toList]
  | .doublePrecision => [.word "double".toList, .word "precision".toList]
  | .text => [.word "text".toList]
  | _ => []

theorem lex_sqlType : ∀ ty ∈ columnTypes, lex (sqlType ty) = some (typeTokens ty) := by
  decide +kernel

theorem apart_sqlType {ty : PgType} (hty : ty ∈ columnTypes) {rest : Str}
    (hrest : ∀ c ∈ rest.head?, isWordChar c = false) :
    Apart (scan .plain (sqlType ty)).1 rest := by
  have hmode : ∀ ty ∈ columnTypes, (scan .plain (sqlType ty)).1 = .word "BOOLEAN".toList ∨
      (scan .plain (sqlType ty)).1 = .word "BIGINT".toList ∨
      (scan .plain (sqlType ty)).1 = .word "PRECISION".toList ∨
      (scan .plain (sqlType ty)).1 = .word "TEXT".toList := by
    decide +kernel
  have hword : ∃ w, (scan .plain (sqlType ty)).1 = .word w := by
    rcases hmode ty hty with h | h | h | h <;> exact ⟨_, h⟩
  obtain ⟨w, hw⟩ := hword
  intro c hc
  rw [hw, goesOn, if_neg]
  simp [hrest c hc]

theorem readColumnType_typeTokens {ty : PgType} (hty : ty ∈ columnTypes) (ts : List Token) :
    readColumnType (typeTokens ty ++ ts) = some (ty, ts) := by
  have hint : ∀ w ∈ ["boolean", "bigint", "text", "double"], w.toList ≠ "int".toList := by
    decide +kernel
  have hboolean : ∀ w ∈ ["bigint", "text", "double"], w.toList ≠ "boolean".toList := by
    decide +kernel
  have hbigint : ∀ w ∈ ["text", "double"], w.toList ≠ "bigint".toList := by decide +kernel
  have hdouble : "double".toList ≠ "text".toList := by decide +kernel
  have hcases : ty = .boolean ∨ ty = .bigint ∨ ty = .doublePrecision ∨ ty = .text := by
    simpa [columnTypes] using hty
  unfold readColumnType readType typeTokens
  rcases hcases with rfl | rfl | rfl | rfl
  · change Option.bind (if "boolean".toList = "int".toList then _ else _) _ = _
    rw [if_neg (hint "boolean" (by simp)), if_pos rfl]
    rfl
  · change Option.bind (if "bigint".toList = "int".toList then _ else _) _ = _
    rw [if_neg (hint "bigint" (by simp)), if_neg (hboolean "bigint" (by simp)), if_pos rfl]
    rfl
  · change Option.bind (if "double".toList = "int".toList then _ else _) _ = _
    rw [if_neg (hint "double" (by simp)), if_neg (hboolean "double" (by simp)),
      if_neg (hbigint "double" (by simp)), if_neg hdouble, if_pos rfl]
    change Option.bind (Option.map _ (expect [.word "precision".toList]
      ([.word "precision".toList] ++ ts))) _ = _
    rw [expect_append]
    rfl
  · change Option.bind (if "text".toList = "int".toList then _ else _) _ = _
    rw [if_neg (hint "text" (by simp)), if_neg (hboolean "text" (by simp)),
      if_neg (hbigint "text" (by simp)), if_pos rfl]
    rfl

/-- The casts that a promotion names. -/
def castsOf (fromType toType : PgType) : List CastType :=
  if fromType = .boolean ∧ (toType = .bigint ∨ toType = .doublePrecision) then
    [.int, .column toType]
  else [.column toType]

/-- The casts are read up to the end. -/
theorem exists_casts {toType : PgType} (hty : toType ∈ columnTypes) (fromType : PgType) : ∃ ts,
    lex (if fromType = .boolean ∧ (toType = .bigint ∨ toType = .doublePrecision) then
        ")::int::".toList ++ (sqlType toType).map Char.toLower
      else ")::".toList ++ (sqlType toType).map Char.toLower) = some ([.sym ')'] ++ ts) ∧
    readCasts ts.length ts = some (castsOf fromType toType) := by
  have hint : ∀ ty ∈ columnTypes, lex (")::int::".toList ++ (sqlType ty).map Char.toLower) =
        some ([.sym ')'] ++ ([.sym ':', .sym ':', .word "int".toList, .sym ':', .sym ':'] ++
          typeTokens ty)) ∧
      readCasts (5 + (typeTokens ty).length) ([.sym ':', .sym ':', .word "int".toList, .sym ':',
        .sym ':'] ++ typeTokens ty) = some [.int, .column ty] := by
    decide +kernel
  have hdirect : ∀ ty ∈ columnTypes, lex (")::".toList ++ (sqlType ty).map Char.toLower) =
        some ([.sym ')'] ++ ([.sym ':', .sym ':'] ++ typeTokens ty)) ∧
      readCasts (2 + (typeTokens ty).length) ([.sym ':', .sym ':'] ++ typeTokens ty) =
        some [.column ty] := by
    decide +kernel
  by_cases hvia : fromType = .boolean ∧ (toType = .bigint ∨ toType = .doublePrecision)
  · rw [if_pos hvia, castsOf, if_pos hvia]
    refine ⟨_, (hint toType hty).1, ?_⟩
    rw [List.length_append]
    exact (hint toType hty).2
  · rw [if_neg hvia, castsOf, if_neg hvia]
    refine ⟨_, (hdirect toType hty).1, ?_⟩
    rw [List.length_append]
    exact (hdirect toType hty).2

/-- What a statement does, under the names that it has. -/
def actionOf : Migration → Action
  | .addTag t => .add (tagCol t) .text
  | .addField f ty => .add (fieldCol f) ty
  | .widen _ col fromType toType => .retype col toType col (castsOf fromType toType)

/-- The type that a statement gives to its column. -/
def typeOf : Migration → PgType
  | .addTag _ => .text
  | .addField _ ty => ty
  | .widen _ _ _ toType => toType

theorem readAction_add (col : Str) {ty : PgType} (hty : ty ∈ columnTypes) :
    readAction (addColumnIfNotExists ++ (.ident col :: typeTokens ty)) = some (.add col ty) := by
  have hread := readColumnType_typeTokens hty []
  rw [List.append_nil] at hread
  rw [readAction, expect_append]
  simp only [readIdent, hread, bind, Option.bind_some]
  rw [if_pos trivial]

theorem readAction_retype (col source : Str) {ty : PgType} (hty : ty ∈ columnTypes)
    {casts : List CastType} {ts : List Token} (hcasts : readCasts ts.length ts = some casts) :
    readAction ([.word "alter".toList, .word "column".toList] ++ (.ident col ::
      ([.word "type".toList] ++ (typeTokens ty ++ ([.word "using".toList, .sym '('] ++
        (.ident source :: ([.sym ')'] ++ ts))))))) = some (.retype col ty source casts) := by
  have hno : ∀ ts, expect addColumnIfNotExists
      ([.word "alter".toList, .word "column".toList] ++ ts) = none := by
    intro ts
    have hne : Token.word "add".toList ≠ .word "alter".toList := by decide +kernel
    rw [expect, if_neg]
    exact fun h => hne (List.cons_prefix_cons.mp h).1
  rw [readAction, hno]
  simp only [expect_append, readIdent, readColumnType_typeTokens hty, bind, Option.bind_some, hcasts]
  rfl

theorem readAlter_alterSql (tsdbSchema table : Str) {mg : Migration}
    (hty : typeOf mg ∈ columnTypes) : (lex (alterSql tsdbSchema table mg)).bind readAlter =
      some ⟨tsdbSchema, table, actionOf mg⟩ := by
  have htable : scan .plain "ALTER TABLE ".toList =
      (.plain, [.word "alter".toList, .word "table".toList]) := by
    decide +kernel
  have hadd : scan .plain " ADD COLUMN IF NOT EXISTS ".toList = (.plain, addColumnIfNotExists) := by
    decide +kernel
  have hread : ∀ text ts, lex text = some ts → text.head? ≠ some '"' →
      readAction ts = some (actionOf mg) →
      (lex ("ALTER TABLE ".toList ++ (qualified tsdbSchema table ++ text))).bind readAlter =
        some ⟨tsdbSchema, table, actionOf mg⟩ := by
    intro text ts hlex hhead haction
    rw [lex_append_plain htable, lex_qualified _ _ hhead, hlex]
    simp only [Option.map_some, Option.bind_some, readAlter, expect_append, readQualified_append,
      bind, haction]
  cases mg with
  | addTag t =>
    have htext : lex " TEXT".toList = some (typeTokens .text) := by decide +kernel
    unfold alterSql
    refine hread _ _ ?_ (by simp) (readAction_add (tagCol t) hty)
    rw [lex_append_plain hadd, lex_ident _ (by simp), htext]
    rfl
  | addField f ty =>
    have hspace : scan .plain [' '] = (.plain, []) := by decide
    unfold alterSql
    refine hread _ _ ?_ (by simp) (readAction_add (fieldCol f) hty)
    rw [lex_append_plain hadd, lex_ident _ (by simp), lex_append_plain hspace, lex_sqlType ty hty]
    rfl
  | widen f col fromType toType =>
    have halter : scan .plain " ALTER COLUMN ".toList =
        (.plain, [.word "alter".toList, .word "column".toList]) := by
      decide +kernel
    have htype : scan .plain " TYPE ".toList = (.plain, [.word "type".toList]) := by decide +kernel
    have husing : scan .plain " USING ".toList = (.plain, [.word "using".toList]) := by
      decide +kernel
    have hopen : scan .plain ['('] = (.plain, [.sym '(']) := by decide
    have hspace : isWordChar ' ' = false := by decide
    replace hty : toType ∈ columnTypes := hty
    obtain ⟨ts, hcasts, hread'⟩ := exists_casts hty fromType
    unfold alterSql
    refine hread _ _ ?_ (by simp) (readAction_retype col col hty hread')
    rw [lex_append_plain halter, lex_ident _ (by simp), lex_append_plain htype,
      lex_append (lex_sqlType toType hty) (apart_sqlType hty (by simpa using hspace)),
      lex_append_plain husing]
    unfold alterUsing
    rw [lex_append_plain hopen, lex_ident _ (by split <;> simp), hcasts]
    rfl

example : alterSql "lp".toList "m".toList (.widen ['v'] "f_v".toList .boolean .bigint) =
    "ALTER TABLE \"lp\".\"m\" ALTER COLUMN \"f_v\" TYPE BIGINT USING (\"f_v\")::int::bigint".toList := by
  decide +kernel

end Reading

section Steps

variable [Numerics F] {s s' : Service F} {schema schema' : TableSchema} {mg : Migration}

/-- The casts that are named make one promotion. -/
theorem castThrough_castsOf {ty : PgType} {v w : Value F} (hv : Holds ty v)
    (hlt : typeRank ty < typeRank (inferFieldType w)) :
    castThrough (castsOf ty (inferFieldType w)) v = castValue ty (inferFieldType w) v := by
  obtain ⟨rfl, -⟩ := hv
  cases v with
  | bool b =>
    cases w with
    | bool b' => exact absurd hlt (Nat.lt_irrefl _)
    | int n => rfl
    | float x => rfl
    | str s => rfl
  | int n =>
    cases w with
    | float x => rfl
    | str s => rfl
    | _ => simp [inferFieldType, typeRank] at hlt
  | float x =>
    cases w with
    | str s => rfl
    | _ => simp [inferFieldType, typeRank] at hlt
  | str s => cases w <;> simp [inferFieldType, typeRank] at hlt

/-- A promotion cast by cast, where the values are of the type of their column. -/
theorem retype_eq {table f col : Str} {fromType toType : PgType}
    (h : Typed (columnsOf s table) (s.hot table))
    (hready : Ready F (columnsOf s table) (.widen f col fromType toType)) :
    retype s table col toType col (castsOf fromType toType) =
      alterColumnType s table col fromType toType := by
  rw [alterColumnType_eq h hready]
  have hcastable := h.castable hready
  obtain ⟨f', w, hcol, hget, rfl, hlt⟩ := hready
  have hcasts : ∀ r ∈ (s.hot table).values, ∀ v, r.cells (pgIdent col) = some v →
      castThrough (castsOf fromType (inferFieldType w)) v =
        castValue fromType (inferFieldType w) v := by
    intro r hr v hv
    obtain ⟨k, hk⟩ := (Dict.mem_values_iff _ r).mp hr
    rw [hcol] at hv hget
    obtain ⟨ty, hty, hholds⟩ := h k r f' v hk hv
    cases hget.symm.trans hty
    exact castThrough_castsOf hholds hlt
  have hexists : (columnsOf s table).contains (pgIdent col) = true := by
    rw [Dict.contains, hget]
    rfl
  have hsome : ∀ r ∈ (s.hot table).values, ∀ v ∈ r.cells (pgIdent col),
      (castThrough (castsOf fromType (inferFieldType w)) v).isSome = true := by
    intro r hr v hv
    rw [hcasts r hr v hv]
    exact (Option.all_eq_true ..).mp (List.all_eq_true.mp hcastable r hr) v hv
  have hcells : (s.hot table).map (fun _ r => (⟨r.seq, fun c => if c = pgIdent col then
        recomputed col (castsOf fromType (inferFieldType w)) r.cells else r.cells c⟩ :
          Stored (Value F))) =
      (s.hot table).map fun _ r =>
        ⟨r.seq, castCells (pgIdent col) fromType (inferFieldType w) r.cells⟩ := by
    refine Dict.map_congr _ fun k r hr => ?_
    congr 1
    funext c
    rw [castCells]
    split
    · rename_i hc
      rw [recomputed, hc]
      exact Option.bind_congr fun v hv => hcasts r hr v hv
    · rfl
  rw [retype]
  simp only [hexists, true_and]
  rw [if_pos hsome, hcells]

theorem runAction_actionOf (h : Typed (columnsOf s schema.table) (s.hot schema.table))
    (hready : Ready F (columnsOf s schema.table) mg) :
    runAction s schema.table (actionOf mg) = (migrate s schema mg).map Prod.fst := by
  cases mg with
  | addTag t => rfl
  | addField f ty => rfl
  | widen f col fromType toType =>
    rw [actionOf, runAction, retype_eq h hready, migrate, Option.map_map]
    exact (Option.map_id_apply ..).symm

/-- The statements of a transaction, one after the other. -/
theorem foldlM_runAlter (tsdbSchema : Str) {ms : List Migration}
    (h : Typed (columnsOf s schema.table) (s.hot schema.table))
    (hready : ∀ mg ∈ ms, Ready F (columnsOf s schema.table) mg)
    (hapart : ms.Pairwise TypeSafety.Apart) (htypes : ∀ mg ∈ ms, typeOf mg ∈ columnTypes)
    (hstored : pgIdent schema.table = schema.table) :
    (ms.map (alterSql tsdbSchema schema.table)).foldlM (runAlter tsdbSchema) s =
      (migrateAll s schema ms).1 := by
  induction ms generalizing s schema with
  | nil => rfl
  | cons mg ms ih =>
    obtain ⟨hfirst, hrest⟩ := List.pairwise_cons.mp hapart
    obtain ⟨s₁, schema₁, hmg, htyped⟩ := migrate_typed h (hready mg List.mem_cons_self)
    have htable : schema₁.table = schema.table := by rw [(migrate_ok hmg).1, noted_table]
    have hcolumns := columnsOf_migrate hmg schema.table
    rw [if_pos rfl] at hcolumns
    have hrun : runAlter tsdbSchema s (alterSql tsdbSchema schema.table mg) = some s₁ := by
      rw [runAlter, readAlter_alterSql tsdbSchema schema.table (htypes mg List.mem_cons_self),
        Option.bind_some, if_pos rfl, hstored, runAction_actionOf h (hready mg List.mem_cons_self), hmg]
      rfl
    rw [List.map_cons, List.foldlM_cons, hrun, migrateAll, hmg]
    rw [← htable] at htyped hcolumns hstored ⊢
    refine ih htyped (fun mg' hmg' => ?_) hrest
      (fun mg' hmg' => htypes mg' (List.mem_cons_of_mem mg hmg')) hstored
    rw [hcolumns, htable]
    exact (hready mg' (List.mem_cons_of_mem mg hmg')).altered (hfirst mg' hmg')

end Steps

section Runs

variable [Numerics F] (digest : Str → ℕ) (tsdbSchema : Str) {m : Str} {names : Set Str}
  {vs : Str → Set (Value F)} {s : Service F} {tagNames : List Str} {samples : Dict Str (Value F)}

omit [Numerics F] in
theorem typeOf_issued (htypes : Types m names vs s)
    (hnames : ∀ f v, samples.get? f = some v → f ∈ names) :
    ∀ mg ∈ callMigrations s m tagNames samples, typeOf mg ∈ columnTypes := by
  intro mg hmg
  have hready := ready_issued htypes hnames mg hmg
  cases mg with
  | addTag t =>
    change PgType.text ∈ columnTypes
    decide
  | addField f ty =>
    obtain ⟨v, -, -, rfl⟩ := (addField_mem_migrations_iff _ _).mp hmg
    exact inferFieldType_mem v
  | widen f col fromType toType =>
    obtain ⟨f', w, -, -, rfl, -⟩ := hready
    exact inferFieldType_mem w

/-- The database once the table of a measurement is there. -/
def opened (s : Service F) (m : Str) : Service F :=
  if s.cache.contains m then s else (createOrLoad s m).1

/-- The schema step of a call is the transaction that it sends: the statements are all
carried out, and the catalog and the rows are then those after the step. -/
def SentAs (s : Service F) (g : Str × List (Point F)) : Prop :=
  ∃ t s' schema, ensureSchema s g.1 (Store.tagNames g.2) (fieldSamples g.2) = (s', some schema) ∧
    ((callMigrations s g.1 (Store.tagNames g.2) (fieldSamples g.2)).map
      (alterSql tsdbSchema (measurementTable g.1))).foldlM (runAlter tsdbSchema) (opened s g.1) =
        some t ∧ t.catalog = s'.catalog ∧ t.hot = s'.hot

variable {points : List (Point F)}

theorem sentAs (htypes : Types m names vs s)
    (hnames : ∀ f v, (fieldSamples points).get? f = some v → f ∈ names)
    (hinj : Set.InjOn colOfField names)
    (htyped : Typed (columnsOf s (measurementTable m)) (s.hot (measurementTable m))) :
    SentAs tsdbSchema s (m, points) := by
  have htable := (htypes.named.schemaOf m).table
  have hstored : pgIdent (measurementTable m) = measurementTable m :=
    (safeName_safeIdent m).unescaped.stored
  have hready : ∀ mg ∈ callMigrations s m (Store.tagNames points) (fieldSamples points),
      Ready F (columnsOf s (measurementTable m)) mg := ready_issued htypes hnames
  have hapart : (callMigrations s m (Store.tagNames points) (fieldSamples points)).Pairwise
      TypeSafety.Apart := apart_issued htypes hnames hinj
  have hissued : ∀ mg ∈ callMigrations s m (Store.tagNames points) (fieldSamples points),
      typeOf mg ∈ columnTypes := typeOf_issued htypes hnames
  have hlocked : ∀ s₀ : Service F, columnsOf s₀ (measurementTable m) =
      columnsOf s (measurementTable m) → s₀.hot = s.hot →
      ∃ t s' schema, lockedUpdate s₀ m (schemaOf s m) (Store.tagNames points)
          (fieldSamples points) = (s', some schema) ∧
        ((callMigrations s m (Store.tagNames points) (fieldSamples points)).map
          (alterSql tsdbSchema (measurementTable m))).foldlM (runAlter tsdbSchema) s₀ = some t ∧
        t.catalog = s'.catalog ∧ t.hot = s'.hot := by
    intro s₀ hcolumns hhot
    rw [← htable] at htyped hready hcolumns hstored ⊢
    rw [← hcolumns, ← hhot] at htyped
    rw [← hcolumns] at hready
    have hrun := foldlM_runAlter tsdbSchema htyped hready hapart hissued hstored
    obtain ⟨t, schema', hall, -⟩ := migrateAll_typed htyped hready hapart
    refine ⟨t, { t with cache := t.cache.set m schema' }, schema', ?_, ?_, rfl, rfl⟩
    · rw [lockedUpdate, ← callMigrations, hall]
    · rw [hrun, hall]
  rw [SentAs, opened]
  simp only [ensureSchema]
  cases hcached : s.cache.get? m with
  | none =>
    rw [schemaOf_of_none hcached] at hlocked
    rw [if_neg (by simp [Dict.contains, hcached])]
    exact hlocked (createOrLoad s m).1 (columnsOf_createOrLoad s m _) rfl
  | some cached =>
    rw [schemaOf_of_cached hcached] at hlocked
    rw [if_pos (by simp [Dict.contains, hcached])]
    simp only
    split
    · exact hlocked s rfl rfl
    · rename_i hupdate
      refine ⟨s, s, cached, rfl, ?_, rfl, rfl⟩
      rw [callMigrations, schemaOf_of_cached hcached, migrations_eq_nil (by simpa using hupdate)]
      rfl

/-- At every write of a workload whose names have columns of their own. -/
theorem sentAs_of_safe {batches : List (List (Point F))} (hsane : Sane batches)
    (hs : Safe batches s) {g : Str × List (Point F)} (hg : g ∈ groupsOf batches) :
    SentAs tsdbSchema s g := by
  have hpart := part_of_mem hg
  obtain ⟨vs, htypes, -⟩ := hs.exists_types hpart
  exact sentAs tsdbSchema htypes hpart.seen_of_sample (hsane.injOn g.1) (hs.typed _)

end Runs

end TimescaleLp.AlterText
