import TimescaleLp.Escaping
import TimescaleLp.Store
import TimescaleLp.Texts

/-!
The line protocol parser. A line has a head (measurement and tags), a field
section and an optional timestamp, separated by spaces. Errors of one line are
collected by `parseBatch`; it catches `LineProtocolError` and no other exception.
-/
namespace TimescaleLp.LineProtocol

open Texts

variable {F : Type}

/-- The names under which `PRECISION_TO_NS` lists a factor. -/
inductive Precision
  | ns
  | us
  | ms
  | s
deriving DecidableEq

def precisionToNs : Precision → ℤ
  | .ns => 1
  | .us => 1000
  | .ms => 1000000
  | .s => 1000000000

/-- The places where the parser raises `LineProtocolError`. -/
inductive LineError
  | emptyOrComment
  | missingSection
  | missingMeasurement
  | invalidTagPair (tp : Str)
  | emptyTagKey
  | invalidFieldPair (fp : Str)
  | emptyFieldKey
  | emptyFieldValue
  | invalidFieldValue (raw : Str)
  | noField
  | invalidTimestamp (ts : Str)
deriving DecidableEq

/-- `str(exc)`; `repr` is how Python quotes a text in a message. -/
def LineError.text (repr : Str → Str) : LineError → Str
  | emptyOrComment => "empty or comment line".toList
  | missingSection => "line protocol requires measurement and at least one field".toList
  | missingMeasurement => "missing measurement".toList
  | invalidTagPair tp => "invalid tag pair: ".toList ++ repr tp
  | emptyTagKey => "empty tag key".toList
  | invalidFieldPair fp => "invalid field pair: ".toList ++ repr fp
  | emptyFieldKey => "empty field key".toList
  | emptyFieldValue => "empty field value".toList
  | invalidFieldValue raw => "invalid field value: ".toList ++ repr raw
  | noField => "at least one field required".toList
  | invalidTimestamp ts => "invalid timestamp: ".toList ++ repr ts

/-- The exceptions that can leave `parse_line`. -/
inductive Raised
  | lineProtocolError (e : LineError)
  | valueError
  | dateError (e : DateError)
deriving DecidableEq

/-- Remove the backslash before a delimiter or another backslash. -/
def unescape (s : Str) (delims : List Char) : Str := Escaping.unescape '\\' delims s

/-- Split on `sep` ignoring backslash-escaped separators and (optionally) quoted regions. -/
def splitTop (s : Str) (sep : Char) (respectQuotes : Bool) : List Str :=
  Escaping.split '\\' '"' sep respectQuotes s

/-- The loop of `_split_top_space` from the character after `prev`. -/
def splitSpaceLoop : Option Char → Bool → Str → Str → List Str
  | _, _, buf, [] => [buf]
  | prev, inQuotes, buf, c :: s =>
    if c = '"' ∧ prev ≠ some '\\' then splitSpaceLoop (some c) (!inQuotes) (buf ++ [c]) s
    else if c = '\\' then
      match s with
      | [] => [buf ++ [c]]
      | d :: s => splitSpaceLoop (some d) inQuotes (buf ++ [c, d]) s
    else if c = ' ' ∧ inQuotes = false then buf :: splitSpaceLoop (some c) inQuotes [] s
    else splitSpaceLoop (some c) inQuotes (buf ++ [c]) s

/-- Split into the sections on unescaped spaces, ignoring spaces inside quoted strings. -/
def splitTopSpace (s : Str) : List Str := splitSpaceLoop none false [] s

theorem splitSpaceLoop_eq (prev : Option Char) (inQuotes : Bool) (buf s : Str) :
    splitSpaceLoop prev inQuotes buf s =
      Escaping.splitLoop '\\' '"' ' ' true prev inQuotes buf s := by
  induction prev, inQuotes, buf, s using splitSpaceLoop.induct with
  | case1 => rfl
  | case2 prev q buf c s hquote ih =>
    rw [Escaping.splitLoop_cons, if_pos ⟨rfl, hquote⟩, ← ih]
    cases s <;> simp only [splitSpaceLoop, if_pos hquote]
  | case3 prev q buf hquote =>
    rw [Escaping.splitLoop_cons, if_neg fun h => hquote h.2, if_pos rfl]
    simp only [splitSpaceLoop, if_neg hquote, if_true]
    rfl
  | case4 prev q buf d s hquote ih =>
    rw [Escaping.splitLoop_cons, if_neg fun h => hquote h.2, if_pos rfl]
    simp only [splitSpaceLoop, if_neg hquote, if_true, ih]
  | case5 prev q buf c s hquote hesc hsep ih =>
    rw [Escaping.splitLoop_cons, if_neg fun h => hquote h.2, if_neg hesc, if_pos hsep, ← ih]
    cases s <;> simp only [splitSpaceLoop, if_neg hquote, if_neg hesc, if_pos hsep]
  | case6 prev q buf c s hquote hesc hsep ih =>
    rw [Escaping.splitLoop_cons, if_neg fun h => hquote h.2, if_neg hesc, if_neg hsep, ← ih]
    cases s <;> simp only [splitSpaceLoop, if_neg hquote, if_neg hesc, if_neg hsep]

/-- The two splitters differ in their constants only. -/
theorem splitTopSpace_eq (s : Str) : splitTopSpace s = splitTop s ' ' true :=
  splitSpaceLoop_eq none false [] s

/-- A value that starts and ends with a double quote is a string. -/
def isQuoted (raw : Str) : Bool :=
  raw.head? = some '"' && raw.getLast? = some '"' && 2 ≤ raw.length

def isTrueWord (raw : Str) : Bool := ["t".toList, "true".toList].contains (lower raw)

def isFalseWord (raw : Str) : Bool := ["f".toList, "false".toList].contains (lower raw)

/-- The suffixes of signed and unsigned integers, which are read alike. -/
def hasSuffix (raw : Str) : Bool := raw.getLast? = some 'i' || raw.getLast? = some 'u'

def parseFieldValue [Numerics F] (raw : Str) : Except Raised (Value F) :=
  if raw = [] then .error (.lineProtocolError .emptyFieldValue)
  else if isQuoted raw then .ok (.str (unescape (raw.drop 1).dropLast ['"']))
  else if isTrueWord raw then .ok (.bool true)
  else if isFalseWord raw then .ok (.bool false)
  else if hasSuffix raw then
    (int raw.dropLast).elim (.error .valueError) (fun n => .ok (.int n))
  else (float raw).elim (.error (.lineProtocolError (.invalidFieldValue raw)))
    (fun x => .ok (.float x))

/-- One tag of the head, set in the tags read before it. -/
def parseTag (tags : Dict Str Str) (tp : Str) : Except Raised (Dict Str Str) :=
  if tp = [] then .ok tags
  else match splitTop tp '=' false with
    | [k, v] =>
      if unescape k [',', '=', ' '] = [] then .error (.lineProtocolError .emptyTagKey)
      else .ok (tags.set (unescape k [',', '=', ' ']) (unescape v [',', '=', ' ']))
    | _ => .error (.lineProtocolError (.invalidTagPair tp))

/-- Measurement and tags. -/
def parseHead (head : Str) : Except Raised (Str × Dict Str Str) :=
  let headParts := splitTop head ',' false
  let measurement := unescape (headParts.headD []) [',', ' ']
  if measurement = [] then .error (.lineProtocolError .missingMeasurement)
  else (headParts.tail.foldlM parseTag Dict.empty).map fun tags => (measurement, tags)

def parseField [Numerics F] (fields : Dict Str (Value F)) (fp : Str) :
    Except Raised (Dict Str (Value F)) :=
  if fp = [] then .ok fields
  else match splitTop fp '=' true with
    | [k, v] =>
      if unescape k [',', '=', ' '] = [] then .error (.lineProtocolError .emptyFieldKey)
      else (parseFieldValue v).map fun value => fields.set (unescape k [',', '=', ' ']) value
    | _ => .error (.lineProtocolError (.invalidFieldPair fp))

def parseFields [Numerics F] (section_ : Str) : Except Raised (Dict Str (Value F)) := do
  let fields ← (splitTop section_ ',' true).foldlM parseField Dict.empty
  if fields.entries = [] then .error (.lineProtocolError .noField) else .ok fields

/-- The time of a line; an absent or empty timestamp section means the default,
and without one the clock. -/
def parseTime (precision : Precision) (defaultTsNs : Option ℤ) (now : Time)
    (tsSection : Option Str) : Except Raised Time :=
  if tsSection.getD [] ≠ [] then
    match int (tsSection.getD []) with
    | none => .error (.lineProtocolError (.invalidTimestamp (tsSection.getD [])))
    | some tsRaw => (fromTimestamp (tsRaw * precisionToNs precision)).mapError .dateError
  else match defaultTsNs with
    | some ns => (fromTimestamp ns).mapError .dateError
    | none => .ok now

def isComment (line : Str) : Bool := line.head? = some '#'

def parseSections [Numerics F] (precision : Precision) (defaultTsNs : Option ℤ) (now : Time) :
    List Str → Except Raised (Point F)
  | head :: fieldsSection :: rest => do
    let (measurement, tags) ← parseHead head
    let fields ← parseFields fieldsSection
    let time ← parseTime precision defaultTsNs now rest.head?
    return ⟨measurement, tags, fields, time⟩
  | _ => .error (.lineProtocolError .missingSection)

def parseLine [Numerics F] (precision : Precision) (defaultTsNs : Option ℤ) (now : Time)
    (line : Str) : Except Raised (Point F) :=
  if strip line = [] ∨ isComment (strip line) then .error (.lineProtocolError .emptyOrComment)
  else parseSections precision defaultTsNs now (splitTopSpace (strip line))

/-- The loop of `parse_batch` over numbered lines with what it has collected. The
clock is read once for each line. -/
def parseBatchLoop [Numerics F] (repr : Str → Str) (precision : Precision) (now : ℕ → Time)
    (points : List (Point F)) (errors : List (ℕ × Str)) :
    List (ℕ × Str) → Except Raised (List (Point F) × List (ℕ × Str))
  | [] => .ok (points, errors)
  | (number, raw) :: lines =>
    if strip raw = [] ∨ isComment (strip raw) then
      parseBatchLoop repr precision now points errors lines
    else match parseLine precision none (now number) (strip raw) with
      | .ok p => parseBatchLoop repr precision now (points ++ [p]) errors lines
      | .error (.lineProtocolError e) =>
        parseBatchLoop repr precision now points (errors ++ [(number, e.text repr)]) lines
      | .error e => .error e

/-- Lines with their numbers, the first one being 1. -/
def numbered (lines : List Str) : List (ℕ × Str) :=
  lines.zipIdx.map fun e => (e.2 + 1, e.1)

/-- Parse a multi-line payload into points and errors. -/
def parseBatch [Numerics F] (repr : Str → Str) (precision : Precision) (now : ℕ → Time)
    (body : Str) : Except Raised (List (Point F) × List (ℕ × Str)) :=
  parseBatchLoop repr precision now [] [] (numbered (splitlines body))

end TimescaleLp.LineProtocol
