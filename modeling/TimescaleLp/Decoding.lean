import TimescaleLp.Encoding

/-!
The parser reads an encoded point back, as long as the double quotes of its
names come in pairs for the scans and no string closes with an escaped backslash
where something follows it.
-/
namespace TimescaleLp.LineProtocol

open Texts Escaping Folds

variable {F : Type}

theorem unescape_encodeMeasurement (m : Str) : unescape (encodeMeasurement m) [',', ' '] = m :=
  unescape_escape '\\' (fun _ h => h) m

theorem unescape_encodeName (name : Str) : unescape (encodeName name) [',', '=', ' '] = name :=
  unescape_escape '\\' (fun _ h => h) name

/-- An integer that Python reads back from its numeral. -/
def Fits : Value F → Prop
  | .int n => n.natAbs < 10 ^ maxStrDigits
  | _ => True

section Head

theorem splitTop_encodeTag (tag : Str × Str) :
    splitTop (encodeTag tag) '=' false = [encodeName tag.1, encodeName tag.2] := by
  have hkey : Scans '=' false none false (encodeName tag.1) _ false :=
    scans_name_raw (by decide) none false tag.1
  have hvalue : Scans '=' false (some '=') false (encodeName tag.2) _ false :=
    scans_name_raw (by decide) (some '=') false tag.2
  unfold splitTop split encodeTag
  rw [splitLoop_cons_of_passes (by decide) (by decide) hkey, splitLoop_of_passes hvalue,
    List.nil_append]

theorem parseTag_encodeTag (tags : Dict Str Str) {tag : Str × Str} (hkey : tag.1 ≠ []) :
    parseTag tags (encodeTag tag) = .ok (tags.set tag.1 tag.2) := by
  have hne : encodeTag tag ≠ [] := List.append_ne_nil_of_right_ne_nil _ (List.cons_ne_nil _ _)
  unfold parseTag
  rw [if_neg hne, splitTop_encodeTag]
  simp only [unescape_encodeName, hkey, if_false]

theorem scans_encodeTag (prev : Option Char) (tag : Str × Str) :
    ∃ prev', Scans ',' false prev false (encodeTag tag) prev' false := by
  have hkey := scans_name_raw (by decide : ',' ∈ delimiters) prev false tag.1
  have heq : Scans ',' false (lastOf prev tag.1) false ['='] (some '=') false :=
    scans_delimiter (by decide) (by decide) _ _
  have hvalue := scans_name_raw (by decide : ',' ∈ delimiters) (some '=') false tag.2
  exact ⟨_, hkey.append (heq.append hvalue)⟩

/-- The head splits into the measurement and the tags. -/
theorem splitTop_encodeHead (m : Str) (tags : List (Str × Str)) :
    splitTop (encodeHead m tags) ',' false = encodeMeasurement m :: tags.map encodeTag := by
  have hloop : ∀ (tags : List (Str × Str)) (prev prev' : Option Char) (u : Str),
      Scans ',' false prev false u prev' false →
      splitLoop '\\' '"' ',' false prev false [] (u ++ tags.flatMap fun tag => ',' :: encodeTag tag) =
        u :: tags.map encodeTag := by
    intro tags
    induction tags with
    | nil =>
      intro prev prev' u hu
      rw [List.flatMap_nil, List.append_nil]
      exact splitLoop_of_passes hu []
    | cons tag tags ih =>
      intro prev prev' u hu
      obtain ⟨prev'', htag⟩ := scans_encodeTag (some ',') tag
      rw [List.flatMap_cons, List.cons_append, splitLoop_cons_of_passes (by decide) (by decide) hu,
        ih _ _ _ htag, List.map_cons]
  have hm : Scans ',' false none false (encodeMeasurement m) _ false :=
    passes_escape_raw (by decide) (by decide) none false m
  exact hloop tags none _ _ hm

theorem parseHead_encodeHead {m : Str} (hm : m ≠ []) (tags : Dict Str Str)
    (hkeys : ∀ k ∈ tags.keys, k ≠ []) :
    parseHead (encodeHead m tags.entries) = .ok (m, tags) := by
  have hfold : ∀ (es : List (Str × Str)) (d : Dict Str Str), (∀ e ∈ es, e.1 ≠ []) →
      (es.map encodeTag).foldlM parseTag d = .ok (es.foldl (fun d e => d.set e.1 e.2) d) := by
    intro es
    induction es with
    | nil => exact fun d _ => rfl
    | cons e es ih =>
      intro d h
      rw [List.forall_mem_cons] at h
      rw [List.map_cons, List.foldlM_cons, parseTag_encodeTag d h.1]
      exact ih _ h.2
  have hentries : ∀ e ∈ tags.entries, e.1 ≠ [] := fun e he =>
    hkeys e.1 (List.mem_map_of_mem he)
  unfold parseHead
  simp only [splitTop_encodeHead, List.headD_cons, List.tail_cons, unescape_encodeMeasurement, hm,
    if_false, hfold tags.entries Dict.empty hentries, Dict.foldl_set_entries]
  rfl

end Head

section Fields
variable [Numerics F]

theorem parseFieldValue_encodeValue {v : Value F} (hv : IsExact v) (hfits : Fits v) :
    parseFieldValue (encodeValue v) = .ok v := by
  cases hv with
  | bool b => cases b <;> rfl
  | int n =>
    have hsuffix : hasSuffix (encodeValue (.int n : Value F)) = true := by
      simp [hasSuffix, encodeValue]
    obtain ⟨hne, hq, ht, hf⟩ := not_other_of_hasSuffix hsuffix
    have hlt : n.natAbs < 10 ^ maxStrDigits := hfits
    have hint : int (encodeValue (.int n : Value F)).dropLast = some n := by
      rw [encodeValue, List.dropLast_concat, int_intText, if_pos hlt]
    unfold parseFieldValue
    simp only [hne, hq, ht, hf, hsuffix, hint, Bool.false_eq_true, if_true, if_false,
      Option.elim_some]
  | str s =>
    have hq : isQuoted (encodeValue (.str s : Value F)) = true := by
      simp only [isQuoted, encodeValue, List.getLast?_concat]
      simp
    have hinner : ((encodeValue (.str s : Value F)).drop 1).dropLast = escape '\\' ['"'] s := by
      simp [encodeValue]
    have hne : encodeValue (.str s : Value F) ≠ [] := by
      simp [encodeValue]
    unfold parseFieldValue
    rw [if_neg hne, if_pos hq, hinner, unescape, unescape_escape '\\' (fun _ h => h) s]

theorem splitTop_encodeField {field : Str × Value F} (hv : IsExact field.2)
    (heven : (countedQuotes field.1).bodd = false) :
    splitTop (encodeField field) '=' true = [encodeName field.1, encodeValue field.2] := by
  have hkey : Scans '=' true none false (encodeName field.1) (lastOf none field.1) false := by
    have h := scans_name (by decide : '=' ∈ delimiters) none false field.1
    rwa [toggles_of_ne (by decide), heven] at h
  unfold splitTop split encodeField
  rw [splitLoop_cons_of_passes (by decide) (by decide) hkey,
    (moves_encodeValue (by decide) hv).splitLoop_eq (by decide)]

theorem parseField_encodeField (fields : Dict Str (Value F)) {field : Str × Value F}
    (hkey : field.1 ≠ []) (hv : IsExact field.2) (heven : (countedQuotes field.1).bodd = false)
    (hfits : Fits field.2) :
    parseField fields (encodeField field) = .ok (fields.set field.1 field.2) := by
  have hne : encodeField field ≠ [] := List.append_ne_nil_of_right_ne_nil _ (List.cons_ne_nil _ _)
  unfold parseField
  rw [if_neg hne, splitTop_encodeField hv heven]
  simp only [unescape_encodeName, hkey, if_false, parseFieldValue_encodeValue hv hfits]
  rfl

omit [Numerics F] in
/-- Fields of which the scans read each key and value as it is meant. -/
structure FieldsOk (fields : List (Str × Value F)) : Prop where
  exact : ∀ f ∈ fields, IsExact f.2
  even : ∀ f ∈ fields, (countedQuotes f.1).bodd = false
  closed : ∀ f ∈ fields.dropLast, leavesOpen f.2 = false

omit [Numerics F] in
theorem FieldsOk.tail {f g : Str × Value F} {fs : List (Str × Value F)}
    (h : FieldsOk (f :: g :: fs)) : FieldsOk (g :: fs) where
  exact := fun x hx => h.exact x (List.mem_cons_of_mem f hx)
  even := fun x hx => h.even x (List.mem_cons_of_mem f hx)
  closed := fun x hx => h.closed x (List.mem_cons_of_mem f hx)

theorem encodeFields_cons_cons (f g : Str × Value F) (fs : List (Str × Value F)) :
    encodeFields (f :: g :: fs) = encodeField f ++ ',' :: encodeFields (g :: fs) := by
  simp [encodeFields, List.intercalate]

theorem encodeFields_singleton (f : Str × Value F) : encodeFields [f] = encodeField f := by
  simp [encodeFields, List.intercalate]

/-- The field section splits into the fields. -/
theorem splitTop_encodeFields {fields : List (Str × Value F)} (hne : fields ≠ [])
    (h : FieldsOk fields) : splitTop (encodeFields fields) ',' true = fields.map encodeField := by
  have hloop : ∀ (fs : List (Str × Value F)), fs ≠ [] → FieldsOk fs → ∀ prev, prev ≠ some '\\' →
      splitLoop '\\' '"' ',' true prev false [] (encodeFields fs) = fs.map encodeField := by
    intro fs
    induction fs with
    | nil => exact fun hne => absurd rfl hne
    | cons f fs ih =>
      intro _ h prev hprev
      have hf := moves_encodeField (by decide : ',' ∈ delimiters) (by decide)
        (h.exact f List.mem_cons_self) (h.even f List.mem_cons_self)
      cases fs with
      | nil => rw [encodeFields_singleton, hf.splitLoop_eq hprev, List.map_singleton]
      | cons g fs =>
        rw [h.closed f List.mem_cons_self] at hf
        rw [encodeFields_cons_cons, hf.splitLoop_cons (by decide) hprev,
          ih (List.cons_ne_nil g fs) h.tail _ (by decide), List.map_cons, List.map_cons, List.map_cons]
  exact hloop fields hne h none (by decide)

/-- The field section has no space for the scan; it ends where its last value does. -/
theorem moves_encodeFields {fields : List (Str × Value F)} (hne : fields ≠ [])
    (h : FieldsOk fields) :
    Moves ' ' false (encodeFields fields) (leavesOpen (fields.getLast hne).2) := by
  induction fields with
  | nil => exact absurd rfl hne
  | cons f fs ih =>
    have hf := moves_encodeField (by decide : ' ' ∈ delimiters) (by decide)
      (h.exact f List.mem_cons_self) (h.even f List.mem_cons_self)
    cases fs with
    | nil => rwa [encodeFields_singleton]
    | cons g fs =>
      rw [h.closed f List.mem_cons_self] at hf
      have hcomma : Moves ' ' false [','] false := moves_delimiter (by decide) (by decide)
      rw [encodeFields_cons_cons, List.getLast_cons (List.cons_ne_nil g fs)]
      exact hf.append (hcomma.append (ih (List.cons_ne_nil g fs) h.tail))

theorem parseFields_encodeFields {fields : Dict Str (Value F)} (hne : fields.entries ≠ [])
    (hkeys : ∀ k ∈ fields.keys, k ≠ []) (h : FieldsOk fields.entries)
    (hfits : ∀ f ∈ fields.entries, Fits f.2) :
    parseFields (encodeFields fields.entries) = .ok fields := by
  have hfold : ∀ (es : List (Str × Value F)) (d : Dict Str (Value F)),
      (∀ e ∈ es, e.1 ≠ [] ∧ IsExact e.2 ∧ (countedQuotes e.1).bodd = false ∧ Fits e.2) →
      (es.map encodeField).foldlM parseField d = .ok (es.foldl (fun d e => d.set e.1 e.2) d) := by
    intro es
    induction es with
    | nil => exact fun d _ => rfl
    | cons e es ih =>
      intro d h
      rw [List.forall_mem_cons] at h
      obtain ⟨⟨hkey, hv, heven, hfits⟩, hrest⟩ := h
      rw [List.map_cons, List.foldlM_cons, parseField_encodeField d hkey hv heven hfits]
      exact ih _ hrest
  unfold parseFields
  rw [splitTop_encodeFields hne h, hfold]
  · rw [Dict.foldl_set_entries]
    exact if_neg hne
  · intro e he
    exact ⟨hkeys e.1 (List.mem_map_of_mem he), h.exact e he, h.even e he, hfits e he⟩

end Fields

/-- The scan for spaces runs through the head; it leaves quotes open when an odd
number of its double quotes count. -/
theorem scans_encodeHead (m : Str) (tags : List (Str × Str)) :
    ∃ prev', Scans ' ' true none false (encodeHead m tags) prev' (headQuotes m tags).bodd := by
  have htags : ∀ (tags : List (Str × Str)) (prev : Option Char) (q : Bool),
      ∃ prev', Scans ' ' true prev q (tags.flatMap fun tag => ',' :: encodeTag tag) prev'
        (xor q (tags.map fun tag => countedQuotes tag.1 + countedQuotes tag.2).sum.bodd) := by
    intro tags
    induction tags with
    | nil =>
      intro prev q
      exact ⟨prev, by simpa using Passes.nil prev q⟩
    | cons tag tags ih =>
      intro prev q
      have hcomma : Scans ' ' true prev q [','] (some ',') q :=
        scans_delimiter (by decide) (by decide) prev q
      have hkey := scans_name (by decide : ' ' ∈ delimiters) (some ',') q tag.1
      rw [toggles_of_ne (by decide)] at hkey
      have heq : Scans ' ' true (lastOf (some ',') tag.1) (xor q (countedQuotes tag.1).bodd) ['=']
          (some '=') (xor q (countedQuotes tag.1).bodd) :=
        scans_delimiter (by decide) (by decide) _ _
      have hvalue := scans_name (by decide : ' ' ∈ delimiters) (some '=')
        (xor q (countedQuotes tag.1).bodd) tag.2
      rw [toggles_of_ne (by decide)] at hvalue
      have htag := hcomma.append (hkey.append (heq.append hvalue))
      obtain ⟨prev', hrest⟩ := ih (lastOf (some '=') tag.2)
        (xor (xor q (countedQuotes tag.1).bodd) (countedQuotes tag.2).bodd)
      refine ⟨prev', ?_⟩
      rw [List.flatMap_cons, List.map_cons, List.sum_cons, Nat.bodd_add, Nat.bodd_add,
        ← Bool.xor_assoc, ← Bool.xor_assoc]
      exact htag.append hrest
  have hm : Scans ' ' true none false (encodeMeasurement m) (lastOf none m)
      (xor false (countedQuotes m).bodd) :=
    passes_escape (by decide) (by decide) (by decide) none false m
  obtain ⟨prev', htags⟩ := htags tags (lastOf none m) (xor false (countedQuotes m).bodd)
  rw [Bool.false_xor, ← Nat.bodd_add] at htags
  rw [Bool.false_xor] at hm
  exact ⟨prev', hm.append htags⟩

section Line

/-- A text whose ends are no white space. -/
theorem strip_of_ends {s : Str} (hfirst : ∀ c, s.head? = some c → isSpace c = false)
    (hlast : ∀ c, s.getLast? = some c → isSpace c = false) : strip s = s := by
  have hdrop : s.dropWhile isSpace = s := by
    rw [List.dropWhile_eq_self_iff]
    intro hne
    have h := hfirst s[0] (List.head?_eq_getElem? ▸ List.getElem?_eq_getElem hne)
    simp [h]
  rw [strip, hdrop, List.rdropWhile_eq_self_iff]
  intro hne
  simp [hlast _ (List.getLast?_eq_getLast_of_ne_nil hne)]

variable [Numerics F]

theorem exists_last_encodeValue {v : Value F} (hv : IsExact v) :
    ∃ u c, encodeValue v = u ++ [c] ∧ isSpace c = false := by
  cases hv with
  | bool b =>
    cases b
    · exact ⟨"fals".toList, 'e', rfl, by decide⟩
    · exact ⟨"tru".toList, 'e', rfl, by decide⟩
  | int n => exact ⟨intText n, 'i', rfl, by decide⟩
  | str s => exact ⟨'"' :: escape '\\' ['"'] s, '"', rfl, by decide⟩

theorem exists_last_encodeFields {fields : List (Str × Value F)} (hne : fields ≠ [])
    (hexact : ∀ f ∈ fields, IsExact f.2) :
    ∃ u c, encodeFields fields = u ++ [c] ∧ isSpace c = false := by
  induction fields with
  | nil => exact absurd rfl hne
  | cons f fs ih =>
    rw [List.forall_mem_cons] at hexact
    cases fs with
    | nil =>
      obtain ⟨u, c, hu, hc⟩ := exists_last_encodeValue hexact.1
      refine ⟨encodeName f.1 ++ '=' :: u, c, ?_, hc⟩
      rw [encodeFields_singleton, encodeField, hu, List.append_assoc, List.cons_append]
    | cons g fs =>
      obtain ⟨u, c, hu, hc⟩ := ih (List.cons_ne_nil g fs) hexact.2
      refine ⟨encodeField f ++ ',' :: u, c, ?_, hc⟩
      rw [encodeFields_cons_cons, hu, List.append_assoc, List.cons_append]

theorem exists_last_encodeLine {p : Point F} (hne : p.fields.entries ≠ [])
    (hexact : ∀ f ∈ p.fields.entries, IsExact f.2) (ts : Option ℤ) :
    ∃ u c, encodeLine p ts = u ++ [c] ∧ isSpace c = false := by
  unfold encodeLine
  cases ts with
  | none =>
    obtain ⟨u, c, hu, hc⟩ := exists_last_encodeFields hne hexact
    refine ⟨encodeHead p.measurement p.tags.entries ++ ' ' :: u, c, ?_, hc⟩
    rw [hu, encodeTime, Option.elim_none, List.append_nil, List.append_assoc, List.cons_append]
  | some n =>
    have hnum := intText_ne_nil n
    refine ⟨encodeHead p.measurement p.tags.entries ++ ' ' :: encodeFields p.fields.entries ++
      ' ' :: (intText n).dropLast, (intText n).getLast hnum, ?_,
      isSpace_of_isNumeralChar (mem_intText (List.getLast_mem hnum))⟩
    rw [List.append_assoc _ (' ' :: _) [_], List.cons_append, List.dropLast_append_getLast hnum]
    rfl

/-- The first character of a line stands for the first one of the measurement. -/
theorem head?_encodeLine {p : Point F} {c : Char} {m : Str} (hm : p.measurement = c :: m)
    (ts : Option ℤ) : (encodeLine p ts).head? = some (if c = '\\' ∨ c ∈ [',', ' '] then '\\' else c) := by
  unfold encodeLine encodeHead encodeMeasurement
  rw [hm, escape_cons]
  split <;> rfl

omit [Numerics F] in
/-- What a point must have to be a line at all. -/
structure Encodable (p : Point F) : Prop where
  start : ∀ c, p.measurement.head? = some c → isSpace c = false ∧ c ≠ '#'
  fields : p.fields.entries ≠ []
  exact : ∀ f ∈ p.fields.entries, IsExact f.2

/-- White space around a line is taken off; an encoded point has none. -/
theorem strip_encodeLine {p : Point F} (hp : Encodable p) (hm : p.measurement ≠ [])
    (ts : Option ℤ) :
    strip (encodeLine p ts) = encodeLine p ts ∧ encodeLine p ts ≠ [] ∧
      isComment (encodeLine p ts) = false := by
  obtain ⟨c, m, hm⟩ := List.exists_cons_of_ne_nil hm
  have hhead := head?_encodeLine hm ts
  obtain ⟨hspace, hhash⟩ := hp.start c (by rw [hm]; rfl)
  refine ⟨strip_of_ends ?_ ?_, ?_, ?_⟩
  · intro d hd
    rw [hhead] at hd
    cases Option.some.inj hd
    split
    · decide
    · exact hspace
  · intro d hd
    obtain ⟨u, c', hu, hc'⟩ := exists_last_encodeLine hp.fields hp.exact ts
    rw [hu, List.getLast?_concat] at hd
    cases Option.some.inj hd
    exact hc'
  · intro hnil
    rw [hnil] at hhead
    contradiction
  · unfold isComment
    rw [hhead, decide_eq_false_iff_not, Option.some.injEq]
    split
    · decide
    · exact hhash

/-- The field section ends where the fields do. -/
theorem splitLoop_encodeFields_time {fields : List (Str × Value F)} (hne : fields ≠ [])
    (hfields : FieldsOk fields) {ts : Option ℤ}
    (hlast : ts.isSome → leavesOpen (fields.getLast hne).2 = false) :
    splitLoop '\\' '"' ' ' true (some ' ') false [] (encodeFields fields ++ encodeTime ts) =
      encodeFields fields :: ts.toList.map intText := by
  have hmoves := moves_encodeFields hne hfields
  cases ts with
  | none => rw [encodeTime, Option.elim_none, List.append_nil, hmoves.splitLoop_eq (by decide)]; rfl
  | some n =>
    rw [hlast rfl] at hmoves
    rw [encodeTime, Option.elim_some, hmoves.splitLoop_cons (by decide) (by decide),
      (moves_bare (by decide) (isBare_intText n) false).splitLoop_eq (by decide)]
    rfl

/-- The sections of an encoded point, where the scan ends the head and the field
section outside quotes. -/
theorem splitTopSpace_encodeLine {p : Point F} (hne : p.fields.entries ≠ [])
    (hhead : (headQuotes p.measurement p.tags.entries).bodd = false)
    (hfields : FieldsOk p.fields.entries) (ts : Option ℤ)
    (hlast : ts.isSome → leavesOpen (p.fields.entries.getLast hne).2 = false) :
    splitTopSpace (encodeLine p ts) =
      [encodeHead p.measurement p.tags.entries, encodeFields p.fields.entries] ++
        ts.toList.map intText := by
  obtain ⟨prev, hscan⟩ := scans_encodeHead p.measurement p.tags.entries
  rw [hhead] at hscan
  rw [splitTopSpace_eq]
  unfold splitTop split encodeLine
  rw [List.append_assoc, List.cons_append,
    splitLoop_cons_of_passes (by decide) (by decide) hscan,
    splitLoop_encodeFields_time hne hfields hlast]
  rfl

end Line

/-- The conditions under which the scans read an encoded point as it is meant. -/
structure Readable (p : Point F) (ts : Option ℤ) : Prop extends Encodable p where
  measurement : p.measurement ≠ []
  tagKeys : ∀ k ∈ p.tags.keys, k ≠ []
  fieldKeys : ∀ k ∈ p.fields.keys, k ≠ []
  head : (headQuotes p.measurement p.tags.entries).bodd = false
  names : ∀ f ∈ p.fields.entries, (countedQuotes f.1).bodd = false
  closed : ∀ f ∈ p.fields.entries.dropLast, leavesOpen f.2 = false
  last : ts.isSome → ∀ f ∈ p.fields.entries, leavesOpen f.2 = false
  fits : ∀ f ∈ p.fields.entries, Fits f.2

theorem Readable.fieldsOk {p : Point F} {ts : Option ℤ} (h : Readable p ts) :
    FieldsOk p.fields.entries := ⟨h.exact, h.names, h.closed⟩

/-- The time that goes with an optional timestamp. -/
def timeOf (precision : Precision) (now : Time) : Option ℤ → Except DateError Time
  | none => .ok now
  | some n => fromTimestamp (n * precisionToNs precision)

theorem parseTime_encodeTime {precision : Precision} {now t : Time} {ts : Option ℤ}
    (h : timeOf precision now ts = .ok t) :
    parseTime precision none now (ts.map intText) = .ok t := by
  cases ts with
  | none => exact congrArg Except.ok (Except.ok.inj h)
  | some n =>
    have hfactor : 1 ≤ precisionToNs precision := by cases precision <;> decide
    have hint := int_intText n
    rw [if_pos (lt_of_fromTimestamp_mul hfactor h)] at hint
    unfold parseTime
    rw [Option.map_some, Option.getD_some, if_pos (intText_ne_nil n), hint]
    exact congrArg (Except.mapError Raised.dateError) h

/-- A readable point is read back from its encoding. -/
theorem parseLine_encodeLine [Numerics F] {p : Point F} {ts : Option ℤ} (hp : Readable p ts)
    {precision : Precision} {now t : Time} (ht : timeOf precision now ts = .ok t) :
    parseLine precision none now (encodeLine p ts) =
      .ok ⟨p.measurement, p.tags, p.fields, t⟩ := by
  obtain ⟨hstrip, hne, hcomment⟩ := strip_encodeLine hp.toEncodable hp.measurement ts
  have hsections := splitTopSpace_encodeLine hp.fields hp.head hp.fieldsOk ts
    fun hts => hp.last hts _ (List.getLast_mem hp.fields)
  rw [parseLine_ok_iff, hstrip]
  refine ⟨hne, hcomment, _, _, ts.toList.map intText, hsections,
    parseHead_encodeHead hp.measurement p.tags hp.tagKeys,
    parseFields_encodeFields hp.fields hp.fieldKeys hp.fieldsOk hp.fits, ?_⟩
  have htime := parseTime_encodeTime ht
  cases ts with
  | none => exact htime
  | some n => exact htime

end TimescaleLp.LineProtocol
