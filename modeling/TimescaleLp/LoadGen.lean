import TimescaleLp.SeriesText

/-!
The load generator against the parser. Each row is a line whose parts hold no
symbol that the scans treat specially, so the sections and the pairs are the
pieces it was put together from.
-/
namespace TimescaleLp.LoadGen

open Texts LineProtocol Escaping Folds

/-- `str((k) / 10.0)`: the shortest digits that give the double back, for a few
thousand tenths one after the point. -/
def tenthsText (k : ℕ) : Str := Nat.toDigits 10 (k / 10) ++ '.' :: Nat.toDigits 10 (k % 10)

/-- One row; for a positive modulus `%` is Python's. -/
def rowText (measurement : Str) (series i ts : ℤ) : Str :=
  let h := i % series
  measurement ++ ",host=h".toList ++ intText h ++ ",region=r".toList ++ intText (h % 8) ++
    " value=".toList ++ tenthsText (i % 1000).toNat ++ ",count=".toList ++ intText (i % 100) ++
    "i ".toList ++ intText ts

/-- The rows from one on, with the lines so far and the time of the last one. -/
def buildRows (measurement : Str) (series baseTsNs stepNs : ℤ) :
    List ℤ → List Str × ℤ → List Str × ℤ
  | [], (lines, ts) => (lines, ts)
  | i :: rows, (lines, _) =>
    let ts := baseTsNs + i * stepNs
    buildRows measurement series baseTsNs stepNs rows
      (lines ++ [rowText measurement series i ts], ts)

/-- Build `n` rows. Returns the payload and the time of its last row. -/
def buildBatch (measurement : Str) (startRow : ℤ) (n : ℕ) (series baseTsNs stepNs : ℤ) : Str × ℤ :=
  let rows := (List.range n).map fun j : ℕ => startRow + j
  let (lines, ts) := buildRows measurement series baseTsNs stepNs rows ([], baseTsNs)
  (List.intercalate ['\n'] lines, ts)

example : buildBatch "load".toList 9 2 10 1000 5 =
    ("load,host=h9,region=r1 value=0.9,count=9i 1045\nload,host=h0,region=r0 value=1.0,count=10i 1050".toList,
      1050) := by
  decide

theorem intercalate_append {α : Type} (sep : α) {u v : List (List α)} (hu : u ≠ []) (hv : v ≠ []) :
    List.intercalate [sep] (u ++ v) =
      List.intercalate [sep] u ++ sep :: List.intercalate [sep] v := by
  induction u with
  | nil => contradiction
  | cons a u ih =>
    cases u with
    | nil =>
      rw [List.singleton_append, List.intercalate_cons_of_ne_nil hv, List.intercalate_singleton,
        List.append_assoc, List.singleton_append]
    | cons b u =>
      rw [List.cons_append, List.cons_append, List.intercalate_cons_cons, ← List.cons_append,
        ih (List.cons_ne_nil b u), List.intercalate_cons_cons]
      simp only [List.append_assoc]

section Payload

variable (measurement : Str) (startRow series baseTsNs stepNs : ℤ)

/-- The row at a place of the batch. -/
def rowAt (j : ℕ) : Str :=
  rowText measurement series (startRow + j) (baseTsNs + (startRow + j) * stepNs)

theorem buildRows_lines (rows : List ℤ) (acc : List Str × ℤ) :
    (buildRows measurement series baseTsNs stepNs rows acc).1 =
      acc.1 ++ rows.map fun i => rowText measurement series i (baseTsNs + i * stepNs) := by
  induction rows generalizing acc with
  | nil => exact (List.append_nil acc.1).symm
  | cons i rows ih =>
    rw [buildRows, ih, List.map_cons, List.append_assoc, List.singleton_append]

theorem payload_eq (n : ℕ) : (buildBatch measurement startRow n series baseTsNs stepNs).1 =
    List.intercalate ['\n']
      ((List.range n).map (rowAt measurement startRow series baseTsNs stepNs)) := by
  refine congrArg (List.intercalate ['\n']) ?_
  rw [buildRows_lines, List.nil_append, List.map_map]
  rfl

/-- The payload of more rows is that of the first ones and that of the rest. -/
theorem payload_add {n n' : ℕ} (hn : 1 ≤ n) (hn' : 1 ≤ n') :
    (buildBatch measurement startRow (n + n') series baseTsNs stepNs).1 =
      (buildBatch measurement startRow n series baseTsNs stepNs).1 ++ '\n' ::
        (buildBatch measurement (startRow + n) n' series baseTsNs stepNs).1 := by
  have hne : ∀ {k : ℕ} (f : ℕ → Str), 1 ≤ k → (List.range k).map f ≠ [] := by
    intro k f hk
    simpa using Nat.one_le_iff_ne_zero.mp hk
  have hshift : ∀ j : ℕ, rowAt measurement startRow series baseTsNs stepNs (n + j) =
      rowAt measurement (startRow + n) series baseTsNs stepNs j := by
    intro j
    rw [rowAt, rowAt, Nat.cast_add, add_assoc]
  have hrest : ((List.range n').map (n + ·)).map (rowAt measurement startRow series baseTsNs stepNs) =
      (List.range n').map (rowAt measurement (startRow + n) series baseTsNs stepNs) := by
    rw [List.map_map]
    exact List.map_congr_left fun j _ => hshift j
  rw [payload_eq, payload_eq, payload_eq, List.range_add, List.map_append, hrest,
    intercalate_append '\n' (hne _ hn) (hne _ hn')]

end Payload

/-- A text of visible characters that the scans do not treat specially. -/
def Visible (s : Str) : Prop := ∀ c ∈ s, isSpace c = false ∧ c ≠ '\\' ∧ c ≠ '"'

instance (s : Str) : Decidable (Visible s) := List.decidableBAll _ s

section Visible

theorem Visible.append {s t : Str} (hs : Visible s) (ht : Visible t) : Visible (s ++ t) := by
  intro c hc
  rcases List.mem_append.mp hc with hc | hc
  · exact hs c hc
  · exact ht c hc

theorem visible_intText (n : ℤ) : Visible (intText n) := by
  intro c hc
  obtain ⟨hesc, hquote, -⟩ := isBare_intText n c hc
  exact ⟨isSpace_of_isNumeralChar (mem_intText hc), hesc, hquote⟩

theorem mem_tenthsText {k : ℕ} {c : Char} (h : c ∈ tenthsText k) : c.isDigit ∨ c = '.' := by
  rcases List.mem_append.mp h with h | h
  · exact Or.inl (Names.isDigit_of_mem_decimal h)
  · rcases List.mem_cons.mp h with h | h
    · exact Or.inr h
    · exact Or.inl (Names.isDigit_of_mem_decimal h)

theorem toNat_of_mem_tenthsText {k : ℕ} {c : Char} (h : c ∈ tenthsText k) :
    46 ≤ c.toNat ∧ c.toNat ≤ 57 := by
  rcases mem_tenthsText h with h | rfl
  · have hdigit := Names.toNat_of_isDigit h
    omega
  · decide

/-- Two characters of different codes. -/
theorem ne_of_mem_tenthsText {k : ℕ} {c : Char} (h : c ∈ tenthsText k) {d : Char}
    (hd : ¬(46 ≤ d.toNat ∧ d.toNat ≤ 57)) : c ≠ d := by
  rintro rfl
  exact hd (toNat_of_mem_tenthsText h)

theorem visible_tenthsText (k : ℕ) : Visible (tenthsText k) := by
  intro c hc
  refine ⟨?_, ne_of_mem_tenthsText hc (by decide), ne_of_mem_tenthsText hc (by decide)⟩
  have hcode := toNat_of_mem_tenthsText hc
  simp only [isSpace, List.mem_cons, List.not_mem_nil, or_false, Bool.or_eq_false_iff,
    decide_eq_false_iff_not, Bool.and_eq_false_iff]
  omega

end Visible

section Value

theorem underscoresBetween_of_notMem {s : Str} (h : '_' ∉ s) (prev : Option Char) :
    underscoresBetween prev s = true := by
  induction s generalizing prev with
  | nil => rfl
  | cons c s ih =>
    obtain ⟨hc, hs⟩ := not_or.mp (List.mem_cons.not.mp h)
    rw [underscoresBetween, ih hs, Bool.and_true, decide_eq_true (Ne.symm hc), Bool.true_or]

/-- The point separates the whole part from the tenth. -/
theorem span_tenthsText (k : ℕ) : (tenthsText k).span (fun c => c ≠ '.') =
    (Nat.toDigits 10 (k / 10), '.' :: Nat.toDigits 10 (k % 10)) := by
  have hwhole : ∀ c ∈ Nat.toDigits 10 (k / 10), decide (c ≠ '.') = true := by
    intro c hc
    refine decide_eq_true ?_
    rintro rfl
    exact absurd (Names.isDigit_of_mem_decimal hc) (by decide)
  rw [List.span_eq_takeWhile_dropWhile, tenthsText, List.takeWhile_append_of_pos hwhole,
    List.dropWhile_append_of_pos hwhole]
  simp

theorem splitSign_tenthsText (k : ℕ) : splitSign (tenthsText k) = (false, tenthsText k) := by
  have hne : ∀ c ∈ tenthsText k, c ≠ '-' ∧ c ≠ '+' := fun c hc =>
    ⟨ne_of_mem_tenthsText hc (by decide), ne_of_mem_tenthsText hc (by decide)⟩
  cases htext : tenthsText k with
  | nil => rfl
  | cons c s =>
    obtain ⟨hminus, hplus⟩ := hne c (htext ▸ List.mem_cons_self)
    rw [splitSign, if_neg hminus, if_neg hplus]

theorem isMantissa_tenthsText (k : ℕ) : isMantissa (tenthsText k) = true := by
  rw [isMantissa, span_tenthsText]
  simp only [List.drop_succ_cons, List.drop_zero, Bool.and_eq_true, decide_eq_true_eq,
    List.all_eq_true, List.mem_append]
  refine ⟨List.append_ne_nil_of_left_ne_nil Nat.toDigits_ne_nil _, fun c hc => ?_⟩
  exact hc.elim Names.isDigit_of_mem_decimal Names.isDigit_of_mem_decimal

/-- The value is written as a floating-point literal. -/
theorem isFloat_tenthsText (k : ℕ) : isFloat (tenthsText k) = true := by
  have htext : numberText (tenthsText k) = tenthsText k := by
    refine numberText_of_ascii fun c hc => ?_
    have hcode := toNat_of_mem_tenthsText hc
    omega
  have hfilter : (tenthsText k).filter (fun c => c ≠ '_') = tenthsText k :=
    List.filter_eq_self.mpr fun c hc => decide_eq_true (ne_of_mem_tenthsText hc (by decide))
  have hspan : (tenthsText k).span (fun c => c ≠ 'e' && c ≠ 'E') = (tenthsText k, []) := by
    have hall : ∀ c ∈ tenthsText k, (decide (c ≠ 'e') && decide (c ≠ 'E')) = true := by
      intro c hc
      rw [decide_eq_true (ne_of_mem_tenthsText hc (by decide) : c ≠ 'e'),
        decide_eq_true (ne_of_mem_tenthsText hc (by decide) : c ≠ 'E'), Bool.and_true]
    rw [List.span_eq_takeWhile_dropWhile, List.takeWhile_eq_self_iff.mpr hall,
      List.dropWhile_eq_nil_iff.mpr hall]
  have hdecimal : isDecimal (tenthsText k) = true := by
    rw [isDecimal, hspan]
    exact Bool.and_eq_true_iff.mpr ⟨isMantissa_tenthsText k, rfl⟩
  have hbetween : underscoresBetween none (tenthsText k) = true :=
    underscoresBetween_of_notMem (fun h => ne_of_mem_tenthsText h (by decide) rfl) none
  rw [isFloat, htext, splitSign_tenthsText]
  simp only [hfilter, hdecimal, hbetween, Bool.and_true, Bool.or_true]

theorem lower_tenthsText (k : ℕ) : lower (tenthsText k) = tenthsText k := by
  refine (List.map_congr_left fun c hc => ?_).trans (List.map_id _)
  have hcode := toNat_of_mem_tenthsText hc
  refine dif_neg fun h => ?_
  have hlow : (65 : ℕ) ≤ c.toNat := h.1
  omega

variable {F : Type} [Numerics F]

/-- The value is no word and has no suffix, so it is read as a number. -/
theorem parseFieldValue_tenthsText {k : ℕ} {x : F} (h : Numerics.ofText (tenthsText k) = some x) :
    parseFieldValue (tenthsText k) = .ok (.float x : Value F) := by
  have hmem : ∀ d : Char, ¬(46 ≤ d.toNat ∧ d.toNat ≤ 57) → d ∉ tenthsText k :=
    fun d hd hmem => ne_of_mem_tenthsText hmem hd rfl
  have hne : tenthsText k ≠ [] := by simp [tenthsText]
  have hquoted : isQuoted (tenthsText k) = false := by
    have hhead : (tenthsText k).head? ≠ some '"' := fun hc =>
      hmem '"' (by decide) (List.mem_of_mem_head? hc)
    simp [isQuoted, hhead]
  have hword : ∀ (w : Str) (d : Char), d ∈ w → ¬(46 ≤ d.toNat ∧ d.toNat ≤ 57) → tenthsText k ≠ w :=
    fun w d hdw hd heq => hmem d hd (heq ▸ hdw)
  have htrue : isTrueWord (tenthsText k) = false := by
    simp [isTrueWord, lower_tenthsText, hword ['t'] 't', hword ['t', 'r', 'u', 'e'] 't']
  have hfalse : isFalseWord (tenthsText k) = false := by
    simp [isFalseWord, lower_tenthsText, hword ['f'] 'f', hword ['f', 'a', 'l', 's', 'e'] 'f']
  have hsuffix : hasSuffix (tenthsText k) = false := by
    have hlast : ∀ d : Char, ¬(46 ≤ d.toNat ∧ d.toNat ≤ 57) → (tenthsText k).getLast? ≠ some d :=
      fun d hd hc => hmem d hd (List.mem_of_getLast? hc)
    simp [hasSuffix, hlast 'i', hlast 'u']
  unfold parseFieldValue
  simp only [hne, hquoted, htrue, hfalse, hsuffix, Bool.false_eq_true, if_false]
  rw [float, if_pos (isFloat_tenthsText k), h]
  rfl

end Value

/-- What is asked of the name of the measurement. -/
structure PlainName (measurement : Str) : Prop where
  visible : Visible measurement
  comma : ',' ∉ measurement
  nonempty : measurement ≠ []
  comment : measurement.head? ≠ some '#'

section Head

/-- The tags of the row of a host. -/
def tagsOf (h : ℤ) : Dict Str Str :=
  (Dict.single "host".toList ('h' :: intText h)).set "region".toList ('r' :: intText (h % 8))

def headText (measurement : Str) (h : ℤ) : Str :=
  measurement ++ ",host=h".toList ++ intText h ++ ",region=r".toList ++ intText (h % 8)

instance (s : Str) : Decidable (IsBare s) := List.decidableBAll _ s

theorem IsBare.cons {c : Char} {s : Str} (hc : IsBare [c]) (hs : IsBare s) : IsBare (c :: s) :=
  List.forall_mem_cons.mpr ⟨hc c List.mem_cons_self, hs⟩

theorem encodeName_of_isBare {s : Str} (h : IsBare s) : encodeName s = s :=
  escape_eq_self '\\' fun c hc => (h c hc).imp id And.right

variable {measurement : Str}

theorem visible_headText (hm : Visible measurement) (h : ℤ) : Visible (headText measurement h) :=
  (((hm.append (by decide)).append (visible_intText h)).append (by decide)).append
    (visible_intText (h % 8))

/-- The head is the encoding of the measurement and the tags; nothing is escaped. -/
theorem headText_eq (hm : PlainName measurement) (h : ℤ) :
    headText measurement h = encodeHead measurement (tagsOf h).entries := by
  have hname : encodeMeasurement measurement = measurement := by
    refine escape_eq_self '\\' fun c hc => ⟨(hm.visible c hc).2.1, ?_⟩
    intro hmem
    simp only [List.mem_cons, List.not_mem_nil, or_false] at hmem
    rcases hmem with rfl | rfl
    · exact hm.comma hc
    · exact absurd (hm.visible ' ' hc).1 (by decide)
  have hentries : (tagsOf h).entries = [("host".toList, 'h' :: intText h),
      ("region".toList, 'r' :: intText (h % 8))] := rfl
  have hhost : encodeName ['h', 'o', 's', 't'] = ['h', 'o', 's', 't'] := by decide
  have hregion : encodeName ['r', 'e', 'g', 'i', 'o', 'n'] = ['r', 'e', 'g', 'i', 'o', 'n'] := by
    decide
  have hvalue : encodeName ('h' :: intText h) = 'h' :: intText h :=
    encodeName_of_isBare (IsBare.cons (by decide) (isBare_intText h))
  have hvalue' : encodeName ('r' :: intText (h % 8)) = 'r' :: intText (h % 8) :=
    encodeName_of_isBare (IsBare.cons (by decide) (isBare_intText (h % 8)))
  rw [encodeHead, hname, hentries]
  simp [encodeTag, headText, hhost, hregion, hvalue, hvalue']

end Head

section Fields
variable {F : Type}

def fieldsOf (value : F) (count : ℤ) : Dict Str (Value F) :=
  (Dict.single "value".toList (.float value)).set "count".toList (.int count)

def fieldsText (k : ℕ) (count : ℤ) : Str :=
  ("value".toList ++ '=' :: tenthsText k) ++ ',' ::
    ("count".toList ++ '=' :: (intText count ++ ['i']))

theorem visible_fieldsText (k : ℕ) (count : ℤ) : Visible (fieldsText k count) := by
  have hvalue : Visible ("value=".toList ++ tenthsText k) :=
    Visible.append (by decide) (visible_tenthsText k)
  have hcount : Visible (",count=".toList ++ (intText count ++ ['i'])) :=
    Visible.append (by decide) ((visible_intText count).append (by decide))
  have h := hvalue.append hcount
  exact h

theorem isBare_tenthsText (k : ℕ) : IsBare (tenthsText k) := by
  intro c hc
  refine ⟨ne_of_mem_tenthsText hc (by decide), ne_of_mem_tenthsText hc (by decide), ?_⟩
  intro hmem
  simp only [List.mem_cons, List.not_mem_nil, or_false] at hmem
  have hcode := toNat_of_mem_tenthsText hc
  rcases hmem with rfl | rfl | rfl <;> revert hcode <;> decide

theorem isBare_count (count : ℤ) : IsBare (intText count ++ ['i']) := by
  intro c hc
  rcases List.mem_append.mp hc with hc | hc
  · exact isBare_intText count c hc
  · rw [List.mem_singleton.mp hc]
    decide

/-- Two parts without symbols of the scan. -/
theorem splitTop_pair {sep : Char} (hsep : sep ∈ delimiters) {u v : Str}
    (h : ∀ c ∈ u ++ v, c ≠ '\\' ∧ c ≠ '"' ∧ c ≠ sep) : splitTop (u ++ sep :: v) sep true = [u, v] := by
  have hne := ne_of_mem_delimiters hsep
  have hjoin : u ++ sep :: v = List.intercalate [sep] [u, v] := by simp [List.intercalate]
  rw [hjoin]
  refine split_intercalate_of_plain (by decide) hne.1 hne.2 (List.cons_ne_nil _ _) ?_
  simp only [List.forall_mem_cons, List.not_mem_nil, false_implies, implies_true, and_true]
  exact ⟨fun c hc => h c (List.mem_append_left v hc), fun c hc => h c (List.mem_append_right u hc)⟩

variable [Numerics F]

theorem parseField_of_isBare (fields : Dict Str (Value F)) {key text : Str} {v : Value F}
    (hkey : IsBare key) (hne : key ≠ []) (htext : IsBare text) (hv : parseFieldValue text = .ok v) :
    parseField fields (key ++ '=' :: text) = .ok (fields.set key v) := by
  have hsplit : splitTop (key ++ '=' :: text) '=' true = [key, text] := by
    refine splitTop_pair (by decide) fun c hc => ?_
    rcases List.mem_append.mp hc with hc | hc
    · exact hkey.ne_sep (by decide) c hc
    · exact htext.ne_sep (by decide) c hc
  have hname : unescape key [',', '=', ' '] = key := by
    conv_lhs => rw [← encodeName_of_isBare hkey]
    exact unescape_encodeName key
  unfold parseField
  rw [if_neg (List.append_ne_nil_of_left_ne_nil hne _), hsplit]
  simp only [hname, hne, if_false, hv]
  rfl

theorem parseFields_fieldsText {k : ℕ} {x : F} (hvalue : Numerics.ofText (tenthsText k) = some x)
    {count : ℤ} (hcount : count.natAbs < 10 ^ maxStrDigits) :
    parseFields (fieldsText k count) = .ok (fieldsOf x count) := by
  have hcomma : ∀ {key text : Str}, IsBare key → IsBare text →
      ∀ c ∈ key ++ '=' :: text, c ≠ '\\' ∧ c ≠ '"' ∧ c ≠ ',' := by
    intro key text hkey htext c hc
    rcases List.mem_append.mp hc with hc | hc
    · exact hkey.ne_sep (by decide) c hc
    rcases List.mem_cons.mp hc with rfl | hc
    · decide
    · exact htext.ne_sep (by decide) c hc
  have hkeys : IsBare "value".toList ∧ IsBare "count".toList := by decide
  have hcountValue : parseFieldValue (intText count ++ ['i']) = .ok (.int count : Value F) :=
    parseFieldValue_encodeValue (IsExact.int count) hcount
  have hsplit : splitTop (fieldsText k count) ',' true = ["value".toList ++ '=' :: tenthsText k,
      "count".toList ++ '=' :: (intText count ++ ['i'])] := by
    refine splitTop_pair (by decide) fun c hc => ?_
    rcases List.mem_append.mp hc with hc | hc
    · exact hcomma hkeys.1 (isBare_tenthsText k) c hc
    · exact hcomma hkeys.2 (isBare_count count) c hc
  have hfirst := parseField_of_isBare Dict.empty hkeys.1 (by decide) (isBare_tenthsText k)
    (parseFieldValue_tenthsText hvalue)
  have hsecond := parseField_of_isBare (Dict.empty.set "value".toList (.float x)) hkeys.2
    (by decide) (isBare_count count) hcountValue
  unfold parseFields
  rw [hsplit]
  refine bind_ok_iff.mpr ⟨fieldsOf x count, ?_, rfl⟩
  exact foldlM_cons_ok_iff.mpr ⟨_, hfirst, foldlM_cons_ok_iff.mpr ⟨_, hsecond, rfl⟩⟩

end Fields

section Line
variable {F : Type} [Numerics F] {measurement : Str}

theorem rowText_eq (measurement : Str) (series i ts : ℤ) : rowText measurement series i ts =
    List.intercalate [' '] [headText measurement (i % series),
      fieldsText (i % 1000).toNat (i % 100), intText ts] := by
  have hjoin : ∀ u v w : Str, List.intercalate [' '] [u, v, w] = u ++ ' ' :: (v ++ ' ' :: w) := by
    intro u v w
    simp [List.intercalate]
  rw [hjoin]
  delta headText fieldsText rowText
  simp only [List.append_assoc, List.cons_append, List.nil_append]
  rfl

/-- The parts of a row are separated by its only spaces. -/
theorem splitTopSpace_rowText (hm : Visible measurement) (series i ts : ℤ) :
    splitTopSpace (rowText measurement series i ts) = [headText measurement (i % series),
      fieldsText (i % 1000).toNat (i % 100), intText ts] := by
  have hplain : ∀ {s : Str}, Visible s → ∀ c ∈ s, c ≠ '\\' ∧ c ≠ '"' ∧ c ≠ ' ' := by
    intro s hs c hc
    obtain ⟨hspace, hesc, hquote⟩ := hs c hc
    refine ⟨hesc, hquote, ?_⟩
    rintro rfl
    exact absurd hspace (by decide)
  rw [splitTopSpace_eq, rowText_eq]
  refine split_intercalate_of_plain (by decide) (by decide) (by decide) (List.cons_ne_nil _ _) ?_
  simp only [List.forall_mem_cons, List.not_mem_nil, false_implies, implies_true, and_true]
  exact ⟨hplain (visible_headText hm _), hplain (visible_fieldsText _ _), hplain (visible_intText ts)⟩

theorem Visible.isUnbroken {s : Str} (hs : Visible s) : IsUnbroken s := by
  intro c hc
  have hspace := (hs c hc).1
  simp only [isSpace, List.mem_cons, List.not_mem_nil, or_false, Bool.or_eq_false_iff,
    decide_eq_false_iff_not, Bool.and_eq_false_iff] at hspace
  simp only [isLineBreak, List.mem_cons, List.not_mem_nil, or_false, decide_eq_false_iff_not]
  omega

theorem rowText_append (measurement : Str) (series i ts : ℤ) : rowText measurement series i ts =
    measurement ++ (",host=h".toList ++ intText (i % series) ++ ",region=r".toList ++
      intText (i % series % 8) ++ " value=".toList ++ tenthsText (i % 1000).toNat ++
      ",count=".toList ++ intText (i % 100) ++ "i ".toList ++ intText ts) := by
  simp [rowText]

theorem isUnbroken_rowText (hm : Visible measurement) (series i ts : ℤ) :
    IsUnbroken (rowText measurement series i ts) := by
  have hspace : IsUnbroken [' '] := by decide
  have hrest := (visible_fieldsText (i % 1000).toNat (i % 100)).isUnbroken.append
    (hspace.append (visible_intText ts).isUnbroken)
  have h := (visible_headText hm (i % series)).isUnbroken.append (hspace.append hrest)
  rw [rowText_eq]
  simpa [List.intercalate] using h

theorem head?_rowText (hm : measurement ≠ []) (series i ts : ℤ) :
    (rowText measurement series i ts).head? = measurement.head? := by
  rw [rowText_append, List.head?_append_of_ne_nil _ hm]

theorem rowText_ne_nil (hm : measurement ≠ []) (series i ts : ℤ) :
    rowText measurement series i ts ≠ [] := by
  rw [rowText_append]
  exact List.append_ne_nil_of_left_ne_nil hm _

/-- Neither a row's name nor its number ends in white space. -/
theorem strip_rowText (hm : PlainName measurement) (series i ts : ℤ) :
    strip (rowText measurement series i ts) = rowText measurement series i ts := by
  refine strip_of_ends (fun c hc => ?_) fun c hc => ?_
  · rw [head?_rowText hm.nonempty] at hc
    exact (hm.visible c (List.mem_of_mem_head? hc)).1
  · rw [rowText, List.getLast?_append_of_ne_nil _ (intText_ne_nil ts)] at hc
    exact (visible_intText ts c (List.mem_of_getLast? hc)).1

/-- The point that a row stands for. -/
def pointAt (measurement : Str) (series i : ℤ) (tenths : ℕ → F) (time : Time) : Point F :=
  ⟨measurement, tagsOf (i % series), fieldsOf (tenths (i % 1000).toNat) (i % 100), time⟩

theorem parseLine_rowText (hm : PlainName measurement) (series i : ℤ) {ts : ℤ} {tenths : ℕ → F}
    (hvalue : ∀ k < 1000, Numerics.ofText (tenthsText k) = some (tenths k)) {time now : Time}
    (htime : fromTimestamp ts = .ok time) :
    parseLine .ns none now (rowText measurement series i ts) =
      .ok (pointAt measurement series i tenths time) := by
  have hk : (i % 1000).toNat < 1000 := by omega
  have hcount : (i % 100).natAbs < 10 ^ maxStrDigits := by
    have hpow : 10 ^ 2 ≤ 10 ^ maxStrDigits := Nat.pow_le_pow_right (by decide) (by decide)
    omega
  have hparsed : parseTime .ns none now (some (intText ts)) = .ok time := by
    have htimeOf : timeOf .ns now (some ts) = .ok time := by
      rw [timeOf, precisionToNs, mul_one, htime]
    exact parseTime_encodeTime htimeOf
  have hhead : parseHead (headText measurement (i % series)) =
      .ok (measurement, tagsOf (i % series)) := by
    rw [headText_eq hm]
    refine parseHead_encodeHead hm.nonempty _ ?_
    show ∀ k ∈ ["host".toList, "region".toList], k ≠ []
    decide
  rw [parseLine_ok_iff, strip_rowText hm]
  refine ⟨rowText_ne_nil hm.nonempty series i ts, ?_, _, _, _, splitTopSpace_rowText hm.visible series i ts, hhead,
    parseFields_fieldsText (hvalue _ hk) hcount, hparsed⟩
  rw [isComment, head?_rowText hm.nonempty]
  exact decide_eq_false hm.comment

end Line

section Batch
variable {F : Type} [Numerics F]

theorem splitlinesLoop_cons {buf s : Str} (hs : IsUnbroken s) (t : Str) :
    splitlinesLoop false buf (s ++ '\n' :: t) = (buf ++ s) :: splitlinesLoop false [] t := by
  induction s generalizing buf with
  | nil =>
    rw [List.nil_append, List.append_nil, splitlinesLoop, if_neg fun h => Bool.false_ne_true h.2,
      if_pos (by decide)]
    rfl
  | cons c s ih =>
    have hc : ¬isLineBreak c = true := by
      rw [hs c List.mem_cons_self]
      exact Bool.false_ne_true
    rw [List.cons_append, splitlinesLoop, if_neg fun h => Bool.false_ne_true h.2, if_neg hc,
      ih fun d hd => hs d (List.mem_cons_of_mem c hd), List.append_assoc, List.singleton_append]

/-- Lines that do not break, joined by line feeds, are found again. -/
theorem splitlines_intercalate {lines : List Str}
    (h : ∀ line ∈ lines, line ≠ [] ∧ IsUnbroken line) :
    splitlines (List.intercalate ['\n'] lines) = lines := by
  induction lines with
  | nil => rfl
  | cons line lines ih =>
    obtain ⟨⟨hne, hline⟩, hrest⟩ := List.forall_mem_cons.mp h
    cases lines with
    | nil =>
      rw [List.intercalate_singleton]
      exact splitlinesLoop_of_isUnbroken hline hne
    | cons next lines =>
      have hloop : splitlines (line ++ '\n' :: List.intercalate ['\n'] (next :: lines)) =
          line :: splitlines (List.intercalate ['\n'] (next :: lines)) :=
        splitlinesLoop_cons hline _
      rw [List.intercalate_cons_cons, List.append_assoc, List.singleton_append, hloop, ih hrest]

/-- The loop collects a point for each line that is read. -/
theorem parseBatchLoop_of_read {repr : Str → Str} {precision : Precision} {now : ℕ → Time}
    {lines : List (ℕ × Str)} {read : List (Point F)}
    (h : List.Forall₂ (fun line p => parseLine precision none (now line.1) (strip line.2) = .ok p)
      lines read) (points : List (Point F)) (errors : List (ℕ × Str)) :
    parseBatchLoop repr precision now points errors lines = .ok (points ++ read, errors) := by
  induction h generalizing points with
  | nil => rw [parseBatchLoop, List.append_nil]
  | @cons line p lines read hline hrest ih =>
    obtain ⟨number, raw⟩ := line
    obtain ⟨hne, hcomment, _⟩ := parseLine_ok_iff.mp hline
    rw [strip_strip] at hne hcomment
    have hblank : ¬(strip raw = [] ∨ isComment (strip raw) = true) := by
      rw [hcomment]
      simpa using hne
    rw [parseBatchLoop, if_neg hblank]
    simp only [hline]
    rw [ih, List.append_assoc, List.singleton_append]

omit [Numerics F] in
theorem forall₂_numbered {R : Str → Point F → Prop} {lines : List Str} {ps : List (Point F)}
    (h : List.Forall₂ R lines ps) : List.Forall₂ (fun line p => R line.2 p) (numbered lines) ps := by
  rw [numbered, List.forall₂_map_left_iff]
  rw [← List.zipIdx_map_fst 0 lines, List.forall₂_map_left_iff] at h
  exact h

/-- The point carries what its row says; the host is a residue of the series. -/
structure IsRow (measurement : Str) (series i ts : ℤ) (tenths : ℕ → F) (p : Point F) : Prop where
  measurement : p.measurement = measurement
  host : 0 ≤ i % series ∧ i % series < series
  tags : p.tags.entries = [("host".toList, 'h' :: intText (i % series)),
    ("region".toList, 'r' :: intText (i % series % 8))]
  fields : p.fields.entries =
    [("value".toList, .float (tenths (i % 1000).toNat)), ("count".toList, .int (i % 100))]
  time : fromTimestamp ts = .ok p.time

omit [Numerics F] in
theorem isRow_pointAt (measurement : Str) {series : ℤ} (hseries : 1 ≤ series) (i : ℤ) {ts : ℤ}
    (tenths : ℕ → F) {time : Time} (htime : fromTimestamp ts = .ok time) :
    IsRow measurement series i ts tenths (pointAt measurement series i tenths time) where
  measurement := rfl
  host := ⟨Int.emod_nonneg i (by omega), Int.emod_lt_of_pos i (by omega)⟩
  tags := rfl
  fields := rfl
  time := htime

/-- Every row is read back, and a payload is put together from shorter ones. -/
theorem parseBatch_buildBatch {measurement : Str} (hm : PlainName measurement) (startRow : ℤ)
    {series : ℤ} (hseries : 1 ≤ series) (baseTsNs stepNs : ℤ) {tenths : ℕ → F}
    (hvalue : ∀ k < 1000, Numerics.ofText (tenthsText k) = some (tenths k)) (repr : Str → Str)
    (now : ℕ → Time) :
    (∀ n : ℕ, (∀ j < n, ∃ t, fromTimestamp (baseTsNs + (startRow + j) * stepNs) = .ok t) →
        ∃ points, parseBatch repr .ns now
            (buildBatch measurement startRow n series baseTsNs stepNs).1 = .ok (points, []) ∧
          List.Forall₂ (fun (j : ℕ) p => IsRow measurement series (startRow + j)
            (baseTsNs + (startRow + j) * stepNs) tenths p) (List.range n) points) ∧
      ∀ n n' : ℕ, 1 ≤ n → 1 ≤ n' →
        (buildBatch measurement startRow (n + n') series baseTsNs stepNs).1 =
          (buildBatch measurement startRow n series baseTsNs stepNs).1 ++ '\n' ::
            (buildBatch measurement (startRow + n) n' series baseTsNs stepNs).1 := by
  constructor
  · intro n htimes
    choose! time htime using htimes
    have hrow : ∀ j < n, ∀ clock : Time, parseLine .ns none clock
        (strip (rowAt measurement startRow series baseTsNs stepNs j)) =
          .ok (pointAt measurement series (startRow + j) tenths (time j)) := by
      intro j hj clock
      rw [rowAt, strip_rowText hm]
      exact parseLine_rowText hm series (startRow + j) hvalue (htime j hj)
    have hlines : ∀ line ∈ (List.range n).map (rowAt measurement startRow series baseTsNs stepNs),
        line ≠ [] ∧ IsUnbroken line := by
      intro line hline
      obtain ⟨j, _, rfl⟩ := List.mem_map.mp hline
      exact ⟨rowText_ne_nil hm.nonempty _ _ _, isUnbroken_rowText hm.visible _ _ _⟩
    refine ⟨(List.range n).map fun j : ℕ =>
      pointAt measurement series (startRow + j) tenths (time j), ?_, ?_⟩
    · have hread : List.Forall₂ (fun line p => ∀ clock : Time,
          parseLine .ns none clock (strip line) = .ok p)
          ((List.range n).map (rowAt measurement startRow series baseTsNs stepNs))
          ((List.range n).map fun j : ℕ =>
            pointAt measurement series (startRow + j) tenths (time j)) := by
        rw [List.forall₂_map_left_iff, List.forall₂_map_right_iff, List.forall₂_same]
        exact fun j hj => hrow j (List.mem_range.mp hj)
      unfold parseBatch
      rw [payload_eq, splitlines_intercalate hlines]
      exact parseBatchLoop_of_read ((forall₂_numbered hread).imp fun line p h => h (now line.1)) [] []
    · rw [List.forall₂_map_right_iff, List.forall₂_same]
      intro j hj
      exact isRow_pointAt measurement hseries _ tenths (htime j (List.mem_range.mp hj))
  · intro n n' hn hn'
    exact payload_add measurement startRow series baseTsNs stepNs hn hn'

end Batch

/-- A number of tenths, which is all that the generator prints. -/
structure Tenths where
  count : ℤ
deriving DecidableEq

def readTenths (s : Str) : Option Tenths :=
  let (negative, t) := splitSign s
  let (whole, rest) := t.span (fun c => c ≠ '.')
  let fraction := if rest.length = 2 then rest.drop 1 else ['0']
  (readDigits whole).bind fun q : ℕ => (readDigits fraction).map fun r : ℕ =>
    let n : ℤ := 10 * q + r
    ⟨if negative then -n else n⟩

def Tenths.toText (x : Tenths) : Str :=
  (if x.count < 0 then ['-'] else []) ++ tenthsText x.count.natAbs

instance : Numerics Tenths where
  ofInt n := ⟨10 * n⟩
  toInt x := .ok (x.count.tdiv 10)
  truthy x := decide (x.count ≠ 0)
  text := Tenths.toText
  ofText := readTenths
  intOfText := readInt
  pgToInt x := some (roundHalfEven (x.count / 10))
  pgText x := if x.count % 10 = 0 then intText (x.count / 10) else x.toText
  pgOfText := readTenths
  pgIntOfText := readInt

theorem readDigits_toDigits (n : ℕ) : readDigits (Nat.toDigits 10 n) = some n := by
  have hdigits : (Nat.toDigits 10 n).all Char.isDigit = true := List.all_eq_true.mpr fun _ =>
    Names.isDigit_of_mem_decimal
  rw [readDigits, if_pos ⟨Nat.toDigits_ne_nil, hdigits⟩, Nat.ofDigitChars_ten_toDigits]

theorem readTenths_tenthsText (k : ℕ) : readTenths (tenthsText k) = some ⟨k⟩ := by
  have hlength : (Nat.toDigits 10 (k % 10)).length = 1 := by
    rw [Nat.toDigits_of_lt_base (Nat.mod_lt k (by decide))]
    rfl
  have hnumber : (10 * (k / 10 : ℕ) + (k % 10 : ℕ) : ℤ) = k := by omega
  unfold readTenths
  rw [splitSign_tenthsText]
  simp only [span_tenthsText, List.length_cons, hlength, if_true, List.drop_succ_cons,
    List.drop_zero, readDigits_toDigits, Option.bind_some, Option.map_some, Bool.false_eq_true,
    if_false, hnumber]

theorem buildBatch_read :
    ∃ points : List (Point Tenths), parseBatch id .ns (fun _ => 0)
        (buildBatch "load".toList 999 2 3 1700000000000000000 1000000000).1 = .ok (points, []) ∧
      List.Forall₂ (fun (j : ℕ) p => IsRow "load".toList 3 (999 + j)
        (1700000000000000000 + (999 + j) * 1000000000) (fun k => ⟨k⟩) p) (List.range 2) points := by
  refine (parseBatch_buildBatch ⟨by decide, by decide, by decide, by decide⟩ 999 (by decide)
    1700000000000000000 1000000000 (fun k _ => readTenths_tenthsText k) id (fun _ => 0)).1 2 ?_
  intro j hj
  refine ⟨(1700000000 + (999 + j)) * 1000000, ?_⟩
  obtain rfl | rfl : j = 0 ∨ j = 1 := by omega
  · decide +kernel
  · decide +kernel

end TimescaleLp.LoadGen
