import TimescaleLp.NameQuotes

/-!
Strings that end in a backslash. The encoding escapes the backslash, and the
scans take the closing quote behind it for an escaped one, so the string stays
open and swallows what follows. The quotes of the line are then too few to give
every string of the point back.
-/
namespace TimescaleLp.LineProtocol

open Texts Escaping Folds

variable {F : Type}

/-- Letters, digits, underscores and every other character that is no delimiter,
quote, backslash, hash or white space. -/
def IsWordName (name : Str) : Prop :=
  ∀ c ∈ name, c ∉ ['\\', '"', ',', '=', '#'] ∧ isSpace c = false

instance (name : Str) : Decidable (IsWordName name) := List.decidableBAll _ name

theorem IsWordName.bare {name : Str} (h : IsWordName name) : IsBare name := by
  intro c hc
  obtain ⟨hnot, hspace⟩ := h c hc
  simp only [List.mem_cons, List.not_mem_nil, or_false, not_or] at hnot
  refine ⟨hnot.1, hnot.2.1, ?_⟩
  simp only [List.mem_cons, List.not_mem_nil, or_false, not_or]
  refine ⟨hnot.2.2.1, hnot.2.2.2.1, ?_⟩
  intro heq
  rw [heq] at hspace
  exact absurd hspace (by decide)

theorem countedQuotes_of_bare {name : Str} (h : IsBare name) : countedQuotes name = 0 := by
  have hloop : ∀ (s : Str) (prev : Option Char), IsBare s → toggles '\\' '"' prev s = 0 := by
    intro s
    induction s with
    | nil => exact fun _ _ => rfl
    | cons c s ih =>
      intro prev hs
      have hc := (hs c List.mem_cons_self).2.1
      rw [toggles, if_neg fun h => hc h.1, ih (some c) fun d hd => hs d (List.mem_cons_of_mem c hd)]
  exact hloop name none h

theorem bodd_countedQuotes_of_bare {name : Str} (h : IsBare name) :
    (countedQuotes name).bodd = false := by
  rw [countedQuotes_of_bare h]
  rfl

/-- The double quotes in the encoding of a value. -/
def quotesOf : Value F → ℕ
  | .str s => s.count '"' + 2
  | _ => 0

section Quotes
variable [Numerics F]

theorem count_of_bare {s : Str} (h : IsBare s) : s.count '"' = 0 :=
  List.count_eq_zero.mpr fun hmem => (h _ hmem).2.1 rfl

theorem count_encodeName (name : Str) : (encodeName name).count '"' = name.count '"' :=
  count_escape '\\' (by decide) delimiters name

theorem count_encodeValue {v : Value F} (hv : IsExact v) :
    (encodeValue v).count '"' = quotesOf v := by
  by_cases hstr : ∃ s, v = .str s
  · obtain ⟨s, rfl⟩ := hstr
    rw [encodeValue, List.cons_append, List.count_cons_self, List.count_append,
      count_escape '\\' (by decide)]
    rfl
  · have hnot : ∀ s, v ≠ .str s := fun s h => hstr ⟨s, h⟩
    rw [count_of_bare (isBare_encodeValue hv hnot)]
    cases hv with
    | bool b => rfl
    | int n => rfl
    | str s => exact absurd rfl (hnot s)

theorem count_encodeField {f : Str × Value F} (hname : IsBare f.1) (hv : IsExact f.2) :
    (encodeField f).count '"' = quotesOf f.2 := by
  rw [encodeField, List.count_append, List.count_cons_of_ne (by decide), count_encodeName,
    count_of_bare hname, count_encodeValue hv, Nat.zero_add]

theorem isQuoted_iff {v : Str} : isQuoted v = true ↔ ∃ inner, v = '"' :: inner ++ ['"'] := by
  constructor
  · intro h
    simp only [isQuoted, Bool.and_eq_true, decide_eq_true_eq] at h
    obtain ⟨⟨hfirst, hlast⟩, hlength⟩ := h
    obtain ⟨t, rfl⟩ := List.head?_eq_some_iff.mp hfirst
    obtain ⟨u, hu⟩ := List.getLast?_eq_some_iff.mp hlast
    cases u with
    | nil =>
      rw [hu] at hlength
      exact absurd hlength (by decide)
    | cons c u =>
      obtain ⟨rfl, ht⟩ := List.cons.inj hu
      exact ⟨u, by rw [hu]⟩
  · intro h
    obtain ⟨inner, rfl⟩ := h
    simp only [isQuoted, List.getLast?_concat]
    simp

theorem parseFieldValue_str {v s : Str} (h : parseFieldValue v = .ok (.str s : Value F)) :
    ∃ inner, v = '"' :: inner ++ ['"'] ∧ s = unescape inner ['"'] := by
  unfold parseFieldValue at h
  split_ifs at h with hne hq ht hf hs
  · obtain ⟨inner, rfl⟩ := isQuoted_iff.mp hq
    have hinner : (('"' :: inner ++ ['"']).drop 1).dropLast = inner := by simp
    rw [hinner] at h
    exact ⟨inner, rfl, (Value.str.inj (Except.ok.inj h)).symm⟩
  · exact nomatch Except.ok.inj h
  · exact nomatch Except.ok.inj h
  · cases hint : int v.dropLast with
    | none => simp [hint] at h
    | some n =>
      rw [hint] at h
      exact nomatch Except.ok.inj h
  · cases hfl : (float v : Option F) with
    | none => simp [hfl] at h
    | some y =>
      rw [hfl] at h
      exact nomatch Except.ok.inj h

/-- A string that is read has at most the quotes of its text. -/
theorem quotesOf_le {v : Str} {x : Value F} (h : parseFieldValue v = .ok x) :
    quotesOf x ≤ v.count '"' := by
  cases x with
  | bool b => exact Nat.zero_le _
  | int n => exact Nat.zero_le _
  | float y => exact Nat.zero_le _
  | str s =>
    obtain ⟨inner, rfl, rfl⟩ := parseFieldValue_str h
    rw [List.cons_append, List.count_cons_self, List.count_append]
    exact Nat.add_le_add_right ((unescape_sublist '\\' ['"'] inner).count_le '"') 2

/-- The entries that parts of a section set have no more quotes than these parts. -/
theorem sum_quotesOf_le {d r : Dict Str (Value F)} {parts : List Str}
    (h : parts.foldlM parseField d = .ok r) (es : List (Str × Value F))
    (hkeys : (es.map Prod.fst).Nodup) (hes : ∀ e ∈ es, r.get? e.1 = some e.2)
    (hnew : ∀ e ∈ es, d.get? e.1 ≠ some e.2) :
    (es.map fun e => quotesOf e.2).sum ≤ (parts.map (List.count '"')).sum := by
  induction parts generalizing d es with
  | nil =>
    cases Except.ok.inj h
    cases es with
    | nil => exact le_rfl
    | cons e es => exact absurd (hes e List.mem_cons_self) (hnew e List.mem_cons_self)
  | cons fp parts ih =>
    obtain ⟨d', hstep, hfold⟩ := foldlM_cons_ok_iff.mp h
    rw [List.map_cons, List.sum_cons]
    rcases parseField_ok_cases hstep with ⟨_, hd⟩ | ⟨k, v, x, hkv, _, hx, hd⟩
    · rw [hd] at hfold
      exact (ih hfold es hkeys hes hnew).trans (Nat.le_add_left _ _)
    rw [hd] at hfold
    have hcount : quotesOf x ≤ fp.count '"' := by
      have hsum := sum_count_splitLoop '\\' '"' (by decide : '"' ≠ '=') true none false [] fp
      have hsplit : splitLoop '\\' '"' '=' true none false [] fp = [k, v] := hkv
      rw [hsplit, List.nil_append] at hsum
      simp only [List.map_cons, List.map_nil, List.sum_cons, List.sum_nil, Nat.add_zero] at hsum
      have hle := quotesOf_le hx
      omega
    generalize unescape k [',', '=', ' '] = key at hfold
    by_cases hmem : (key, x) ∈ es
    · -- this part gives that entry its value, the others are set later
      obtain ⟨l₁, l₂, hl⟩ := List.append_of_mem hmem
      have hperm : es.Perm ((key, x) :: (l₁ ++ l₂)) := hl ▸ List.perm_middle
      have hkeys' := (hperm.map Prod.fst).nodup_iff.mp hkeys
      rw [List.map_cons, List.nodup_cons] at hkeys'
      have hsub : ∀ e ∈ l₁ ++ l₂, e ∈ es := fun e he =>
        hperm.mem_iff.mpr (List.mem_cons_of_mem _ he)
      have hrest := ih hfold (l₁ ++ l₂) hkeys'.2 (fun e he => hes e (hsub e he)) (by
        intro e he
        have hne : e.1 ≠ key := fun heq => hkeys'.1 (List.mem_map.mpr ⟨e, he, heq⟩)
        rw [Dict.get?_set_of_ne _ _ hne]
        exact hnew e (hsub e he))
      have hsum := (hperm.map fun e => quotesOf e.2).sum_eq
      rw [List.map_cons, List.sum_cons] at hsum
      rw [hsum]
      exact Nat.add_le_add hcount hrest
    · refine (ih hfold es hkeys hes ?_).trans (Nat.le_add_left _ _)
      intro e he
      rw [Dict.get?_set]
      split
      · rename_i heq
        intro hsome
        refine hmem ?_
        rw [← heq, Option.some.inj hsome]
        exact he
      · exact hnew e he

/-- With something behind it, a string left open is not read as that string. -/
theorem parseField_open_ne {f : Str × Value F} (hname : IsBare f.1) (hv : IsExact f.2)
    (hopen : leavesOpen f.2 = true) {c : Char} (hc : c ∈ delimiters) (w : Str)
    {d r : Dict Str (Value F)} (h : parseField d (encodeField f ++ c :: w) = .ok r) :
    ∃ x, x ≠ f.2 ∧ r = d.set f.1 x := by
  have heven := bodd_countedQuotes_of_bare hname
  have hne : encodeField f ++ c :: w ≠ [] :=
    List.append_ne_nil_of_right_ne_nil _ (List.cons_ne_nil _ _)
  obtain ⟨w', parts, hsplit⟩ : ∃ w' parts, splitTop (encodeField f ++ c :: w) '=' true =
      encodeName f.1 :: (encodeValue f.2 ++ c :: w') :: parts := by
    have hkey : Scans '=' true none false (encodeName f.1) (lastOf none f.1) false := by
      have h := scans_name (by decide : '=' ∈ delimiters) none false f.1
      rwa [toggles_of_ne (by decide), heven] at h
    have hvalue := moves_encodeValue (by decide : '=' ∈ delimiters) hv
    rw [hopen] at hvalue
    obtain ⟨w', parts, hrest⟩ := hvalue.exists_splitLoop_open hc (by decide : some '=' ≠ some '\\') w
    refine ⟨w', parts, ?_⟩
    unfold splitTop split encodeField
    rw [List.append_assoc, List.cons_append, splitLoop_cons_of_passes (by decide) (by decide) hkey,
      hrest]
  rcases parseField_ok_cases h with ⟨hnil, _⟩ | ⟨k, v, x, hkv, _, hx, rfl⟩
  · exact absurd hnil hne
  rw [hsplit] at hkv
  obtain ⟨hk, htail⟩ := List.cons.inj hkv
  rw [← hk, unescape_encodeName]
  refine ⟨x, ?_, rfl⟩
  rintro rfl
  rw [← (List.cons.inj htail).1] at hx
  obtain ⟨name, value⟩ := f
  cases hv with
  | bool b => exact Bool.false_ne_true hopen
  | int n => exact Bool.false_ne_true hopen
  | str s =>
    obtain ⟨inner, hinner, hs⟩ := parseFieldValue_str hx
    have hlast : (c :: w').getLast? = some '"' := by
      have hl := congrArg List.getLast? hinner
      rw [List.getLast?_concat, List.getLast?_append] at hl
      cases hw : (c :: w').getLast? with
      | none => exact absurd (List.getLast?_eq_none_iff.mp hw) (List.cons_ne_nil c w')
      | some e => rwa [hw, Option.some_or] at hl
    obtain ⟨u, hu⟩ := List.getLast?_eq_some_iff.mp hlast
    have htext : inner = escape '\\' ['"'] s ++ '"' :: u := by
      rw [hu, encodeValue, ← List.append_assoc] at hinner
      have hcut := List.append_cancel_right hinner
      simpa using (List.cons.inj hcut).2.symm
    rw [htext, unescape, unescape_escape_append '\\' (fun _ h => h)] at hs
    have hnil := (List.append_right_eq_self.mp hs.symm)
    rw [Escaping.unescape_eq_nil_iff] at hnil
    exact List.cons_ne_nil _ _ hnil

theorem count_encodeFields {fields : List (Str × Value F)} (hnames : ∀ f ∈ fields, IsBare f.1)
    (hexact : ∀ f ∈ fields, IsExact f.2) :
    (encodeFields fields).count '"' = (fields.map fun f => quotesOf f.2).sum := by
  induction fields with
  | nil => rfl
  | cons f fs ih =>
    rw [List.forall_mem_cons] at hnames hexact
    have hf := count_encodeField hnames.1 hexact.1
    cases fs with
    | nil => rw [encodeFields_singleton, hf, List.map_singleton, List.sum_singleton]
    | cons g fs =>
      rw [encodeFields_cons_cons, List.count_append, List.count_cons_of_ne (by decide), hf,
        ih hnames.2 hexact.2]
      rfl

omit [Numerics F] in
theorem count_encodeTime (ts : Option ℤ) : (encodeTime ts).count '"' = 0 := by
  cases ts with
  | none => rfl
  | some n =>
    rw [encodeTime, Option.elim_some, List.count_cons_of_ne (by decide),
      count_of_bare (isBare_intText n)]

/-- Fields with a comma behind each. -/
def encodePrefix (fields : List (Str × Value F)) : Str :=
  fields.flatMap fun f => encodeField f ++ [',']

theorem encodeFields_append (before : List (Str × Value F)) (f : Str × Value F)
    (after : List (Str × Value F)) :
    encodeFields (before ++ f :: after) = encodePrefix before ++ encodeFields (f :: after) := by
  induction before with
  | nil => rfl
  | cons g before ih =>
    have hcons : encodeFields (g :: (before ++ f :: after)) =
        encodeField g ++ ',' :: encodeFields (before ++ f :: after) := by
      cases before <;> exact encodeFields_cons_cons _ _ _
    rw [List.cons_append, hcons, ih, encodePrefix, encodePrefix, List.flatMap_cons]
    simp

/-- Behind a field stands a comma or a space, if anything does. -/
theorem exists_delimiter_behind (f : Str × Value F) {after : List (Str × Value F)} {ts : Option ℤ}
    (hnext : after ≠ [] ∨ ts.isSome) :
    ∃ c t, c ∈ delimiters ∧ encodeFields (f :: after) ++ encodeTime ts = encodeField f ++ c :: t := by
  cases after with
  | nil =>
    obtain ⟨n, rfl⟩ := Option.isSome_iff_exists.mp (hnext.resolve_left (not_not_intro rfl))
    exact ⟨' ', intText n, by decide, by rw [encodeFields_singleton]; rfl⟩
  | cons g after =>
    refine ⟨',', encodeFields (g :: after) ++ encodeTime ts, by decide, ?_⟩
    rw [encodeFields_cons_cons, List.append_assoc, List.cons_append]

omit [Numerics F] in
/-- Fields before the first one whose string stays open. -/
structure PrefixOk (before : List (Str × Value F)) : Prop where
  bare : ∀ g ∈ before, IsBare g.1
  exact : ∀ g ∈ before, IsExact g.2
  closed : ∀ g ∈ before, leavesOpen g.2 = false

theorem PrefixOk.moves {sep : Char} (hsep : sep ∈ delimiters) (hne : sep ≠ '=')
    {before : List (Str × Value F)} (h : PrefixOk before) {g : Str × Value F} (hg : g ∈ before) :
    Moves sep false (encodeField g) false := by
  have hmoves := moves_encodeField hsep hne (h.exact g hg)
    (bodd_countedQuotes_of_bare (h.bare g hg))
  rwa [h.closed g hg] at hmoves

omit [Numerics F] in
theorem PrefixOk.tail {g : Str × Value F} {before : List (Str × Value F)}
    (h : PrefixOk (g :: before)) : PrefixOk before where
  bare := fun x hx => h.bare x (List.mem_cons_of_mem g hx)
  exact := fun x hx => h.exact x (List.mem_cons_of_mem g hx)
  closed := fun x hx => h.closed x (List.mem_cons_of_mem g hx)

theorem moves_encodePrefix {before : List (Str × Value F)} (h : PrefixOk before) :
    Moves ' ' false (encodePrefix before) false := by
  induction before with
  | nil => exact Moves.nil false
  | cons g before ih =>
    have hcomma : Moves ' ' false [','] false := moves_delimiter (by decide) (by decide)
    have hg := h.moves (by decide : ' ' ∈ delimiters) (by decide) List.mem_cons_self
    rw [encodePrefix, List.flatMap_cons]
    exact (hg.append hcomma).append (ih h.tail)

theorem splitLoop_encodePrefix {before : List (Str × Value F)} (h : PrefixOk before)
    {prev : Option Char} (hprev : prev ≠ some '\\') (t : Str) :
    ∃ prev', prev' ≠ some '\\' ∧
      splitLoop '\\' '"' ',' true prev false [] (encodePrefix before ++ t) =
        before.map encodeField ++ splitLoop '\\' '"' ',' true prev' false [] t := by
  induction before generalizing prev with
  | nil => exact ⟨prev, hprev, rfl⟩
  | cons g before ih =>
    have hg := h.moves (by decide : ',' ∈ delimiters) (by decide) List.mem_cons_self
    obtain ⟨prev', hprev', hrest⟩ := ih h.tail (by decide : some ',' ≠ some '\\')
    refine ⟨prev', hprev', ?_⟩
    have htext : encodePrefix (g :: before) ++ t = encodeField g ++ ',' :: (encodePrefix before ++ t) := by
      simp [encodePrefix]
    rw [htext, hg.splitLoop_cons (by decide) hprev, hrest, List.map_cons, List.cons_append]

/-- Parts that are encoded fields set the keys of these fields only. -/
theorem get?_of_foldlM_encodeField {before : List (Str × Value F)} (h : PrefixOk before)
    {d r : Dict Str (Value F)} (hfold : (before.map encodeField).foldlM parseField d = .ok r)
    {k : Str} (hk : k ∉ before.map Prod.fst) : r.get? k = d.get? k := by
  induction before generalizing d with
  | nil =>
    cases Except.ok.inj hfold
    rfl
  | cons g before ih =>
    rw [List.map_cons, List.mem_cons, not_or] at hk
    obtain ⟨d', hstep, hfold⟩ := foldlM_cons_ok_iff.mp hfold
    rw [ih h.tail hfold hk.2]
    rcases parseField_ok_cases hstep with ⟨_, rfl⟩ | ⟨k', v, x, hkv, _, _, rfl⟩
    · rfl
    · have heven := bodd_countedQuotes_of_bare (h.bare g List.mem_cons_self)
      rw [splitTop_encodeField (h.exact g List.mem_cons_self) heven] at hkv
      rw [← (List.cons.inj hkv).1, unescape_encodeName, Dict.get?_set_of_ne _ _ hk.1]

omit [Numerics F] in
theorem two_le_quotesOf {v : Value F} (hv : IsExact v) (hopen : leavesOpen v = true) :
    2 ≤ quotesOf v := by
  cases hv with
  | bool b => exact absurd hopen Bool.false_ne_true
  | int n => exact absurd hopen Bool.false_ne_true
  | str s => exact Nat.le_add_left _ _

omit [Numerics F] in
/-- `f` is the first field whose string stays open. -/
structure OpensAt (fields : Dict Str (Value F)) (before : List (Str × Value F)) (f : Str × Value F)
    (after : List (Str × Value F)) : Prop where
  entries : fields.entries = before ++ f :: after
  bare : ∀ g ∈ fields.entries, IsBare g.1
  exact : ∀ g ∈ fields.entries, IsExact g.2
  closed : ∀ g ∈ before, leavesOpen g.2 = false
  opens : leavesOpen f.2 = true

section Open
variable {fields : Dict Str (Value F)} {before after : List (Str × Value F)} {f : Str × Value F}
  {ts : Option ℤ} {fieldsSection : Str} {rest : List Str}

omit [Numerics F] in
theorem OpensAt.prefixOk (h : OpensAt fields before f after) : PrefixOk before where
  bare := fun g hg => h.bare g (h.entries ▸ List.mem_append_left _ hg)
  exact := fun g hg => h.exact g (h.entries ▸ List.mem_append_left _ hg)
  closed := h.closed

omit [Numerics F] in
theorem OpensAt.mem (h : OpensAt fields before f after) : f ∈ fields.entries :=
  h.entries ▸ List.mem_append_right before List.mem_cons_self

theorem OpensAt.moves (h : OpensAt fields before f after) {sep : Char} (hsep : sep ∈ delimiters)
    (hne : sep ≠ '=') : Moves sep false (encodeField f) true := by
  have hmoves := moves_encodeField hsep hne (h.exact f h.mem)
    (bodd_countedQuotes_of_bare (h.bare f h.mem))
  rwa [h.opens] at hmoves

/-- The section runs on behind the field. -/
theorem OpensAt.exists_section (h : OpensAt fields before f after) {c : Char}
    (hc : c ∈ delimiters) {t : Str}
    (htail : encodeFields (f :: after) ++ encodeTime ts = encodeField f ++ c :: t)
    (hsection : splitLoop '\\' '"' ' ' true (some ' ') false []
      (encodeFields fields.entries ++ encodeTime ts) = fieldsSection :: rest) :
    ∃ w, fieldsSection = encodePrefix before ++ (encodeField f ++ c :: w) := by
  have hmoves := (moves_encodePrefix h.prefixOk).append (h.moves (by decide : ' ' ∈ delimiters)
    (by decide))
  obtain ⟨w, parts, hsplit⟩ := hmoves.exists_splitLoop_open hc (by decide : some ' ' ≠ some '\\') t
  rw [h.entries, encodeFields_append, List.append_assoc, htail, ← List.append_assoc, hsplit]
    at hsection
  exact ⟨w, by rw [← (List.cons.inj hsection).1, List.append_assoc]⟩

/-- In such a section the fields before are parts of their own. -/
theorem OpensAt.exists_parts (h : OpensAt fields before f after) {c : Char} (hc : c ∈ delimiters)
    (w : Str) :
    ∃ w' parts, splitTop (encodePrefix before ++ (encodeField f ++ c :: w)) ',' true =
      before.map encodeField ++ (encodeField f ++ c :: w') :: parts := by
  obtain ⟨prev, hprev, hsplit⟩ := splitLoop_encodePrefix h.prefixOk (by decide : none ≠ some '\\')
    (encodeField f ++ c :: w)
  obtain ⟨w', parts, hparts⟩ := (h.moves (by decide : ',' ∈ delimiters)
    (by decide)).exists_splitLoop_open hc hprev w
  refine ⟨w', parts, ?_⟩
  unfold splitTop split
  rw [hsplit, hparts]

/-- The open field and the fields after it get their values from the parts behind it. -/
theorem OpensAt.sum_quotesOf_le (h : OpensAt fields before f after) {c : Char}
    (hc : c ∈ delimiters) {w : Str} {parts : List Str}
    (hfold : (before.map encodeField ++ (encodeField f ++ c :: w) :: parts).foldlM parseField
      Dict.empty = .ok fields) :
    ((f :: after).map fun e => quotesOf e.2).sum ≤ (parts.map (List.count '"')).sum := by
  rw [List.foldlM_append] at hfold
  obtain ⟨d, hfirst, hfold⟩ := bind_ok_iff.mp hfold
  obtain ⟨d', hbad, hfold⟩ := foldlM_cons_ok_iff.mp hfold
  obtain ⟨x, hx, hd'⟩ :=
    parseField_open_ne (h.bare f h.mem) (h.exact f h.mem) h.opens hc w hbad
  have hnodup := fields.nodup
  rw [h.entries, List.map_append, List.nodup_append] at hnodup
  obtain ⟨_, hnodup, hdisjoint⟩ := hnodup
  refine LineProtocol.sum_quotesOf_le hfold (f :: after) hnodup ?_ ?_
  · intro e he
    exact (Dict.get?_eq_some_iff _ _ _).mpr (h.entries ▸ List.mem_append_right before he)
  · intro e he
    rw [hd', Dict.get?_set]
    split
    · rename_i heq
      rcases List.mem_cons.mp he with rfl | he
      · exact fun h => hx (Option.some.inj h)
      · rw [List.map_cons, List.nodup_cons] at hnodup
        exact absurd (heq ▸ List.mem_map_of_mem he) hnodup.1
    · have hnew : e.1 ∉ before.map Prod.fst := by
        intro hmem
        exact hdisjoint e.1 hmem e.1 (List.mem_map_of_mem he) rfl
      rw [get?_of_foldlM_encodeField h.prefixOk hfirst hnew]
      exact fun h => nomatch h

theorem count_section_le (hnames : ∀ g ∈ fields.entries, IsBare g.1)
    (hexact : ∀ g ∈ fields.entries, IsExact g.2)
    (hsection : splitLoop '\\' '"' ' ' true (some ' ') false []
      (encodeFields fields.entries ++ encodeTime ts) = fieldsSection :: rest) :
    fieldsSection.count '"' ≤ (fields.entries.map fun e => quotesOf e.2).sum := by
  have hsum := sum_count_splitLoop '\\' '"' (by decide : '"' ≠ ' ') true (some ' ') false []
    (encodeFields fields.entries ++ encodeTime ts)
  rw [hsection, List.map_cons, List.sum_cons, List.nil_append, List.count_append,
    count_encodeTime, count_encodeFields hnames hexact] at hsum
  omega

/-- A section with a string left open is not read as the fields it encodes. -/
theorem not_read_of_open (h : OpensAt fields before f after) (hnext : after ≠ [] ∨ ts.isSome)
    (hsection : splitLoop '\\' '"' ' ' true (some ' ') false []
      (encodeFields fields.entries ++ encodeTime ts) = fieldsSection :: rest) :
    parseFields fieldsSection ≠ .ok fields := by
  intro hread
  obtain ⟨c, t, hc, htail⟩ := exists_delimiter_behind f hnext
  obtain ⟨w, hw⟩ := h.exists_section hc htail hsection
  obtain ⟨w', parts, hparts⟩ := h.exists_parts hc w
  rw [← hw] at hparts
  obtain ⟨r, hfold, hr⟩ := bind_ok_iff.mp hread
  split at hr
  · contradiction
  cases Except.ok.inj hr
  rw [hparts] at hfold
  have hrest := h.sum_quotesOf_le hc hfold
  -- but these parts have fewer quotes than that
  have htotal := count_section_le h.bare h.exact hsection
  have hsum := sum_count_splitLoop '\\' '"' (by decide : '"' ≠ ',') true none false [] fieldsSection
  have hsplit : splitLoop '\\' '"' ',' true none false [] fieldsSection =
    before.map encodeField ++ (encodeField f ++ c :: w') :: parts := hparts
  rw [hsplit, List.nil_append, List.map_append, List.sum_append, List.map_cons,
    List.sum_cons, List.map_map] at hsum
  have hprefix : (before.map (List.count '"' ∘ encodeField)).sum =
      (before.map fun e => quotesOf e.2).sum := by
    refine congrArg List.sum (List.map_congr_left fun g hg => ?_)
    exact count_encodeField (h.prefixOk.bare g hg) (h.prefixOk.exact g hg)
  have hbad : quotesOf f.2 ≤ (encodeField f ++ c :: w').count '"' := by
    rw [List.count_append, count_encodeField (h.bare f h.mem) (h.exact f h.mem)]
    exact Nat.le_add_right _ _
  have hpos := two_le_quotesOf (h.exact f h.mem) h.opens
  rw [h.entries, List.map_append, List.sum_append] at htotal
  omega

end Open

/-- A string stays open without harm at the end of the line only. -/
theorem closed_of_readsBack {p : Point F} {ts : Option ℤ}
    (hnames : ∀ g ∈ p.fields.entries, IsBare g.1) (hexact : ∀ g ∈ p.fields.entries, IsExact g.2)
    {fieldsSection : Str} {rest : List Str}
    (hsection : splitLoop '\\' '"' ' ' true (some ' ') false []
      (encodeFields p.fields.entries ++ encodeTime ts) = fieldsSection :: rest)
    (hread : parseFields fieldsSection = .ok p.fields) :
    (∀ f ∈ p.fields.entries.dropLast, leavesOpen f.2 = false) ∧
      (ts.isSome → ∀ f ∈ p.fields.entries, leavesOpen f.2 = false) := by
  cases hfind : p.fields.entries.find? fun f => leavesOpen f.2 with
  | none =>
    have hall : ∀ f ∈ p.fields.entries, leavesOpen f.2 = false := by
      intro f hf
      exact Bool.eq_false_iff.mpr (List.find?_eq_none.mp hfind f hf)
    exact ⟨fun f hf => hall f (List.mem_of_mem_dropLast hf), fun _ => hall⟩
  | some f =>
    obtain ⟨hopen, before, after, hentries, hclosed⟩ := List.find?_eq_some_iff_append.mp hfind
    have hclosed' : ∀ g ∈ before, leavesOpen g.2 = false := fun g hg => by
      simpa using hclosed g hg
    have hend : after = [] ∧ ts = none := by
      by_contra hnext
      rw [not_and_or] at hnext
      have hnext : after ≠ [] ∨ ts.isSome := hnext.imp id Option.isSome_iff_ne_none.mpr
      exact not_read_of_open ⟨hentries, hnames, hexact, hclosed', hopen⟩ hnext hsection hread
    rw [hentries, hend.1, hend.2]
    refine ⟨?_, fun h => absurd h (by decide)⟩
    intro g hg
    rw [List.dropLast_concat] at hg
    exact hclosed' g hg

end Quotes

/-- Points with plain names: read back exactly when no name is empty, the double
quotes of the tag values that count are even in number, no string ends in a
backslash except in the last field of a line without a timestamp, and no integer
is too long. -/
theorem readsBack_strings_iff [Numerics F] {precision : Precision} {now : Time} {p : Point F}
    {ts : Option ℤ} (hm : IsWordName p.measurement) (htags : ∀ k ∈ p.tags.keys, IsWordName k)
    (hkeys : ∀ k ∈ p.fields.keys, IsWordName k) (hfields : p.fields.entries ≠ [])
    (hexact : ∀ f ∈ p.fields.entries, IsExact f.2)
    (hdate : ∃ t, timeOf precision now ts = .ok t) :
    ReadsBack precision now p ts ↔
      (p.measurement ≠ [] ∧ (∀ k ∈ p.tags.keys, k ≠ []) ∧ ∀ k ∈ p.fields.keys, k ≠ []) ∧
        Even (p.tags.values.map countedQuotes).sum ∧
        ((∀ f ∈ p.fields.entries.dropLast, leavesOpen f.2 = false) ∧
          (ts.isSome → ∀ f ∈ p.fields.entries, leavesOpen f.2 = false)) ∧
        ∀ f ∈ p.fields.entries, Fits f.2 := by
  have hp : Encodable p := by
    refine ⟨?_, hfields, hexact⟩
    intro c hc
    obtain ⟨hnot, hspace⟩ := hm c (List.mem_of_mem_head? hc)
    refine ⟨hspace, ?_⟩
    rintro rfl
    exact hnot (by decide)
  have hbare : ∀ f ∈ p.fields.entries, IsBare f.1 := fun f hf =>
    (hkeys f.1 (List.mem_map_of_mem hf)).bare
  have hnames : ∀ f ∈ p.fields.entries, (countedQuotes f.1).bodd = false :=
    fun f hf => bodd_countedQuotes_of_bare (hbare f hf)
  have hquotes : headQuotes p.measurement p.tags.entries =
      (p.tags.values.map countedQuotes).sum := by
    rw [headQuotes, countedQuotes_of_bare hm.bare, Nat.zero_add, Dict.values, List.map_map]
    refine congrArg List.sum (List.map_congr_left fun tag htag => ?_)
    rw [countedQuotes_of_bare (htags tag.1 (List.mem_map_of_mem htag)).bare, Nat.zero_add]
    rfl
  rw [← hquotes]
  constructor
  · intro h
    obtain ⟨hne, heven, fieldsSection, rest, hsection, hread⟩ := h.head hp
    have hclosed := closed_of_readsBack hbare hexact hsection hread
    refine ⟨hne, (even_iff_bodd _).mpr heven, hclosed, ?_⟩
    have hok : FieldsOk p.fields.entries := ⟨hexact, hnames, hclosed.1⟩
    rw [splitLoop_encodeFields_time hfields hok fun hts => hclosed.2 hts _
      (List.getLast_mem hfields)] at hsection
    rw [← (List.cons.inj hsection).1] at hread
    exact fits_of_parseFields hfields hok hread
  · intro h
    obtain ⟨hne, heven, hclosed, hfits⟩ := h
    obtain ⟨t, ht⟩ := hdate
    have hread : Readable p ts :=
      { hp with
        measurement := hne.1
        tagKeys := hne.2.1
        fieldKeys := hne.2.2
        head := (even_iff_bodd _).mp heven
        names := hnames
        closed := hclosed.1
        last := hclosed.2
        fits := hfits }
    exact ⟨_, parseLine_encodeLine hread ht, rfl, rfl, rfl, ht⟩

def stringPoint (s : Str) : Point ℤ :=
  ⟨['m'], Dict.empty, (Dict.single ['v'] (.str s)).set ['w'] (.int 1), 0⟩

/-- Quotes and backslashes inside a string are read back. -/
theorem readsBack_strings_iff_quotes :
    ReadsBack .ns 0 (stringPoint ['a', '\\', '"', ' ', 'b']) (some 1500) := by
  refine (readsBack_strings_iff (by decide) (by decide) (by decide) (List.cons_ne_nil _ _) ?_
    ⟨2, by decide +kernel⟩).mpr ⟨⟨by decide, by decide, by decide⟩, by decide, by decide, ?_⟩
  · intro f hf
    rcases List.mem_cons.mp hf with rfl | hf
    · exact .str _
    · cases List.mem_singleton.mp hf
      exact .int 1
  · intro f hf
    rcases List.mem_cons.mp hf with rfl | hf
    · trivial
    · cases List.mem_singleton.mp hf
      exact Nat.one_lt_pow (by decide) (by decide)

/-- The string before the last field ends in a backslash. -/
theorem not_readsBack_backslash : ¬ReadsBack .ns 0 (stringPoint ['a', '\\']) none := by
  intro ⟨q, hq, _⟩
  have hraises : (parseLine .ns none 0 (encodeLine (stringPoint ['a', '\\']) none) :
      Except Raised (Point ℤ)).isOk = false := by decide +kernel
  rw [hq] at hraises
  exact Bool.false_ne_true hraises.symm

end TimescaleLp.LineProtocol
