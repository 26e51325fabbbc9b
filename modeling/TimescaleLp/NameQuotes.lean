import TimescaleLp.Decoding

/-!
Double quotes in names. The documented encoding leaves them as they are, while
the scans for sections and fields take a quote that does not directly follow a
backslash for the start or the end of a string. A point with integers and
booleans is read back exactly when these quotes come in pairs.
-/
namespace TimescaleLp.LineProtocol

open Texts Escaping Folds

variable {F : Type}

/-- The parse returns a point with the same names and values, and the time is
that of the timestamp. -/
def ReadsBack [Numerics F] (precision : Precision) (now : Time) (p : Point F) (ts : Option ℤ) :
    Prop :=
  ∃ q, parseLine precision none now (encodeLine p ts) = .ok q ∧
    q.measurement = p.measurement ∧ q.tags = p.tags ∧ q.fields = p.fields ∧
      timeOf precision now ts = .ok q.time

theorem even_iff_bodd (n : ℕ) : Even n ↔ n.bodd = false := by
  rw [Nat.even_iff, Nat.mod_two_of_bodd]
  cases n.bodd <;> simp

section Accepted

theorem parseTag_ok_cases {tags r : Dict Str Str} {tp : Str} (h : parseTag tags tp = .ok r) :
    r = tags ∨ ∃ k v, k ≠ [] ∧ (∀ c ∈ k ++ v, c ∈ tp) ∧ r = tags.set k v := by
  unfold parseTag at h
  split at h
  · exact Or.inl (Except.ok.inj h).symm
  split at h
  · split at h
    · contradiction
    · rename_i k v hkv hk
      refine Or.inr ⟨_, _, hk, ?_, (Except.ok.inj h).symm⟩
      have hpart : ∀ u ∈ [k, v], ∀ c ∈ unescape u [',', '=', ' '], c ∈ tp := by
        intro u hu c hc
        exact mem_of_mem_splitTop (hkv ▸ hu) ((Escaping.unescape_sublist _ _ _).mem hc)
      intro c hc
      rcases List.mem_append.mp hc with hc | hc
      · exact hpart k (by simp) c hc
      · exact hpart v (by simp) c hc
  · contradiction

/-- No name of an accepted head is empty. -/
theorem names_of_parseHead {head m : Str} {tags : Dict Str Str}
    (h : parseHead head = .ok (m, tags)) : m ≠ [] ∧ ∀ k ∈ tags.keys, k ≠ [] := by
  unfold parseHead at h
  simp only at h
  split at h
  · contradiction
  · rename_i hm
    obtain ⟨r, hfold, hr⟩ := map_ok_iff.mp h
    cases hr
    refine ⟨hm, ?_⟩
    refine foldlM_invariant (I := fun d => ∀ k ∈ d.keys, k ≠ []) ?_ ?_ hfold
    · intro d tp _ d' hd hstep k hk
      rcases parseTag_ok_cases hstep with rfl | ⟨k', v, hk', _, rfl⟩
      · exact hd k hk
      · rcases (Dict.mem_keys_set d).mp hk with hk | rfl
        · exact hd k hk
        · exact hk'
    · intro k hk
      exact absurd hk List.not_mem_nil

theorem keys_of_parseFields [Numerics F] {s : Str} {fields : Dict Str (Value F)}
    (h : parseFields s = .ok fields) : ∀ k ∈ fields.keys, k ≠ [] := by
  obtain ⟨r, hfold, hr⟩ := bind_ok_iff.mp h
  split at hr
  · contradiction
  cases Except.ok.inj hr
  refine foldlM_invariant (I := fun d => ∀ k ∈ d.keys, k ≠ []) ?_ ?_ hfold
  · intro d fp _ d' hd hstep k hk
    rcases parseField_ok_cases hstep with ⟨_, rfl⟩ | ⟨k', v, value, _, hk', _, rfl⟩
    · exact hd k hk
    · rcases (Dict.mem_keys_set d).mp hk with hk | rfl
      · exact hd k hk
      · rw [Ne, unescape_eq_nil_iff]
        exact hk'
  · intro k hk
    exact absurd hk List.not_mem_nil

end Accepted

section OddHead

/-- What follows the head when the space behind it does not split: the space, a
field key and an equals sign. -/
def keyTail (k w : Str) : Str := ' ' :: encodeName k ++ '=' :: w

theorem splitLoop_keyTail {sep : Char} (hsep : sep = ',' ∨ sep = ' ') {respectQuotes q : Bool}
    (hq : sep = ' ' → q = true ∧ respectQuotes = true) (hr : sep = ',' → respectQuotes = false)
    (prev : Option Char) (buf k rest : Str) :
    ∃ w parts, splitLoop '\\' '"' sep respectQuotes prev q buf (keyTail k rest) =
      (buf ++ keyTail k w) :: parts := by
  have hmem : sep ∈ delimiters := by
    rcases hsep with rfl | rfl <;> decide
  obtain ⟨q', hkey⟩ : ∃ q', Scans sep respectQuotes (some ' ') q (encodeName k)
      (lastOf (some ' ') k) q' := by
    cases respectQuotes with
    | true => exact ⟨_, scans_name hmem (some ' ') q k⟩
    | false => exact ⟨_, scans_name_raw hmem (some ' ') q k⟩
  have hspace : Scans sep respectQuotes prev q [' '] (some ' ') q :=
    passes_plain (by decide) (fun _ => by decide) fun h => (hq h.symm).1
  have heq : Scans sep respectQuotes (lastOf (some ' ') k) q' ['='] (some '=') q' := by
    refine scans_delimiter (by decide) ?_ _ _
    rcases hsep with rfl | rfl <;> decide
  have hall := hspace.append (hkey.append heq)
  obtain ⟨w, parts, h⟩ := exists_splitLoop_eq_cons '\\' '"' sep respectQuotes (some '=') q'
    (buf ++ ([' '] ++ (encodeName k ++ ['=']))) rest
  refine ⟨w, parts, ?_⟩
  have htext : keyTail k rest = [' '] ++ (encodeName k ++ ['=']) ++ rest := by
    simp [keyTail]
  rw [htext, hall, h]
  simp [keyTail]

/-- A tag with more equals signs behind it is refused. -/
theorem not_tagForm_keyTail (tag : Str × Str) (k w : Str) :
    ¬TagForm (encodeTag tag ++ keyTail k w) := by
  have hsplit : ∃ u v rest, splitTop (encodeTag tag ++ keyTail k w) '=' false = u :: v :: rest ∧
      rest ≠ [] := by
    have hkey : Scans '=' false none false (encodeName tag.1) _ false :=
      scans_name_raw (by decide) none false tag.1
    have hvalue : Scans '=' false (some '=') false (encodeName tag.2) _ false :=
      scans_name_raw (by decide) (some '=') false tag.2
    have hspace : Scans '=' false (lastOf (some '=') tag.2) false [' '] (some ' ') false :=
      scans_delimiter (by decide) (by decide) _ _
    have hname : Scans '=' false (some ' ') false (encodeName k) _ false :=
      scans_name_raw (by decide) (some ' ') false k
    have htext : encodeTag tag ++ keyTail k w =
        encodeName tag.1 ++ '=' :: ((encodeName tag.2 ++ ([' '] ++ encodeName k)) ++ '=' :: w) := by
      simp [encodeTag, keyTail]
    unfold splitTop split
    rw [htext, splitLoop_cons_of_passes (by decide) (by decide) hkey,
      splitLoop_cons_of_passes (by decide) (by decide) (hvalue.append (hspace.append hname))]
    exact ⟨_, _, _, rfl, splitLoop_ne_nil _ _ _ _ _ _ _ _⟩
  obtain ⟨u, v, rest, hsplit, hrest⟩ := hsplit
  intro h
  rcases h with h | ⟨k', v', hkv, _⟩
  · exact List.append_ne_nil_of_right_ne_nil _ (List.cons_ne_nil _ _) h
  · rw [hsplit] at hkv
    exact hrest (List.cons.inj (List.cons.inj hkv).2).2

theorem splitLoop_raw_keyTail (prev : Option Char) (buf k w : Str) :
    ∃ w' parts, splitLoop '\\' '"' ',' false prev false buf (keyTail k w) =
      (buf ++ keyTail k w') :: parts :=
  splitLoop_keyTail (Or.inl rfl) (fun h => absurd h (by decide)) (fun _ => rfl) prev buf k w

/-- The tags behind a text are parts of their own; the last one runs on. -/
theorem exists_splitLoop_tags (tags : List (Str × Str)) (tag : Str × Str) (k w : Str)
    {prev prev' : Option Char} {u : Str} (hu : Scans ',' false prev false u prev' false) :
    ∃ w' parts, splitLoop '\\' '"' ',' false prev false []
      (u ++ ((tags ++ [tag]).flatMap fun tag => ',' :: encodeTag tag) ++ keyTail k w) =
        u :: tags.map encodeTag ++ (encodeTag tag ++ keyTail k w') :: parts := by
  induction tags generalizing prev prev' u with
  | nil =>
    obtain ⟨prev'', htag⟩ := scans_encodeTag (some ',') tag
    obtain ⟨w', parts, hparts⟩ := splitLoop_raw_keyTail prev'' (encodeTag tag) k w
    refine ⟨w', parts, ?_⟩
    rw [List.nil_append, List.flatMap_singleton, List.append_assoc, List.cons_append,
      splitLoop_cons_of_passes (by decide) (by decide) hu, htag, List.nil_append, hparts]
    rfl
  | cons tag' tags ih =>
    obtain ⟨prev'', htag⟩ := scans_encodeTag (some ',') tag'
    obtain ⟨w', parts, hparts⟩ := ih htag
    refine ⟨w', parts, ?_⟩
    rw [List.cons_append, List.flatMap_cons, List.append_assoc, List.cons_append,
      List.cons_append, splitLoop_cons_of_passes (by decide) (by decide) hu, hparts]
    rfl

/-- Where the head runs on into the field section, it is refused or read as
another measurement. -/
theorem parseHead_keyTail_ne (m : Str) (tags : Dict Str Str) (k w : Str) :
    parseHead (encodeHead m tags.entries ++ keyTail k w) ≠ .ok (m, tags) := by
  intro h
  have hm : Scans ',' false none false (encodeMeasurement m) (lastOf none m) false :=
    passes_escape_raw (by decide) (by decide) none false m
  rcases List.eq_nil_or_concat tags.entries with hnil | ⟨init, tag, htags⟩
  · obtain ⟨w', parts, hparts⟩ := splitLoop_raw_keyTail (lastOf none m) (encodeMeasurement m) k w
    have hsplit : splitTop (encodeHead m tags.entries ++ keyTail k w) ',' false =
        (encodeMeasurement m ++ keyTail k w') :: parts := by
      unfold splitTop split encodeHead
      rw [hnil, List.flatMap_nil, List.append_nil, hm, List.nil_append, hparts]
    have hname : unescape (encodeMeasurement m ++ keyTail k w') [',', ' '] =
        m ++ unescape (keyTail k w') [',', ' '] :=
      unescape_escape_append '\\' (fun _ h => h) m (keyTail k w')
    unfold parseHead at h
    simp only [hsplit, List.headD_cons] at h
    split at h
    · contradiction
    · obtain ⟨r, _, hr⟩ := map_ok_iff.mp h
      have hmeas := (Prod.mk.inj hr).1
      rw [hname, List.append_right_eq_self, unescape_eq_nil_iff] at hmeas
      exact List.cons_ne_nil _ _ hmeas
  · have hform := (parseHead_exists_iff _).mp ⟨_, h⟩
    obtain ⟨w', parts, hsplit⟩ := exists_splitLoop_tags init tag k w hm
    have hmem : encodeTag tag ++ keyTail k w' ∈
        (splitTop (encodeHead m tags.entries ++ keyTail k w) ',' false).tail := by
      unfold splitTop split encodeHead
      rw [htags, List.concat_eq_append, hsplit]
      simp
    exact not_tagForm_keyTail tag k w' (hform.2 _ hmem)

/-- With an odd number of quotes that count in the head, the point is not read. -/
theorem not_read_of_odd_head {m : Str} {tags : Dict Str Str} {k rest : Str}
    (hodd : (headQuotes m tags.entries).bodd = true) {head : Str} {more : List Str}
    (hsections : splitTopSpace (encodeHead m tags.entries ++ keyTail k rest) = head :: more) :
    parseHead head ≠ .ok (m, tags) := by
  obtain ⟨prev, hscan⟩ := scans_encodeHead m tags.entries
  rw [hodd] at hscan
  obtain ⟨w, parts, hparts⟩ := splitLoop_keyTail (Or.inr rfl) (fun _ => ⟨rfl, rfl⟩)
    (fun h => absurd h (by decide)) prev (encodeHead m tags.entries) k rest
  rw [splitTopSpace_eq] at hsections
  unfold splitTop split at hsections
  rw [hscan, List.nil_append, hparts] at hsections
  rw [← (List.cons.inj hsections).1]
  exact parseHead_keyTail_ne m tags k w

end OddHead

section OddKeys
variable [Numerics F]

theorem entries_length_of_foldlM {d r : Dict Str (Value F)} {parts : List Str}
    (h : parts.foldlM parseField d = .ok r) :
    r.entries.length ≤ d.entries.length + parts.length := by
  induction parts generalizing d with
  | nil =>
    cases Except.ok.inj h
    exact Nat.le_add_right _ _
  | cons fp parts ih =>
    obtain ⟨d', hstep, h⟩ := foldlM_cons_ok_iff.mp h
    have hd : d'.entries.length ≤ d.entries.length + 1 := by
      rcases parseField_ok_cases hstep with ⟨_, rfl⟩ | ⟨k, v, value, _, _, _, rfl⟩
      · exact Nat.le_succ _
      · exact Dict.length_setEntries_le _ _ _
    have hr := ih h
    rw [List.length_cons]
    omega

omit [Numerics F] in
/-- Fields with integers and booleans only. -/
structure FieldsPlain (fields : List (Str × Value F)) : Prop where
  exact : ∀ f ∈ fields, IsExact f.2
  noString : ∀ f ∈ fields, ∀ s, f.2 ≠ .str s

theorem FieldsPlain.bare {fields : List (Str × Value F)} (h : FieldsPlain fields)
    {f : Str × Value F} (hf : f ∈ fields) : IsBare (encodeValue f.2) :=
  isBare_encodeValue (h.exact f hf) (h.noString f hf)

omit [Numerics F] in
theorem FieldsPlain.tail {f : Str × Value F} {fs : List (Str × Value F)}
    (h : FieldsPlain (f :: fs)) : FieldsPlain fs where
  exact := fun x hx => h.exact x (List.mem_cons_of_mem f hx)
  noString := fun x hx => h.noString x (List.mem_cons_of_mem f hx)

/-- A field with a plain value turns the quotes over when its key does. -/
theorem moves_plainField {sep : Char} (hsep : sep ∈ delimiters) (hne : sep ≠ '=')
    {f : Str × Value F} (hbare : IsBare (encodeValue f.2)) (q : Bool) :
    Moves sep q (encodeField f) (xor q (countedQuotes f.1).bodd) := by
  have hkey := moves_name hsep (c := '=') (by decide) q f.1 (fun h => absurd h.symm hne)
  have h := hkey.append (moves_bare hsep hbare _)
  rwa [List.append_assoc, List.singleton_append] at h

/-- No comma of the encoded fields is met more than once, and one between quotes
does not split. -/
theorem length_splitLoop_encodeFields {fields : List (Str × Value F)} (hne : fields ≠ [])
    (h : FieldsPlain fields) {w : Str} (hw : ∀ q, Moves ',' q w q) (prev : Option Char)
    (hprev : prev ≠ some '\\') (q : Bool) (buf : Str) :
    (splitLoop '\\' '"' ',' true prev q buf (encodeFields fields ++ w)).length ≤ fields.length := by
  induction fields generalizing prev q buf with
  | nil => exact absurd rfl hne
  | cons f fs ih =>
    have hf := moves_plainField (by decide : ',' ∈ delimiters) (by decide)
      (h.bare List.mem_cons_self) q
    cases fs with
    | nil =>
      obtain ⟨prev', _, hall⟩ := (hf.append (hw _)) prev hprev
      rw [encodeFields_singleton, splitLoop_of_passes hall]
      exact le_rfl
    | cons g fs =>
      have hrest := ih (List.cons_ne_nil g fs) h.tail (some ',') (by decide)
      obtain ⟨prev', _, hf⟩ := hf prev hprev
      rw [encodeFields_cons_cons, List.append_assoc, hf, List.cons_append]
      cases hq : xor q (countedQuotes f.1).bodd with
      | false =>
        rw [splitLoop_sep (by decide) (by decide), List.length_cons, List.length_cons]
        exact Nat.succ_le_succ (hrest false [])
      | true =>
        have hcomma : Scans ',' true prev' true [','] (some ',') true :=
          scans_quoted_delimiter (by decide) prev'
        rw [← List.singleton_append, hcomma]
        exact (hrest true _).trans (Nat.le_succ _)

theorem not_fieldForm_of_odd {f : Str × Value F} (hodd : (countedQuotes f.1).bodd = true)
    (hbare : IsBare (encodeValue f.2)) {w : Str} (hw : ∀ q, Moves '=' q w q) :
    ¬FieldForm F (encodeField f ++ w) := by
  have hkey := moves_name (c := '=') (by decide : '=' ∈ delimiters) (by decide) false f.1
    (fun _ => by rw [hodd]; rfl)
  rw [hodd] at hkey
  have hall := (hkey.append (moves_bare (by decide) hbare _)).append (hw _)
  have hsplit : splitTop (encodeField f ++ w) '=' true = [encodeField f ++ w] := by
    have h := hall.splitLoop_eq (by decide : none ≠ some '\\')
    rwa [List.append_assoc (encodeName f.1), List.singleton_append] at h
  intro h
  rcases h with h | ⟨k, v, hkv, _⟩
  · exact List.append_ne_nil_of_left_ne_nil
      (List.append_ne_nil_of_right_ne_nil _ (List.cons_ne_nil _ _)) _ h
  · rw [hsplit] at hkv
    exact absurd (congrArg List.length hkv) (by decide : (1 : ℕ) ≠ 2)

/-- With an odd key the section has too few parts or one that is refused. -/
theorem splitLoop_of_odd {fields : List (Str × Value F)} (h : FieldsPlain fields)
    (hodd : ∃ f ∈ fields, (countedQuotes f.1).bodd = true) {w : Str}
    (hcomma : ∀ q, Moves ',' q w q) (hequals : ∀ q, Moves '=' q w q) (prev : Option Char)
    (hprev : prev ≠ some '\\') :
    (splitLoop '\\' '"' ',' true prev false [] (encodeFields fields ++ w)).length < fields.length ∨
      ∃ part ∈ splitLoop '\\' '"' ',' true prev false [] (encodeFields fields ++ w),
        ¬FieldForm F part := by
  induction fields generalizing prev with
  | nil =>
    obtain ⟨f, hf, _⟩ := hodd
    exact absurd hf List.not_mem_nil
  | cons f fs ih =>
    have hbare := h.bare (List.mem_cons_self (a := f) (l := fs))
    have hf := moves_plainField (by decide : ',' ∈ delimiters) (by decide) hbare false
    rw [Bool.false_xor] at hf
    cases fs with
    | nil =>
      obtain ⟨f', hf', hodd⟩ := hodd
      cases List.mem_singleton.mp hf'
      refine Or.inr ⟨encodeField f ++ w, ?_, not_fieldForm_of_odd hodd hbare hequals⟩
      rw [encodeFields_singleton, (hf.append (hcomma _)).splitLoop_eq hprev]
      exact List.mem_cons_self
    | cons g fs =>
      rw [encodeFields_cons_cons, List.append_assoc, List.cons_append]
      cases hq : (countedQuotes f.1).bodd with
      | false =>
        have hrest : ∃ f ∈ g :: fs, (countedQuotes f.1).bodd = true := by
          obtain ⟨f', hf', hodd⟩ := hodd
          rcases List.mem_cons.mp hf' with rfl | hf'
          · rw [hq] at hodd
            contradiction
          · exact ⟨f', hf', hodd⟩
        rw [hq] at hf
        rw [hf.splitLoop_cons (by decide) hprev, List.length_cons, List.length_cons]
        rcases ih h.tail hrest (some ',') (by decide) with hlt | ⟨part, hpart, hform⟩
        · exact Or.inl (Nat.succ_lt_succ hlt)
        · exact Or.inr ⟨part, List.mem_cons_of_mem _ hpart, hform⟩
      | true =>
        rw [hq] at hf
        obtain ⟨prev', _, hf⟩ := hf prev hprev
        have hquoted : Scans ',' true prev' true [','] (some ',') true :=
          scans_quoted_delimiter (by decide) prev'
        refine Or.inl (Nat.lt_succ_of_le ?_)
        rw [hf, ← List.singleton_append, hquoted]
        exact length_splitLoop_encodeFields (List.cons_ne_nil g fs) h.tail hcomma (some ',')
          (by decide) true _

/-- The scan for spaces takes all encoded fields as one piece. -/
theorem moves_plainFields {fields : List (Str × Value F)} (hne : fields ≠ [])
    (h : FieldsPlain fields) (q : Bool) :
    ∃ q', Moves ' ' q (encodeFields fields) q' ∧
      ((∀ f ∈ fields, (countedQuotes f.1).bodd = false) → q' = q) := by
  induction fields generalizing q with
  | nil => exact absurd rfl hne
  | cons f fs ih =>
    have hf := moves_plainField (by decide : ' ' ∈ delimiters) (by decide)
      (h.bare (List.mem_cons_self (a := f) (l := fs))) q
    cases fs with
    | nil =>
      refine ⟨_, encodeFields_singleton f ▸ hf, ?_⟩
      intro heven
      rw [heven f List.mem_cons_self, Bool.xor_false]
    | cons g fs =>
      have hcomma : ∀ q, Moves ' ' q [','] q :=
        fun q => moves_delimiter (by decide) (fun h => absurd h (by decide))
      obtain ⟨q', hrest, heven⟩ := ih (List.cons_ne_nil g fs) h.tail
        (xor q (countedQuotes f.1).bodd)
      refine ⟨q', ?_, ?_⟩
      · rw [encodeFields_cons_cons]
        exact hf.append ((hcomma _).append hrest)
      · intro hall
        rw [List.forall_mem_cons] at hall
        rw [heven hall.2, hall.1, Bool.xor_false]

/-- The field section is the encoded fields, with the timestamp glued to them
where the last key leaves quotes open. -/
theorem exists_fieldsSection {fields : List (Str × Value F)} (hne : fields ≠ [])
    (h : FieldsPlain fields) (ts : Option ℤ) :
    ∃ w rest, splitLoop '\\' '"' ' ' true (some ' ') false [] (encodeFields fields ++ encodeTime ts) =
        (encodeFields fields ++ w) :: rest ∧
      (∀ sep ∈ [',', '='], ∀ q, Moves sep q w q) ∧
      ((∀ f ∈ fields, (countedQuotes f.1).bodd = false) → w = []) := by
  obtain ⟨q', hmoves, heven⟩ := moves_plainFields hne h false
  have hnil : ∀ sep ∈ [',', '='], ∀ q, Moves sep q [] q := fun _ _ q => Moves.nil q
  cases ts with
  | none =>
    refine ⟨[], [], ?_, hnil, fun _ => rfl⟩
    rw [encodeTime, Option.elim_none, List.append_nil, hmoves.splitLoop_eq (by decide)]
  | some n =>
    cases q' with
    | false =>
      have hsplit := hmoves.splitLoop_cons (by decide) (by decide : some ' ' ≠ some '\\') (intText n)
      refine ⟨[], splitLoop '\\' '"' ' ' true (some ' ') false [] (intText n), ?_, hnil,
        fun _ => rfl⟩
      rw [encodeTime, Option.elim_some, hsplit, List.append_nil]
    | true =>
      have hspace : Moves ' ' true [' '] true := moves_delimiter (by decide) (fun _ => rfl)
      have hall := (hmoves.append (hspace.append
        (moves_bare (by decide) (isBare_intText n) true))).splitLoop_eq
        (by decide : some ' ' ≠ some '\\')
      refine ⟨' ' :: intText n, [], hall, ?_, fun h => absurd (heven h) (by decide)⟩
      intro sep hsep q
      have hne : sep ∈ delimiters ∧ ' ' ≠ sep := by
        simp only [List.mem_cons, List.not_mem_nil, or_false] at hsep
        rcases hsep with rfl | rfl <;> decide
      have hspace : Moves sep q [' '] q := moves_delimiter (by decide) (fun h => absurd h hne.2)
      exact hspace.append (moves_bare hne.1 (isBare_intText n) q)

end OddKeys

variable [Numerics F]

/-- An integer that is read back from a field fits. -/
theorem fits_of_fieldForm {f : Str × Value F} (hv : IsExact f.2)
    (heven : (countedQuotes f.1).bodd = false) (h : FieldForm F (encodeField f)) : Fits f.2 := by
  rcases h with h | ⟨k, v, hkv, _, hform⟩
  · exact absurd h (List.append_ne_nil_of_right_ne_nil _ (List.cons_ne_nil _ _))
  rw [splitTop_encodeField hv heven] at hkv
  obtain ⟨x, hx⟩ := (parseFieldValue_exists_iff v).mpr hform
  rw [← (List.cons.inj (List.cons.inj hkv).2).1] at hx
  obtain ⟨name, value⟩ := f
  cases hv with
  | bool b => trivial
  | str s => trivial
  | int n =>
    by_contra hfits
    have hstray : StraySuffix (encodeValue (.int n : Value F)) := by
      have hlt : ¬n.natAbs < 10 ^ maxStrDigits := hfits
      refine ⟨by simp [hasSuffix, encodeValue], ?_⟩
      rw [encodeValue, List.dropLast_concat, int_intText, if_neg hlt]
    have huncaught := (uncaught_parseFieldValue_iff (F := F) _).mpr hstray
    rw [hx] at huncaught
    exact not_uncaught_ok x huncaught

theorem fits_of_parseFields {fields : Dict Str (Value F)} (hne : fields.entries ≠ [])
    (hok : FieldsOk fields.entries) {r : Dict Str (Value F)}
    (hread : parseFields (encodeFields fields.entries) = .ok r) :
    ∀ f ∈ fields.entries, Fits f.2 := by
  intro f hf
  have hforms := ((parseFields_exists_iff _).mp ⟨r, hread⟩).1
  rw [splitTop_encodeFields hne hok] at hforms
  exact fits_of_fieldForm (hok.exact f hf) (hok.even f hf) (hforms _ (List.mem_map_of_mem hf))

theorem exists_keyTail {p : Point F} (hne : p.fields.entries ≠ []) (ts : Option ℤ) :
    ∃ k rest, encodeLine p ts = encodeHead p.measurement p.tags.entries ++ keyTail k rest := by
  obtain ⟨f, fs, hfields⟩ := List.exists_cons_of_ne_nil hne
  unfold encodeLine keyTail
  cases fs with
  | nil =>
    refine ⟨f.1, encodeValue f.2 ++ encodeTime ts, ?_⟩
    rw [hfields, encodeFields_singleton, encodeField]
    simp
  | cons g fs =>
    refine ⟨f.1, encodeValue f.2 ++ ',' :: encodeFields (g :: fs) ++ encodeTime ts, ?_⟩
    rw [hfields, encodeFields_cons_cons, encodeField]
    simp

/-- What is read back has no empty name and no quotes left open by its head. -/
theorem ReadsBack.head {precision : Precision} {now : Time} {p : Point F} {ts : Option ℤ}
    (hp : Encodable p) (h : ReadsBack precision now p ts) :
    (p.measurement ≠ [] ∧ (∀ k ∈ p.tags.keys, k ≠ []) ∧ ∀ k ∈ p.fields.keys, k ≠ []) ∧
      (headQuotes p.measurement p.tags.entries).bodd = false ∧
      ∃ fieldsSection rest,
        splitLoop '\\' '"' ' ' true (some ' ') false []
          (encodeFields p.fields.entries ++ encodeTime ts) = fieldsSection :: rest ∧
        parseFields fieldsSection = .ok p.fields := by
  obtain ⟨q, hq, hm, htags, hfields, _⟩ := h
  obtain ⟨_, _, head, fieldsSection, rest, hsections, hhead, hread, _⟩ := parseLine_ok_iff.mp hq
  rw [hm, htags] at hhead
  rw [hfields] at hread
  have hnames := names_of_parseHead hhead
  rw [(strip_encodeLine hp hnames.1 ts).1] at hsections
  have heven : (headQuotes p.measurement p.tags.entries).bodd = false := by
    rw [Bool.eq_false_iff]
    intro hodd
    obtain ⟨k, w, hline⟩ := exists_keyTail hp.fields ts
    rw [hline] at hsections
    exact not_read_of_odd_head hodd hsections hhead
  refine ⟨⟨hnames.1, hnames.2, keys_of_parseFields hread⟩, heven, fieldsSection, rest, ?_, hread⟩
  obtain ⟨prev, hscan⟩ := scans_encodeHead p.measurement p.tags.entries
  rw [heven] at hscan
  rw [splitTopSpace_eq] at hsections
  unfold splitTop split encodeLine at hsections
  rw [List.append_assoc, List.cons_append,
    splitLoop_cons_of_passes (by decide) (by decide) hscan] at hsections
  exact (List.cons.inj hsections).2

/-- Fields that are read back from a section have even keys. -/
theorem even_of_parseFields {fields : Dict Str (Value F)} (h : FieldsPlain fields.entries)
    {w : Str} (hcomma : ∀ q, Moves ',' q w q) (hequals : ∀ q, Moves '=' q w q)
    (hread : parseFields (encodeFields fields.entries ++ w) = .ok fields) :
    ∀ f ∈ fields.entries, (countedQuotes f.1).bodd = false := by
  obtain ⟨r, hfold, hr⟩ := bind_ok_iff.mp hread
  split at hr
  · contradiction
  cases Except.ok.inj hr
  have hforms := (exists_foldlM_ok_iff parseField_exists_iff Dict.empty _).mp ⟨_, hfold⟩
  intro f hf
  rw [Bool.eq_false_iff]
  intro hodd
  rcases splitLoop_of_odd h ⟨f, hf, hodd⟩ hcomma hequals none (by decide) with
    hlt | ⟨part, hpart, hform⟩
  · have hempty : (Dict.empty : Dict Str (Value F)).entries.length = 0 := rfl
    have hle := entries_length_of_foldlM hfold
    rw [hempty, Nat.zero_add] at hle
    exact absurd hlt (Nat.not_lt.mpr hle)
  · exact hform (hforms part hpart)

/-- Points with integers and booleans only: read back exactly when the double
quotes that do not directly follow a backslash are even in number in the head
and in every field key. -/
theorem readsBack_plain_iff {precision : Precision} {now : Time} {p : Point F} {ts : Option ℤ}
    (hp : Encodable p) (hplain : ∀ f ∈ p.fields.entries, ∀ s, f.2 ≠ .str s)
    (htags : ∀ k ∈ p.tags.keys, k ≠ []) (hkeys : ∀ k ∈ p.fields.keys, k ≠ [])
    (hdate : ∃ t, timeOf precision now ts = .ok t) :
    ReadsBack precision now p ts ↔
      p.measurement ≠ [] ∧ Even (headQuotes p.measurement p.tags.entries) ∧
        (∀ k ∈ p.fields.keys, Even (countedQuotes k)) ∧ ∀ f ∈ p.fields.entries, Fits f.2 := by
  have hplain' : FieldsPlain p.fields.entries := ⟨hp.exact, hplain⟩
  have hclosed : ∀ f ∈ p.fields.entries, leavesOpen f.2 = false := by
    intro f hf
    have hexact := hp.exact f hf
    have hnot := hplain f hf
    obtain ⟨name, value⟩ := f
    cases hexact with
    | bool b => rfl
    | int n => rfl
    | str s => exact absurd rfl (hnot s)
  constructor
  · intro h
    obtain ⟨⟨hm, _, _⟩, heven, fieldsSection, rest, hsections, hread⟩ := h.head hp
    obtain ⟨w, rest', hsection, hw, hnil⟩ := exists_fieldsSection hp.fields hplain' ts
    rw [hsection] at hsections
    rw [← (List.cons.inj hsections).1] at hread
    have hnames := even_of_parseFields hplain' (hw ',' (by decide)) (hw '=' (by decide)) hread
    refine ⟨hm, (even_iff_bodd _).mpr heven, ?_, ?_⟩
    · intro k hk
      obtain ⟨f, hf, rfl⟩ := List.mem_map.mp hk
      exact (even_iff_bodd _).mpr (hnames f hf)
    · rw [hnil hnames, List.append_nil] at hread
      exact fits_of_parseFields hp.fields
        ⟨hp.exact, hnames, fun f hf => hclosed f (List.mem_of_mem_dropLast hf)⟩ hread
  · intro ⟨hm, heven, hnames, hfits⟩
    obtain ⟨t, ht⟩ := hdate
    have hread : Readable p ts :=
      { hp with
        measurement := hm
        tagKeys := htags
        fieldKeys := hkeys
        head := (even_iff_bodd _).mp heven
        names := fun f hf => (even_iff_bodd _).mp (hnames f.1 (List.mem_map_of_mem hf))
        closed := fun f hf => hclosed f (List.mem_of_mem_dropLast hf)
        last := fun _ => hclosed
        fits := hfits }
    exact ⟨_, parseLine_encodeLine hread ht, rfl, rfl, rfl, ht⟩

def plainPoint (m : Str) (tags : Dict Str Str) : Point ℤ := ⟨m, tags, Dict.single ['v'] (.int 1), 0⟩

theorem encodable_plainPoint (tags : Dict Str Str) : Encodable (plainPoint ['m'] tags) where
  start := by
    intro c hc
    cases Option.some.inj hc
    decide
  fields := List.cons_ne_nil _ _
  exact := by
    intro f hf
    cases List.mem_singleton.mp hf
    exact .int 1

/-- A value in quotes, with delimiters and a backslash in it. -/
theorem readsBack_plain_iff_quoted :
    ReadsBack .ns 0 (plainPoint ['m'] (Dict.single ['h'] "\"a, b=\\c\"".toList)) none := by
  refine (readsBack_plain_iff (encodable_plainPoint _) ?_ ?_ ?_ ⟨0, rfl⟩).mpr ?_
  · intro f hf s
    cases List.mem_singleton.mp hf
    exact fun h => nomatch h
  · decide
  · decide
  · refine ⟨by decide, by decide, by decide, ?_⟩
    intro f hf
    cases List.mem_singleton.mp hf
    exact Nat.one_lt_pow (by decide) (by decide)

/-- One double quote in a tag value takes the field section into the head. -/
theorem not_readsBack_quote :
    ¬ReadsBack .ns 0 (plainPoint ['m'] (Dict.single ['h'] ['"'])) none := by
  intro ⟨q, hq, _⟩
  have hraises : (parseLine .ns none 0 (encodeLine (plainPoint ['m'] (Dict.single ['h'] ['"'])) none) :
      Except Raised (Point ℤ)).isOk = false := by decide +kernel
  rw [hq] at hraises
  exact Bool.false_ne_true hraises.symm

end TimescaleLp.LineProtocol
