import TimescaleLp.Joining
import TimescaleLp.NameQuotes

/-!
The text that is hashed for a series. Its inner separator ends a line of a
payload and is in no tag that was read; the outer one is an ordinary character
to the parser. Two series share the text exactly when the place of an outer
separator can be taken by another one of a tag value or key.
-/
namespace TimescaleLp.LineProtocol

open Texts Escaping Folds Joining Store

variable {F : Type}

/-- A text within one line. -/
def IsUnbroken (s : Str) : Prop := ∀ c ∈ s, isLineBreak c = false

instance (s : Str) : Decidable (IsUnbroken s) := List.decidableBAll _ s

theorem IsUnbroken.append {s t : Str} (hs : IsUnbroken s) (ht : IsUnbroken t) :
    IsUnbroken (s ++ t) := by
  intro c hc
  rcases List.mem_append.mp hc with hc | hc
  · exact hs c hc
  · exact ht c hc

section Lines

theorem isUnbroken_of_mem_splitlinesLoop {afterReturn : Bool} {buf s line : Str}
    (hbuf : IsUnbroken buf) (h : line ∈ splitlinesLoop afterReturn buf s) : IsUnbroken line := by
  induction afterReturn, buf, s using splitlinesLoop.induct with
  | case1 => exact absurd h List.not_mem_nil
  | case2 afterReturn buf hne =>
    rw [splitlinesLoop, if_neg hne] at h
    exact List.mem_singleton.mp h ▸ hbuf
  | case3 afterReturn buf c s hfeed ih =>
    rw [splitlinesLoop, if_pos hfeed] at h
    exact ih hbuf h
  | case4 afterReturn buf c s hfeed hbreak ih =>
    rw [splitlinesLoop, if_neg hfeed, if_pos hbreak] at h
    rcases List.mem_cons.mp h with rfl | h
    · exact hbuf
    · exact ih (fun c hc => absurd hc List.not_mem_nil) h
  | case5 afterReturn buf c s hfeed hbreak ih =>
    rw [splitlinesLoop, if_neg hfeed, if_neg hbreak] at h
    refine ih (hbuf.append ?_) h
    intro d hd
    rw [List.mem_singleton.mp hd]
    exact Bool.eq_false_iff.mpr hbreak

theorem splitlinesLoop_of_isUnbroken {buf s : Str} (hs : IsUnbroken s) (hne : buf ++ s ≠ []) :
    splitlinesLoop false buf s = [buf ++ s] := by
  induction s generalizing buf with
  | nil =>
    rw [List.append_nil] at hne ⊢
    rw [splitlinesLoop, if_neg hne]
  | cons c s ih =>
    have hc : ¬isLineBreak c = true := by
      rw [hs c List.mem_cons_self]
      exact Bool.false_ne_true
    have hjoin : buf ++ c :: s = buf ++ [c] ++ s := by simp
    rw [splitlinesLoop, if_neg fun h => Bool.false_ne_true h.2, if_neg hc, hjoin]
    exact ih (fun d hd => hs d (List.mem_cons_of_mem c hd)) (hjoin ▸ hne)

theorem mem_of_mem_strip {s : Str} {c : Char} (h : c ∈ strip s) : c ∈ s :=
  (List.dropWhile_sublist _).mem ((List.rdropWhile_prefix _ _).sublist.mem h)

variable [Numerics F] {repr : Str → Str} {precision : Precision} {now : ℕ → Time}

/-- Every point of a batch was read from one of its lines. -/
theorem exists_line_of_mem {points points' : List (Point F)} {errors errors' : List (ℕ × Str)}
    {lines : List (ℕ × Str)}
    (h : parseBatchLoop repr precision now points errors lines = .ok (points', errors'))
    {p : Point F} (hp : p ∈ points') :
    p ∈ points ∨
      ∃ line ∈ lines, parseLine precision none (now line.1) (strip line.2) = .ok p := by
  induction lines generalizing points errors with
  | nil =>
    obtain ⟨rfl, _⟩ := Prod.mk.inj (Except.ok.inj h)
    exact Or.inl hp
  | cons line lines ih =>
    obtain ⟨number, raw⟩ := line
    have hlater : ∀ {ps es}, parseBatchLoop repr precision now ps es lines = .ok (points', errors') →
        (p ∈ ps → p ∈ points ∨ parseLine precision none (now number) (strip raw) = .ok p) →
        p ∈ points ∨ ∃ line ∈ (number, raw) :: lines,
          parseLine precision none (now line.1) (strip line.2) = .ok p := by
      intro ps es h hps
      rcases ih h with hmem | ⟨line, hline, hparse⟩
      · exact (hps hmem).imp id fun hparse => ⟨_, List.mem_cons_self, hparse⟩
      · exact Or.inr ⟨line, List.mem_cons_of_mem _ hline, hparse⟩
    rw [parseBatchLoop] at h
    split at h
    · exact hlater h Or.inl
    split at h
    · rename_i q hq
      refine hlater h ?_
      intro hmem
      rcases List.mem_append.mp hmem with hmem | hmem
      · exact Or.inl hmem
      · exact Or.inr (List.mem_singleton.mp hmem ▸ hq)
    · exact hlater h Or.inl
    · contradiction

end Lines

/-- The tags of a line that is not broken have no line breaks. -/
theorem isUnbroken_of_parseHead {head m : Str} {tags : Dict Str Str} (hhead : IsUnbroken head)
    (h : parseHead head = .ok (m, tags)) (k v : Str) (hkv : tags.get? k = some v) :
    IsUnbroken (k ++ v) := by
  unfold parseHead at h
  simp only at h
  split at h
  · contradiction
  obtain ⟨r, hfold, hr⟩ := map_ok_iff.mp h
  cases hr
  refine foldlM_invariant (I := fun d => ∀ k v, d.get? k = some v → IsUnbroken (k ++ v)) ?_ ?_
    hfold k v hkv
  · intro d tp htp d' hd hstep k v hkv
    rcases parseTag_ok_cases hstep with rfl | ⟨k', v', _, hchars, rfl⟩
    · exact hd k v hkv
    · refine Dict.forall_set hd ?_ k v hkv
      intro c hc
      exact hhead c (mem_of_mem_splitTop (List.mem_of_mem_tail htp) (hchars c hc))
  · intro k v hkv
    rw [Dict.get?_empty] at hkv
    contradiction

variable (F) in
/-- A tag dictionary of a point that `parse_batch` returns. -/
def Produced [Numerics F] (tags : Dict Str Str) : Prop :=
  ∃ repr precision now body points errors,
    parseBatch repr precision now body = .ok (points, errors) ∧ ∃ p : Point F, p ∈ points ∧ p.tags = tags

/-- Keys that are not empty, and no line breaks. -/
def TagsFit (tags : Dict Str Str) : Prop := ∀ e ∈ tags.entries, e.1 ≠ [] ∧ IsUnbroken (e.1 ++ e.2)

theorem Produced.tagsFit [Numerics F] {tags : Dict Str Str} (h : Produced F tags) : TagsFit tags := by
  obtain ⟨repr, precision, now, body, points, errors, h, p, hp, rfl⟩ := h
  rcases exists_line_of_mem h hp with hp | ⟨⟨number, raw⟩, hline, hp⟩
  · exact absurd hp List.not_mem_nil
  have hraw : IsUnbroken raw := by
    obtain ⟨⟨line, i⟩, hmem, heq⟩ := List.mem_map.mp hline
    obtain ⟨_, rfl⟩ := Prod.mk.inj heq
    exact isUnbroken_of_mem_splitlinesLoop (fun c hc => absurd hc List.not_mem_nil)
      (List.fst_mem_of_mem_zipIdx hmem)
  obtain ⟨_, _, head, fieldsSection, rest, hsections, hhead, _⟩ := parseLine_ok_iff.mp hp
  have hunbroken : IsUnbroken head := by
    intro c hc
    have hmem : head ∈ splitTopSpace (strip (strip raw)) := hsections ▸ List.mem_cons_self
    rw [splitTopSpace_eq] at hmem
    exact hraw c (mem_of_mem_strip (mem_of_mem_strip (mem_of_mem_splitTop hmem hc)))
  intro e he
  exact ⟨(names_of_parseHead hhead).2 e.1 (List.mem_map_of_mem he),
    isUnbroken_of_parseHead hunbroken hhead e.1 e.2 ((Dict.get?_eq_some_iff _ _ _).mpr he)⟩

section Writable
variable {tags : Dict Str Str}

theorem isUnbroken_escape {s : Str} (hs : IsUnbroken s) (special : List Char) :
    IsUnbroken (escape '\\' special s) := by
  intro c hc
  obtain ⟨d, hd, hc⟩ := List.mem_flatMap.mp hc
  have hpair : c = '\\' ∨ c = d := by
    split at hc
    · simpa using hc
    · exact Or.inr (List.mem_singleton.mp hc)
  rcases hpair with rfl | rfl
  · decide
  · exact hs c hd

theorem isUnbroken_encodeHead {m : Str} (hm : IsUnbroken m) (h : TagsFit tags) :
    IsUnbroken (encodeHead m tags.entries) := by
  refine (isUnbroken_escape hm _).append ?_
  intro c hc
  obtain ⟨tag, htag, hc⟩ := List.mem_flatMap.mp hc
  have hpart : ∀ u, (∀ d ∈ u, d ∈ tag.1 ++ tag.2) → IsUnbroken (encodeName u) :=
    fun u hu => isUnbroken_escape (fun d hd => (h tag htag).2 d (hu d hd)) _
  rcases List.mem_cons.mp hc with rfl | hc
  · decide
  rcases List.mem_append.mp hc with hc | hc
  · exact hpart tag.1 (fun d hd => List.mem_append_left _ hd) c hc
  rcases List.mem_cons.mp hc with rfl | hc
  · decide
  · exact hpart tag.2 (fun d hd => List.mem_append_right _ hd) c hc

variable [Numerics F]

/-- A point with these tags; its measurement evens out the double quotes. -/
def tagPoint (tags : Dict Str Str) : Point F :=
  ⟨if (headQuotes ['m'] tags.entries).bodd then ['m', '"'] else ['m'], tags,
    Dict.single ['v'] (.bool true), 0⟩

omit [Numerics F] in
theorem readable_tagPoint (h : TagsFit tags) : Readable (tagPoint tags : Point F) none where
  start := by
    intro c hc
    have hm : c = 'm' := by
      unfold tagPoint at hc
      simp only at hc
      split at hc <;> exact (Option.some.inj hc).symm
    rw [hm]
    decide
  fields := List.cons_ne_nil _ _
  exact := by
    intro f hf
    cases List.mem_singleton.mp hf
    exact .bool true
  measurement := by
    unfold tagPoint
    simp only
    split <;> exact List.cons_ne_nil _ _
  tagKeys := by
    intro k hk
    obtain ⟨e, he, rfl⟩ := List.mem_map.mp hk
    exact (h e he).1
  fieldKeys := by
    intro k hk
    rw [List.mem_singleton.mp hk]
    exact List.cons_ne_nil _ _
  head := by
    have hm : countedQuotes ['m'] = 0 := by decide
    have hquote : countedQuotes ['m', '"'] = 1 := by decide
    unfold tagPoint headQuotes
    rw [hm, Nat.zero_add]
    simp only
    generalize (tags.entries.map fun tag => countedQuotes tag.1 + countedQuotes tag.2).sum = n
    cases hn : n.bodd with
    | false => simp [hm, hn]
    | true => simp [hquote, hn]
  names := by
    intro f hf
    cases List.mem_singleton.mp hf
    exact (by decide : (countedQuotes ['v']).bodd = false)
  closed := fun f hf => absurd hf List.not_mem_nil
  last := fun h => nomatch h
  fits := by
    intro f hf
    cases List.mem_singleton.mp hf
    trivial

theorem parseBatch_of_isUnbroken {repr : Str → Str} {precision : Precision} {now : ℕ → Time}
    {line : Str} {p : Point F} (hline : IsUnbroken line)
    (h : parseLine precision none (now 1) (strip line) = .ok p) :
    parseBatch repr precision now line = .ok ([p], []) := by
  obtain ⟨hne, hcomment, _⟩ := parseLine_ok_iff.mp h
  rw [strip_strip] at hne hcomment
  have hblank : ¬(strip line = [] ∨ isComment (strip line) = true) := by
    rw [hcomment]
    simpa using hne
  have hcons : line ≠ [] := by
    intro hnil
    rw [hnil] at hne
    exact hne rfl
  have hloop : splitlines line = [line] := splitlinesLoop_of_isUnbroken hline hcons
  have hlines : numbered (splitlines line) = [(1, line)] := by
    rw [hloop]
    rfl
  unfold parseBatch
  rw [hlines, parseBatchLoop, if_neg hblank, h]
  rfl

/-- Every dictionary with keys that are not empty and without line breaks comes
out of some payload. -/
theorem produced_iff : Produced F tags ↔ TagsFit tags := by
  constructor
  · exact Produced.tagsFit
  intro h
  have hp : Readable (tagPoint tags : Point F) none := readable_tagPoint h
  have hline : IsUnbroken (encodeLine (tagPoint tags : Point F) none) := by
    have hm : IsUnbroken (tagPoint tags : Point F).measurement := by
      unfold tagPoint
      simp only
      split <;> decide
    have hfield : IsUnbroken " v=true".toList := by decide
    unfold encodeLine
    rw [encodeTime, Option.elim_none, List.append_nil]
    exact (isUnbroken_encodeHead hm h).append hfield
  have hparse : parseLine .ns none 0 (strip (encodeLine (tagPoint tags : Point F) none)) =
      .ok (tagPoint tags : Point F) := by
    rw [(strip_encodeLine hp.toEncodable hp.measurement none).1]
    exact parseLine_encodeLine hp rfl
  exact ⟨id, .ns, fun _ => 0, _, _, _, parseBatch_of_isUnbroken hline hparse, _,
    List.mem_singleton_self _, rfl⟩

end Writable

/-- The tags in the order in which they are hashed. -/
def sortedTags (tags : Dict Str Str) : List (Str × Str) :=
  (tags.keys.insertionSort (· ≤ ·)).map fun k => (k, (tags.get? k).getD [])

theorem tagBlob_eq (tags : Dict Str Str) :
    tagBlob tags = joined '\x1f' '\x1e' (sortedTags tags) := by
  unfold tagBlob joined sortedTags
  rw [List.map_map]
  rfl

theorem mem_sortedTags {tags : Dict Str Str} {e : Str × Str} :
    e ∈ sortedTags tags ↔ tags.get? e.1 = some e.2 := by
  unfold sortedTags
  rw [List.mem_map]
  constructor
  · intro ⟨k, hk, he⟩
    obtain ⟨v, hv⟩ := (Dict.mem_keys_iff tags k).mp ((List.mem_insertionSort _).mp hk)
    rw [← he, hv]
    rfl
  · intro h
    refine ⟨e.1, (List.mem_insertionSort _).mpr ((Dict.mem_keys_iff tags e.1).mpr ⟨_, h⟩), ?_⟩
    rw [h]
    rfl

/-- Sorting forgets the order of a line and nothing else. -/
theorem sortedTags_eq_iff {tags tags' : Dict Str Str} :
    sortedTags tags = sortedTags tags' ↔ ∀ k, tags.get? k = tags'.get? k := by
  constructor
  · intro h k
    refine Option.ext fun v => ?_
    rw [← mem_sortedTags (e := (k, v)), h, mem_sortedTags]
  · intro h
    have hkeys : tags.keys.Perm tags'.keys := by
      refine (List.perm_ext_iff_of_nodup tags.nodup tags'.nodup).mpr fun k => ?_
      rw [← Dict.keys, ← Dict.keys, Dict.mem_keys_iff, Dict.mem_keys_iff, h]
    have hsorted : tags.keys.insertionSort (· ≤ ·) = tags'.keys.insertionSort (· ≤ ·) :=
      List.Perm.eq_of_pairwise' (List.pairwise_insertionSort _ _) (List.pairwise_insertionSort _ _)
        ((List.perm_insertionSort _ _).trans (hkeys.trans (List.perm_insertionSort _ _).symm))
    unfold sortedTags
    rw [hsorted]
    exact List.map_congr_left fun k _ => by rw [h]

theorem increasing_sortedTags {tags : Dict Str Str} {e : Str × Str} {es : List (Str × Str)}
    (h : sortedTags tags = e :: es) : Increasing e.1 es := by
  have hkeys : e.1 :: es.map Prod.fst = tags.keys.insertionSort (· ≤ ·) := by
    rw [← List.map_cons, ← h, sortedTags, List.map_map]
    exact List.map_id _
  unfold Increasing
  rw [hkeys]
  have hnodup := (List.perm_insertionSort (· ≤ ·) tags.keys).nodup_iff.mpr tags.nodup
  refine List.Pairwise.isChain ?_
  exact (List.pairwise_insertionSort (· ≤ ·) tags.keys).imp₂ (fun _ _ => lt_of_le_of_ne) hnodup

/-- A dictionary with given sorted entries. -/
def ofSorted (e : Str × Str) (es : List (Str × Str)) (h : Increasing e.1 es) : Dict Str Str where
  entries := e :: es
  nodup := (List.isChain_iff_pairwise.mp h).imp ne_of_lt

theorem sortedTags_ofSorted {e : Str × Str} {es : List (Str × Str)} (h : Increasing e.1 es) :
    sortedTags (ofSorted e es h) = e :: es := by
  have hkeys : (ofSorted e es h).keys.insertionSort (· ≤ ·) = (e :: es).map Prod.fst :=
    List.Pairwise.insertionSort_eq ((List.isChain_iff_pairwise.mp h).imp le_of_lt)
  unfold sortedTags
  rw [hkeys, List.map_map]
  refine (List.map_congr_left fun f hf => ?_).trans (List.map_id _)
  have hget : (ofSorted e es h).get? f.1 = some f.2 := (Dict.get?_eq_some_iff _ _ _).mpr hf
  simp [hget]

theorem TagsFit.holds {tags : Dict Str Str} (h : TagsFit tags) {e : Str × Str}
    {es : List (Str × Str)} (hsorted : sortedTags tags = e :: es) :
    (e.1 ≠ [] ∧ IsUnbroken e.1) ∧ Holds (fun c => isLineBreak c = false) e.2 es := by
  have hentry : ∀ f ∈ e :: es, f.1 ≠ [] ∧ IsUnbroken (f.1 ++ f.2) := by
    intro f hf
    rw [← hsorted, mem_sortedTags, Dict.get?_eq_some_iff] at hf
    exact h f hf
  have hparts : ∀ f ∈ e :: es, IsUnbroken f.1 ∧ IsUnbroken f.2 := by
    intro f hf
    exact ⟨fun c hc => (hentry f hf).2 c (List.mem_append_left _ hc),
      fun c hc => (hentry f hf).2 c (List.mem_append_right _ hc)⟩
  refine ⟨⟨(hentry e List.mem_cons_self).1, (hparts e List.mem_cons_self).1⟩,
    (hparts e List.mem_cons_self).2, ?_⟩
  exact fun f hf => hparts f (List.mem_cons_of_mem e hf)

/-- An outer separator in a tag value or key can take the place of the one
between them, with the keys still in order. -/
def Recuttable (tags : Dict Str Str) : Prop :=
  ∃ e es, sortedTags tags = e :: es ∧ Movable '\x1f' e.1 e.2 es

theorem ne_nil_of_increasing {lo : Str} {es : List (Str × Str)} (h : Increasing lo es) :
    ∀ e ∈ es, e.1 ≠ [] := by
  intro e he hnil
  have hlt := List.rel_of_pairwise_cons (List.isChain_iff_pairwise.mp h) (List.mem_map_of_mem he)
  rw [hnil] at hlt
  exact List.not_lt_nil lo hlt

/-- Without another place for a separator the text gives the tags back. -/
theorem sortedTags_eq_of_tagBlob_eq {tags tags' : Dict Str Str} (h : TagsFit tags)
    (h' : TagsFit tags') (hfixed : ¬Recuttable tags) (hblob : tagBlob tags = tagBlob tags') :
    sortedTags tags = sortedTags tags' := by
  have hinner : ∀ {u : Str}, IsUnbroken u → '\x1e' ∉ u := by
    intro u hu hmem
    exact absurd (hu _ hmem) (by decide)
  have hfree : ∀ {v : Str} {es : List (Str × Str)}, Holds (fun c => isLineBreak c = false) v es →
      Holds (· ≠ '\x1e') v es := by
    intro v es hv
    have hne : ∀ c, isLineBreak c = false → c ≠ '\x1e' := by
      intro c hc heq
      exact absurd (heq ▸ hc) (by decide)
    exact ⟨fun c hc => hne c (hv.1 c hc),
      fun f hf => ⟨fun c hc => hne c ((hv.2 f hf).1 c hc), fun c hc => hne c ((hv.2 f hf).2 c hc)⟩⟩
  rw [tagBlob_eq, tagBlob_eq] at hblob
  cases hs : sortedTags tags with
  | nil =>
    cases hs' : sortedTags tags' with
    | nil => rfl
    | cons e' es' =>
      rw [hs, hs', joined_cons] at hblob
      exact absurd hblob.symm (List.append_ne_nil_of_right_ne_nil _ (List.cons_ne_nil _ _))
  | cons e es =>
    cases hs' : sortedTags tags' with
    | nil =>
      rw [hs, hs', joined_cons] at hblob
      exact absurd hblob (List.append_ne_nil_of_right_ne_nil _ (List.cons_ne_nil _ _))
    | cons e' es' =>
      obtain ⟨⟨_, hkey⟩, hholds⟩ := h.holds hs
      obtain ⟨⟨_, hkey'⟩, hholds'⟩ := h'.holds hs'
      rw [hs, hs', joined_cons, joined_cons, append_cons_inj (hinner hkey) (hinner hkey')] at hblob
      obtain ⟨hfirst, htext⟩ := hblob
      obtain ⟨hvalue, hes⟩ := eq_of_tailText_eq (by decide) (hfree hholds) (hfree hholds') htext
        (increasing_sortedTags hs) (hfirst ▸ increasing_sortedTags hs')
        fun hmove => hfixed ⟨e, es, hs, hmove⟩
      rw [hes, Prod.ext hfirst hvalue]

section Series
variable [Numerics F] {tags : Dict Str Str}

/-- A series shares its text with no other one exactly when no separator in it
can be taken for another. -/
theorem tagBlob_iff (h : Produced F tags) :
    (∀ tags', Produced F tags' →
        (tagBlob tags = tagBlob tags' ↔ ∀ k, tags.get? k = tags'.get? k)) ↔
      ¬Recuttable tags := by
  constructor
  · intro hinj ⟨e, es, hsorted, hmove⟩
    obtain ⟨⟨hne, hkey⟩, hholds⟩ := h.tagsFit.holds hsorted
    obtain ⟨v', es', hdiff, htext, hholds', hup⟩ := exists_of_movable '\x1e'
      (by decide : isLineBreak '\x1f' = false) hholds (increasing_sortedTags hsorted) hmove
    have hup' : Increasing (e.1, v').1 es' := hup
    have hsorted' := sortedTags_ofSorted hup'
    have hfit : TagsFit (ofSorted (e.1, v') es' hup') := by
      intro f hf
      rcases List.mem_cons.mp hf with rfl | hf
      · exact ⟨hne, IsUnbroken.append hkey hholds'.1⟩
      · exact ⟨ne_nil_of_increasing hup f hf,
          IsUnbroken.append (hholds'.2 f hf).1 (hholds'.2 f hf).2⟩
    have hblob : tagBlob tags = tagBlob (ofSorted (e.1, v') es' hup') := by
      rw [tagBlob_eq, tagBlob_eq, hsorted, hsorted', joined_cons, joined_cons, htext]
    have hsame := sortedTags_eq_iff.mpr ((hinj _ (produced_iff.mpr hfit)).mp hblob)
    rw [hsorted, hsorted'] at hsame
    obtain ⟨he, hes⟩ := List.cons.inj hsame
    exact hdiff ⟨congrArg Prod.snd he, hes⟩
  · intro hfixed tags' h'
    constructor
    · intro hblob
      exact sortedTags_eq_iff.mp
        (sortedTags_eq_of_tagBlob_eq h.tagsFit h'.tagsFit hfixed hblob)
    · intro hget
      rw [tagBlob_eq, tagBlob_eq, sortedTags_eq_iff.mpr hget]

end Series

def twoTags : Dict Str Str := (Dict.single ['b'] ['z']).set ['a'] ['x', 'y']

theorem tagsFit_twoTags : TagsFit twoTags := by
  unfold TagsFit
  decide

theorem not_recuttable_twoTags : ¬Recuttable twoTags := by
  intro h
  obtain ⟨e, es, hsorted, hmove⟩ := h
  have htags : sortedTags twoTags = [(['a'], ['x', 'y']), (['b'], ['z'])] := by decide +kernel
  rw [htags] at hsorted
  obtain ⟨he, hes⟩ := List.cons.inj hsorted
  rw [← he, ← hes] at hmove
  exact not_movable (by decide) hmove

theorem tagBlob_iff_twoTags :
    Produced ℤ twoTags ∧ ∀ tags', Produced ℤ tags' →
      (tagBlob twoTags = tagBlob tags' ↔ ∀ k, twoTags.get? k = tags'.get? k) :=
  ⟨produced_iff.mpr tagsFit_twoTags,
    (tagBlob_iff (produced_iff.mpr tagsFit_twoTags)).mpr not_recuttable_twoTags⟩

/-- A separator in a value stands where another series has the next key. -/
theorem tagBlob_not_injective :
    ∃ tags tags' : Dict Str Str, Produced ℤ tags ∧ Produced ℤ tags' ∧
      tagBlob tags = tagBlob tags' ∧ ¬∀ k, tags.get? k = tags'.get? k := by
  refine ⟨(Dict.single ['a'] ['x', '\x1f', 'y']).set ['b'] ['z'],
    (Dict.single ['a'] ['x']).set ['y', '\x1f', 'b'] ['z'], produced_iff.mpr ?_,
    produced_iff.mpr ?_, by decide +kernel, ?_⟩
  · unfold TagsFit
    decide
  · unfold TagsFit
    decide
  · intro h
    exact absurd (h ['b']) (by decide)

end TimescaleLp.LineProtocol
