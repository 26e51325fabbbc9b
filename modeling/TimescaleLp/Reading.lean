import TimescaleLp.Folds
import TimescaleLp.LineProtocol

/-!
Which texts the parts of the parser read, and which exceptions leave them. A
line is refused with a `LineProtocolError` in most places; two calls of Python
functions raise exceptions of other types.
-/
namespace TimescaleLp.LineProtocol

open Texts Folds

variable {F : Type}

/-- A raised exception that `parse_batch` does not catch. -/
def Uncaught {β : Type} (r : Except Raised β) : Prop :=
  ∃ e, r = .error e ∧ ∀ l, e ≠ .lineProtocolError l

section Uncaught
variable {β γ : Type}

theorem not_uncaught_ok (b : β) : ¬Uncaught (.ok b) := by
  intro ⟨e, h, _⟩
  contradiction

theorem not_uncaught_line (l : LineError) : ¬Uncaught (.error (.lineProtocolError l) : Except _ β) := by
  intro ⟨e, h, hl⟩
  exact hl l (Except.error.inj h).symm

theorem uncaught_bind_iff {x : Except Raised β} {g : β → Except Raised γ} :
    Uncaught (x >>= g) ↔ Uncaught x ∨ ∃ b, x = .ok b ∧ Uncaught (g b) := by
  constructor
  · intro ⟨e, h, hl⟩
    rcases bind_error_iff.mp h with h | ⟨b, hb, hg⟩
    · exact Or.inl ⟨e, h, hl⟩
    · exact Or.inr ⟨b, hb, e, hg, hl⟩
  · intro h
    rcases h with ⟨e, h, hl⟩ | ⟨b, hb, e, hg, hl⟩
    · exact ⟨e, bind_error_iff.mpr (Or.inl h), hl⟩
    · exact ⟨e, bind_error_iff.mpr (Or.inr ⟨b, hb, hg⟩), hl⟩

theorem uncaught_map_iff {x : Except Raised β} {g : β → γ} : Uncaught (x.map g) ↔ Uncaught x := by
  refine exists_congr fun e => and_congr_left fun _ => map_error_iff

theorem uncaught_foldlM_iff {σ α : Type} {f : σ → α → Except Raised σ} {s : σ} {xs : List α} :
    Uncaught (xs.foldlM f s) ↔
      ∃ before x after s', xs = before ++ x :: after ∧ before.foldlM f s = .ok s' ∧
        Uncaught (f s' x) := by
  constructor
  · intro ⟨e, h, hl⟩
    obtain ⟨before, x, after, s', hxs, hbefore, hx⟩ := foldlM_error_iff.mp h
    exact ⟨before, x, after, s', hxs, hbefore, e, hx, hl⟩
  · intro ⟨before, x, after, s', hxs, hbefore, e, hx, hl⟩
    exact ⟨e, foldlM_error_iff.mpr ⟨before, x, after, s', hxs, hbefore, hx⟩, hl⟩

end Uncaught

/-- A tag part that is read: empty, or one key that is not empty with its value. -/
def TagForm (tp : Str) : Prop := tp = [] ∨ ∃ k v, splitTop tp '=' false = [k, v] ∧ k ≠ []

def HeadForm (head : Str) : Prop :=
  (splitTop head ',' false).headD [] ≠ [] ∧ ∀ tp ∈ (splitTop head ',' false).tail, TagForm tp

variable (F) in
/-- A field value that is read. -/
def ValueForm [Numerics F] (v : Str) : Prop :=
  v ≠ [] ∧ (isQuoted v ∨ isTrueWord v ∨ isFalseWord v ∨
    if hasSuffix v then (int v.dropLast).isSome else (float v : Option F).isSome)

variable (F) in
def FieldForm [Numerics F] (fp : Str) : Prop :=
  fp = [] ∨ ∃ k v, splitTop fp '=' true = [k, v] ∧ k ≠ [] ∧ ValueForm F v

/-- A value with an integer suffix behind something that is no integer. -/
def StraySuffix (v : Str) : Prop := hasSuffix v ∧ int v.dropLast = none

def StrayField (fp : Str) : Prop :=
  ∃ k v, splitTop fp '=' true = [k, v] ∧ k ≠ [] ∧ StraySuffix v

/-- An integer timestamp that is no date. -/
def StrayTime (precision : Precision) (ts : Str) : Prop :=
  ∃ n e, ts ≠ [] ∧ int ts = some n ∧ fromTimestamp (n * precisionToNs precision) = .error e

theorem unescape_eq_nil_iff (s : Str) (delims : List Char) : unescape s delims = [] ↔ s = [] :=
  Escaping.unescape_eq_nil_iff '\\' delims s

/-- The empty text has one part only. -/
theorem splitTop_ne_nil {s k v : Str} {sep : Char} {respectQuotes : Bool}
    (h : splitTop s sep respectQuotes = [k, v]) : s ≠ [] := by
  intro hs
  rw [hs] at h
  exact absurd (congrArg List.length h) (by decide : (1 : ℕ) ≠ 2)

theorem mem_of_mem_splitTop {s part : Str} {sep : Char} {respectQuotes : Bool}
    (h : part ∈ splitTop s sep respectQuotes) {c : Char} (hc : c ∈ part) : c ∈ s :=
  Escaping.mem_of_mem_splitLoop '\\' '"' h hc

theorem parseTag_exists_iff (tags : Dict Str Str) (tp : Str) :
    (∃ t, parseTag tags tp = .ok t) ↔ TagForm tp := by
  unfold parseTag TagForm
  by_cases htp : tp = []
  · simp [htp]
  rw [if_neg htp]
  split
  · rename_i k v hkv
    by_cases hk : k = [] <;> simp [htp, hkv, hk, unescape_eq_nil_iff]
  · rename_i hkv
    simpa [htp] using fun k v h => (hkv k v h).elim

theorem not_uncaught_parseTag (tags : Dict Str Str) (tp : Str) : ¬Uncaught (parseTag tags tp) := by
  unfold parseTag
  split
  · exact not_uncaught_ok _
  split
  · split
    · exact not_uncaught_line _
    · exact not_uncaught_ok _
  · exact not_uncaught_line _

theorem parseHead_exists_iff (head : Str) : (∃ r, parseHead head = .ok r) ↔ HeadForm head := by
  unfold parseHead HeadForm
  by_cases hm : (splitTop head ',' false).headD [] = []
  · simp only [hm, unescape_eq_nil_iff, if_true]
    simp
  · rw [← exists_foldlM_ok_iff parseTag_exists_iff Dict.empty]
    simp only [unescape_eq_nil_iff, hm, if_false, map_ok_iff, ne_eq, not_false_eq_true, true_and]
    constructor
    · intro ⟨r, tags, h, _⟩
      exact ⟨tags, h⟩
    · intro ⟨tags, h⟩
      exact ⟨_, tags, h, rfl⟩

theorem not_uncaught_parseHead (head : Str) : ¬Uncaught (parseHead head) := by
  unfold parseHead
  simp only
  split
  · exact not_uncaught_line _
  · rw [uncaught_map_iff, uncaught_foldlM_iff]
    intro ⟨before, x, after, tags, _, _, h⟩
    exact not_uncaught_parseTag tags x h

/-- The words for true and false and a quoted string do not end in a suffix. -/
theorem not_other_of_hasSuffix {v : Str} (h : hasSuffix v) :
    v ≠ [] ∧ isQuoted v = false ∧ isTrueWord v = false ∧ isFalseWord v = false := by
  obtain ⟨c, hc, hlast⟩ : ∃ c, (c = 'i' ∨ c = 'u') ∧ v.getLast? = some c := by
    rcases Bool.or_eq_true_iff.mp h with h | h
    · exact ⟨'i', Or.inl rfl, of_decide_eq_true h⟩
    · exact ⟨'u', Or.inr rfl, of_decide_eq_true h⟩
  have hlower : (lower v).getLast? = some c.toLower := by
    rw [lower, List.getLast?_map, hlast]
    rfl
  have hword : ∀ w ∈ ["t".toList, "true".toList, "f".toList, "false".toList], lower v ≠ w := by
    intro w hw heq
    rw [heq] at hlower
    simp only [List.mem_cons, List.not_mem_nil, or_false] at hw
    rcases hc with rfl | rfl <;> rcases hw with rfl | rfl | rfl | rfl <;>
      exact absurd hlower (by decide)
  refine ⟨?_, ?_, ?_, ?_⟩
  · intro hv
    rw [hv] at hlast
    contradiction
  · unfold isQuoted
    rw [hlast]
    rcases hc with rfl | rfl <;> simp
  · simp only [isTrueWord, List.contains_eq_mem, List.mem_cons, List.not_mem_nil, or_false,
      decide_eq_false_iff_not, not_or]
    exact ⟨hword _ (by simp), hword _ (by simp)⟩
  · simp only [isFalseWord, List.contains_eq_mem, List.mem_cons, List.not_mem_nil, or_false,
      decide_eq_false_iff_not, not_or]
    exact ⟨hword _ (by simp), hword _ (by simp)⟩

section Fields
variable [Numerics F]

theorem parseFieldValue_exists_iff (v : Str) :
    (∃ x : Value F, parseFieldValue v = .ok x) ↔ ValueForm F v := by
  unfold parseFieldValue ValueForm
  by_cases hv : v = []
  · simp [hv]
  by_cases hq : isQuoted v
  · simp [hv, hq]
  by_cases ht : isTrueWord v
  · simp [hv, ht, hq]
  by_cases hf : isFalseWord v
  · simp [hv, hf, hq, ht]
  by_cases hs : hasSuffix v
  · cases hint : int v.dropLast <;> simp [hv, hq, ht, hf, hs]
  · cases hfl : (float v : Option F) <;> simp [hv, hq, ht, hf, hs]

theorem uncaught_parseFieldValue_iff (v : Str) :
    Uncaught (parseFieldValue v : Except Raised (Value F)) ↔ StraySuffix v := by
  unfold parseFieldValue StraySuffix
  by_cases hs : hasSuffix v
  · obtain ⟨hv, hq, ht, hf⟩ := not_other_of_hasSuffix hs
    simp only [hv, hq, ht, hf, hs, Bool.false_eq_true, if_true, if_false, true_and]
    cases int v.dropLast with
    | none => exact iff_of_true ⟨.valueError, rfl, fun l h => nomatch h⟩ rfl
    | some n => exact iff_of_false (not_uncaught_ok _) (fun h => nomatch h)
  · refine iff_of_false ?_ (fun h => hs h.1)
    split_ifs
    · exact not_uncaught_line _
    · exact not_uncaught_ok _
    · exact not_uncaught_ok _
    · exact not_uncaught_ok _
    · cases (float v : Option F) with
      | none => exact not_uncaught_line _
      | some x => exact not_uncaught_ok _

theorem parseField_exists_iff (fields : Dict Str (Value F)) (fp : Str) :
    (∃ r, parseField fields fp = .ok r) ↔ FieldForm F fp := by
  unfold parseField FieldForm
  by_cases hfp : fp = []
  · simp [hfp]
  rw [if_neg hfp]
  split
  · rename_i k v hkv
    by_cases hk : k = []
    · simp [hfp, hkv, hk, unescape_eq_nil_iff]
    · rw [if_neg fun h => hk ((unescape_eq_nil_iff k _).mp h)]
      simp [hfp, hkv, hk, map_ok_iff, ← parseFieldValue_exists_iff]
  · rename_i hkv
    simpa [hfp] using fun k v h => (hkv k v h).elim

theorem uncaught_parseField_iff (fields : Dict Str (Value F)) (fp : Str) :
    Uncaught (parseField fields fp) ↔ StrayField fp := by
  unfold parseField StrayField
  by_cases hfp : fp = []
  · rw [if_pos hfp]
    refine iff_of_false (not_uncaught_ok _) ?_
    intro ⟨k, v, hkv, _⟩
    exact splitTop_ne_nil hkv hfp
  rw [if_neg hfp]
  split
  · rename_i k v hkv
    by_cases hk : k = []
    · rw [if_pos ((unescape_eq_nil_iff k _).mpr hk)]
      refine iff_of_false (not_uncaught_line _) ?_
      intro ⟨k', v', hkv', hk', _⟩
      rw [hkv] at hkv'
      obtain ⟨rfl, _⟩ := List.cons.inj hkv'
      exact hk' hk
    · rw [if_neg fun h => hk ((unescape_eq_nil_iff k _).mp h), uncaught_map_iff,
        uncaught_parseFieldValue_iff]
      simp [hkv, hk]
  · rename_i hkv
    refine iff_of_false (not_uncaught_line _) ?_
    intro ⟨k, v, hkv', _⟩
    exact hkv k v hkv'

theorem uncaught_parseFields_iff (s : Str) :
    Uncaught (parseFields s : Except Raised (Dict Str (Value F))) ↔
      ∃ before fp after, splitTop s ',' true = before ++ fp :: after ∧
        (∀ p ∈ before, FieldForm F p) ∧ StrayField fp := by
  unfold parseFields
  rw [uncaught_bind_iff, uncaught_foldlM_iff]
  constructor
  · intro h
    rcases h with ⟨before, fp, after, fields, hs, hbefore, h⟩ | ⟨fields, _, h⟩
    · exact ⟨before, fp, after, hs,
        (exists_foldlM_ok_iff parseField_exists_iff Dict.empty before).mp ⟨fields, hbefore⟩,
        (uncaught_parseField_iff fields fp).mp h⟩
    · split at h
      · exact absurd h (not_uncaught_line _)
      · exact absurd h (not_uncaught_ok _)
  · intro ⟨before, fp, after, hs, hbefore, h⟩
    obtain ⟨fields, hbefore⟩ :=
      (exists_foldlM_ok_iff (parseField_exists_iff (F := F)) Dict.empty before).mpr hbefore
    exact Or.inl ⟨before, fp, after, fields, hs, hbefore,
      (uncaught_parseField_iff fields fp).mpr h⟩

omit [Numerics F] in
theorem entries_set_ne_nil (d : Dict Str (Value F)) (k : Str) (v : Value F) :
    (d.set k v).entries ≠ [] := by
  intro h
  have hmem := (Dict.get?_eq_some_iff _ k v).mp (Dict.get?_set_self d k v)
  rw [h] at hmem
  contradiction

/-- A field part that is read leaves the dictionary alone exactly when it is empty. -/
theorem parseField_ok_cases {fields r : Dict Str (Value F)} {fp : Str}
    (h : parseField fields fp = .ok r) :
    (fp = [] ∧ r = fields) ∨ ∃ k v value, splitTop fp '=' true = [k, v] ∧ k ≠ [] ∧
      parseFieldValue v = .ok value ∧ r = fields.set (unescape k [',', '=', ' ']) value := by
  unfold parseField at h
  split at h
  · exact Or.inl ⟨‹_›, (Except.ok.inj h).symm⟩
  split at h
  · split at h
    · contradiction
    · rename_i k v hkv hk
      obtain ⟨value, hvalue, hr⟩ := map_ok_iff.mp h
      exact Or.inr ⟨k, v, value, hkv, fun h => hk ((unescape_eq_nil_iff k _).mpr h), hvalue, hr.symm⟩
  · contradiction

theorem entries_eq_nil_iff_of_foldlM {fields r : Dict Str (Value F)} {parts : List Str}
    (h : parts.foldlM parseField fields = .ok r) :
    r.entries = [] ↔ fields.entries = [] ∧ ∀ fp ∈ parts, fp = [] := by
  induction parts generalizing fields with
  | nil =>
    cases Except.ok.inj h
    simp
  | cons fp parts ih =>
    obtain ⟨fields', hfp, h⟩ := foldlM_cons_ok_iff.mp h
    rw [ih h, List.forall_mem_cons]
    rcases parseField_ok_cases hfp with ⟨hnil, rfl⟩ | ⟨k, v, value, hkv, _, _, rfl⟩
    · simp [hnil]
    · simp [splitTop_ne_nil hkv, entries_set_ne_nil]

theorem parseFields_exists_iff (s : Str) :
    (∃ r : Dict Str (Value F), parseFields s = .ok r) ↔
      (∀ fp ∈ splitTop s ',' true, FieldForm F fp) ∧ ∃ fp ∈ splitTop s ',' true, fp ≠ [] := by
  unfold parseFields
  simp only [bind_ok_iff]
  constructor
  · intro ⟨r, fields, h, hr⟩
    refine ⟨(exists_foldlM_ok_iff parseField_exists_iff Dict.empty _).mp ⟨fields, h⟩, ?_⟩
    split at hr
    · contradiction
    · rename_i hne
      by_contra hall
      refine hne ((entries_eq_nil_iff_of_foldlM h).mpr ⟨rfl, ?_⟩)
      intro fp hfp
      by_contra hfpne
      exact hall ⟨fp, hfp, hfpne⟩
  · intro ⟨hform, fp, hfp, hne⟩
    obtain ⟨fields, h⟩ :=
      (exists_foldlM_ok_iff (parseField_exists_iff (F := F)) Dict.empty _).mpr hform
    refine ⟨fields, fields, h, if_neg ?_⟩
    intro hnil
    exact hne (((entries_eq_nil_iff_of_foldlM h).mp hnil).2 fp hfp)

end Fields

theorem uncaught_parseTime_iff (precision : Precision) (now : Time) (ts : Option Str) :
    Uncaught (parseTime precision none now ts) ↔ StrayTime precision (ts.getD []) := by
  unfold parseTime StrayTime
  by_cases hts : ts.getD [] = []
  · rw [if_neg (not_not_intro hts)]
    exact iff_of_false (not_uncaught_ok _) fun ⟨_, _, h, _⟩ => h hts
  rw [if_pos hts]
  cases hint : int (ts.getD []) with
  | none => exact iff_of_false (not_uncaught_line _) fun ⟨_, _, _, h, _⟩ => nomatch h
  | some n =>
    cases hdate : fromTimestamp (n * precisionToNs precision) with
    | error e =>
      exact iff_of_true ⟨.dateError e, by simp only [hdate]; rfl, fun l h => nomatch h⟩
        ⟨n, e, hts, rfl, hdate⟩
    | ok t =>
      simp only [hdate]
      refine iff_of_false (not_uncaught_ok t) ?_
      intro ⟨n', e, _, hn, he⟩
      cases Option.some.inj hn
      rw [hdate] at he
      contradiction

/-- What an accepted line was read from. -/
theorem parseLine_ok_iff [Numerics F] {precision : Precision} {defaultTsNs : Option ℤ} {now : Time}
    {line : Str} {p : Point F} :
    parseLine precision defaultTsNs now line = .ok p ↔
      strip line ≠ [] ∧ isComment (strip line) = false ∧
        ∃ head fieldsSection rest, splitTopSpace (strip line) = head :: fieldsSection :: rest ∧
          parseHead head = .ok (p.measurement, p.tags) ∧ parseFields fieldsSection = .ok p.fields ∧
          parseTime precision defaultTsNs now rest.head? = .ok p.time := by
  unfold parseLine
  by_cases hblank : strip line = [] ∨ isComment (strip line)
  · rw [if_pos hblank]
    refine iff_of_false (fun h => nomatch h) ?_
    intro ⟨hne, hcomment, _⟩
    rcases hblank with h | h
    · exact hne h
    · rw [hcomment] at h
      contradiction
  rw [if_neg hblank]
  rw [not_or, Bool.not_eq_true] at hblank
  simp only [hblank, ne_eq, not_false_eq_true, true_and]
  constructor
  · intro h
    unfold parseSections at h
    split at h
    · rename_i head fieldsSection rest hsections
      obtain ⟨⟨m, tags⟩, hhead, h⟩ := bind_ok_iff.mp h
      obtain ⟨fields, hfields, h⟩ := bind_ok_iff.mp h
      obtain ⟨time, htime, h⟩ := bind_ok_iff.mp h
      cases Except.ok.inj h
      exact ⟨head, fieldsSection, rest, hsections, hhead, hfields, htime⟩
    · contradiction
  · intro ⟨head, fieldsSection, rest, hsections, hhead, hfields, htime⟩
    rw [hsections]
    unfold parseSections
    exact bind_ok_iff.mpr ⟨_, hhead, bind_ok_iff.mpr ⟨_, hfields, bind_ok_iff.mpr ⟨_, htime, rfl⟩⟩⟩

end TimescaleLp.LineProtocol
