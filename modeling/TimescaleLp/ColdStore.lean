import TimescaleLp.Rows
import Mathlib.Data.List.Sort
import Mathlib.Data.List.Lex
import Mathlib.Data.Char

/-!
The cold object store and its manifest. An object is a Parquet file, read back
as the list of its rows; the manifest table lists the objects with their time
and sequence ranges. The two are updated by separate calls, so an object can be
stored and not listed, or listed and no longer stored.
-/
namespace TimescaleLp

universe u

inductive Kind
  | staging
  | cold
deriving DecidableEq

/-- A row of the manifest table, without its primary key `object_key`. -/
structure ManifestRow where
  measurement : Str
  kind : Kind
  rangeStart : Time
  rangeEnd : Time
  rows : ℕ
  minSeq : ℕ
  maxSeq : ℕ
deriving DecidableEq

structure ObjectMeta extends ManifestRow where
  objectKey : Str
deriving DecidableEq

/-- `files` is the bucket, `manifest` the table keyed by `object_key`. -/
structure Cold (V : Type u) where
  files : Str → Option (List (Row V))
  manifest : Dict Str ManifestRow

namespace ColdStore

open Names

def stagingKey (measurementTable : Str) (minSeq maxSeq : ℕ) : Str :=
  measurementTable ++ "/staging/".toList ++ zeroPad 20 minSeq ++ "-".toList ++
    zeroPad 20 maxSeq ++ ".parquet".toList

def coldKey (measurementTable day : Str) (minSeq : ℕ) : Str :=
  measurementTable ++ "/cold/dt=".toList ++ day ++ "/".toList ++ zeroPad 20 minSeq ++
    ".parquet".toList

/-- Civil date of a day counted from 1970-01-01, in the proleptic Gregorian calendar. -/
def civilOfDays (days : ℤ) : ℤ × ℤ × ℤ :=
  let z := days + 719468
  let era := z / 146097
  let doe := z - era * 146097
  let yoe := (doe - doe / 1460 + doe / 36524 - doe / 146096) / 365
  let doy := doe - (365 * yoe + yoe / 4 - yoe / 100)
  let mp := (5 * doy + 2) / 153
  let day := doy - (153 * mp + 2) / 5 + 1
  let month := if mp < 10 then mp + 3 else mp - 9
  (yoe + era * 400 + (if month ≤ 2 then 1 else 0), month, day)

/-- `strftime("%Y-%m-%d")` of the instant in UTC. -/
def dayOf (ts : Time) : Str :=
  let (y, m, d) := civilOfDays (ts / 86400000000)
  zeroPad 4 y.toNat ++ "-".toList ++ zeroPad 2 m.toNat ++ "-".toList ++ zeroPad 2 d.toNat

example : dayOf 1780356600000000 = "2026-06-01".toList := by decide +kernel

theorem stagingKey_inj {t t' : Str} {a a' b b' : ℕ} (h : stagingKey t a b = stagingKey t' a' b') :
    t = t' ∧ a = a' ∧ b = b' := by
  have hsplit : ∀ (s : Str) (m n : ℕ), stagingKey s m n =
      (s ++ "/staging".toList) ++ '/' :: (zeroPad 20 m ++ '-' ::
        (zeroPad 20 n ++ ".parquet".toList)) := by
    intro s m n
    simp [stagingKey, List.append_assoc]
  have hslash : ∀ m n : ℕ, '/' ∉ zeroPad 20 m ++ '-' :: (zeroPad 20 n ++ ".parquet".toList) := by
    intro m n
    simp [notMem_zeroPad]
  have hdash : ∀ n : ℕ, '-' ∉ zeroPad 20 n ++ ".parquet".toList := by
    intro n
    simp [notMem_zeroPad]
  rw [hsplit, hsplit] at h
  obtain ⟨ht, hseqs⟩ := append_sep_inj (hslash a b) (hslash a' b') h
  obtain ⟨ha, hb⟩ := append_sep_inj (hdash b) (hdash b') hseqs
  exact ⟨List.append_cancel_right ht, zeroPad_injective 20 ha,
    zeroPad_injective 20 (List.append_cancel_right hb)⟩

private theorem coldKey_split (t d : Str) (a : ℕ) : coldKey t d a =
    ((t ++ "/cold".toList) ++ '/' :: ("dt=".toList ++ d)) ++ '/' ::
      (zeroPad 20 a ++ ".parquet".toList) := by
  simp [coldKey, List.append_assoc]

private theorem slash_notMem_coldName (a : ℕ) : '/' ∉ zeroPad 20 a ++ ".parquet".toList := by
  simp [notMem_zeroPad]

theorem coldKey_inj {t t' d d' : Str} {a a' : ℕ} (hd : '/' ∉ d) (hd' : '/' ∉ d')
    (h : coldKey t d a = coldKey t' d' a') : t = t' ∧ d = d' ∧ a = a' := by
  rw [coldKey_split, coldKey_split] at h
  obtain ⟨hdir, ha⟩ := append_sep_inj (slash_notMem_coldName a) (slash_notMem_coldName a') h
  obtain ⟨ht, hday⟩ := append_sep_inj (by simpa using hd) (by simpa using hd') hdir
  exact ⟨List.append_cancel_right ht, List.append_cancel_left hday,
    zeroPad_injective 20 (List.append_cancel_right ha)⟩

theorem coldKey_inj_seq {t t' d d' : Str} {a a' : ℕ} (h : coldKey t d a = coldKey t' d' a') :
    a = a' := by
  rw [coldKey_split, coldKey_split] at h
  obtain ⟨-, ha⟩ := append_sep_inj (slash_notMem_coldName a) (slash_notMem_coldName a') h
  exact zeroPad_injective 20 (List.append_cancel_right ha)

/-- The last part of a staging key contains a dash, that of a cold key does not. -/
theorem stagingKey_ne_coldKey (t t' d : Str) (a b a' : ℕ) :
    stagingKey t a b ≠ coldKey t' d a' := by
  intro h
  have hsplit : stagingKey t a b = (t ++ "/staging".toList) ++ '/' ::
      (zeroPad 20 a ++ '-' :: (zeroPad 20 b ++ ".parquet".toList)) := by
    simp [stagingKey, List.append_assoc]
  rw [hsplit, coldKey_split] at h
  obtain ⟨-, hname⟩ := append_sep_inj (by simp [notMem_zeroPad]) (slash_notMem_coldName a') h
  have hmem : '-' ∈ zeroPad 20 a' ++ ".parquet".toList := by
    rw [← hname]
    simp
  simp [notMem_zeroPad] at hmem

theorem slash_notMem_dayOf (ts : Time) : '/' ∉ dayOf ts := by
  simp [dayOf, notMem_zeroPad]

variable {V : Type u}

def empty : Cold V := ⟨fun _ => none, Dict.empty⟩

/-- Writing to a key replaces the file that was there. -/
def writeTable (c : Cold V) (key : Str) (rows : List (Row V)) : Cold V :=
  { c with files := Function.update c.files key (some rows) }

/-- A file that is already gone is not an error. -/
def delete (c : Cold V) (key : Str) : Cold V :=
  { c with files := Function.update c.files key none }

/-- `ON CONFLICT (object_key) DO UPDATE`: measurement and kind of a listed
object stay as they are. -/
def onConflict (new : ManifestRow) : Option ManifestRow → ManifestRow
  | some old => { new with measurement := old.measurement, kind := old.kind }
  | none => new

def record (c : Cold V) (new : ObjectMeta) : Cold V :=
  { c with manifest := c.manifest.set new.objectKey
            (onConflict new.toManifestRow (c.manifest.get? new.objectKey)) }

def forget (c : Cold V) (objectKey : Str) : Cold V :=
  { c with manifest := c.manifest.erase objectKey }

/-- `ORDER BY range_start, min_seq` -/
def listOrder (a b : ObjectMeta) : Prop :=
  a.rangeStart < b.rangeStart ∨ a.rangeStart = b.rangeStart ∧ a.minSeq ≤ b.minSeq

instance : DecidableRel listOrder := fun a b => by
  unfold listOrder
  infer_instance

instance : Std.Total listOrder := ⟨fun a b => by
  unfold listOrder
  grind⟩

instance : IsTrans ObjectMeta listOrder := ⟨fun a b d hab hbd => by
  unfold listOrder at *
  grind⟩

def objects (c : Cold V) (measurement : Str) (kind : Option Kind) : List ObjectMeta :=
  ((c.manifest.entries.map (fun e => ObjectMeta.mk e.2 e.1)).filter
    (fun o => o.measurement = measurement ∧ (kind = none ∨ kind = some o.kind))).insertionSort
      listOrder

/-- `SELECT DISTINCT measurement ... ORDER BY 1` -/
def measurements (c : Cold V) : List Str :=
  ((c.manifest.values.map ManifestRow.measurement).dedup).insertionSort (· ≤ ·)

/-- Partition pruning: keep manifest rows whose range overlaps the query window. -/
def selectOverlapping (objects : List ObjectMeta) (start stop : Option Time) : List ObjectMeta :=
  objects.filter (fun o =>
    !(start.any (fun t => o.rangeEnd < t)) && !(stop.any (fun t => t < o.rangeStart)))

/-- The rows of a measurement in stored and listed objects that satisfy a test. -/
def heldIn (c : Cold V) (m : Str) (P : Str → ManifestRow → Prop) : Set (Row V) :=
  {r | ∃ k e rows, c.manifest.get? k = some e ∧ e.measurement = m ∧ P k e ∧
    c.files k = some rows ∧ r ∈ rows}

/-- All rows of a measurement that can be read from cold. -/
def held (c : Cold V) (m : Str) : Set (Row V) := heldIn c m (fun _ _ => True)

/-- Recording an object of one measurement does not change the listing of another. -/
theorem objects_record (c : Cold V) (new : ObjectMeta) (m : Str) (kind : Option Kind)
    (hm : new.measurement ≠ m)
    (hold : ∀ e, c.manifest.get? new.objectKey = some e → e.measurement = new.measurement) :
    objects (record c new) m kind = objects c m kind := by
  have hmeasurement : (onConflict new.toManifestRow
      (c.manifest.get? new.objectKey)).measurement = new.measurement := by
    cases h : c.manifest.get? new.objectKey with
    | none => rfl
    | some old => exact hold old h
  unfold objects
  rw [List.filter_map, List.filter_map]
  congr 2
  refine Dict.filter_setEntries _ _ _ _ ?_ ?_
  · simp [hmeasurement, hm]
  · rintro ⟨k, e⟩ he rfl
    have hne : e.measurement ≠ m := by
      rw [hold e ((Dict.get?_eq_some_iff _ _ _).mpr he)]
      exact hm
    simp [hne]

/-- The same rows as a list. -/
def heldRows (c : Cold V) (m : Str) : List (Row V) :=
  (c.manifest.entries.filter (fun e => e.2.measurement = m)).flatMap
    fun e => (c.files e.1).getD []

theorem mem_heldRows_iff (c : Cold V) (m : Str) (r : Row V) : r ∈ heldRows c m ↔ r ∈ held c m := by
  simp only [heldRows, List.mem_flatMap, List.mem_filter, decide_eq_true_eq]
  constructor
  · rintro ⟨⟨k, e⟩, ⟨hmem, hm⟩, hr⟩
    cases hfile : c.files k with
    | none => simp [hfile] at hr
    | some rows =>
      rw [hfile, Option.getD_some] at hr
      exact ⟨k, e, rows, (Dict.get?_eq_some_iff _ _ _).mpr hmem, hm, trivial, hfile, hr⟩
  · rintro ⟨k, e, rows, hk, hm, -, hfile, hr⟩
    exact ⟨(k, e), ⟨(Dict.get?_eq_some_iff _ _ _).mp hk, hm⟩, by rw [hfile]; exact hr⟩

theorem held_eq (c : Cold V) (m : Str) : held c m = {r | r ∈ heldRows c m} :=
  Set.ext fun r => (mem_heldRows_iff c m r).symm

/-- A key that is held has a newest row. -/
theorem exists_newest_held (c : Cold V) (m : Str) (r : Row V) (hr : r ∈ held c m) :
    ∃ s, Newest (held c m) r.key s := by
  rw [held_eq] at hr ⊢
  exact Versions.exists_newest Row.key Row.seq _ r hr

/-- The rows of the file at a key, listed or not. -/
def fileRows (c : Cold V) (k : Str) : Set (Row V) := {r | ∃ rows, c.files k = some rows ∧ r ∈ rows}

theorem fileRows_congr {c c' : Cold V} {k : Str} (h : c'.files k = c.files k) :
    fileRows c' k = fileRows c k := by
  simp [fileRows, h]

theorem selectOverlapping_none (objs : List ObjectMeta) :
    selectOverlapping objs none none = objs := by
  simp [selectOverlapping]

theorem mem_objects_iff (c : Cold V) (m : Str) (kind : Option Kind) (o : ObjectMeta) :
    o ∈ objects c m kind ↔ c.manifest.get? o.objectKey = some o.toManifestRow ∧
      o.measurement = m ∧ (kind = none ∨ kind = some o.kind) := by
  rw [objects, List.mem_insertionSort, List.mem_filter, List.mem_map, Dict.get?_eq_some_iff]
  constructor
  · rintro ⟨⟨⟨k, e⟩, hmem, rfl⟩, hkind⟩
    exact ⟨hmem, by simpa using hkind⟩
  · rintro ⟨hmem, hkind⟩
    exact ⟨⟨_, hmem, rfl⟩, by simpa using hkind⟩

theorem objects_sorted (c : Cold V) (m : Str) (kind : Option Kind) :
    (objects c m kind).Pairwise listOrder :=
  List.pairwise_insertionSort listOrder _

theorem objectKeys_nodup (c : Cold V) (m : Str) (kind : Option Kind) :
    ((objects c m kind).map ObjectMeta.objectKey).Nodup := by
  have hkeys : ((c.manifest.entries.map fun e => ObjectMeta.mk e.2 e.1).map
      ObjectMeta.objectKey).Nodup := by
    simpa [List.map_map, Function.comp_def] using c.manifest.nodup
  have hperm := (List.perm_insertionSort listOrder
    ((c.manifest.entries.map fun e => ObjectMeta.mk e.2 e.1).filter
      (fun o => o.measurement = m ∧ (kind = none ∨ kind = some o.kind)))).map ObjectMeta.objectKey
  exact hperm.nodup_iff.mpr (hkeys.sublist (List.filter_sublist.map _))

theorem objects_nodup (c : Cold V) (m : Str) (kind : Option Kind) : (objects c m kind).Nodup :=
  (objectKeys_nodup c m kind).of_map _

theorem heldIn_mono (c : Cold V) (m : Str) {P Q : Str → ManifestRow → Prop}
    (h : ∀ k e, P k e → Q k e) : heldIn c m P ⊆ heldIn c m Q := by
  rintro r ⟨k, e, rows, hk, hm, hP, hrows, hr⟩
  exact ⟨k, e, rows, hk, hm, h k e hP, hrows, hr⟩

@[simp] theorem files_record (c : Cold V) (new : ObjectMeta) : (record c new).files = c.files := rfl

theorem files_writeTable (c : Cold V) (k a : Str) (rows : List (Row V)) :
    (writeTable c k rows).files a = if a = k then some rows else c.files a := by
  simp [writeTable, Function.update_apply]

theorem files_writeTable_of_ne (c : Cold V) (rows : List (Row V)) {k a : Str} (h : a ≠ k) :
    (writeTable c k rows).files a = c.files a := by
  rw [files_writeTable, if_neg h]

theorem mem_fileRows_writeTable (c : Cold V) (k : Str) (rows : List (Row V)) (r : Row V) :
    r ∈ fileRows (writeTable c k rows) k ↔ r ∈ rows := by
  simp [fileRows, files_writeTable]

theorem files_delete (c : Cold V) (k a : Str) :
    (delete c k).files a = if a = k then none else c.files a := by
  simp [delete, Function.update_apply]

theorem get?_forget (c : Cold V) (k a : Str) :
    (forget c k).manifest.get? a = if a = k then none else c.manifest.get? a :=
  Dict.get?_erase _ _ _

theorem get?_record_of_ne (c : Cold V) (new : ObjectMeta) {a : Str} (h : a ≠ new.objectKey) :
    (record c new).manifest.get? a = c.manifest.get? a :=
  Dict.get?_set_of_ne _ _ h

theorem get?_record_self (c : Cold V) (new : ObjectMeta) :
    (record c new).manifest.get? new.objectKey =
      some (onConflict new.toManifestRow (c.manifest.get? new.objectKey)) :=
  Dict.get?_set_self _ _ _

theorem get?_record_new (c : Cold V) (new : ObjectMeta)
    (h : ∀ old, c.manifest.get? new.objectKey = some old →
      old.measurement = new.measurement ∧ old.kind = new.kind) :
    (record c new).manifest.get? new.objectKey = some new.toManifestRow := by
  rw [get?_record_self]
  cases hold : c.manifest.get? new.objectKey with
  | none => rfl
  | some old =>
    obtain ⟨hm, hk⟩ := h old hold
    simp only [onConflict, hm, hk]

end ColdStore

end TimescaleLp
