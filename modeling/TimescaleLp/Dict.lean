import Mathlib.Data.List.Nodup
import Mathlib.Data.List.Basic
import Mathlib.Data.Set.Basic

/-!
Finite maps that keep the order of insertion. Replacing a value leaves its key
at the place where it was first inserted. A table of a database with a primary
key is the same structure, read without regard to the order of its entries.
Every operation is specified by what it does to `get?`.
-/
namespace TimescaleLp

universe u v w

/-- Entries in insertion order; no key occurs twice. -/
structure Dict (κ : Type u) (β : Type v) where
  entries : List (κ × β)
  nodup : (entries.map Prod.fst).Nodup

namespace Dict

variable {κ : Type u} {β : Type v}

def empty : Dict κ β := ⟨[], List.nodup_nil⟩

instance : Inhabited (Dict κ β) := ⟨empty⟩

def single (k : κ) (v : β) : Dict κ β := ⟨[(k, v)], List.nodup_singleton k⟩

def keys (d : Dict κ β) : List κ := d.entries.map Prod.fst

def values (d : Dict κ β) : List β := d.entries.map Prod.snd

/-- Entries that satisfy a test, in the same order. -/
def filter (p : κ → β → Bool) (d : Dict κ β) : Dict κ β where
  entries := d.entries.filter (fun e => p e.1 e.2)
  nodup := d.nodup.sublist (List.filter_sublist.map Prod.fst)

/-- The same keys with new values. -/
def map {γ : Type w} (f : κ → β → γ) (d : Dict κ β) : Dict κ γ where
  entries := d.entries.map (fun e => (e.1, f e.1 e.2))
  nodup := by simpa [List.map_map, Function.comp_def] using d.nodup

variable [DecidableEq κ]

def get? (d : Dict κ β) (k : κ) : Option β :=
  (d.entries.find? (fun e => e.1 = k)).map Prod.snd

def contains (d : Dict κ β) (k : κ) : Bool := (d.get? k).isSome

/-- Replace the value in place, or append a new entry at the end. -/
def setEntries (k : κ) (v : β) : List (κ × β) → List (κ × β)
  | [] => [(k, v)]
  | e :: es => if e.1 = k then (k, v) :: es else e :: setEntries k v es

theorem keys_setEntries (k : κ) (v : β) (es : List (κ × β)) :
    (setEntries k v es).map Prod.fst =
      if k ∈ es.map Prod.fst then es.map Prod.fst else es.map Prod.fst ++ [k] := by
  induction es with
  | nil => simp [setEntries]
  | cons e es ih =>
    by_cases he : e.1 = k
    · simp [setEntries, he]
    · have hk : k ≠ e.1 := Ne.symm he
      by_cases hmem : k ∈ es.map Prod.fst
      · simp only [setEntries, if_neg he, List.map_cons, ih, List.mem_cons, hmem, or_true, if_true]
      · simp only [setEntries, if_neg he, List.map_cons, ih, List.mem_cons, hmem, hk, or_self,
          if_false, List.cons_append]

/-- An entry that a test rejects before and after is not seen by it. -/
theorem filter_setEntries (p : κ × β → Bool) (k : κ) (v : β) (es : List (κ × β))
    (hnew : p (k, v) = false) (hold : ∀ e ∈ es, e.1 = k → p e = false) :
    (setEntries k v es).filter p = es.filter p := by
  induction es with
  | nil => simp [setEntries, hnew]
  | cons e es ih =>
    have hrest := ih fun e' he' => hold e' (List.mem_cons_of_mem e he')
    by_cases he : e.1 = k
    · simp [setEntries, he, hnew, hold e List.mem_cons_self he]
    · rw [setEntries, if_neg he, List.filter_cons, List.filter_cons, hrest]

def set (d : Dict κ β) (k : κ) (v : β) : Dict κ β where
  entries := setEntries k v d.entries
  nodup := by
    rw [keys_setEntries]
    split
    · exact d.nodup
    · rename_i hk
      rw [List.nodup_append]
      exact ⟨d.nodup, by simp, by simpa using fun a b hab heq => hk (by simpa using ⟨b, heq ▸ hab⟩)⟩

def erase (d : Dict κ β) (k : κ) : Dict κ β := d.filter (fun a _ => a ≠ k)

theorem get?_eq_some_iff (d : Dict κ β) (k : κ) (v : β) :
    d.get? k = some v ↔ (k, v) ∈ d.entries := by
  obtain ⟨es, hnodup⟩ := d
  simp only [get?]
  induction es with
  | nil => simp
  | cons e es ih =>
    obtain ⟨a, b⟩ := e
    simp only [List.map_cons, List.nodup_cons] at hnodup
    by_cases ha : a = k
    · subst a
      have hnot : ∀ x, (k, x) ∉ es := fun x hx => hnodup.1 (List.mem_map_of_mem (f := Prod.fst) hx)
      simp [hnot, eq_comm]
    · have hka : k ≠ a := Ne.symm ha
      simpa [List.find?_cons, ha, hka] using ih hnodup.2

theorem get?_eq_none_iff (d : Dict κ β) (k : κ) : d.get? k = none ↔ k ∉ d.keys := by
  rw [Option.eq_none_iff_forall_ne_some]
  simp [get?_eq_some_iff, keys]

theorem mem_keys_iff (d : Dict κ β) (k : κ) : k ∈ d.keys ↔ ∃ v, d.get? k = some v := by
  rw [← Option.isSome_iff_exists, ← not_iff_not, Bool.not_eq_true, Option.isSome_eq_false_iff,
    Option.isNone_iff_eq_none, get?_eq_none_iff]

theorem mem_values_iff (d : Dict κ β) (v : β) : v ∈ d.values ↔ ∃ k, d.get? k = some v := by
  simp [values, get?_eq_some_iff]

theorem eq_of_get?_single {k a : κ} {v w : β} (h : (single k v).get? a = some w) :
    (a, w) = (k, v) :=
  List.mem_singleton.mp ((get?_eq_some_iff _ _ _).mp h)

@[simp] theorem get?_empty (k : κ) : (empty : Dict κ β).get? k = none := rfl

@[simp] theorem get?_filter (d : Dict κ β) (p : κ → β → Bool) (k : κ) :
    (d.filter p).get? k = (d.get? k).filter (p k) := by
  apply Option.ext
  intro v
  rw [get?_eq_some_iff, Option.filter_eq_some_iff, get?_eq_some_iff]
  simp [filter]

omit [DecidableEq κ] in
theorem map_congr {γ : Type w} (d : Dict κ β) {f g : κ → β → γ}
    (h : ∀ k, ∀ v ∈ d.values, f k v = g k v) : d.map f = d.map g := by
  simp only [map, mk.injEq]
  exact List.map_congr_left fun e he => by rw [h e.1 e.2 (List.mem_map_of_mem he)]

@[simp] theorem get?_map {γ : Type w} (d : Dict κ β) (f : κ → β → γ) (k : κ) :
    (d.map f).get? k = (d.get? k).map (f k) := by
  apply Option.ext
  intro v
  rw [get?_eq_some_iff, Option.map_eq_some_iff]
  simp only [map, List.mem_map, Prod.mk.injEq, Prod.exists, get?_eq_some_iff]
  constructor
  · rintro ⟨a, b, hmem, rfl, rfl⟩
    exact ⟨b, hmem, rfl⟩
  · rintro ⟨b, hmem, rfl⟩
    exact ⟨k, b, hmem, rfl, rfl⟩

theorem get?_erase (d : Dict κ β) (k a : κ) :
    (d.erase k).get? a = if a = k then none else d.get? a := by
  rw [erase, get?_filter]
  split
  · rename_i h
    cases d.get? a <;> simp [h]
  · rename_i h
    cases d.get? a <;> simp [h]

theorem get?_set (d : Dict κ β) (k a : κ) (v : β) :
    (d.set k v).get? a = if a = k then some v else d.get? a := by
  obtain ⟨es, hnodup⟩ := d
  simp only [get?, set]
  clear hnodup
  induction es with
  | nil => by_cases ha : a = k <;> simp [setEntries, ha, eq_comm]
  | cons e es ih =>
    by_cases he : e.1 = k
    · by_cases ha : a = k
      · simp [setEntries, he, ha]
      · have hka : k ≠ a := Ne.symm ha
        simp [setEntries, he, ha, hka]
    · by_cases hea : e.1 = a
      · have ha : a ≠ k := fun h => he (hea.trans h)
        simp [setEntries, hea, ha]
      · simpa [setEntries, he, hea] using ih

private theorem find?_setEntries (p : κ × β → Bool) (k : κ) (v : β) {es : List (κ × β)}
    (hnodup : (es.map Prod.fst).Nodup) (hp : ∀ e ∈ es, e.1 = k → p e = p (k, v)) {e : κ × β}
    (h : es.find? p = some e) :
    (setEntries k v es).find? p = some (if e.1 = k then (k, v) else e) := by
  induction es with
  | nil => contradiction
  | cons x es ih =>
    rw [List.map_cons, List.nodup_cons] at hnodup
    have hrest := ih hnodup.2 fun e' he' => hp e' (List.mem_cons_of_mem x he')
    rw [List.find?_cons] at h
    by_cases hx : x.1 = k
    · have hsame := hp x List.mem_cons_self hx
      rw [setEntries, if_pos hx, List.find?_cons, ← hsame]
      split at h
      · cases h
        rw [if_pos hx]
      · have hne : e.1 ≠ k := by
          intro he
          exact hnodup.1 (hx ▸ he ▸ List.mem_map_of_mem (List.mem_of_find?_eq_some h))
        rw [if_neg hne, h]
    · rw [setEntries, if_neg hx, List.find?_cons]
      split at h
      · cases h
        rw [if_neg hx]
      · exact hrest h

/-- The first entry of a kind is found at the same place after a value of the
same kind is set. -/
theorem find?_set (d : Dict κ β) (p : κ × β → Bool) {k : κ} {v : β}
    (hp : ∀ old, d.get? k = some old → p (k, old) = p (k, v)) {e : κ × β}
    (h : d.entries.find? p = some e) :
    (d.set k v).entries.find? p = some (if e.1 = k then (k, v) else e) := by
  refine find?_setEntries p k v d.nodup (fun e' he' hk => ?_) h
  obtain ⟨k', old⟩ := e'
  cases hk
  exact hp old ((get?_eq_some_iff d _ old).mpr he')

@[simp] theorem get?_set_self (d : Dict κ β) (k : κ) (v : β) : (d.set k v).get? k = some v := by
  simp [get?_set]

theorem get?_set_of_ne (d : Dict κ β) {k a : κ} (v : β) (h : a ≠ k) :
    (d.set k v).get? a = d.get? a := by
  simp [get?_set, h]

theorem mem_keys_set (d : Dict κ β) {k a : κ} {v : β} :
    a ∈ (d.set k v).keys ↔ a ∈ d.keys ∨ a = k := by
  rw [mem_keys_iff, mem_keys_iff, get?_set]
  by_cases ha : a = k
  · simp [ha]
  · simp [ha]

/-- What holds of all entries is kept by setting one of which it holds. -/
theorem forall_set {P : κ → β → Prop} {d : Dict κ β} (h : ∀ k v, d.get? k = some v → P k v)
    {k : κ} {v : β} (hnew : P k v) (a : κ) (w : β) (hget : (d.set k v).get? a = some w) :
    P a w := by
  rw [get?_set] at hget
  split at hget
  · rename_i ha
    cases hget
    exact ha ▸ hnew
  · exact h a w hget

theorem setEntries_of_notMem {k : κ} (v : β) {es : List (κ × β)} (h : k ∉ es.map Prod.fst) :
    setEntries k v es = es ++ [(k, v)] := by
  induction es with
  | nil => rfl
  | cons e es ih =>
    rw [List.map_cons, List.mem_cons, not_or] at h
    rw [setEntries, if_neg fun heq => h.1 heq.symm, ih h.2, List.cons_append]

theorem length_setEntries_le (k : κ) (v : β) (es : List (κ × β)) :
    (setEntries k v es).length ≤ es.length + 1 := by
  induction es with
  | nil => exact le_rfl
  | cons e es ih =>
    rw [setEntries]
    split
    · exact Nat.le_succ _
    · exact Nat.succ_le_succ ih

theorem entries_foldl_set (d : Dict κ β) (es : List (κ × β))
    (h : (d.entries ++ es).map Prod.fst |>.Nodup) :
    (es.foldl (fun d e => d.set e.1 e.2) d).entries = d.entries ++ es := by
  induction es generalizing d with
  | nil => exact (List.append_nil _).symm
  | cons e es ih =>
    have hnew : e.1 ∉ d.entries.map Prod.fst := by
      rw [List.map_append, List.map_cons] at h
      intro hmem
      exact List.disjoint_of_nodup_append h hmem List.mem_cons_self
    have hentries : (d.set e.1 e.2).entries = d.entries ++ [e] :=
      setEntries_of_notMem e.2 hnew
    rw [List.foldl_cons, ih, hentries, List.append_assoc, List.singleton_append]
    rwa [hentries, List.append_assoc, List.singleton_append]

/-- A dictionary is built up again from its entries. -/
theorem foldl_set_entries (d : Dict κ β) :
    d.entries.foldl (fun d e => d.set e.1 e.2) empty = d := by
  have h := entries_foldl_set (empty : Dict κ β) d.entries d.nodup
  obtain ⟨es, hnodup⟩ := d
  cases hd : es.foldl (fun d e => d.set e.1 e.2) (empty : Dict κ β) with
  | mk es' hnodup' =>
    rw [hd] at h
    cases h
    rfl

/-- Values under different keys are rewritten one after the other. -/
theorem foldl_update {α : Type w} (f : α → β → α) (d : Dict κ β) (g : κ → α) (k : κ) :
    d.entries.foldl (fun g e => Function.update g e.1 (f (g e.1) e.2)) g k =
      ((d.get? k).map (f (g k))).getD (g k) := by
  obtain ⟨es, hnodup⟩ := d
  rw [get?, Option.map_map]
  simp only
  induction es generalizing g with
  | nil => rfl
  | cons e es ih =>
    obtain ⟨hnew, hrest⟩ := List.nodup_cons.mp hnodup
    rw [List.foldl_cons, ih _ hrest, List.find?_cons]
    by_cases hk : e.1 = k
    · have hnone : (es.find? fun e' => e'.1 = k) = none := by
        rw [List.find?_eq_none]
        intro e' he' heq
        have hsame : e'.1 = e.1 := (of_decide_eq_true heq).trans hk.symm
        exact hnew (hsame ▸ List.mem_map_of_mem he')
      subst hk
      simp [hnone]
    · simp [hk, Function.update_of_ne (Ne.symm hk)]

/-- Group a list by a label; the labels keep the order in which they first occur. -/
def groupBy {α : Type w} (f : α → κ) (xs : List α) : Dict κ (List α) :=
  xs.foldl (fun d x => d.set (f x) ((d.get? (f x)).getD [] ++ [x])) empty

section GroupBy
variable {α : Type w} (f : α → κ)

theorem groupBy_foldl (xs : List α) (d : Dict κ (List α)) (k : κ) :
    (xs.foldl (fun d x => d.set (f x) ((d.get? (f x)).getD [] ++ [x])) d).get? k =
      if xs.filter (fun x => f x = k) = [] then d.get? k
      else some ((d.get? k).getD [] ++ xs.filter (fun x => f x = k)) := by
  induction xs generalizing d with
  | nil => simp
  | cons x xs ih =>
    rw [List.foldl_cons, ih]
    by_cases hx : f x = k
    · subst hx
      by_cases hxs : xs.filter (fun y => f y = f x) = []
      · simp [hxs]
      · simp [hxs]
    · have hkx : k ≠ f x := Ne.symm hx
      simp [hx, get?_set, hkx]

/-- A group is the sublist of the elements with its label, and no group is empty. -/
theorem get?_groupBy (xs : List α) (k : κ) :
    (groupBy f xs).get? k =
      if xs.filter (fun x => f x = k) = [] then none
      else some (xs.filter (fun x => f x = k)) := by
  rw [groupBy, groupBy_foldl]
  simp

theorem mem_groupBy_entries (xs : List α) (k : κ) (g : List α)
    (h : (k, g) ∈ (groupBy f xs).entries) :
    g = xs.filter (fun x => f x = k) ∧ g ≠ [] := by
  rw [← get?_eq_some_iff, get?_groupBy] at h
  split at h
  · contradiction
  · rename_i hne
    cases Option.some.inj h
    exact ⟨rfl, hne⟩

theorem exists_group (xs : List α) (x : α) (hx : x ∈ xs) :
    ∃ g, (f x, g) ∈ (groupBy f xs).entries ∧ x ∈ g := by
  have hmem : x ∈ xs.filter (fun y => f y = f x) := by simp [hx]
  refine ⟨_, ?_, hmem⟩
  rw [← get?_eq_some_iff, get?_groupBy, if_neg (List.ne_nil_of_mem hmem)]

/-- Elements with different labels stay apart in the groups. -/
theorem nodup_map_groupBy {β' : Type*} (g : α → β') (xs : List α) (h : (xs.map g).Nodup) :
    (((groupBy f xs).entries.flatMap Prod.snd).map g).Nodup := by
  rw [List.map_flatMap, List.nodup_flatMap]
  refine ⟨?_, ?_⟩
  · rintro ⟨k, ys⟩ hys
    rw [(mem_groupBy_entries f xs k ys hys).1]
    exact h.sublist (List.filter_sublist.map g)
  · have hkeys := List.pairwise_map.mp (groupBy f xs).nodup
    refine hkeys.imp_of_mem ?_
    rintro ⟨k, ys⟩ ⟨k', ys'⟩ hys hys' hne b hb hb'
    rw [(mem_groupBy_entries f xs k ys hys).1] at hb
    rw [(mem_groupBy_entries f xs k' ys' hys').1] at hb'
    obtain ⟨x, hx, rfl⟩ := List.mem_map.mp hb
    obtain ⟨x', hx', heq⟩ := List.mem_map.mp hb'
    simp only [List.mem_filter, decide_eq_true_eq] at hx hx'
    have hsame : x' = x := List.inj_on_of_nodup_map h hx'.1 hx.1 heq
    exact hne (hx.2.symm.trans (hsame ▸ hx'.2))

end GroupBy

end Dict

end TimescaleLp
