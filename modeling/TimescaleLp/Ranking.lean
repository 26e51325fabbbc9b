import TimescaleLp.Versions
import Mathlib.Data.List.Sort
import Mathlib.Data.List.Dedup
import Mathlib.Data.List.Perm.Basic

/-!
Row numbers by partition. A query numbers the rows of each key from one, newer
versions first, and leaves open in which order rows of one version are numbered. The
rows that are numbered first are one newest row of each key, whatever the order.
-/
namespace TimescaleLp.Ranking

open Versions

universe u v w

variable {ρ : Type u} {κ : Type v} {ν : Type w} [DecidableEq κ] [LinearOrder ν]
  (key : ρ → κ) (ver : ρ → ν)

/-- `row_number() OVER (PARTITION BY key ORDER BY ver DESC)`: the rows, in any order, with
their numbers. -/
structure Numbering (rows : List ρ) (out : List (ρ × ℕ)) : Prop where
  rows : (out.map Prod.fst).Perm rows
  partitions : ∀ k, ∃ sorted : List ρ, sorted.Pairwise (fun a b => ver b ≤ ver a) ∧
    (out.filter fun e => key e.1 = k).Perm (sorted.zipIdx 1)

def firsts (out : List (ρ × ℕ)) : List ρ := (out.filter fun e => e.2 = 1).map Prod.fst

variable {key ver} {rows : List ρ} {out : List (ρ × ℕ)}

theorem firsts_zipIdx (sorted : List ρ) : firsts (sorted.zipIdx 1) = sorted.head?.toList := by
  cases sorted with
  | nil => rfl
  | cons r rest =>
    have hlater : (rest.zipIdx 2).filter (fun e => decide (e.2 = 1)) = [] := by
      rw [List.filter_eq_nil_iff]
      intro e he
      have hle := (List.mk_mem_zipIdx_iff_le_and_getElem?_sub.mp he).1
      have hne : e.2 ≠ 1 := by omega
      simpa using hne
    rw [firsts, List.zipIdx_cons, List.filter_cons, if_pos (by simp), hlater]
    rfl

/-- Of each key there is the first row of its partition. -/
theorem Numbering.filter_firsts (h : Numbering key ver rows out) (k : κ) :
    ∃ sorted : List ρ, sorted.Pairwise (fun a b => ver b ≤ ver a) ∧
      (rows.filter fun r => key r = k).Perm sorted ∧
      ((firsts out).filter fun r => key r = k).Perm sorted.head?.toList := by
  obtain ⟨sorted, hsorted, hout⟩ := h.partitions k
  have hfilter : ∀ p : ρ × ℕ → Bool, ((out.filter p).map Prod.fst).filter (fun r => key r = k) =
      ((out.filter fun e => key e.1 = k).filter p).map Prod.fst := by
    intro p
    rw [List.filter_map, List.filter_filter, List.filter_filter]
    simp only [Function.comp_apply, Bool.and_comm]
  refine ⟨sorted, hsorted, ?_, ?_⟩
  · have hall := hfilter fun _ => true
    rw [List.filter_true, List.filter_true] at hall
    have hrows := (h.rows.filter fun r => decide (key r = k)).symm
    rw [hall] at hrows
    refine hrows.trans ((hout.map Prod.fst).trans ?_)
    rw [List.zipIdx_map_fst]
  · rw [firsts, hfilter, ← firsts_zipIdx]
    exact (hout.filter _).map _

theorem Numbering.newest (h : Numbering key ver rows out) {r : ρ} (hr : r ∈ firsts out) :
    Newest key ver {s | s ∈ rows} (key r) r := by
  obtain ⟨sorted, hsorted, hrows, hfirsts⟩ := h.filter_firsts (key r)
  have hhead : r ∈ sorted.head?.toList :=
    hfirsts.subset (List.mem_filter.mpr ⟨hr, decide_eq_true rfl⟩)
  obtain ⟨rest, rfl⟩ := List.head?_eq_some_iff.mp (Option.mem_toList.mp hhead)
  have hmem : ∀ s, s ∈ rows ∧ key s = key r ↔ s ∈ r :: rest := by
    intro s
    rw [← hrows.mem_iff, List.mem_filter, decide_eq_true_iff]
  refine ⟨((hmem r).mpr List.mem_cons_self).1, rfl, fun s hs hkey => ?_⟩
  rcases List.mem_cons.mp ((hmem s).mp ⟨hs, hkey⟩) with rfl | hs
  · exact le_rfl
  · exact (List.pairwise_cons.mp hsorted).1 s hs

theorem Numbering.keys_nodup (h : Numbering key ver rows out) : ((firsts out).map key).Nodup := by
  rw [List.nodup_iff_count_le_one]
  intro k
  obtain ⟨sorted, -, -, hfirsts⟩ := h.filter_firsts k
  have hcount : ((firsts out).map key).count k =
      ((firsts out).filter fun r => key r = k).length := by
    rw [List.count_eq_countP, List.countP_map, List.countP_eq_length_filter]
    rfl
  rw [hcount, hfirsts.length_eq, Option.length_toList]
  cases sorted.head? <;> simp

theorem Numbering.exists_first (h : Numbering key ver rows out) {r : ρ} (hr : r ∈ rows) :
    ∃ s ∈ firsts out, key s = key r := by
  obtain ⟨sorted, -, hrows, hfirsts⟩ := h.filter_firsts (key r)
  have hmem : r ∈ sorted := hrows.subset (List.mem_filter.mpr ⟨hr, decide_eq_true rfl⟩)
  cases sorted with
  | nil => contradiction
  | cons s rest =>
    have hs := hfirsts.symm.subset (show s ∈ [s] from List.mem_cons_self)
    obtain ⟨hs, hkey⟩ := List.mem_filter.mp hs
    exact ⟨s, hs, of_decide_eq_true hkey⟩

section Exists

variable (key ver rows)

/-- The rows of a key, newest first. -/
def partition (k : κ) : List ρ :=
  (rows.filter fun r => key r = k).insertionSort fun a b => ver b ≤ ver a

def number : List (ρ × ℕ) :=
  (rows.map key).dedup.flatMap fun k => (partition key ver rows k).zipIdx 1

variable {key ver rows}

theorem partition_perm (k : κ) :
    (partition key ver rows k).Perm (rows.filter fun r => key r = k) :=
  List.perm_insertionSort _ _

theorem sorted_partition (k : κ) :
    (partition key ver rows k).Pairwise fun a b => ver b ≤ ver a := by
  have htotal : Std.Total fun a b : ρ => ver b ≤ ver a := ⟨fun a b => le_total (ver b) (ver a)⟩
  have htrans : IsTrans ρ fun a b => ver b ≤ ver a := ⟨fun a b c hab hbc => hbc.trans hab⟩
  exact List.pairwise_insertionSort _ _

/-- Rows fall apart by their keys. -/
theorem flatMap_filter_perm (key : ρ → κ) {keys : List κ} (hkeys : keys.Nodup) (rows : List ρ) :
    (keys.flatMap fun k => rows.filter fun r => key r = k).Perm
      (rows.filter fun r => key r ∈ keys) := by
  induction keys with
  | nil => simp
  | cons k keys ih =>
    obtain ⟨hk, hrest⟩ := List.nodup_cons.mp hkeys
    have hsplit := List.filter_append_perm (fun r => decide (key r = k))
      (rows.filter fun r => key r ∈ k :: keys)
    rw [List.filter_filter, List.filter_filter] at hsplit
    have hown : (fun r => decide (key r = k) && decide (key r ∈ k :: keys)) =
        fun r => decide (key r = k) := by
      funext r
      by_cases h : key r = k <;> simp [h]
    have hother : (fun r => !decide (key r = k) && decide (key r ∈ k :: keys)) =
        fun r => decide (key r ∈ keys) := by
      funext r
      by_cases h : key r = k
      · simp [h, hk]
      · simp [h]
    rw [hown, hother] at hsplit
    rw [List.flatMap_cons]
    exact ((ih hrest).append_left _).trans hsplit

/-- Of what belongs to several keys, that of one. -/
theorem filter_flatMap_key {β : Type*} {label : β → κ} {f : κ → List β}
    (hf : ∀ a, ∀ e ∈ f a, label e = a) {keys : List κ} (hkeys : keys.Nodup) (k : κ) :
    (keys.flatMap f).filter (fun e => label e = k) = if k ∈ keys then f k else [] := by
  induction keys with
  | nil => rfl
  | cons a keys ih =>
    obtain ⟨ha, hrest⟩ := List.nodup_cons.mp hkeys
    rw [List.flatMap_cons, List.filter_append, ih hrest]
    by_cases hak : a = k
    · subst hak
      have hown : (f a).filter (fun e => label e = a) = f a :=
        List.filter_eq_self.mpr fun e he => decide_eq_true (hf a e he)
      rw [hown, if_neg ha, if_pos List.mem_cons_self, List.append_nil]
    · have hother : (f a).filter (fun e => label e = k) = [] :=
        List.filter_eq_nil_iff.mpr fun e he => by simpa [hf a e he] using hak
      rw [hother, List.nil_append]
      simp [List.mem_cons, show k ≠ a from fun h => hak h.symm]

theorem numbering_number : Numbering key ver rows (number key ver rows) where
  rows := by
    have hall : (rows.filter fun r => key r ∈ (rows.map key).dedup) = rows := by
      rw [List.filter_eq_self]
      intro r hr
      simpa using ⟨r, hr, rfl⟩
    have hperm := flatMap_filter_perm key (List.nodup_dedup (rows.map key)) rows
    rw [hall] at hperm
    rw [number, List.map_flatMap]
    simp only [List.zipIdx_map_fst]
    exact (List.Perm.flatMap_left _ fun k _ => partition_perm k).trans hperm
  partitions k := by
    have hkey : ∀ a e, e ∈ (partition key ver rows a).zipIdx 1 → key e.1 = a := by
      intro a e he
      have hmem : e.1 ∈ partition key ver rows a := by
        rw [← List.zipIdx_map_fst 1 (partition key ver rows a)]
        exact List.mem_map_of_mem he
      exact of_decide_eq_true (List.mem_filter.mp ((partition_perm a).subset hmem)).2
    refine ⟨partition key ver rows k, sorted_partition k, ?_⟩
    rw [number, filter_flatMap_key hkey (List.nodup_dedup _)]
    split
    · exact List.Perm.refl _
    · rename_i hnone
      have hempty : partition key ver rows k = [] := by
        rw [← List.perm_nil]
        refine (partition_perm k).trans ?_
        rw [List.filter_eq_nil_iff.mpr fun r hr => ?_]
        intro h
        exact hnone (List.mem_dedup.mpr (List.mem_map.mpr ⟨r, hr, of_decide_eq_true h⟩))
      rw [hempty]
      rfl

theorem Numbering.congr {out' : List (ρ × ℕ)} (h : Numbering key ver rows out)
    (hperm : out'.Perm out) : Numbering key ver rows out' where
  rows := (hperm.map _).trans h.rows
  partitions k := by
    obtain ⟨sorted, hsorted, hout⟩ := h.partitions k
    exact ⟨sorted, hsorted, (hperm.filter _).trans hout⟩

end Exists

end TimescaleLp.Ranking
