import Mathlib.Data.List.Basic
import Mathlib.Data.List.Chain
import Mathlib.Data.List.Lex
import Mathlib.Order.Lattice

/-!
Pairs of words in one text, with an inner separator in every pair and an outer
one between pairs. No word has the inner separator, so the text gives back
everything but where a second word ends and the next first word begins, if these
words have the outer separator. Strictly increasing first words leave some of
the cuts out; a list of pairs shares its text with another one exactly when one
cut can be moved by itself.
-/
namespace TimescaleLp.Joining

universe u

variable {α : Type u} (outer inner : α)

/-- The text after the first word of a pair; `v` is its second word. -/
def tailText (v : List α) : List (List α × List α) → List α
  | [] => v
  | e :: es => v ++ outer :: e.1 ++ inner :: tailText e.2 es

def joined (es : List (List α × List α)) : List α :=
  List.intercalate [outer] (es.map fun e => e.1 ++ inner :: e.2)

theorem joined_cons (e : List α × List α) (es : List (List α × List α)) :
    joined outer inner (e :: es) = e.1 ++ inner :: tailText outer inner e.2 es := by
  induction es generalizing e with
  | nil => simp [joined, tailText, List.intercalate]
  | cons e' es ih =>
    have hcons : joined outer inner (e :: e' :: es) =
        e.1 ++ inner :: e.2 ++ outer :: joined outer inner (e' :: es) := by
      simp [joined, List.intercalate]
    rw [hcons, ih, tailText]
    simp

/-- The words of a list of pairs behind `v` satisfy a predicate on symbols. -/
def Holds (P : α → Prop) (v : List α) (es : List (List α × List α)) : Prop :=
  (∀ c ∈ v, P c) ∧ ∀ e ∈ es, (∀ c ∈ e.1, P c) ∧ ∀ c ∈ e.2, P c

instance (P : α → Prop) [DecidablePred P] (v : List α) (es : List (List α × List α)) :
    Decidable (Holds P v es) :=
  inferInstanceAs (Decidable ((∀ c ∈ v, P c) ∧ ∀ e ∈ es, (∀ c ∈ e.1, P c) ∧ ∀ c ∈ e.2, P c))

variable {outer inner}

theorem Holds.tail {P : α → Prop} {v : List α} {e : List α × List α} {es : List (List α × List α)}
    (h : Holds P v (e :: es)) : Holds P e.2 es :=
  ⟨(h.2 e List.mem_cons_self).2, fun e' he' => h.2 e' (List.mem_cons_of_mem e he')⟩

/-- The first occurrence of a separator is where it is. -/
theorem append_cons_inj {a : α} {u u' s s' : List α} (hu : a ∉ u) (hu' : a ∉ u') :
    u ++ a :: s = u' ++ a :: s' ↔ u = u' ∧ s = s' := by
  induction u generalizing u' with
  | nil =>
    cases u' with
    | nil => simp
    | cons c u' => simp [List.ne_of_not_mem_cons hu']
  | cons c u ih =>
    cases u' with
    | nil => simp [(List.ne_of_not_mem_cons hu).symm]
    | cons c' u' =>
      have hrest := ih (fun h => hu (List.mem_cons_of_mem c h))
        (fun h => hu' (List.mem_cons_of_mem c' h))
      simp [hrest, and_assoc]

section Inversion
variable {v v' : List α} {e e' : List α × List α} {es es' : List (List α × List α)}

theorem tailText_nil_ne_cons (hv : Holds (· ≠ inner) v []) :
    tailText outer inner v [] ≠ tailText outer inner v' (e' :: es') := by
  intro h
  have hmem : inner ∈ v := by
    rw [show v = _ from h, tailText]
    simp
  exact hv.1 inner hmem rfl

/-- Texts of pairs agree when the words around the first outer separator do
together and the rest does. -/
theorem tailText_cons_inj (hne : outer ≠ inner) (hv : Holds (· ≠ inner) v (e :: es))
    (hv' : Holds (· ≠ inner) v' (e' :: es')) :
    tailText outer inner v (e :: es) = tailText outer inner v' (e' :: es') ↔
      v ++ outer :: e.1 = v' ++ outer :: e'.1 ∧
        tailText outer inner e.2 es = tailText outer inner e'.2 es' := by
  have hnot : ∀ {u : List α} {f : List α × List α} {fs : List (List α × List α)},
      Holds (· ≠ inner) u (f :: fs) → inner ∉ u ++ outer :: f.1 := by
    intro u f fs h hmem
    rcases List.mem_append.mp hmem with hmem | hmem
    · exact h.1 inner hmem rfl
    · rcases List.mem_cons.mp hmem with hmem | hmem
      · exact hne hmem.symm
      · exact (h.2 f List.mem_cons_self).1 inner hmem rfl
  exact append_cons_inj (hnot hv) (hnot hv')

end Inversion

variable [LinearOrder α]

/-- The first words increase, from `lo` on. -/
def Increasing (lo : List α) (es : List (List α × List α)) : Prop :=
  (lo :: es.map Prod.fst).IsChain (· < ·)

theorem increasing_cons {lo : List α} {e : List α × List α} {es : List (List α × List α)} :
    Increasing lo (e :: es) ↔ lo < e.1 ∧ Increasing e.1 es :=
  List.isChain_cons_cons

variable (outer) in
/-- Some second word with the next first word can be cut at another outer
separator, with a first word still between its neighbours. -/
def Movable (lo v : List α) : List (List α × List α) → Prop
  | [] => False
  | e :: es =>
    (∃ v' k, v ++ outer :: e.1 = v' ++ outer :: k ∧ k ≠ e.1 ∧ lo < k ∧ ∀ f ∈ es.head?, k < f.1) ∨
      Movable e.1 e.2 es

section Unique
variable {lo v v' : List α} {es es' : List (List α × List α)}

/-- If the other list's first word is ahead, then the last first word up to which
it stays ahead can be moved alone. -/
theorem movable_of_ahead (hne : outer ≠ inner) {e e' : List α × List α}
    (hv : Holds (· ≠ inner) v (e :: es)) (hv' : Holds (· ≠ inner) v' (e' :: es'))
    (htext : tailText outer inner v (e :: es) = tailText outer inner v' (e' :: es'))
    (hup : Increasing lo (e :: es)) (hup' : Increasing e'.1 es') (hahead : e.1 < e'.1) :
    Movable outer lo v (e :: es) := by
  induction es generalizing lo v v' e e' es' with
  | nil =>
    have hcut := ((tailText_cons_inj hne hv hv').mp htext).1
    exact Or.inl ⟨v', e'.1, hcut, hahead.ne', (increasing_cons.mp hup).1.trans hahead,
      fun f hf => nomatch hf⟩
  | cons f es ih =>
    obtain ⟨hcut, hrest⟩ := (tailText_cons_inj hne hv hv').mp htext
    obtain ⟨hlo, hup⟩ := increasing_cons.mp hup
    by_cases hbelow : e'.1 < f.1
    · refine Or.inl ⟨v', e'.1, hcut, hahead.ne', hlo.trans hahead, ?_⟩
      intro g hg
      rw [← Option.some.inj hg]
      exact hbelow
    · cases es' with
      | nil => exact absurd hrest.symm (tailText_nil_ne_cons hv'.tail)
      | cons f' es' =>
        obtain ⟨hlo', hup'⟩ := increasing_cons.mp hup'
        exact Or.inr (ih hv.tail hv'.tail hrest hup hup' ((not_lt.mp hbelow).trans_lt hlo'))

/-- Where no cut can be moved the text gives the pairs back. -/
theorem eq_of_tailText_eq (hne : outer ≠ inner) (hv : Holds (· ≠ inner) v es)
    (hv' : Holds (· ≠ inner) v' es') (htext : tailText outer inner v es = tailText outer inner v' es')
    (hup : Increasing lo es) (hup' : Increasing lo es') (hfixed : ¬Movable outer lo v es) :
    v = v' ∧ es = es' := by
  induction es generalizing lo v v' es' with
  | nil =>
    cases es' with
    | nil => exact ⟨htext, rfl⟩
    | cons e' es' => exact absurd htext (tailText_nil_ne_cons hv)
  | cons e es ih =>
    cases es' with
    | nil => exact absurd htext.symm (tailText_nil_ne_cons hv')
    | cons e' es' =>
      obtain ⟨hcut, hrest⟩ := (tailText_cons_inj hne hv hv').mp htext
      have hlo' := (increasing_cons.mp hup').1
      rcases lt_trichotomy e.1 e'.1 with hlt | heq | hgt
      · exact absurd (movable_of_ahead hne hv hv' htext hup (increasing_cons.mp hup').2 hlt) hfixed
      · have hsecond : v = v' := by
          rw [heq] at hcut
          exact List.append_cancel_right hcut
        have hup'' : Increasing e.1 es' := heq ▸ (increasing_cons.mp hup').2
        obtain ⟨htail, hes⟩ := ih hv.tail hv'.tail hrest (increasing_cons.mp hup).2 hup''
          fun h => hfixed (Or.inr h)
        exact ⟨hsecond, by rw [hes, Prod.ext heq htail]⟩
      · refine absurd (Or.inl ⟨v', e'.1, hcut, hgt.ne, hlo', ?_⟩) hfixed
        intro f hf
        obtain ⟨fs, rfl⟩ := List.head?_eq_some_iff.mp hf
        exact hgt.trans (increasing_cons.mp (increasing_cons.mp hup).2).1

variable (inner) in
/-- A cut that can be moved gives other pairs with the same text. -/
theorem exists_of_movable {P : α → Prop} (houter : P outer) (hv : Holds P v es)
    (hup : Increasing lo es) (hmove : Movable outer lo v es) :
    ∃ v' es', ¬(v = v' ∧ es = es') ∧ tailText outer inner v es = tailText outer inner v' es' ∧
      Holds P v' es' ∧ Increasing lo es' := by
  induction es generalizing lo v with
  | nil => exact hmove.elim
  | cons e es ih =>
    obtain ⟨hlo, hrest⟩ := increasing_cons.mp hup
    rcases hmove with ⟨v', k, hcut, hk, hbelow, hnext⟩ | hmove
    · have hsymbols : ∀ c ∈ v' ++ outer :: k, P c := by
        intro c hc
        rw [← hcut] at hc
        rcases List.mem_append.mp hc with hc | hc
        · exact hv.1 c hc
        · rcases List.mem_cons.mp hc with rfl | hc
          · exact houter
          · exact (hv.2 e List.mem_cons_self).1 c hc
      refine ⟨v', (k, e.2) :: es, ?_, ?_, ⟨?_, ?_⟩, ?_⟩
      · intro h
        exact hk (congrArg Prod.fst (List.cons.inj h.2).1).symm
      · rw [tailText, tailText, hcut]
      · intro c hc
        exact hsymbols c (List.mem_append_left _ hc)
      · intro f hf
        rcases List.mem_cons.mp hf with rfl | hf
        · refine ⟨?_, hv.tail.1⟩
          intro c hc
          exact hsymbols c (List.mem_append_right _ (List.mem_cons_of_mem _ hc))
        · exact hv.tail.2 f hf
      · refine increasing_cons.mpr ⟨hbelow, ?_⟩
        cases es with
        | nil => exact List.isChain_singleton k
        | cons f es => exact increasing_cons.mpr ⟨hnext f rfl, (increasing_cons.mp hrest).2⟩
    · obtain ⟨v', es', hdiff, htext, hholds, hup'⟩ := ih hv.tail hrest hmove
      refine ⟨v, (e.1, v') :: es', ?_, ?_, ⟨hv.1, ?_⟩, increasing_cons.mpr ⟨hlo, hup'⟩⟩
      · intro h
        obtain ⟨he, hes⟩ := List.cons.inj h.2
        exact hdiff ⟨congrArg Prod.snd he, hes⟩
      · rw [tailText, tailText, htext]
      · intro f hf
        rcases List.mem_cons.mp hf with rfl | hf
        · exact ⟨(hv.2 e List.mem_cons_self).1, hholds.1⟩
        · exact hholds.2 f hf

/-- Words without outer separators have no other cuts. -/
theorem not_movable (hv : Holds (· ≠ outer) v es) : ¬Movable outer lo v es := by
  induction es generalizing lo v with
  | nil => exact id
  | cons e es ih =>
    intro h
    rcases h with ⟨v', k, hcut, hk, _⟩ | h
    · have hfirst : outer ∉ v := fun h => hv.1 outer h rfl
      have hkey : outer ∉ e.1 := fun h => (hv.2 e List.mem_cons_self).1 outer h rfl
      have hcount := congrArg (List.count outer) hcut
      rw [List.count_append, List.count_cons_self, List.count_eq_zero.mpr hfirst,
        List.count_eq_zero.mpr hkey, List.count_append, List.count_cons_self] at hcount
      have hfirst' : outer ∉ v' := List.count_eq_zero.mp (by omega)
      exact hk ((append_cons_inj hfirst hfirst').mp hcut).2.symm
    · exact ih hv.tail h

end Unique

end TimescaleLp.Joining
