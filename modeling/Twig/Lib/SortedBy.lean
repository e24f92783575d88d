import Mathlib

/-!
# Lists sorted by a key

Lists that are kept in strictly increasing order of a key: how such an order comes about, what
a search in it finds, and what replacing one element does. Sorting keeps the order of elements
with equal keys.

* `pairwise_lt_insertionSort` — sorting a list with distinct keys makes the order strict;
* `findIdx_finds_iff` — the first element that is not below a key has that key exactly when
  some element has;
* `map_set_of_eq` — an element replaced by one with the same image changes no image;
* `pairwise_insertionSort_stable` — sorting is stable;
* `takeWhile_eq_filter` — where a property holds of a front part of a list only.
-/

namespace SortedBy

open Std

universe u v

variable {α : Type u} {κ : Type v} {l : List α} {f : α → κ}

/-- Replacing an element by one with the same image. -/
theorem map_set_of_eq {i : ℕ} {a a' : α} (hget : l[i]? = some a) (hsame : f a' = f a) :
    (l.set i a').map f = l.map f := by
  rw [List.map_set, hsame]
  refine List.ext_getElem? ?_
  intro j
  rw [List.getElem?_set]
  split_ifs with hij hlt
  · rw [← hij, List.getElem?_map, hget]
    rfl
  · rw [List.length_map] at hlt
    rw [List.getElem?_eq_none (by rw [List.length_map]; omega)]
  · rfl

/-- The elements with a property that never comes back once it is lost. -/
theorem takeWhile_eq_filter {p : α → Bool} (h : l.Pairwise fun a b => p b = true → p a = true) :
    l.takeWhile p = l.filter p := by
  induction l with
  | nil => rfl
  | cons a l ih =>
    obtain ⟨hfirst, hrest⟩ := List.pairwise_cons.mp h
    by_cases ha : p a = true
    · rw [List.takeWhile_cons_of_pos ha, List.filter_cons_of_pos ha, ih hrest]
    · rw [List.takeWhile_cons_of_neg ha, List.filter_cons_of_neg ha]
      exact (List.filter_eq_nil_iff.mpr fun b hb hpb => ha (hfirst b hb hpb)).symm

section Stable

variable {r s : α → α → Prop} [DecidableRel r]

/-- An element that comes before all others of a sorted list is inserted before its equals. -/
theorem pairwise_orderedInsert_stable [Std.Total r] [IsTrans α r] {a : α}
    (h : l.Pairwise fun a b => r a b ∧ (r b a → s a b)) (ha : ∀ b ∈ l, s a b) :
    (l.orderedInsert r a).Pairwise fun a b => r a b ∧ (r b a → s a b) := by
  induction l with
  | nil => simp
  | cons b l ih =>
    obtain ⟨hb, hl⟩ := List.pairwise_cons.mp h
    rw [List.orderedInsert_cons]
    split_ifs with hab
    · refine List.pairwise_cons.mpr ⟨fun c hc => ⟨?_, fun _ => ha c hc⟩, h⟩
      rcases List.mem_cons.mp hc with rfl | hc
      · exact hab
      · exact IsTrans.trans _ _ _ hab (hb c hc).1
    · refine List.pairwise_cons.mpr
        ⟨fun c hc => ?_, ih hl fun c hc => ha c (List.mem_cons_of_mem b hc)⟩
      rcases (List.mem_orderedInsert r).mp hc with rfl | hc
      · exact ⟨(Std.Total.total c b).resolve_left hab, fun hcb => absurd hcb hab⟩
      · exact hb c hc

/-- **Sorting is stable**: elements that neither precedes the other stay in the order they had. -/
theorem pairwise_insertionSort_stable [Std.Total r] [IsTrans α r] (h : l.Pairwise s) :
    (l.insertionSort r).Pairwise fun a b => r a b ∧ (r b a → s a b) := by
  induction l with
  | nil => simp
  | cons a l ih =>
    obtain ⟨ha, hl⟩ := List.pairwise_cons.mp h
    rw [List.insertionSort_cons]
    exact pairwise_orderedInsert_stable (ih hl) fun b hb =>
      ha b ((List.mem_insertionSort r).mp hb)

end Stable

variable [LE κ] [LT κ] [LawfulOrderLT κ]

/-- **Sorting a list with distinct keys** makes it strictly sorted. -/
theorem pairwise_lt_insertionSort [IsLinearOrder κ] [DecidableLE κ] (h : (l.map f).Nodup) :
    (l.insertionSort fun a b => f a ≤ f b).Pairwise fun a b => f a < f b := by
  have htotal : Std.Total fun a b : α => f a ≤ f b := ⟨fun a b => Std.le_total⟩
  have htrans : IsTrans α fun a b => f a ≤ f b := ⟨fun a b c => Std.le_trans⟩
  have hsorted := List.pairwise_insertionSort (fun a b => f a ≤ f b) l
  have hperm := List.perm_insertionSort (fun a b => f a ≤ f b) l
  have hne : (l.insertionSort fun a b => f a ≤ f b).Pairwise fun a b => f a ≠ f b :=
    List.pairwise_map.mp ((hperm.map f).nodup_iff.mpr h)
  refine (hsorted.and hne).imp ?_
  rintro a b ⟨hle, hne⟩
  exact Std.lt_of_le_of_ne hle hne

/-- **Binary search in a strictly sorted list.** -/
theorem findIdx_finds_iff [DecidableLT κ] (h : l.Pairwise fun a b => f a < f b) {k : κ} :
    (∃ a, l[l.findIdx fun a => ¬ f a < k]? = some a ∧ f a = k) ↔ ∃ a ∈ l, f a = k := by
  constructor
  · rintro ⟨a, hget, hkey⟩
    exact ⟨a, List.mem_of_getElem? hget, hkey⟩
  · rintro ⟨a, hmem, rfl⟩
    obtain ⟨i, hi, rfl⟩ := List.mem_iff_getElem.mp hmem
    -- what stands in front of the element is below it, the element itself is not
    have hidx : l.findIdx (fun b => ¬ f b < f l[i]) = i := by
      rw [List.findIdx_eq hi]
      refine ⟨by simpa using Std.lt_irrefl, ?_⟩
      intro j hj
      simpa using List.pairwise_iff_getElem.mp h j i (hj.trans hi) hi hj
    exact ⟨l[i], by rw [hidx, List.getElem?_eq_getElem hi], rfl⟩

end SortedBy
