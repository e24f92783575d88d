import Mathlib

/-!
# Sums over ordered maps

The entries of an extensional ordered map, weighed and added up. An insertion or an erasure
changes such a sum by what it changes at its own key, which is the only fact a conservation
argument needs about the map.

* `OrdMap.sumOf f m` — the sum of `f k v` over the entries `(k, v)` of `m`;
* `OrdMap.entry f m k` — the part of that sum that sits at `k`, `0` when `k` is absent;
* `OrdMap.sumOf_insert`, `OrdMap.sumOf_erase` — the two update laws;
* `OrdMap.forall_insert`, `OrdMap.forall_erase` — what every entry keeps through an update;
* `OrdMap.entry_le_sumOf` — over non-negative weights no entry exceeds the sum;
* `OrdMap.countOf p m` — the number of entries that pass a test, with the same update laws;
* `OrdMap.size_le_of_mem_Ioc` — keys in an interval are no more than it is long;
* `OrdMap.getLast?_toList_eq_some_iff` — the last entry of a map;
* `OrdMap.nextKey_eq_minKey?_erase` — an iteration that erases where it stands.
-/

namespace OrdMap

open Std

universe u v w

variable {κ : Type u} {ν : Type v} {M : Type w} [Ord κ] [TransOrd κ]

/-! ### Weighted sums -/

/-- The sum of the weights of all entries. -/
def sumOf [AddCommGroup M] (f : κ → ν → M) (m : ExtTreeMap κ ν) : M :=
  (m.toList.map fun e => f e.1 e.2).sum

/-- The weight of the entry at `k`, `0` when there is none. -/
def entry [AddCommGroup M] (f : κ → ν → M) (m : ExtTreeMap κ ν) (k : κ) : M :=
  m[k]?.elim 0 (f k)

/-- The number of entries that pass the test. -/
def countOf (p : κ → ν → Bool) (m : ExtTreeMap κ ν) : ℕ := m.toList.countP fun e => p e.1 e.2

@[simp]
theorem sumOf_empty [AddCommGroup M] {f : κ → ν → M} :
    sumOf f (∅ : ExtTreeMap κ ν) = 0 := by
  have h : (∅ : ExtTreeMap κ ν).toList = [] := ExtTreeMap.toList_eq_nil_iff.mpr rfl
  simp [sumOf, h]

theorem entry_of_some [AddCommGroup M] {f : κ → ν → M} {m : ExtTreeMap κ ν} {k : κ} {v : ν}
    (h : m[k]? = some v) : entry f m k = f k v := by
  simp [entry, h]

theorem entry_of_none [AddCommGroup M] {f : κ → ν → M} {m : ExtTreeMap κ ν} {k : κ}
    (h : m[k]? = none) : entry f m k = 0 := by
  simp [entry, h]

/-! ### Look-ups -/

theorem mem_iff_exists {m : ExtTreeMap κ ν} {k : κ} : k ∈ m ↔ ∃ v, m[k]? = some v := by
  rw [ExtTreeMap.mem_iff_isSome_getElem?, Option.isSome_iff_exists]

theorem not_mem_iff {m : ExtTreeMap κ ν} {k : κ} : k ∉ m ↔ m[k]? = none := by
  rw [ExtTreeMap.mem_iff_isSome_getElem?, Bool.not_eq_true, Option.isSome_eq_false_iff,
    Option.isNone_iff_eq_none]

/-- The keys of the listed entries are pairwise distinct. -/
theorem pairwise_keys_toList (m : ExtTreeMap κ ν) :
    m.toList.Pairwise fun a b => a.1 ≠ b.1 := by
  refine (ExtTreeMap.distinct_keys_toList (t := m)).imp ?_
  intro a b h heq
  exact h (by rw [heq]; exact compare_self)

theorem nodup_toList (m : ExtTreeMap κ ν) : m.toList.Nodup :=
  (pairwise_keys_toList m).imp fun h heq => h (by rw [heq])

/-- The least key is that of the first entry. -/
theorem minKey?_of_toList_eq_cons {m : ExtTreeMap κ ν} {e : κ × ν} {l : List (κ × ν)}
    (h : m.toList = e :: l) : m.minKey? = some e.1 := by
  rw [ExtTreeMap.minKey?_eq_head?_keys, ← ExtTreeMap.map_fst_toList_eq_keys, h]
  rfl

variable [LawfulEqOrd κ]

theorem mem_toList {m : ExtTreeMap κ ν} {e : κ × ν} : e ∈ m.toList ↔ m[e.1]? = some e.2 :=
  ExtTreeMap.mem_toList_iff_getElem?_eq_some

variable [DecidableEq κ] {m : ExtTreeMap κ ν} {k : κ} {v : ν}

@[simp]
theorem getElem?_insert {a : κ} :
    (m.insert k v)[a]? = if a = k then some v else m[a]? := by
  rw [ExtTreeMap.getElem?_insert]
  by_cases h : a = k
  · rw [if_pos h, if_pos (Std.compare_eq_iff_eq.mpr h.symm)]
  · rw [if_neg h, if_neg fun hc => h (Std.compare_eq_iff_eq.mp hc).symm]

@[simp]
theorem getElem?_erase {a : κ} : (m.erase k)[a]? = if a = k then none else m[a]? := by
  rw [ExtTreeMap.getElem?_erase]
  by_cases h : a = k
  · rw [if_pos h, if_pos (Std.compare_eq_iff_eq.mpr h.symm)]
  · rw [if_neg h, if_neg fun hc => h (Std.compare_eq_iff_eq.mp hc).symm]

/-- What is read at a key after an insertion, with a default for keys that are absent. -/
theorem elim_getElem?_insert {β : Type*} {d : β} {f : ν → β} {a : κ} :
    (m.insert k v)[a]?.elim d f = if k = a then f v else m[a]?.elim d f := by
  rw [getElem?_insert]
  rcases eq_or_ne a k with rfl | hak
  · rw [if_pos rfl, if_pos rfl, Option.elim_some]
  · rw [if_neg hak, if_neg hak.symm]

theorem elim_getElem?_erase {β : Type*} {d : β} {f : ν → β} {a : κ} :
    (m.erase k)[a]?.elim d f = if k = a then d else m[a]?.elim d f := by
  rw [getElem?_erase]
  rcases eq_or_ne a k with rfl | hak
  · rw [if_pos rfl, if_pos rfl, Option.elim_none]
  · rw [if_neg hak, if_neg hak.symm]

/-- What holds of a new entry and of those at other keys holds of every entry afterwards. -/
theorem forall_insert {P : κ → ν → Prop} (hnew : P k v)
    (h : ∀ (a : κ) (x : ν), a ≠ k → m[a]? = some x → P a x) (a : κ) (x : ν)
    (ha : (m.insert k v)[a]? = some x) : P a x := by
  rw [getElem?_insert] at ha
  split_ifs at ha with hak
  · exact hak ▸ Option.some.inj ha ▸ hnew
  · exact h a x hak ha

/-- What holds of the entries at other keys holds of every entry after an erasure. -/
theorem forall_erase {P : κ → ν → Prop}
    (h : ∀ (a : κ) (x : ν), a ≠ k → m[a]? = some x → P a x) (a : κ) (x : ν)
    (ha : (m.erase k)[a]? = some x) : P a x := by
  rw [getElem?_erase] at ha
  split_ifs at ha with hak
  exact h a x hak ha

theorem erase_insert : (m.insert k v).erase k = m.erase k := by
  refine ExtTreeMap.ext_getElem? ?_
  intro a
  by_cases ha : a = k <;> simp [ha]

theorem erase_of_not_mem (h : m[k]? = none) : m.erase k = m := by
  refine ExtTreeMap.ext_getElem? ?_
  intro a
  by_cases ha : a = k
  · subst ha; simp [h]
  · simp [ha]

/-- What is left after the keys of a list have been erased. -/
theorem getElem?_foldl_erase (l : List (κ × ν)) : ∀ {m : ExtTreeMap κ ν} {a : κ},
    (l.foldl (fun t e => t.erase e.1) m)[a]? = if a ∈ l.map Prod.fst then none else m[a]? := by
  induction l with
  | nil =>
    intro m a
    rfl
  | cons e l ih =>
    intro m a
    rw [List.foldl_cons, ih, getElem?_erase]
    by_cases ha : a = e.1
    · rw [if_pos ha, ite_self, if_pos (List.mem_map.mpr ⟨e, List.mem_cons_self, ha.symm⟩)]
    · simp only [List.map_cons, List.mem_cons, ha, if_false, false_or]

omit [DecidableEq κ] in
/-- Weights that agree on the entries have the same sum. -/
theorem sumOf_congr [AddCommGroup M] {f g : κ → ν → M}
    (h : ∀ (k : κ) (v : ν), m[k]? = some v → f k v = g k v) : sumOf f m = sumOf g m := by
  rw [sumOf, sumOf]
  congr 1
  exact List.map_congr_left fun e he => h e.1 e.2 (mem_toList.mp he)

omit [LawfulEqOrd κ] [DecidableEq κ] in
theorem sumOf_add [AddCommGroup M] {f g : κ → ν → M} :
    sumOf (fun k v => f k v + g k v) m = sumOf f m + sumOf g m :=
  List.sum_map_add

/-- Taking one entry out of the list of entries. -/
theorem toList_perm_cons (h : m[k]? = some v) :
    m.toList.Perm ((k, v) :: (m.erase k).toList) := by
  have hk : (k, v) ∉ (m.erase k).toList := by simp [mem_toList]
  refine (List.perm_ext_iff_of_nodup (nodup_toList m)
    (List.nodup_cons.mpr ⟨hk, nodup_toList _⟩)).mpr ?_
  rintro ⟨a, w⟩
  simp only [List.mem_cons, mem_toList, getElem?_erase, Prod.mk.injEq]
  by_cases ha : a = k
  · subst ha
    simp [h, eq_comm]
  · simp [ha]

/-- A map with one entry. -/
theorem toList_insert_empty : ((∅ : ExtTreeMap κ ν).insert k v).toList = [(k, v)] := by
  have hrest : ((∅ : ExtTreeMap κ ν).insert k v).erase k = ∅ := by
    rw [erase_insert, erase_of_not_mem (by simp)]
  have hp := toList_perm_cons (m := (∅ : ExtTreeMap κ ν).insert k v) (k := k) (v := v) (by simp)
  rw [hrest, ExtTreeMap.toList_eq_nil_iff.mpr rfl] at hp
  exact List.perm_singleton.mp hp

/-! ### Update laws -/

/-- An erasure takes the weight of its key out of the sum. -/
theorem sumOf_erase [AddCommGroup M] {f : κ → ν → M} :
    sumOf f (m.erase k) = sumOf f m - entry f m k := by
  cases h : m[k]? with
  | none => rw [erase_of_not_mem h, entry_of_none h, sub_zero]
  | some v =>
    have hp := (toList_perm_cons h).map fun e : κ × ν => f e.1 e.2
    rw [entry_of_some h, sumOf, sumOf, hp.sum_eq, List.map_cons, List.sum_cons,
      add_sub_cancel_left]

/-- An insertion replaces the weight of its key. -/
theorem sumOf_insert [AddCommGroup M] {f : κ → ν → M} :
    sumOf f (m.insert k v) = sumOf f m - entry f m k + f k v := by
  have h : (m.insert k v)[k]? = some v := by simp
  have he := sumOf_erase (f := f) (m := m.insert k v) (k := k)
  rw [erase_insert, sumOf_erase, entry_of_some h] at he
  rw [he, sub_add_cancel]

/-- A weight that vanishes away from one key sums to what it weighs there. -/
theorem sumOf_single [AddCommGroup M] {f : κ → ν → M} (h : ∀ a v, a ≠ k → f a v = 0) :
    sumOf f m = entry f m k := by
  have hrest : sumOf f (m.erase k) = 0 := by
    refine List.sum_eq_zero ?_
    intro x hx
    obtain ⟨e, he, rfl⟩ := List.mem_map.mp hx
    refine h _ _ ?_
    rintro rfl
    simp [mem_toList] at he
  rwa [sumOf_erase, sub_eq_zero] at hrest

/-! ### Non-negative weights -/

section Ordered

variable [AddCommGroup M] [PartialOrder M] [IsOrderedAddMonoid M] {f : κ → ν → M}

omit [DecidableEq κ] in
theorem sumOf_nonneg (h : ∀ k v, m[k]? = some v → 0 ≤ f k v) : 0 ≤ sumOf f m := by
  refine List.sum_nonneg ?_
  intro x hx
  obtain ⟨e, he, rfl⟩ := List.mem_map.mp hx
  exact h _ _ (mem_toList.mp he)

/-- Over non-negative weights no entry exceeds the sum. -/
theorem entry_le_sumOf (h : ∀ k v, m[k]? = some v → 0 ≤ f k v) (k : κ) :
    entry f m k ≤ sumOf f m := by
  have hrest : 0 ≤ sumOf f (m.erase k) := by
    refine sumOf_nonneg fun a v hv => h a v ?_
    by_cases ha : a = k
    · simp [ha] at hv
    · simpa [ha] using hv
  rwa [sumOf_erase, sub_nonneg] at hrest

/-- Over non-negative weights two different entries together do not exceed the sum. -/
theorem entry_add_entry_le_sumOf (h : ∀ k v, m[k]? = some v → 0 ≤ f k v) {a b : κ}
    (hab : a ≠ b) : entry f m a + entry f m b ≤ sumOf f m := by
  have hb : entry f (m.erase a) b = entry f m b := by
    simp only [entry, getElem?_erase, if_neg hab.symm]
  have hle : entry f (m.erase a) b ≤ sumOf f (m.erase a) := by
    refine entry_le_sumOf (fun k v hv => h k v ?_) b
    by_cases hk : k = a
    · simp [hk] at hv
    · simpa [hk] using hv
  rw [hb, sumOf_erase] at hle
  rw [add_comm]
  exact le_sub_iff_add_le.mp hle

end Ordered

/-! ### Counting -/

omit [LawfulEqOrd κ] [DecidableEq κ] in
@[simp]
theorem countOf_empty {p : κ → ν → Bool} : countOf p (∅ : ExtTreeMap κ ν) = 0 := by
  rw [countOf, ExtTreeMap.toList_eq_nil_iff.mpr rfl, List.countP_nil]

/-- An erasure counts its entry off. -/
theorem countOf_erase {p : κ → ν → Bool} (h : m[k]? = some v) :
    countOf p m = countOf p (m.erase k) + if p k v then 1 else 0 := by
  rw [countOf, (toList_perm_cons h).countP_eq, List.countP_cons, countOf]

/-- An insertion at a new key counts its entry. -/
theorem countOf_insert {p : κ → ν → Bool} (h : m[k]? = none) :
    countOf p (m.insert k v) = countOf p m + if p k v then 1 else 0 := by
  have hk : (m.insert k v)[k]? = some v := by simp
  rw [countOf_erase hk, erase_insert, erase_of_not_mem h]

omit [DecidableEq κ] in
theorem countOf_pos_iff {p : κ → ν → Bool} :
    0 < countOf p m ↔ ∃ k v, m[k]? = some v ∧ p k v = true := by
  rw [countOf, List.countP_pos_iff]
  constructor
  · rintro ⟨e, he, hp⟩
    exact ⟨e.1, e.2, mem_toList.mp he, hp⟩
  · rintro ⟨k, v, hk, hp⟩
    exact ⟨(k, v), mem_toList.mpr hk, hp⟩

omit [DecidableEq κ] in
/-- **Keys in an interval** are no more than the interval is long. -/
theorem size_le_of_mem_Ioc {f : κ → ℕ} (hf : Function.Injective f) {a n : ℕ}
    (h : ∀ k ∈ m, a < f k ∧ f k ≤ a + n) : m.size ≤ n := by
  have hdistinct : (m.toList.map fun e => f e.1).Nodup := by
    rw [List.Nodup, List.pairwise_map]
    exact (pairwise_keys_toList m).imp fun hne heq => hne (hf heq)
  have hwithin : (m.toList.map fun e => f e.1).toFinset ⊆ Finset.Ioc a (a + n) := by
    intro x hx
    obtain ⟨e, he, rfl⟩ := List.mem_map.mp (List.mem_toFinset.mp hx)
    exact Finset.mem_Ioc.mpr (h e.1 (mem_iff_exists.mpr ⟨e.2, mem_toList.mp he⟩))
  calc m.size = (m.toList.map fun e => f e.1).length := by
        rw [List.length_map, ExtTreeMap.length_toList]
    _ = (m.toList.map fun e => f e.1).toFinset.card :=
        (List.toFinset_card_of_nodup hdistinct).symm
    _ ≤ (Finset.Ioc a (a + n)).card := Finset.card_le_card hwithin
    _ = n := by rw [Nat.card_Ioc, Nat.add_sub_cancel_left]

omit [LawfulEqOrd κ] [DecidableEq κ] in
theorem size_foldl_erase_le (l : List (κ × ν)) : ∀ {m : ExtTreeMap κ ν},
    (l.foldl (fun t e => t.erase e.1) m).size ≤ m.size := by
  induction l with
  | nil =>
    intro m
    exact Nat.le_refl _
  | cons e l ih =>
    intro m
    exact (ih (m := m.erase e.1)).trans ExtTreeMap.size_erase_le

omit [LawfulEqOrd κ] [DecidableEq κ] in
/-- A list of keys to erase, the first of which is there, leaves one entry less at least. -/
theorem size_foldl_erase_lt {e : κ × ν} {l : List (κ × ν)} (he : e.1 ∈ m) :
    ((e :: l).foldl (fun t e => t.erase e.1) m).size < m.size := by
  have hpos : m.size ≠ 0 := by
    intro hzero
    rw [ExtTreeMap.eq_empty_iff_size_eq_zero.mpr hzero] at he
    exact ExtTreeMap.not_mem_empty he
  have hle := size_foldl_erase_le l (m := m.erase e.1)
  rw [ExtTreeMap.size_erase, ExtTreeMap.contains_iff_mem.mpr he, if_pos rfl] at hle
  rw [List.foldl_cons]
  omega

/-- An entry that is counted alone is the only one. -/
theorem eq_of_countOf_eq_one {p : κ → ν → Bool} (h : countOf p m = 1) {a b : κ} {x y : ν}
    (ha : m[a]? = some x) (hpa : p a x = true) (hb : m[b]? = some y) (hpb : p b y = true) :
    b = a := by
  by_contra hne
  have hrest := countOf_erase (p := p) ha
  rw [h, if_pos hpa] at hrest
  have hpos : 0 < countOf p (m.erase a) :=
    countOf_pos_iff.mpr ⟨b, y, by rw [getElem?_erase, if_neg hne, hb], hpb⟩
  omega

/-! ### Entries in the order of their keys -/

section Order

variable [LE κ] [LT κ] [LawfulOrderOrd κ] [LawfulOrderLT κ]

omit [LawfulEqOrd κ] [DecidableEq κ] in
/-- The entries are listed in strictly increasing order of their keys. -/
theorem pairwise_lt_toList (m : ExtTreeMap κ ν) : m.toList.Pairwise fun a b => a.1 < b.1 :=
  ExtTreeMap.ordered_keys_toList.imp compare_eq_lt.mp

/-- An erasure of the first entry leaves the others in their order. -/
theorem toList_erase_of_toList_eq_cons [IsLinearOrder κ] {e : κ × ν} {l : List (κ × ν)}
    (h : m.toList = e :: l) : (m.erase e.1).toList = l := by
  have hget : m[e.1]? = some e.2 := mem_toList.mp (h ▸ List.mem_cons_self)
  have hperm : l.Perm (m.erase e.1).toList :=
    (h ▸ toList_perm_cons hget : (e :: l).Perm (e :: (m.erase e.1).toList)).cons_inv
  have hsorted : l.Pairwise fun a b => a.1 < b.1 :=
    (List.pairwise_cons.mp (h ▸ pairwise_lt_toList m)).2
  refine (hperm.eq_of_pairwise (fun a b _ _ hab hba => ?_) hsorted (pairwise_lt_toList _)).symm
  exact absurd (Std.lt_trans hab hba) Std.lt_irrefl

/-- The least key above `k`, to which an iteration moves on from there. -/
def nextKey [DecidableLT κ] (m : ExtTreeMap κ ν) (k : κ) : Option κ :=
  (m.toList.find? fun e => k < e.1).map Prod.fst

/-- **An iteration that erases where it stands** and moves on stands at the least key again. -/
theorem nextKey_eq_minKey?_erase [IsLinearOrder κ] [DecidableLT κ] (h : m.minKey? = some k) :
    nextKey m k = (m.erase k).minKey? := by
  cases hl : m.toList with
  | nil =>
    rw [ExtTreeMap.toList_eq_nil_iff.mp hl, ExtTreeMap.minKey?_empty] at h
    exact absurd h (by simp)
  | cons e l =>
    obtain rfl : e.1 = k := Option.some.inj ((minKey?_of_toList_eq_cons hl).symm.trans h)
    have hrest := toList_erase_of_toList_eq_cons hl
    have hself : ¬ e.1 < e.1 := Std.lt_irrefl
    rw [nextKey, hl, List.find?_cons_of_neg (by simpa using hself)]
    cases l with
    | nil => rw [ExtTreeMap.toList_eq_nil_iff.mp hrest, ExtTreeMap.minKey?_empty]; rfl
    | cons b l =>
      have hlt : e.1 < b.1 :=
        (List.pairwise_cons.mp (hl ▸ pairwise_lt_toList m)).1 b List.mem_cons_self
      rw [minKey?_of_toList_eq_cons hrest, List.find?_cons_of_pos (by simpa using hlt)]
      rfl

omit [DecidableEq κ] in
/-- The last entry is the one with the greatest key. -/
theorem getLast?_toList_eq_some_iff [IsLinearOrder κ] {e : κ × ν} :
    m.toList.getLast? = some e ↔ m[e.1]? = some e.2 ∧ ∀ k ∈ m, k ≤ e.1 := by
  have hsorted := pairwise_lt_toList m
  constructor
  · intro hlast
    obtain ⟨l, hl⟩ := List.getLast?_eq_some_iff.mp hlast
    have hmem : e ∈ m.toList := by simp [hl]
    refine ⟨mem_toList.mp hmem, fun k hk => ?_⟩
    obtain ⟨v, hv⟩ := mem_iff_exists.mp hk
    have hkv : (k, v) ∈ l ++ [e] := hl ▸ mem_toList.mpr hv
    rcases List.mem_append.mp hkv with hfront | hend
    · rw [hl, List.pairwise_append] at hsorted
      exact Std.le_of_lt (hsorted.2.2 _ hfront e List.mem_cons_self)
    · rw [← List.mem_singleton.mp hend]
      exact Std.le_refl k
  · rintro ⟨hget, hgreatest⟩
    have hmem : e ∈ m.toList := mem_toList.mpr hget
    obtain ⟨l, r, hlr⟩ := List.append_of_mem hmem
    cases r with
    | nil => rw [hlr, List.getLast?_concat]
    | cons b r =>
      -- an entry behind it would have a greater key
      rw [hlr, List.pairwise_append, List.pairwise_cons] at hsorted
      have hlt := hsorted.2.1.1 b List.mem_cons_self
      have hb : b ∈ m.toList := by simp [hlr]
      have hle := hgreatest b.1 (mem_iff_exists.mpr ⟨b.2, mem_toList.mp hb⟩)
      exact absurd hlt (Std.not_lt.mpr hle)

omit [DecidableEq κ] in
/-- Where no entry stands at or below a bound at the front of the list, none does anywhere. -/
theorem lt_of_takeWhile_eq_nil [IsLinearOrder κ] [DecidableLE κ] {bound : κ}
    (h : m.toList.takeWhile (fun e => e.1 ≤ bound) = []) {k : κ} (hk : k ∈ m) : bound < k := by
  obtain ⟨v, hv⟩ := mem_iff_exists.mp hk
  have hmem : (k, v) ∈ m.toList := mem_toList.mpr hv
  have hsorted := pairwise_lt_toList m
  cases hl : m.toList with
  | nil => simp [hl] at hmem
  | cons e l =>
    rw [hl] at h hmem hsorted
    have he : bound < e.1 := by
      by_contra hle
      rw [Std.not_lt] at hle
      simp [hle] at h
    rcases List.mem_cons.mp hmem with rfl | hrest
    · exact he
    · exact Std.lt_trans he ((List.pairwise_cons.mp hsorted).1 _ hrest)

end Order

end OrdMap
