import Twig.Lib.Fallible
import Twig.Lib.OrdMap

/-!
# Updating every entry of an ordered map

A loop that goes through the entries of a map in order, replaces each value and collects what
the replacements emit. When it returns, each entry has been replaced on its own, and the
emissions are those of the entries in order (`OrdMap.updateAll_spec`); it does return when each
entry can be replaced (`OrdMap.exists_updateAll`). Weights of the replaced values and of the
emissions add up entry by entry (`OrdMap.sumOf_of_map`, `OrdMap.sum_flatMap_emitted`). Emissions
that concern one key only can be counted at that key (`OrdMap.sum_emitted`).

The way back from the entries to the map is `OrdMap.ofPairs`.
-/

namespace OrdMap

open Std Fallible

variable {κ ν ε α : Type}

/-- Replaces every value, in key order, and collects what that emits. -/
def updateAll [Ord κ] [TransOrd κ] (f : κ → ν → Except ε (ν × List α)) (m : ExtTreeMap κ ν) :
    Except ε (ExtTreeMap κ ν × List α) :=
  m.toList.foldlM (fun acc e => do
    let (v, out) ← f e.1 e.2
    pure (acc.1.insert e.1 v, acc.2 ++ out)) (m, [])

/-- The replacement of one value and what it emits; a value that cannot be replaced stays. -/
def replaced (f : κ → ν → Except ε (ν × List α)) (k : κ) (v : ν) : ν × List α :=
  match f k v with
  | .ok r => r
  | .error _ => (v, [])

theorem replaced_of_ok {f : κ → ν → Except ε (ν × List α)} {k : κ} {v : ν} {r : ν × List α}
    (h : f k v = .ok r) : replaced f k v = r := by
  rw [replaced, h]

variable [Ord κ] [TransOrd κ] {f : κ → ν → Except ε (ν × List α)} {m m' : ExtTreeMap κ ν}
  {out : List α}

/-- The loop invariant, with the entries `l` still to come: those before them are replaced. -/
private def ReplacedUpTo [DecidableEq κ] (f : κ → ν → Except ε (ν × List α))
    (m : ExtTreeMap κ ν) (l : List (κ × ν)) (acc : ExtTreeMap κ ν × List α) : Prop :=
  ∃ d, m.toList = d ++ l ∧ (∀ e ∈ d, f e.1 e.2 = .ok (replaced f e.1 e.2)) ∧
    (∀ k : κ, acc.1[k]? =
      if k ∈ d.map Prod.fst then m[k]?.map fun v => (replaced f k v).1 else m[k]?) ∧
    acc.2 = d.flatMap fun e => (replaced f e.1 e.2).2

variable [LawfulEqOrd κ] [DecidableEq κ]

/-- **Every entry is replaced on its own.** -/
theorem updateAll_spec (h : updateAll f m = .ok (m', out)) :
    (∀ (k : κ) (v : ν), m[k]? = some v → f k v = .ok (replaced f k v)) ∧
      (∀ k : κ, m'[k]? = m[k]?.map fun v => (replaced f k v).1) ∧
      out = m.toList.flatMap fun e => (replaced f e.1 e.2).2 := by
  have hinit : ReplacedUpTo f m m.toList (m, []) := ⟨[], rfl, by simp, by simp, rfl⟩
  have hend := foldlM_invariant (ReplacedUpTo f m) (fun e l acc acc' hI hs => ?_) hinit h
  · obtain ⟨d, hd, hok, hrows, hout⟩ := hend
    rw [List.append_nil] at hd
    have hmem (k : κ) (v : ν) (hv : m[k]? = some v) : (k, v) ∈ d := hd ▸ mem_toList.mpr hv
    refine ⟨fun k v hv => hok (k, v) (hmem k v hv), ?_, hd ▸ hout⟩
    intro k
    rw [hrows]
    split_ifs with hk
    · rfl
    · cases hm : m[k]? with
      | none => rfl
      | some v => exact absurd (List.mem_map_of_mem (hmem k v hm)) hk
  · obtain ⟨d, hd, hok, hrows, hout⟩ := hI
    simp only [bind_eq_ok_iff, pure_eq_ok_iff] at hs
    obtain ⟨r, hr, rfl⟩ := hs
    have hr' := replaced_of_ok hr
    have hmem : m[e.1]? = some e.2 := mem_toList.mp (hd ▸ by simp)
    refine ⟨d ++ [e], by rw [hd, List.append_assoc]; rfl, ?_, ?_, ?_⟩
    · intro c hc
      rcases List.mem_append.mp hc with hc | hc
      · exact hok c hc
      · rw [List.mem_singleton.mp hc, hr', hr]
    · intro k
      rw [getElem?_insert, hrows, List.map_append, List.map_singleton]
      -- only the entry of this iteration moves from the old rows to the replaced ones
      rcases eq_or_ne k e.1 with rfl | hk
      · rw [if_pos rfl, if_pos (by simp), hmem, Option.map_some, hr']
      · rw [if_neg hk]
        simp only [List.mem_append, List.mem_singleton, hk, or_false]
    · rw [List.flatMap_append, hout, List.flatMap_singleton, hr']

omit [DecidableEq κ] in
/-- **The loop returns** when every entry can be replaced. -/
theorem exists_updateAll (h : ∀ (k : κ) (v : ν), m[k]? = some v → ∃ r, f k v = .ok r) :
    ∃ r, updateAll f m = .ok r := by
  have hstep (e : κ × ν) (he : e ∈ m.toList) (acc : ExtTreeMap κ ν × List α) (_ : True) :
      ∃ acc', (do
        let (v, out) ← f e.1 e.2
        pure (acc.1.insert e.1 v, acc.2 ++ out)) = Except.ok acc' ∧ True := by
    obtain ⟨r, hr⟩ := h e.1 e.2 (mem_toList.mp he)
    exact ⟨_, by rw [hr]; rfl, trivial⟩
  obtain ⟨r, hr, -⟩ := exists_foldlM (I := fun _ => True) hstep (b := (m, [])) trivial
  exact ⟨r, hr⟩

/-- Erasing every entry leaves none. -/
theorem foldl_erase_toList : m.toList.foldl (fun t e => t.erase e.1) m = ∅ := by
  refine ExtTreeMap.ext_getElem? fun k => ?_
  rw [getElem?_foldl_erase, ExtTreeMap.getElem?_empty]
  split_ifs with hk
  · rfl
  · cases hm : m[k]? with
    | none => rfl
    | some v =>
      have hmem : (k, v) ∈ m.toList := mem_toList.mpr hm
      exact absurd (List.mem_map_of_mem hmem) hk

omit [DecidableEq κ] in
/-- The weights of a map whose values have been replaced. -/
theorem sumOf_of_map {M : Type} [AddCommGroup M] {w : κ → ν → M} {g : κ → ν → ν}
    (h : ∀ k : κ, m'[k]? = m[k]?.map (g k)) : sumOf w m' = sumOf (fun k v => w k (g k v)) m := by
  have hnodup : (m.toList.map fun e => (e.1, g e.1 e.2)).Nodup := by
    refine List.pairwise_map.mpr ((pairwise_keys_toList m).imp fun hne heq => ?_)
    exact hne (Prod.mk.inj heq).1
  have hperm : m'.toList.Perm (m.toList.map fun e => (e.1, g e.1 e.2)) := by
    refine (List.perm_ext_iff_of_nodup (nodup_toList m') hnodup).mpr ?_
    rintro ⟨k, v⟩
    rw [mem_toList, h, Option.map_eq_some_iff, List.mem_map]
    constructor
    · rintro ⟨u, hu, heq⟩
      exact ⟨(k, u), mem_toList.mpr hu, congrArg (Prod.mk k) heq⟩
    · rintro ⟨e, he, heq⟩
      obtain ⟨rfl, rfl⟩ := Prod.mk.inj heq
      exact ⟨e.2, mem_toList.mp he, rfl⟩
  rw [sumOf, (hperm.map fun e => w e.1 e.2).sum_eq, List.map_map, sumOf]
  rfl

omit [LawfulEqOrd κ] [DecidableEq κ] in
/-- What is emitted, counted entry by entry. -/
theorem sum_flatMap_emitted {M : Type} [AddCommGroup M] {g : α → M} :
    ((m.toList.flatMap fun e => (replaced f e.1 e.2).2).map g).sum =
      sumOf (fun a v => ((replaced f a v).2.map g).sum) m := by
  rw [sumOf, List.flatMap_def, List.map_flatten, List.sum_flatten, List.map_map, List.map_map]
  rfl

/-- Counts of what concerns one key only. -/
theorem sum_emitted {M : Type} [AddCommGroup M] {g : α → M} {k : κ}
    (hother : ∀ a v, a ≠ k → ((replaced f a v).2.map g).sum = 0) :
    ((m.toList.flatMap fun e => (replaced f e.1 e.2).2).map g).sum =
      entry (fun a v => ((replaced f a v).2.map g).sum) m k := by
  rw [sum_flatMap_emitted, sumOf_single hother]

/-! ### Entries -/

/-- The map of a list of entries: of those with the same key, the first one. -/
def ofPairs (l : List (κ × ν)) : ExtTreeMap κ ν :=
  l.foldl (fun m e => m.insertIfNew e.1 e.2) ∅

theorem getElem?_foldl_insertIfNew {l : List (κ × ν)} (m : ExtTreeMap κ ν) (k : κ) :
    (l.foldl (fun m e => m.insertIfNew e.1 e.2) m)[k]? =
      m[k]?.or ((l.find? fun e => e.1 = k).map Prod.snd) := by
  induction l generalizing m with
  | nil => rw [List.foldl_nil, List.find?_nil, Option.map_none, Option.or_none]
  | cons e l ih =>
    rw [List.foldl_cons, ih, ExtTreeMap.getElem?_insertIfNew]
    simp only [Std.compare_eq_iff_eq, not_mem_iff]
    by_cases hk : e.1 = k
    · subst hk
      rw [List.find?_cons_of_pos (by simp)]
      cases hm : m[e.1]? with
      | none => simp
      | some v => simp
    · rw [if_neg fun h => hk h.1, List.find?_cons_of_neg (by simpa using hk)]

/-- **A map is that of its entries.** -/
theorem ofPairs_toList (m : ExtTreeMap κ ν) : ofPairs m.toList = m := by
  refine ExtTreeMap.ext_getElem? fun k => ?_
  rw [ofPairs, getElem?_foldl_insertIfNew, ExtTreeMap.getElem?_empty, Option.none_or]
  cases hm : m[k]? with
  | none =>
    rw [List.find?_eq_none.mpr fun e he heq => ?_, Option.map_none]
    rw [← of_decide_eq_true heq, mem_toList.mp he] at hm
    exact absurd hm (by simp)
  | some v =>
    cases hfind : m.toList.find? fun e => e.1 = k with
    | none =>
      have hnone := List.find?_eq_none.mp hfind (k, v) (mem_toList.mpr hm)
      exact absurd rfl (of_decide_eq_false (Bool.not_eq_true _ ▸ hnone))
    | some e =>
      have hkey := List.find?_some hfind
      obtain rfl : e.1 = k := by simpa using hkey
      rw [mem_toList.mp (List.mem_of_find?_eq_some hfind)] at hm
      exact hm

end OrdMap
