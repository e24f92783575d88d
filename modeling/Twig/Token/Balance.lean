import Twig.Token.Basic
import Twig.Lib.Exact

/-!
# Balance maps as exact amounts

A balance map read as the function `bal m : Symbol → ℤ` (absent is `0`), and what one `credit`
or `leave` does to it when the 64-bit arithmetic stays in range. The iterations of the three
loops that move tokens (`issueOne`, `retireOne`, `transferOne`) are characterised here, once
each; the ledger's invariant is carried through them in `Token/Ledger.lean`.
-/

namespace Twig.Token

open Std

/-! ### Exact amounts -/

/-- The exact amount of `s` in a balance map. -/
def bal (m : FungiblePairs) (s : Symbol) : ℤ := (m[s]?.getD 0).toInt

/-- Every stored entry is strictly positive. -/
def Positive (m : FungiblePairs) : Prop :=
  ∀ (s : Symbol) (v : Int64), m[s]? = some v → 0 < v.toInt

/-- The exact amount of `s` listed, repetitions included. -/
def amounts (l : List (Symbol × Int64)) (s : Symbol) : ℤ :=
  (l.map fun e => if e.1 = s then e.2.toInt else 0).sum

variable {m : FungiblePairs} {s k : Symbol} {v a left : Int64}

@[simp]
theorem bal_empty : bal (∅ : FungiblePairs) s = 0 := by simp [bal]

theorem bal_of_some (h : m[s]? = some v) : bal m s = v.toInt := by simp [bal, h]

theorem bal_of_none (h : m[s]? = none) : bal m s = 0 := by rw [bal, h]; rfl

theorem exists_of_bal_pos (h : 0 < bal m s) : ∃ v, m[s]? = some v := by
  refine Option.ne_none_iff_exists'.mp fun hnone => ?_
  rw [bal_of_none hnone] at h
  exact lt_irrefl 0 h

@[simp]
theorem bal_insert : bal (m.insert k v) s = if s = k then v.toInt else bal m s := by
  by_cases h : s = k <;> simp [bal, h]

/-- An entry that grows by `d`. -/
theorem bal_insert_add {d : ℤ} (h : v.toInt = bal m k + d) :
    bal (m.insert k v) s = bal m s + if k = s then d else 0 := by
  rw [bal_insert]
  by_cases hs : s = k
  · rw [if_pos hs, if_pos hs.symm, h, hs]
  · rw [if_neg hs, if_neg (Ne.symm hs), add_zero]

/-- An entry that shrinks by `d`. -/
theorem bal_insert_sub {d : ℤ} (h : v.toInt = bal m k - d) :
    bal (m.insert k v) s = bal m s - if k = s then d else 0 := by
  rw [bal_insert_add (d := -d) (by rw [h, sub_eq_add_neg]), sub_eq_add_neg, apply_ite Neg.neg,
    neg_zero]

@[simp]
theorem bal_erase : bal (m.erase k) s = if s = k then 0 else bal m s := by
  by_cases h : s = k <;> simp [bal, h]

@[simp]
theorem amounts_nil : amounts [] s = 0 := rfl

@[simp]
theorem amounts_cons {e : Symbol × Int64} {l : List (Symbol × Int64)} :
    amounts (e :: l) s = (if e.1 = s then e.2.toInt else 0) + amounts l s := by
  simp [amounts]

/-- The amounts listed by a map are the amounts it holds. -/
theorem amounts_toList (m : FungiblePairs) (s : Symbol) : amounts m.toList s = bal m s := by
  have h := OrdMap.sumOf_single (m := m) (k := s)
    (f := fun k v => if k = s then v.toInt else (0 : ℤ)) fun a v ha => if_neg ha
  rw [amounts, bal]
  refine h.trans ?_
  cases hs : m[s]? with
  | none => rw [OrdMap.entry_of_none hs]; rfl
  | some v => rw [OrdMap.entry_of_some hs, if_pos rfl]; rfl

theorem Positive.bal_nonneg (h : Positive m) (s : Symbol) : 0 ≤ bal m s := by
  cases hs : m[s]? with
  | none => rw [bal_of_none hs]
  | some v => rw [bal_of_some hs]; exact (h s v hs).le

/-- A positive entry is there exactly where the exact amount is not zero. -/
theorem Positive.getElem?_eq_none_iff (h : Positive m) : m[s]? = none ↔ bal m s = 0 := by
  refine ⟨bal_of_none, fun hzero => ?_⟩
  cases hs : m[s]? with
  | none => rfl
  | some v =>
    have hv := h s v hs
    rw [bal_of_some hs] at hzero
    omega

/-- Maps of positive entries are determined by their exact amounts. -/
theorem Positive.ext {m' : FungiblePairs} (h : Positive m) (h' : Positive m')
    (heq : ∀ s, bal m s = bal m' s) : m = m' := by
  refine ExtTreeMap.ext_getElem? ?_
  intro s
  have hs := heq s
  cases hv : m[s]? with
  | none =>
    rw [bal_of_none hv] at hs
    exact (h'.getElem?_eq_none_iff.mpr hs.symm).symm
  | some v =>
    rw [bal_of_some hv] at hs
    cases hv' : m'[s]? with
    | none =>
      have hpos := h s v hv
      rw [bal_of_none hv'] at hs
      omega
    | some v' =>
      rw [bal_of_some hv', Int64.toInt_inj] at hs
      rw [hs]

theorem positive_empty : Positive ∅ := by
  intro s v h
  simp at h

theorem eq_of_coreTokens {amount a : Int64} {s : Symbol}
    (h : (coreTokens amount)[s]? = some a) : s = coreSymbol ∧ a = amount := by
  rw [coreTokens, OrdMap.getElem?_insert, ExtTreeMap.getElem?_empty] at h
  by_cases hs : s = coreSymbol
  · rw [if_pos hs, Option.some.injEq] at h
    exact ⟨hs, h.symm⟩
  · rw [if_neg hs] at h
    exact nomatch h

@[simp]
theorem bal_coreTokens {amount : Int64} :
    bal (coreTokens amount) s = if s = coreSymbol then amount.toInt else 0 := by
  rw [coreTokens, bal_insert, bal_empty]

/-! ### One entry -/

/-- A credit in range adds exactly its amount. -/
theorem bal_credit (hl : -2 ^ 63 ≤ bal m k + a.toInt) (hu : bal m k + a.toInt < 2 ^ 63) :
    bal (credit m k a) s = bal m s + if k = s then a.toInt else 0 := by
  unfold credit
  cases hk : m[k]? with
  | none => exact bal_insert_add (by rw [bal_of_none hk, zero_add])
  | some held =>
    rw [bal_of_some hk] at hl hu
    exact bal_insert_add (by rw [bal_of_some hk, Int64.toInt_add_of_mem hl hu])

theorem mem_credit : s ∈ credit m k a ↔ s = k ∨ s ∈ m := by
  have hmem (w : Int64) : s ∈ m.insert k w ↔ s = k ∨ s ∈ m := by
    rw [ExtTreeMap.mem_insert, Std.compare_eq_iff_eq, eq_comm]
  unfold credit
  cases m[k]? <;> exact hmem _

/-- A positive credit in range keeps every entry positive. -/
theorem Positive.credit (h : Positive m) (ha : 0 < a.toInt)
    (hu : bal m k + a.toInt < 2 ^ 63) : Positive (credit m k a) := by
  intro s v hs
  have hnn := h.bal_nonneg
  have hk := hnn k
  have hb : bal (Token.credit m k a) s = _ := bal_credit (by omega) hu
  rw [bal_of_some hs] at hb
  by_cases heq : k = s
  · rw [if_pos heq] at hb
    have := hnn s
    omega
  · rw [if_neg heq, add_zero] at hb
    have hmem : s ∈ m := by
      have := mem_credit.mp (OrdMap.mem_iff_exists.mpr ⟨v, hs⟩)
      exact this.resolve_left (Ne.symm heq)
    obtain ⟨w, hw⟩ := OrdMap.mem_iff_exists.mp hmem
    rw [hb, bal_of_some hw]
    exact h s w hw

@[simp]
theorem bal_leave : bal (leave m k left) s = if s = k then left.toInt else bal m s := by
  unfold leave
  by_cases hz : left = 0
  · subst hz
    by_cases h : s = k <;> simp [h]
  · simp [hz]

theorem getElem?_leave (hs : s ≠ k) : (leave m k left)[s]? = m[s]? := by
  unfold leave
  split_ifs
  · rw [OrdMap.getElem?_erase, if_neg hs, OrdMap.getElem?_insert, if_neg hs]
  · rw [OrdMap.getElem?_insert, if_neg hs]

/-- What is left of an entry that shrinks by `d`. -/
theorem bal_leave_sub {d : ℤ} (h : left.toInt = bal m k - d) :
    bal (leave m k left) s = bal m s - if k = s then d else 0 := by
  rw [bal_leave, ← bal_insert, bal_insert_sub h]

theorem mem_of_mem_leave (h : s ∈ leave m k left) : s = k ∨ s ∈ m := by
  unfold leave at h
  by_cases hz : left = 0
  · simp only [if_pos hz, ExtTreeMap.mem_erase, ExtTreeMap.mem_insert] at h
    rcases h with ⟨-, h | h⟩
    · exact .inl (Std.compare_eq_iff_eq.mp h).symm
    · exact .inr h
  · simp only [if_neg hz, ExtTreeMap.mem_insert] at h
    rcases h with h | h
    · exact .inl (Std.compare_eq_iff_eq.mp h).symm
    · exact .inr h

theorem Positive.leave (h : Positive m) (hl : 0 ≤ left.toInt) : Positive (leave m k left) := by
  intro s v hs
  unfold Token.leave at hs
  by_cases hz : left = 0
  · by_cases heq : s = k
    · simp [hz, heq] at hs
    · exact h s v (by simpa [hz, heq] using hs)
  · by_cases heq : s = k
    · obtain rfl : left = v := by simpa [hz, heq] using hs
      -- an entry of zero would have been erased
      have : left.toInt ≠ 0 := fun h0 => hz (Int64.toInt_inj.mp (by simpa using h0))
      omega
    · exact h s v (by simpa [hz, heq] using hs)

/-- Taking a positive amount from a non-negative one stays in range. -/
theorem toInt_sub_exact (hv : 0 ≤ v.toInt) (ha : 0 < a.toInt) :
    (v - a).toInt = v.toInt - a.toInt := by
  have hv' := v.toInt_bounds
  have ha' := a.toInt_bounds
  exact Int64.toInt_sub_of_mem (by omega) (by omega)

/-! ### One iteration of each loop -/

theorem issueOne_eq_ok_iff {cap supply balance : FungiblePairs}
    {r : FungiblePairs × FungiblePairs} :
    issueOne cap (supply, balance) (k, a) = .ok r ↔
      ∃ v m, supply[k]? = some v ∧ cap[k]? = some m ∧ v + a < m ∧ 0 < a ∧
        (supply.insert k (v + a), credit balance k a) = r := by
  simp only [issueOne, Fallible.bind_eq_ok_iff, check_eq_ok_iff, exists_const,
    deref_eq_ok_iff, Fallible.pure_eq_ok_iff]
  constructor
  · rintro ⟨-, v, hv, m, hm, hcap, hpos, hr⟩
    exact ⟨v, m, hv, hm, hcap, hpos, hr⟩
  · rintro ⟨v, m, hv, hm, hcap, hpos, hr⟩
    exact ⟨OrdMap.mem_iff_exists.mpr ⟨v, hv⟩, v, hv, m, hm, hcap, hpos, hr⟩

theorem retireOne_eq_ok_iff {supply balance : FungiblePairs}
    {r : FungiblePairs × FungiblePairs} :
    retireOne (supply, balance) (k, a) = .ok r ↔
      ∃ v held, supply[k]? = some v ∧ balance[k]? = some held ∧ 0 ≤ v - a ∧ 0 < a ∧
        0 ≤ held - a ∧ (supply.insert k (v - a), leave balance k (held - a)) = r := by
  simp only [retireOne, Fallible.bind_eq_ok_iff, check_eq_ok_iff, exists_const,
    deref_eq_ok_iff, Fallible.pure_eq_ok_iff]
  constructor
  · rintro ⟨-, v, hv, hle, hpos, -, held, hheld, hle', hr⟩
    exact ⟨v, held, hv, hheld, hle, hpos, hle', hr⟩
  · rintro ⟨v, held, hv, hheld, hle, hpos, hle', hr⟩
    exact ⟨OrdMap.mem_iff_exists.mpr ⟨v, hv⟩, v, hv, hle, hpos,
      OrdMap.mem_iff_exists.mpr ⟨held, hheld⟩, held, hheld, hle', hr⟩

theorem transferOne_eq_ok_iff {source target : FungiblePairs} {t : Asset}
    {r : FungiblePairs × FungiblePairs} :
    transferOne (source, target) t = .ok r ↔
      ∃ held, source[t.symbol]? = some held ∧ t.isValid = true ∧ 0 < t.amount ∧
        0 ≤ held - t.amount ∧
        (leave source t.symbol (held - t.amount), credit target t.symbol t.amount) = r := by
  simp only [transferOne, Fallible.bind_eq_ok_iff, check_eq_ok_iff, exists_const,
    deref_eq_ok_iff, Fallible.pure_eq_ok_iff]
  constructor
  · rintro ⟨hvalid, hpos, -, held, hheld, hle, hr⟩
    exact ⟨held, hheld, hvalid, hpos, hle, hr⟩
  · rintro ⟨held, hheld, hvalid, hpos, hle, hr⟩
    exact ⟨hvalid, hpos, OrdMap.mem_iff_exists.mpr ⟨held, hheld⟩, held, hheld, hle, hr⟩

end Twig.Token
