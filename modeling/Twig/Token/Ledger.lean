import Twig.Token.Balance

/-!
# The ledger and its invariant

The exact reading of the token contract's tables (`supplyOf`, `balanceOf`, `total`) and the
invariant `Inv o` that its seven ledger actions preserve:

* supplies and caps have the same symbols, and each supply is non-negative and below its cap,
  which is a legal asset amount (`Supplies.WF`);
* every row holds strictly positive entries of valid symbols only (`Holdings`);
* for every symbol the balances add up to the supply plus the *orphans* `o`, an amount that no
  ledger action changes.

A contract that only ever saw ledger actions has no orphans; dropping the supply records while
tokens are out makes some. No orphan may exceed one unit for the arithmetic to stay exact:
every supply is strictly below its cap, which leaves room for exactly one.
-/

namespace Twig.Token

open Std Fallible

/-! ### Exact books -/

/-- The supplies record, empty when there is none. -/
def State.sup (σ : State) : Supplies := σ.supplies.getD {}

/-- The recorded supply of a symbol. -/
def supplyOf (σ : State) (s : Symbol) : ℤ := bal σ.sup.supply s

/-- What an account holds of a symbol. -/
def balanceOf (σ : State) (a : Name) (s : Symbol) : ℤ := bal (σ.accounts[a]?.getD ∅) s

/-- What all rows of an accounts table hold of a symbol. -/
def totalIn (accounts : Table Name FungiblePairs) (s : Symbol) : ℤ :=
  OrdMap.sumOf (fun _ row => bal row s) accounts

/-- What all accounts hold of a symbol. -/
def total (σ : State) (s : Symbol) : ℤ := totalIn σ.accounts s

/-! ### The invariant -/

/-- A well-formed supplies record. -/
structure Supplies.WF (sup : Supplies) : Prop where
  keys : ∀ s, s ∈ sup.supply ↔ s ∈ sup.maxSupply
  capped : ∀ (s : Symbol) (v m : Int64), sup.supply[s]? = some v → sup.maxSupply[s]? = some m →
    0 ≤ v.toInt ∧ v.toInt < m.toInt
  legal : ∀ (s : Symbol) (m : Int64), sup.maxSupply[s]? = some m →
    m.toInt ≤ 2 ^ 62 - 1 ∧ s.isValid = true

/-- What a row of the accounts table may hold. -/
structure Holdings (row : FungiblePairs) : Prop where
  positive : Positive row
  valid : ∀ s ∈ row, s.isValid = true

/-- **The ledger invariant**, with `o s` orphaned units of `s`. -/
structure Inv (o : Symbol → ℤ) (σ : State) : Prop where
  supplies : σ.sup.WF
  holdings : ∀ (a : Name) (row : FungiblePairs), σ.accounts[a]? = some row → Holdings row
  conserved : ∀ s, total σ s = supplyOf σ s + o s

/-- At most one orphaned unit of each symbol. -/
def AtMostOne (o : Symbol → ℤ) : Prop := ∀ s, 0 ≤ o s ∧ o s ≤ 1

theorem State.sup_of_some {σ : State} {sup : Supplies} (h : σ.supplies = some sup) :
    σ.sup = sup := by
  rw [State.sup, h, Option.getD_some]

theorem holdings_empty : Holdings ∅ :=
  ⟨positive_empty, fun _ h => absurd h ExtTreeMap.not_mem_empty⟩

/-- A credit of a valid symbol keeps a row. -/
theorem Holdings.credit {row : FungiblePairs} {k : Symbol} {a : Int64} (h : Holdings row)
    (hk : k.isValid = true) (ha : 0 < a.toInt) (hu : bal row k + a.toInt < 2 ^ 63) :
    Holdings (credit row k a) where
  positive := h.positive.credit ha hu
  valid := by
    intro s hs
    rcases mem_credit.mp hs with rfl | hs
    · exact hk
    · exact h.valid s hs

/-- So does taking from an entry what it covers. -/
theorem Holdings.leave {row : FungiblePairs} {k : Symbol} {left : Int64} (h : Holdings row)
    (hk : k ∈ row) (hl : 0 ≤ left.toInt) : Holdings (leave row k left) where
  positive := h.positive.leave hl
  valid := by
    intro s hs
    rcases mem_of_mem_leave hs with rfl | hs
    · exact h.valid s hk
    · exact h.valid s hs

theorem Supplies.wf_empty : ({} : Supplies).WF where
  keys _ := Iff.rfl
  capped _ _ _ h := by simp at h
  legal _ _ h := by simp at h

/-- A registered symbol has a supply and a cap. -/
theorem Supplies.WF.exists_of_mem {sup : Supplies} (h : sup.WF) {s : Symbol}
    (hs : s ∈ sup.supply) :
    ∃ v m, sup.supply[s]? = some v ∧ sup.maxSupply[s]? = some m ∧
      0 ≤ v.toInt ∧ v.toInt < m.toInt ∧ m.toInt ≤ 2 ^ 62 - 1 := by
  obtain ⟨v, hv⟩ := OrdMap.mem_iff_exists.mp hs
  obtain ⟨m, hm⟩ := OrdMap.mem_iff_exists.mp ((h.keys s).mp hs)
  have hc := h.capped s v m hv hm
  exact ⟨v, m, hv, hm, hc.1, hc.2, (h.legal s m hm).1⟩

/-- The supply of a registered symbol may be rewritten, to anything below its cap. -/
theorem Supplies.WF.insert_supply {supply cap : FungiblePairs} {k : Symbol} {m w : Int64}
    (h : Supplies.WF ⟨supply, cap⟩) (hm : cap[k]? = some m) (h0 : 0 ≤ w.toInt)
    (hw : w.toInt < m.toInt) : Supplies.WF ⟨supply.insert k w, cap⟩ where
  keys := by
    intro s
    rw [← h.keys s, ExtTreeMap.mem_insert, Std.compare_eq_iff_eq]
    refine or_iff_right_of_imp ?_
    rintro rfl
    exact (h.keys k).mpr (OrdMap.mem_iff_exists.mpr ⟨m, hm⟩)
  capped := by
    intro s v n hv hn
    by_cases hs : s = k
    · subst hs
      obtain rfl : w = v := by simpa using hv
      obtain rfl : m = n := Option.some.inj (hm.symm.trans hn)
      exact ⟨h0, hw⟩
    · rw [OrdMap.getElem?_insert, if_neg hs] at hv
      exact h.capped s v n hv hn
  legal := h.legal

theorem Supplies.WF.bal_bounds {sup : Supplies} (h : sup.WF) (s : Symbol) :
    0 ≤ bal sup.supply s ∧ bal sup.supply s ≤ 2 ^ 62 - 2 := by
  by_cases hs : s ∈ sup.supply
  · obtain ⟨v, m, hv, -, h0, hlt, hm⟩ := h.exists_of_mem hs
    rw [bal_of_some hv]
    omega
  · rw [bal_of_none (OrdMap.not_mem_iff.mp hs)]
    omega

/-! ### Totals -/

theorem entry_row {accounts : Table Name FungiblePairs} {a : Name} {s : Symbol} :
    OrdMap.entry (fun _ row => bal row s) accounts a = bal (accounts[a]?.getD ∅) s := by
  cases h : accounts[a]? with
  | none => rw [OrdMap.entry_of_none h]; simp
  | some row => rw [OrdMap.entry_of_some h]; simp

theorem totalIn_insert {accounts : Table Name FungiblePairs} {a : Name} {row : FungiblePairs}
    {s : Symbol} :
    totalIn (accounts.insert a row) s =
      totalIn accounts s - bal (accounts[a]?.getD ∅) s + bal row s := by
  rw [totalIn, OrdMap.sumOf_insert, entry_row]
  rfl

theorem totalIn_erase {accounts : Table Name FungiblePairs} {a : Name} {s : Symbol} :
    totalIn (accounts.erase a) s = totalIn accounts s - bal (accounts[a]?.getD ∅) s := by
  rw [totalIn, OrdMap.sumOf_erase, entry_row]
  rfl

section Bounds

variable {o : Symbol → ℤ} {σ : State}

theorem Inv.holdings_getD (h : Inv o σ) (a : Name) : Holdings (σ.accounts[a]?.getD ∅) := by
  cases ha : σ.accounts[a]? with
  | none => exact holdings_empty
  | some row => exact h.holdings a row ha

theorem Inv.weights_nonneg (h : Inv o σ) (s : Symbol) (a : Name) (row : FungiblePairs)
    (ha : σ.accounts[a]? = some row) : 0 ≤ bal row s :=
  (h.holdings a row ha).positive.bal_nonneg s

theorem Inv.balanceOf_nonneg (h : Inv o σ) (a : Name) (s : Symbol) : 0 ≤ balanceOf σ a s :=
  (h.holdings_getD a).positive.bal_nonneg s

theorem Inv.balanceOf_le_total (h : Inv o σ) (a : Name) (s : Symbol) :
    balanceOf σ a s ≤ total σ s := by
  rw [balanceOf, ← entry_row]
  exact OrdMap.entry_le_sumOf (h.weights_nonneg s) a

/-- Two different accounts together hold at most the total. -/
theorem Inv.add_le_total (h : Inv o σ) {a b : Name} (hab : a ≠ b) (s : Symbol) :
    balanceOf σ a s + balanceOf σ b s ≤ total σ s := by
  rw [balanceOf, balanceOf, ← entry_row, ← entry_row]
  exact OrdMap.entry_add_entry_le_sumOf (h.weights_nonneg s) hab

/-- What is held of a symbol is a legal asset amount. -/
theorem Inv.total_le (h : Inv o σ) (ho : AtMostOne o) (s : Symbol) :
    total σ s ≤ 2 ^ 62 - 1 := by
  have hb := h.supplies.bal_bounds s
  have hos := ho s
  rw [h.conserved s, supplyOf]
  omega

/-- So is what one account holds of it. -/
theorem Inv.balanceOf_le (h : Inv o σ) (ho : AtMostOne o) (a : Name) (s : Symbol) :
    balanceOf σ a s ≤ 2 ^ 62 - 1 :=
  (h.balanceOf_le_total a s).trans (h.total_le ho s)

/-- **Accounts tables are determined** by who has a row and by the balances. -/
theorem Inv.accounts_ext {o' : Symbol → ℤ} {σ' : State} (h : Inv o σ) (h' : Inv o' σ')
    (hrows : ∀ a, a ∈ σ.accounts ↔ a ∈ σ'.accounts) (hbook : balanceOf σ = balanceOf σ') :
    σ.accounts = σ'.accounts := by
  refine ExtTreeMap.ext_getElem? ?_
  intro a
  have ha := hrows a
  cases hrow : σ.accounts[a]? with
  | none =>
    rw [← OrdMap.not_mem_iff, ha, OrdMap.not_mem_iff] at hrow
    exact hrow.symm
  | some row =>
    obtain ⟨row', hrow'⟩ := OrdMap.mem_iff_exists.mp
      (ha.mp (OrdMap.mem_iff_exists.mpr ⟨row, hrow⟩))
    have hbal (s : Symbol) : bal row s = bal row' s := by
      have hs := congrFun (congrFun hbook a) s
      rwa [balanceOf, balanceOf, hrow, hrow'] at hs
    rw [hrow', (h.holdings a row hrow).positive.ext (h'.holdings a row' hrow').positive hbal]

end Bounds

/-! ### Writing one row -/

section Insert

variable {o o' : Symbol → ℤ} {σ σ' : State} {a : Name} {r : FungiblePairs}

theorem balanceOf_of_insert (h : σ'.accounts = σ.accounts.insert a r) (b : Name) (s : Symbol) :
    balanceOf σ' b s = if b = a then bal r s else balanceOf σ b s := by
  rw [balanceOf, h, OrdMap.getElem?_insert]
  by_cases hb : b = a
  · rw [if_pos hb, if_pos hb]; rfl
  · rw [if_neg hb, if_neg hb]; rfl

/-- Writing one row keeps the invariant when supplies and orphans account for what the row
gained. -/
theorem Inv.insert_row (h : Inv o σ) (hrows : σ'.accounts = σ.accounts.insert a r)
    (hrow : Holdings r) (hsup : σ'.sup.WF)
    (hgain : ∀ s, supplyOf σ' s + o' s = supplyOf σ s + o s + bal r s - balanceOf σ a s) :
    Inv o' σ' where
  supplies := hsup
  holdings := by
    rw [hrows]
    exact OrdMap.forall_insert hrow fun b row _ => h.holdings b row
  conserved := by
    intro s
    have hc := h.conserved s
    have hg := hgain s
    rw [total] at hc ⊢
    -- the total loses what the old row held and gains what the new one holds
    rw [hrows, totalIn_insert, ← balanceOf]
    omega

end Insert

end Twig.Token
