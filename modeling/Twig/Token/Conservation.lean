import Twig.Token.Admin
import Twig.Token.Config
import Twig.Token.User
import Twig.Lib.Run

/-!
# Conservation

The runs of the seven ledger actions (`setsupplies`, `rmvsupply`, `issue`, `retire`, `transfer`,
`open`, `close`) from a freshly initialised contract.

* `ledger_conservation` — while the amounts issued are legal asset amounts, supplies stay
  within their caps, balances add up to supplies, and no row holds a zero entry;
* `issue_within_cap_iff` — `issue` compares a wrapped 64-bit sum with the cap. It keeps to the
  cap exactly when that sum does not wrap, which it does not check: `issue_passes_cap` issues
  `2 ^ 63 - 1` units over a cap of 100.
-/

namespace Twig.Token

open Std Fallible

/-! ### Ledger runs -/

/-- The tables of a freshly initialised contract. -/
def fresh : State := { config := some {}, fungibles := some ∅, supplies := some {} }

/-- The seven ledger actions. -/
def Call.isLedger : Call → Bool
  | .setsupplies _ | .rmvsupply _ | .issue _ _ _ | .retire _ _ _ | .transfer _ _ _ _
  | .openAccount _ | .closeAccount _ => true
  | _ => false

/-- An `issue` adds without passing the 64-bit range. -/
def Call.Fits (σ : State) : Call → Prop
  | .issue _ tokens _ => IssueFits σ tokens
  | _ => True

/-- An `issue` is of legal asset amounts. -/
def Call.Legal : Call → Prop
  | .issue _ tokens _ =>
    ∀ (s : Symbol) (a : Int64), tokens[s]? = some a → a.toInt ≤ Asset.maxAmount.toInt
  | _ => True

/-- The ledger invariant of a contract that has its supplies record. -/
structure LedgerInv (o : Symbol → ℤ) (σ : State) : Prop extends Inv o σ where
  recorded : σ.supplies.isSome

theorem sup_fresh : fresh.sup = {} := rfl

theorem total_of_accounts_empty {σ : State} (h : σ.accounts = ∅) (s : Symbol) :
    total σ s = 0 := by
  rw [total, h]
  exact OrdMap.sumOf_empty

theorem ledgerInv_fresh : LedgerInv (fun _ => 0) fresh where
  supplies := Supplies.wf_empty
  holdings a row h := by simp [fresh] at h
  conserved s := by
    rw [total_of_accounts_empty rfl, supplyOf, sup_fresh]
    simp
  recorded := rfl

theorem atMostOne_zero : AtMostOne fun _ => 0 := fun _ => ⟨le_rfl, zero_le_one⟩

variable {o : Symbol → ℤ} {σ σ' : State} {ctx : Context} {call : Call}

/-- Legal amounts fit on top of any supply. -/
theorem Inv.fits_of_legal (h : Inv o σ) (hlegal : call.Legal) : call.Fits σ := by
  cases call with
  | issue owner tokens memo =>
    intro s a hs
    have hb := h.supplies.bal_bounds s
    have ha := hlegal s a hs
    rw [Asset.toInt_maxAmount] at ha
    rw [supplyOf]
    omega
  | _ => trivial

/-- **A ledger action keeps the invariant.** -/
theorem LedgerInv.step (h : LedgerInv o σ) (ho : AtMostOne o) (hledger : call.isLedger)
    (hfits : call.Fits σ) (hok : step σ (ctx, call) = .ok σ') : LedgerInv o σ' := by
  cases call with
  | setsupplies maxSupply =>
    obtain ⟨hinv, hsome, -⟩ := setsupplies_spec h.toInv hok
    exact ⟨hinv, hsome⟩
  | rmvsupply maxSupply =>
    obtain ⟨hinv, hsome, -⟩ := rmvsupply_spec h.toInv hok
    exact ⟨hinv, hsome⟩
  | issue owner tokens memo =>
    have hissue : issue ctx σ owner tokens memo = .ok σ' := hok
    obtain ⟨hinv, -, -, supply, hsup⟩ := issue_spec h.toInv ho hfits hissue
    exact ⟨hinv, by rw [hsup]; rfl⟩
  | retire owner tokens memo =>
    have hretire : retire ctx σ owner tokens memo = .ok σ' := hok
    obtain ⟨hinv, -, -, supply, hsup⟩ := retire_spec h.toInv hretire
    exact ⟨hinv, by rw [hsup]; rfl⟩
  | transfer sender receiver tokens memo =>
    obtain ⟨hinv, hsup, -⟩ := transfer_spec h.toInv ho hok
    exact ⟨hinv, hsup ▸ h.recorded⟩
  | openAccount owner =>
    obtain ⟨hinv, hsup, -⟩ := openAccount_spec h.toInv hok
    exact ⟨hinv, hsup ▸ h.recorded⟩
  | closeAccount owner =>
    obtain ⟨hinv, hsup, -⟩ := closeAccount_spec h.toInv hok
    exact ⟨hinv, hsup ▸ h.recorded⟩
  | _ => exact absurd hledger (by simp [Call.isLedger])

/-- The ledger actions whose additions stay in range. -/
def FitGuard (σ : State) (c : Context × Call) : Prop := c.2.isLedger ∧ c.2.Fits σ

/-- The ledger actions that issue legal amounts only. -/
def LegalGuard (_ : State) (c : Context × Call) : Prop := c.2.isLedger ∧ c.2.Legal

theorem ledgerInv_of_run {tr : List (Context × Call)} (h : Run step FitGuard fresh tr σ) :
    LedgerInv (fun _ => 0) σ :=
  h.state_invariant ledgerInv_fresh fun _ _ _ hI hg hs => hI.step atMostOne_zero hg.1 hg.2 hs

theorem ledgerInv_of_legal_run {tr : List (Context × Call)}
    (h : Run step LegalGuard fresh tr σ) : LedgerInv (fun _ => 0) σ :=
  h.state_invariant ledgerInv_fresh fun _ _ _ hI hg hs =>
    hI.step atMostOne_zero hg.1 (hI.fits_of_legal hg.2) hs

/-- Without orphans a held symbol has a supply entry. -/
theorem Inv.mem_supply_of_held (h : Inv (fun _ => 0) σ) {a : Name} {row : FungiblePairs}
    (ha : σ.accounts[a]? = some row) {s : Symbol} (hs : s ∈ row) : s ∈ σ.sup.supply := by
  obtain ⟨v, hv⟩ := OrdMap.mem_iff_exists.mp hs
  have hpos := (h.holdings a row ha).positive s v hv
  have hle := h.balanceOf_le_total a s
  rw [h.conserved s, balanceOf, ha, Option.getD_some, bal_of_some hv] at hle
  by_contra hnot
  rw [supplyOf, bal_of_none (OrdMap.not_mem_iff.mp hnot)] at hle
  omega

/-! ### Ledger conservation -/

/-- **Ledger conservation.** In every state that ledger actions with legal issue amounts reach,
supplies and caps have the same symbols and legal values, balances add up to supplies, every
entry is positive and of a supplied symbol, `close` changes no balance, and neither `issue` nor
`retire` nor `rmvsupply` dereferences a missing entry, whatever its arguments. -/
theorem ledger_conservation {tr : List (Context × Call)} (hrun : Run step LegalGuard fresh tr σ) :
    ∃ sup, σ.supplies = some sup ∧
      (∀ s, s ∈ sup.supply ↔ s ∈ sup.maxSupply) ∧
      (∀ (s : Symbol) (v m : Int64), sup.supply[s]? = some v → sup.maxSupply[s]? = some m →
        0 ≤ v.toInt ∧ v.toInt ≤ m.toInt ∧ m.toInt ≤ 2 ^ 62 - 1) ∧
      (∀ s, total σ s = bal sup.supply s) ∧
      (∀ (a : Name) (row : FungiblePairs), σ.accounts[a]? = some row →
        ∀ s ∈ row, s ∈ sup.supply) ∧
      (∀ (a : Name) (row : FungiblePairs), σ.accounts[a]? = some row →
        ∀ (s : Symbol) (v : Int64), row[s]? = some v → 0 < v.toInt) ∧
      (∀ ctx owner σ', closeAccount ctx σ owner = .ok σ' → balanceOf σ' = balanceOf σ) ∧
      (∀ ctx owner tokens memo,
        issue ctx σ owner tokens memo ≠ .error .deref ∧
        retire ctx σ owner tokens memo ≠ .error .deref ∧
        rmvsupply ctx σ tokens ≠ .error .deref) := by
  have h := ledgerInv_of_legal_run hrun
  obtain ⟨sup, hsup⟩ := Option.isSome_iff_exists.mp h.recorded
  have hsup' : σ.sup = sup := State.sup_of_some hsup
  have hwf : sup.WF := hsup' ▸ h.supplies
  refine ⟨sup, hsup, hwf.keys, ?_, ?_, ?_, fun a row ha => (h.holdings a row ha).positive, ?_,
    fun ctx owner tokens memo => ⟨issue_neverFails h.supplies, retire_neverFails,
      rmvsupply_neverFails h.supplies⟩⟩
  · intro s v m hv hm
    obtain ⟨h0, hlt⟩ := hwf.capped s v m hv hm
    exact ⟨h0, hlt.le, (hwf.legal s m hm).1⟩
  · intro s
    rw [h.conserved s, supplyOf, hsup', add_zero]
  · intro a row ha s hs
    exact hsup' ▸ h.mem_supply_of_held ha hs
  · intro ctx owner σ' hok
    obtain ⟨-, -, hbook, -⟩ := closeAccount_spec h.toInv hok
    exact hbook

theorem legal_issue_coreTokens {amount : Int64} {owner : Name} {memo : String}
    (h : amount.toInt ≤ Asset.maxAmount.toInt) :
    (Call.issue owner (coreTokens amount) memo).Legal := fun _ _ hs =>
  (eq_of_coreTokens hs).2 ▸ h

/-- The token account calling itself. -/
def tokenCall (call : Call) : Context × Call := (.permissive (.ofString "eosio.token"), call)

/-- A cap of 100 units, and one unit issued. -/
def capAndIssue : List (Context × Call) :=
  [tokenCall (.setsupplies (coreTokens 100)),
    tokenCall (.issue (.ofString "alice") (coreTokens 1) "")]

theorem ledger_conservation_capAndIssue :
    ∃ σ, Run step LegalGuard fresh capAndIssue σ ∧ supplyOf σ coreSymbol = 1 ∧
      ∃ sup, σ.supplies = some sup ∧ ∀ s, total σ s = bal sup.supply s := by
  obtain ⟨σ, hσ, hsupply⟩ := returns_iff.mp (show returns (capAndIssue.foldlM step fresh)
    (fun σ => supplyOf σ coreSymbol = 1) = true by decide)
  have hrun : Run step LegalGuard fresh capAndIssue σ := by
    refine Run.of_foldlM (fun s c hc => ?_) hσ
    simp only [capAndIssue, List.mem_cons, List.not_mem_nil, or_false] at hc
    rcases hc with rfl | rfl
    · exact ⟨rfl, trivial⟩
    · exact ⟨rfl, legal_issue_coreTokens (by decide)⟩
  obtain ⟨sup, hsup, -, -, htotal, -⟩ := ledger_conservation hrun
  exact ⟨σ, hrun, of_decide_eq_true hsupply, sup, hsup, htotal⟩

/-! ### The cap of an issue -/

/-- An exact integer is representable. -/
def InRange (n : ℤ) : Prop := -2 ^ 63 ≤ n ∧ n ≤ 2 ^ 63 - 1

/-- **`issue` keeps to the cap exactly when its sums do not wrap.** After any run of ledger
actions whose issues did not wrap, an `issue` that does not abort keeps every exact supply
within its cap, and every addition in range, if and only if no amount passes
`2 ^ 63 - 1 - supply`. -/
theorem issue_within_cap_iff {tr : List (Context × Call)} (hrun : Run step FitGuard fresh tr σ)
    {owner : Name} {tokens : FungiblePairs} {memo : String}
    (hok : issue ctx σ owner tokens memo = .ok σ') :
    (∀ (s : Symbol) (a : Int64), tokens[s]? = some a →
      (∃ m, σ.sup.maxSupply[s]? = some m ∧ supplyOf σ s + a.toInt ≤ m.toInt) ∧
        InRange (supplyOf σ s + a.toInt) ∧ InRange (balanceOf σ owner s + a.toInt)) ↔
      ∀ (s : Symbol) (a : Int64), tokens[s]? = some a → a.toInt ≤ 2 ^ 63 - 1 - supplyOf σ s := by
  constructor
  · intro hcap s a hs
    obtain ⟨-, ⟨-, hu⟩, -⟩ := hcap s a hs
    omega
  · intro hfit s a hs
    have h := (ledgerInv_of_run hrun).toInv
    have hfits : IssueFits σ tokens := fun s a hs => by
      have := hfit s a hs
      omega
    obtain ⟨h', hsupply, hbook, supply, hsup'⟩ := issue_spec h atMostOne_zero hfits hok
    have hpos := pos_of_issue hok hs
    have hs' := hsupply s
    rw [bal_of_some hs] at hs'
    -- the supply after the call is positive, so the symbol is registered and below its cap
    have h0 := h.supplies.bal_bounds s
    rw [← supplyOf] at h0
    have hmem : s ∈ σ'.sup.supply := by
      by_contra hnot
      rw [supplyOf, bal_of_none (OrdMap.not_mem_iff.mp hnot)] at hs'
      omega
    obtain ⟨v, m, hv, hm, -, hlt, hmax⟩ := h'.supplies.exists_of_mem hmem
    have hv' : supplyOf σ' s = v.toInt := bal_of_some hv
    have howner := congrFun (congrFun hbook owner) s
    rw [Book.credit_apply, if_pos rfl, bal_of_some hs] at howner
    have htotal := h'.balanceOf_le_total owner s
    have hle := h'.total_le atMostOne_zero s
    have hb0 := h.balanceOf_nonneg owner s
    refine ⟨⟨m, ?_, by omega⟩, ⟨by omega, by omega⟩, ⟨by omega, by omega⟩⟩
    rwa [State.sup, hsup'] at hm

theorem issue_within_cap_iff_one :
    ∃ σ, Run step FitGuard fresh [tokenCall (.setsupplies (coreTokens 100))] σ ∧
      supplyOf σ coreSymbol + 1 ≤ 100 ∧ InRange (supplyOf σ coreSymbol + 1) := by
  obtain ⟨σ, hσ, hissue⟩ := returns_iff.mp (show returns
    ([tokenCall (.setsupplies (coreTokens 100))].foldlM step fresh) (fun σ =>
      supplyOf σ coreSymbol = 0 ∧ σ.sup.maxSupply[coreSymbol]? = some 100 ∧
      returns
        (issue (.permissive (.ofString "eosio.token")) σ (.ofString "alice") (coreTokens 1) "")
        (fun _ => true)) = true by decide)
  obtain ⟨hsupply, hcap, hissue⟩ := of_decide_eq_true hissue
  obtain ⟨σ', hok, -⟩ := returns_iff.mp hissue
  have hrun : Run step FitGuard fresh [tokenCall (.setsupplies (coreTokens 100))] σ :=
    Run.of_foldlM (fun _ _ hc => by rw [List.mem_singleton.mp hc]; exact ⟨rfl, trivial⟩) hσ
  have hkept := (issue_within_cap_iff hrun hok).mpr fun s a hs => by
    obtain ⟨rfl, rfl⟩ := eq_of_coreTokens hs
    rw [hsupply]
    decide
  obtain ⟨⟨m, hm, hle⟩, hin, -⟩ := hkept coreSymbol 1 (by decide)
  rw [hcap, Option.some.injEq] at hm
  exact ⟨σ, hrun, by rw [← hm] at hle; exact hle, hin⟩

/-- With one unit of a cap of 100 issued, `issue` accepts `2 ^ 63 - 1` more. -/
theorem issue_passes_cap :
    ∃ σ, Run step (fun _ c => c.2.isLedger = true) fresh capAndIssue σ ∧
      ∃ σ', issue (.permissive (.ofString "eosio.token")) σ (.ofString "alice")
          (coreTokens 9223372036854775807) "" = .ok σ' ∧
        σ.sup.maxSupply[coreSymbol]? = some 100 ∧
        100 < supplyOf σ coreSymbol + (9223372036854775807 : Int64).toInt ∧
        ¬ InRange (supplyOf σ coreSymbol + (9223372036854775807 : Int64).toInt) := by
  obtain ⟨σ, hσ, hissue⟩ := returns_iff.mp (show returns (capAndIssue.foldlM step fresh)
    (fun σ => supplyOf σ coreSymbol = 1 ∧ σ.sup.maxSupply[coreSymbol]? = some 100 ∧
      returns (issue (.permissive (.ofString "eosio.token")) σ (.ofString "alice")
        (coreTokens 9223372036854775807) "") (fun _ => true)) = true by decide)
  obtain ⟨hsupply, hcap, hissue⟩ := of_decide_eq_true hissue
  obtain ⟨σ', hok, -⟩ := returns_iff.mp hissue
  refine ⟨σ, Run.of_foldlM (fun _ c hc => ?_) hσ, σ', hok, hcap, ?_, ?_⟩
  · simp only [capAndIssue, List.mem_cons, List.not_mem_nil, or_false] at hc
    rcases hc with rfl | rfl <;> rfl
  · rw [hsupply]
    decide
  · rw [hsupply, InRange]
    decide

end Twig.Token
