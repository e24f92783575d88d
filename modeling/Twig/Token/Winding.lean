import Twig.Token.Conservation

/-!
# Winding up

What has been issued can be retired. In every state that ledger actions reach, `retire` takes what
an account holds and no more, and its check of the supplies decides nothing (`retire_ok_iff`). So
the contract can retire what is out account by account, close the accounts, and then remove every
symbol: from every state that ledger actions reach they lead back to the start (`fresh_is_home`).
-/

namespace Twig.Token

open Std Fallible

variable {σ σ' : State} {ctx : Context}

/-! ### Retiring -/

/-- The iterations of `retire` go through or not independently of each other. -/
theorem exists_retireLoop_iff {tokens supply balance : FungiblePairs} :
    (∃ r, tokens.toList.foldlM retireOne (supply, balance) = .ok r) ↔
      ∀ e ∈ tokens.toList, ∃ r, retireOne (supply, balance) e = .ok r := by
  refine exists_foldlM_iff ?_ (OrdMap.pairwise_keys_toList tokens)
  rintro ⟨supply, balance⟩ ⟨k, a⟩ _ ⟨s, a'⟩ hok (hne : k ≠ s)
  obtain ⟨v, held, -, -, -, -, -, rfl⟩ := retireOne_eq_ok_iff.mp hok
  simp only [retireOne_eq_ok_iff, OrdMap.getElem?_insert, if_neg hne.symm,
    getElem?_leave hne.symm]
  constructor
  all_goals
    rintro ⟨_, v, held, hv, hheld, hleft, hpos, hkept, -⟩
    exact ⟨_, v, held, hv, hheld, hleft, hpos, hkept, rfl⟩

/-- **When `retire` goes through**, on a ledger that balances: the contract signs, and each amount
is positive and at most what the owner, who has a row, holds. -/
theorem retire_ok_iff (h : LedgerInv (fun _ => 0) σ) {owner : Name}
    {tokens : FungiblePairs} {memo : String} :
    (∃ σ', retire ctx σ owner tokens memo = .ok σ') ↔
      ctx.hasAuth ctx.self ∧ owner ∈ σ.accounts ∧ ∀ (s : Symbol) (a : Int64),
        tokens[s]? = some a → 0 < a.toInt ∧ a.toInt ≤ balanceOf σ owner s := by
  simp only [retire, bind_eq_ok_iff, Context.requireAuth_eq_ok_iff, exists_const,
    singletonGet_eq_ok_iff, Table.requireFind_eq_ok_iff, pure_eq_ok_iff]
  constructor
  · rintro ⟨σ', hauth, sup, hsup, row, hrow, r, hloop, -⟩
    refine ⟨hauth, OrdMap.mem_iff_exists.mpr ⟨row, hrow⟩, fun s a hs => ?_⟩
    obtain ⟨r', hone⟩ := exists_retireLoop_iff.mp ⟨r, hloop⟩ (s, a) (OrdMap.mem_toList.mpr hs)
    obtain ⟨v, held, -, hheld, -, hpos, hkept, -⟩ := retireOne_eq_ok_iff.mp hone
    rw [Int64.toInt_pos_iff] at hpos
    have hheld0 := (h.holdings owner row hrow).positive s held hheld
    rw [Int64.toInt_nonneg_iff, toInt_sub_exact hheld0.le hpos] at hkept
    rw [balanceOf, hrow, Option.getD_some, bal_of_some hheld]
    exact ⟨hpos, by omega⟩
  · rintro ⟨hauth, hmem, hall⟩
    obtain ⟨sup, hsup⟩ := Option.isSome_iff_exists.mp h.recorded
    obtain ⟨row, hrow⟩ := OrdMap.mem_iff_exists.mp hmem
    obtain ⟨r, hloop⟩ : ∃ r, tokens.toList.foldlM retireOne (sup.supply, row) = .ok r := by
      refine exists_retireLoop_iff.mpr ?_
      rintro ⟨s, a⟩ he
      obtain ⟨hpos, hle⟩ := hall s a (OrdMap.mem_toList.mp he)
      -- the balance is part of the supply
      have hsupply := h.balanceOf_le_total owner s
      rw [h.conserved s, add_zero, supplyOf, State.sup_of_some hsup] at hsupply
      have hbalance : balanceOf σ owner s = bal row s := by rw [balanceOf, hrow, Option.getD_some]
      rw [hbalance] at hle hsupply
      obtain ⟨held, hheld⟩ := exists_of_bal_pos (hpos.trans_le hle)
      obtain ⟨v, hv⟩ := exists_of_bal_pos ((hpos.trans_le hle).trans_le hsupply)
      rw [bal_of_some hheld] at hle hsupply
      rw [bal_of_some hv] at hsupply
      have hkept := toInt_sub_exact (v := held) (by omega) hpos
      have hleft := toInt_sub_exact (v := v) (by omega) hpos
      refine ⟨_, retireOne_eq_ok_iff.mpr ⟨v, held, hv, hheld, ?_, ?_, ?_, rfl⟩⟩
      · rw [Int64.toInt_nonneg_iff]
        omega
      · rwa [Int64.toInt_pos_iff]
      · rw [Int64.toInt_nonneg_iff]
        omega
    exact ⟨_, hauth, sup, hsup, row, hrow, r, hloop, rfl⟩

/-! ### Winding up -/

/-- Ledger actions write the supplies and the accounts. -/
theorem eq_of_ledger_step {call : Call} (hledger : call.isLedger)
    (hok : step σ (ctx, call) = .ok σ') :
    σ' = { σ with supplies := σ'.supplies, accounts := σ'.accounts } := by
  cases call with
  | setsupplies maxSupply =>
    simp only [step, apply, setsupplies, bind_eq_ok_iff, pure_eq_ok_iff] at hok
    obtain ⟨-, -, sup, -, sup', -, rfl⟩ := hok
    rfl
  | rmvsupply maxSupply =>
    simp only [step, apply, rmvsupply, bind_eq_ok_iff, pure_eq_ok_iff] at hok
    obtain ⟨-, -, sup, -, sup', -, rfl⟩ := hok
    rfl
  | issue owner tokens memo =>
    simp only [step, apply, issue, bind_eq_ok_iff, pure_eq_ok_iff] at hok
    obtain ⟨-, -, sup, -, acc, -, rfl⟩ := hok
    rfl
  | retire owner tokens memo =>
    simp only [step, apply, retire, bind_eq_ok_iff, pure_eq_ok_iff] at hok
    obtain ⟨-, -, sup, -, row, -, acc, -, rfl⟩ := hok
    rfl
  | transfer sender receiver tokens memo =>
    simp only [step, apply, transfer, bind_eq_ok_iff, pure_eq_ok_iff] at hok
    obtain ⟨-, -, -, -, -, -, -, -, -, -, -, -, -, -, rfl⟩ := hok
    rfl
  | openAccount owner =>
    simp only [step, apply, openAccount, check_bind_eq_ok_iff, pure_eq_ok_iff] at hok
    obtain ⟨-, rfl⟩ := hok
    split_ifs
    · rfl
    · rfl
  | closeAccount owner =>
    simp only [step, apply, closeAccount, bind_eq_ok_iff, pure_eq_ok_iff] at hok
    obtain ⟨-, -, row, -, -, -, rfl⟩ := hok
    rfl
  | _ => exact absurd hledger (by simp [Call.isLedger])

/-- Ledger actions keep a ledger in balance, wherever they start. -/
theorem ledgerInv_after {tr : List (Context × Call)} (h : LedgerInv (fun _ => 0) σ)
    (hrun : Run step LegalGuard σ tr σ') : LedgerInv (fun _ => 0) σ' :=
  hrun.state_invariant h fun _ _ _ hI hg hs =>
    hI.step atMostOne_zero hg.1 (hI.fits_of_legal hg.2) hs

/-- All that an account holds can be retired, which leaves it with an empty row. -/
theorem exists_retire_row (h : LedgerInv (fun _ => 0) σ) {a : Name} {row : FungiblePairs}
    (hrow : σ.accounts[a]? = some row) :
    ∃ σ', Run step LegalGuard σ [tokenCall (.retire a row "")] σ' ∧
      σ'.accounts = σ.accounts.insert a ∅ := by
  have hheld (s : Symbol) : balanceOf σ a s = bal row s := by
    rw [balanceOf, hrow, Option.getD_some]
  have hpositive : Positive row := (h.holdings a row hrow).positive
  obtain ⟨σ', hok⟩ : ∃ σ', retire (.permissive (.ofString "eosio.token")) σ a row "" = .ok σ' :=
    (retire_ok_iff h).mpr ⟨rfl, OrdMap.mem_iff_exists.mpr ⟨row, hrow⟩, fun s v hs =>
      ⟨hpositive s v hs, by rw [hheld, bal_of_some hs]⟩⟩
  refine ⟨σ', .single ⟨rfl, trivial⟩ hok, ?_⟩
  obtain ⟨hinv, -, hbook, -⟩ := retire_spec h.toInv hok
  obtain ⟨balance, hbalance⟩ : ∃ balance, σ'.accounts = σ.accounts.insert a balance := by
    simp only [retire, bind_eq_ok_iff, pure_eq_ok_iff] at hok
    obtain ⟨-, -, sup, -, held, -, acc, -, rfl⟩ := hok
    exact ⟨acc.2, rfl⟩
  have hstored : σ'.accounts[a]? = some balance := by
    rw [hbalance, OrdMap.getElem?_insert, if_pos rfl]
  -- nothing is left, and no entry is zero
  have hempty : balance = ∅ := by
    refine (hinv.holdings a balance hstored).positive.ext positive_empty fun s => ?_
    have hleft : bal balance s = balanceOf σ' a s := by rw [balanceOf, hstored, Option.getD_some]
    rw [hleft, hbook, Book.debit_apply, if_pos rfl, hheld, sub_self, bal_empty]
  rw [hbalance, hempty]

/-- An empty row can be closed. -/
theorem closeAccount_of_empty {a : Name} (hauth : ctx.hasAuth ctx.self)
    (hrow : σ.accounts[a]? = some ∅) :
    closeAccount ctx σ a = .ok { σ with accounts := σ.accounts.erase a } := by
  have hnil : (∅ : FungiblePairs).toList = [] := ExtTreeMap.toList_eq_nil_iff.mpr rfl
  simp only [closeAccount, bind_eq_ok_iff, check_eq_ok_iff, exists_const,
    Table.requireFind_eq_ok_iff, pure_eq_ok_iff]
  exact ⟨.inl hauth, ∅, hrow, .unit, by rw [hnil]; rfl, trivial⟩

/-- The accounts can be emptied and closed, one after the other. -/
theorem exists_closed (h : LedgerInv (fun _ => 0) σ) :
    ∃ tr σ', Run step LegalGuard σ tr σ' ∧ σ'.accounts = ∅ := by
  generalize hn : σ.accounts.toList.length = n
  induction n generalizing σ with
  | zero =>
    exact ⟨[], σ, .init, ExtTreeMap.toList_eq_nil_iff.mp (List.length_eq_zero_iff.mp hn)⟩
  | succ n ih =>
    obtain ⟨⟨a, row⟩, l, hl⟩ := List.exists_cons_of_length_eq_add_one hn
    have hrow : σ.accounts[a]? = some row := OrdMap.mem_toList.mp (hl ▸ List.mem_cons_self)
    obtain ⟨σ₁, hretire, haccounts⟩ := exists_retire_row h hrow
    have hclose : Run step LegalGuard σ₁ [tokenCall (.closeAccount a)]
        { σ₁ with accounts := σ₁.accounts.erase a } :=
      .single ⟨rfl, trivial⟩ (closeAccount_of_empty rfl (by
        rw [haccounts, OrdMap.getElem?_insert, if_pos rfl]))
    have hrest : (σ₁.accounts.erase a).toList.length = n := by
      have hlength := (OrdMap.toList_perm_cons hrow).length_eq
      rw [List.length_cons] at hlength
      rw [haccounts, OrdMap.erase_insert]
      omega
    have hboth := hretire.trans hclose
    obtain ⟨tr, σ', hrun, hempty⟩ := ih (ledgerInv_after h hboth) hrest
    exact ⟨_, σ', hboth.trans hrun, hempty⟩

/-- A symbol that nobody holds can be removed. -/
theorem rmvsupply_symbol (h : LedgerInv (fun _ => 0) σ) (hempty : σ.accounts = ∅)
    (hauth : ctx.hasAuth ctx.self) {s : Symbol} {m : Int64} (hm : σ.sup.maxSupply[s]? = some m) :
    rmvsupply ctx σ ((∅ : FungiblePairs).insert s m) = .ok { σ with
      supplies := some
        { maxSupply := σ.sup.maxSupply.erase s, supply := σ.sup.supply.erase s } } := by
  obtain ⟨sup, hsup⟩ := Option.isSome_iff_exists.mp h.recorded
  obtain ⟨v, hv⟩ := OrdMap.mem_iff_exists.mp
    ((h.supplies.keys s).mpr (OrdMap.mem_iff_exists.mpr ⟨m, hm⟩))
  have hzero := h.conserved s
  rw [total_of_accounts_empty hempty, add_zero, supplyOf, bal_of_some hv] at hzero
  obtain rfl : v = 0 := Int64.toInt_inj.mp hzero.symm
  rw [State.sup_of_some hsup] at hm hv ⊢
  simp only [rmvsupply, OrdMap.toList_insert_empty, List.foldlM_cons, List.foldlM_nil,
    rmvsupplyOne, bind_eq_ok_iff, Context.requireAuth_eq_ok_iff, exists_const,
    singletonGet_eq_ok_iff, check_eq_ok_iff, deref_eq_ok_iff, pure_eq_ok_iff]
  exact ⟨hauth, sup, hsup, _, ⟨_, ⟨OrdMap.mem_iff_exists.mpr ⟨m, hm⟩, 0, hv, rfl, rfl⟩, rfl⟩, rfl⟩

/-- Without accounts the symbols can be removed, one after the other. -/
theorem exists_removed (h : LedgerInv (fun _ => 0) σ) (hempty : σ.accounts = ∅) :
    ∃ tr σ', Run step LegalGuard σ tr σ' ∧ σ'.accounts = ∅ ∧ σ'.supplies = some {} := by
  generalize hn : σ.sup.maxSupply.toList.length = n
  induction n generalizing σ with
  | zero =>
    obtain ⟨⟨supply, maxSupply⟩, hsup⟩ := Option.isSome_iff_exists.mp h.recorded
    rw [State.sup_of_some hsup] at hn
    obtain rfl : maxSupply = ∅ := ExtTreeMap.toList_eq_nil_iff.mp (List.length_eq_zero_iff.mp hn)
    obtain rfl : supply = ∅ := by
      have hkeys := h.supplies.keys
      rw [State.sup_of_some hsup] at hkeys
      refine ExtTreeMap.ext_getElem? fun s => ?_
      rw [ExtTreeMap.getElem?_empty, ← OrdMap.not_mem_iff, hkeys]
      exact ExtTreeMap.not_mem_empty
    exact ⟨[], σ, .init, hempty, hsup⟩
  | succ n ih =>
    obtain ⟨⟨s, m⟩, l, hl⟩ := List.exists_cons_of_length_eq_add_one hn
    have hm : σ.sup.maxSupply[s]? = some m := OrdMap.mem_toList.mp (hl ▸ List.mem_cons_self)
    have hrmv : Run step LegalGuard σ
        [tokenCall (.rmvsupply ((∅ : FungiblePairs).insert s m))] _ :=
      .single ⟨rfl, trivial⟩ (rmvsupply_symbol h hempty rfl hm)
    have hrest : (σ.sup.maxSupply.erase s).toList.length = n := by
      have hlength := (OrdMap.toList_perm_cons hm).length_eq
      rw [List.length_cons] at hlength
      omega
    obtain ⟨tr, σ', hrun, hdone⟩ := ih (ledgerInv_after h hrmv) hempty hrest
    exact ⟨_, σ', hrmv.trans hrun, hdone⟩

/-- **The ledger can be wound up.** From every state that ledger actions with legal issue amounts
reach, such actions lead back to the freshly initialised contract. -/
theorem fresh_is_home {tr : List (Context × Call)} (hrun : Run step LegalGuard fresh tr σ) :
    ∃ tr', Run step LegalGuard σ tr' fresh := by
  have h := ledgerInv_of_legal_run hrun
  obtain ⟨tr₁, σ₁, hclose, hempty⟩ := exists_closed h
  obtain ⟨tr₂, σ₂, hremove, haccounts, hsupplies⟩ :=
    exists_removed (ledgerInv_after h hclose) hempty
  have hback := hclose.trans hremove
  -- no ledger action has touched the other tables
  have hframe : σ₂ = { fresh with supplies := σ₂.supplies, accounts := σ₂.accounts } := by
    refine (hrun.trans hback).state_invariant (I := fun σ : State =>
      σ = { fresh with supplies := σ.supplies, accounts := σ.accounts }) rfl ?_
    rintro σ ⟨ctx, call⟩ σ' hI hguard hok
    rw [eq_of_ledger_step hguard.1 hok, hI]
  rw [hframe, haccounts, hsupplies] at hback
  exact ⟨_, hback⟩

theorem fresh_is_home_capAndIssue :
    ∃ σ tr', Run step LegalGuard fresh capAndIssue σ ∧ supplyOf σ coreSymbol = 1 ∧
      Run step LegalGuard σ tr' fresh := by
  obtain ⟨σ, hσ, hsupply⟩ := returns_iff.mp (show returns (capAndIssue.foldlM step fresh)
    (fun σ => supplyOf σ coreSymbol = 1) = true by decide)
  have hrun : Run step LegalGuard fresh capAndIssue σ := by
    refine Run.of_foldlM (fun s c hc => ?_) hσ
    simp only [capAndIssue, List.mem_cons, List.not_mem_nil, or_false] at hc
    rcases hc with rfl | rfl
    · exact ⟨rfl, trivial⟩
    · exact ⟨rfl, legal_issue_coreTokens (by decide)⟩
  obtain ⟨tr', hback⟩ := fresh_is_home hrun
  exact ⟨σ, tr', hrun, of_decide_eq_true hsupply, hback⟩

end Twig.Token
