import Twig.Token.Conservation

/-!
# The cap over the contract's lifetime

Runs of all actions, from a contract without any table. The supplies record and the account
rows have separate lifetimes: `cfginit` and `cfgdestruct` drop the record whatever the rows
hold, while `rmvsupply` refuses to remove a symbol that is still supplied. What the rows hold
when the record goes is orphaned, and a cap registered afterwards does not count it.

* `cap_survives_administration` — as long as no row total exceeds one unit when the record is
  dropped, no later total exceeds its cap; one unit is harmless, since `issue` keeps every
  supply strictly below its cap;
* `drop_breaks_cap` — from two units on, dropping the record and registering a cap of one unit
  breaks the law.
-/

namespace Twig.Token

open Std Fallible

variable {o : Symbol → ℤ} {σ σ' : State} {ctx : Context} {call : Call}

/-- The actions that drop the supplies record. -/
def Call.dropsSupplies : Call → Bool
  | .cfginit | .cfgdestruct => true
  | _ => false

/-- Actions with legal issue amounts, which drop the supplies record only while no more than
one unit of any symbol is out. -/
def DropGuard (σ : State) (c : Context × Call) : Prop :=
  c.2.Legal ∧ (c.2.dropsSupplies → ∀ s, total σ s ≤ 1)

/-- What holds over a lifetime: the ledger invariant with at most one orphan of each symbol,
and no unboxed drops, since no action files any. -/
def LifeInv (σ : State) : Prop := ∃ o, Inv o σ ∧ AtMostOne o ∧ σ.unboxed = ∅

/-- The invariant reads the supplies and the accounts only. -/
theorem Inv.congr (h : Inv o σ) (hsup : σ'.supplies = σ.supplies)
    (hrows : σ'.accounts = σ.accounts) : Inv o σ' where
  supplies := by rw [State.sup, hsup]; exact h.supplies
  holdings := by rw [hrows]; exact h.holdings
  conserved s := by
    have hc := h.conserved s
    rw [total, hrows, supplyOf, State.sup, hsup]
    exact hc

/-- Without a record everything that is held is orphaned. -/
theorem Inv.drop (h : Inv o σ) (hsup : σ'.sup = {}) (hrows : σ'.accounts = σ.accounts) :
    Inv (total σ) σ' where
  supplies := hsup ▸ Supplies.wf_empty
  holdings := hrows ▸ h.holdings
  conserved s := by
    rw [total, hrows, supplyOf, hsup, bal_empty, zero_add]
    rfl

/-- No unboxed drops, nothing to claim. -/
theorem claimdrops_of_unboxed_empty {indices : List UInt64} {owner : Name}
    {r : State × FungiblePairs} (h : σ.unboxed = ∅)
    (hok : claimdrops ctx σ indices owner = .ok r) : r = (σ, ∅) := by
  simp only [claimdrops, bind_eq_ok_iff, check_eq_ok_iff, exists_const, pure_eq_ok_iff] at hok
  obtain ⟨-, ⟨unboxed, newTokens⟩, hloop, rfl⟩ := hok
  cases indices with
  | nil =>
    obtain ⟨rfl, rfl⟩ := Prod.mk.inj (pure_eq_ok_iff.mp hloop)
    rfl
  | cons index indices =>
    rw [List.foldlM_cons, bind_eq_ok_iff] at hloop
    obtain ⟨acc, hone, -⟩ := hloop
    simp only [claimOne, bind_eq_ok_iff, Table.requireFind_eq_ok_iff, h] at hone
    obtain ⟨row, hrow, -⟩ := hone
    exact absurd hrow (by simp)

/-- No action files unboxed drops. -/
theorem unboxed_of_step (h : σ.unboxed = ∅) (hok : step σ (ctx, call) = .ok σ') :
    σ'.unboxed = ∅ := by
  cases call with
  | claimdrops indices owner =>
    rw [step, apply, bind_eq_ok_iff] at hok
    obtain ⟨r, hclaim, hissue⟩ := hok
    obtain rfl := claimdrops_of_unboxed_empty h hclaim
    simp only [issue, bind_eq_ok_iff, pure_eq_ok_iff] at hissue
    obtain ⟨-, -, -, -, -, -, rfl⟩ := hissue
    exact h
  | openAccount owner =>
    rw [step, apply, openAccount, check_bind_eq_ok_iff, pure_eq_ok_iff] at hok
    obtain ⟨-, rfl⟩ := hok
    by_cases hmem : owner ∈ σ.accounts
    · rwa [if_pos hmem]
    · rwa [if_neg hmem]
  | _ =>
    simp only [step, apply, cfginit, cfgdestruct, cfgsetparams, setfungibles, setsupplies,
      rmvsupply, setdrops, rmvdrops, issue, retire, rolldrops, execdrops, closeAccount, transfer,
      bind_eq_ok_iff, pure_eq_ok_iff, check_eq_ok_iff, Context.requireAuth_eq_ok_iff,
      exists_const] at hok
    grind

/-- **An action keeps the lifetime invariant**, unless it drops a record that matters. -/
theorem LifeInv.step (h : LifeInv σ) (hguard : DropGuard σ (ctx, call))
    (hok : step σ (ctx, call) = .ok σ') : LifeInv σ' := by
  obtain ⟨o, hinv, ho, hunboxed⟩ := h
  have hunboxed' := unboxed_of_step hunboxed hok
  have hdrop (hcall : call.dropsSupplies) (hsup : σ'.sup = {})
      (hrows : σ'.accounts = σ.accounts) : LifeInv σ' :=
    ⟨total σ, hinv.drop hsup hrows, fun s =>
      ⟨OrdMap.sumOf_nonneg (hinv.weights_nonneg s), hguard.2 hcall s⟩, hunboxed'⟩
  have hkeep (hsup : σ'.supplies = σ.supplies) (hrows : σ'.accounts = σ.accounts) :
      LifeInv σ' :=
    ⟨o, hinv.congr hsup hrows, ho, hunboxed'⟩
  cases call with
  | cfginit =>
    rw [Token.step, apply, cfginit, Context.requireAuth, check_bind_eq_ok_iff,
      pure_eq_ok_iff] at hok
    obtain ⟨-, rfl⟩ := hok
    exact hdrop rfl rfl rfl
  | cfgdestruct =>
    rw [Token.step, apply, cfgdestruct, Context.requireAuth, check_bind_eq_ok_iff,
      pure_eq_ok_iff] at hok
    obtain ⟨-, rfl⟩ := hok
    exact hdrop rfl rfl rfl
  | claimdrops indices owner =>
    rw [Token.step, apply, bind_eq_ok_iff] at hok
    obtain ⟨r, hclaim, hissue⟩ := hok
    obtain rfl := claimdrops_of_unboxed_empty hunboxed hclaim
    have hfits : IssueFits σ ∅ := fun s a hs => by simp at hs
    exact ⟨o, (issue_spec hinv ho hfits hissue).1, ho, hunboxed'⟩
  | setsupplies maxSupply => exact ⟨o, (setsupplies_spec hinv hok).1, ho, hunboxed'⟩
  | rmvsupply maxSupply => exact ⟨o, (rmvsupply_spec hinv hok).1, ho, hunboxed'⟩
  | issue owner tokens memo =>
    have hissue : issue ctx σ owner tokens memo = .ok σ' := hok
    exact ⟨o, (issue_spec hinv ho (hinv.fits_of_legal hguard.1) hissue).1, ho, hunboxed'⟩
  | retire owner tokens memo =>
    have hretire : retire ctx σ owner tokens memo = .ok σ' := hok
    exact ⟨o, (retire_spec hinv hretire).1, ho, hunboxed'⟩
  | transfer sender receiver tokens memo =>
    exact ⟨o, (transfer_spec hinv ho hok).1, ho, hunboxed'⟩
  | openAccount owner => exact ⟨o, (openAccount_spec hinv hok).1, ho, hunboxed'⟩
  | closeAccount owner => exact ⟨o, (closeAccount_spec hinv hok).1, ho, hunboxed'⟩
  | _ =>
    simp only [Token.step, apply, cfgsetparams, setfungibles, setdrops, rmvdrops, rolldrops,
      execdrops, bind_eq_ok_iff, pure_eq_ok_iff, Context.requireAuth_eq_ok_iff,
      exists_const] at hok
    exact hkeep (by grind) (by grind)

theorem LifeInv.balanceOf_le (h : LifeInv σ) (a : Name) (s : Symbol) :
    balanceOf σ a s ≤ 2 ^ 62 - 1 := by
  obtain ⟨o, hinv, ho, -⟩ := h
  exact hinv.balanceOf_le ho a s

theorem lifeInv_empty : LifeInv {} := by
  refine ⟨fun _ => 0, ⟨Supplies.wf_empty, fun a row h => by simp at h, ?_⟩, atMostOne_zero, rfl⟩
  intro s
  rw [total_of_accounts_empty rfl, supplyOf, State.sup, Option.getD_none, bal_empty, add_zero]

/-- **The cap survives administration** that drops the supplies record only while no more than
one unit of any symbol is out: in every state reached, what the rows hold of a registered symbol
is at most its cap. -/
theorem cap_survives_administration {tr : List (Context × Call)}
    (hrun : Run step DropGuard {} tr σ) {sup : Supplies} (hsup : σ.supplies = some sup)
    {s : Symbol} {m : Int64} (hm : sup.maxSupply[s]? = some m) : total σ s ≤ m.toInt := by
  obtain ⟨o, hinv, ho, -⟩ := hrun.state_invariant lifeInv_empty fun _ _ _ hI hg hs =>
    hI.step hg hs
  have hsup' : σ.sup = sup := State.sup_of_some hsup
  have hwf : sup.WF := hsup' ▸ hinv.supplies
  obtain ⟨v, hv⟩ := OrdMap.mem_iff_exists.mp
    ((hwf.keys s).mpr (OrdMap.mem_iff_exists.mpr ⟨m, hm⟩))
  have hcap := hwf.capped s v m hv hm
  have hos := ho s
  rw [hinv.conserved s, supplyOf, hsup', bal_of_some hv]
  omega

theorem cap_survives_administration_capAndIssue :
    ∃ σ, Run step DropGuard {} (tokenCall .cfginit :: capAndIssue) σ ∧
      ∃ sup, σ.supplies = some sup ∧ sup.maxSupply[coreSymbol]? = some 100 ∧
        total σ coreSymbol ≤ 100 := by
  have hinit : Run step DropGuard {} [tokenCall .cfginit] fresh :=
    .single ⟨trivial, fun _ s => by rw [total_of_accounts_empty rfl]; exact zero_le_one⟩ rfl
  obtain ⟨σ, hrest, hcap⟩ := returns_iff.mp (show returns (capAndIssue.foldlM step fresh)
    (fun σ => σ.supplies.isSome ∧ σ.sup.maxSupply[coreSymbol]? = some 100) = true by decide)
  obtain ⟨hsome, hcap⟩ := of_decide_eq_true hcap
  have hrun := hinit.trans (Run.of_foldlM (fun s c hc => by
    simp only [capAndIssue, List.mem_cons, List.not_mem_nil, or_false] at hc
    rcases hc with rfl | rfl
    · exact ⟨trivial, fun h => absurd h Bool.false_ne_true⟩
    · exact ⟨legal_issue_coreTokens (by decide), fun h => absurd h Bool.false_ne_true⟩) hrest)
  obtain ⟨sup, hsup⟩ := Option.isSome_iff_exists.mp hsome
  rw [State.sup_of_some hsup] at hcap
  exact ⟨σ, hrun, sup, hsup, hcap, cap_survives_administration hrun hsup hcap⟩

/-- A cap of 100 with 50 units out, dropped and registered again as a cap of 10. -/
def dropAndRecap : List (Context × Call) :=
  [tokenCall .cfginit, tokenCall (.setsupplies (coreTokens 100)),
    tokenCall (.issue (.ofString "alice") (coreTokens 50) ""), tokenCall .cfginit,
    tokenCall (.setsupplies (coreTokens 10))]

theorem dropAndRecap_breaks_cap :
    ∃ σ, Run step (fun _ c => c.2.Legal) {} dropAndRecap σ ∧
      ∃ sup, σ.supplies = some sup ∧ sup.maxSupply[coreSymbol]? = some 10 ∧
        total σ coreSymbol = 50 := by
  obtain ⟨σ, hσ, hend⟩ := returns_iff.mp (show returns (dropAndRecap.foldlM step {})
    (fun σ => σ.supplies.isSome ∧ σ.sup.maxSupply[coreSymbol]? = some 10 ∧
      total σ coreSymbol = 50) = true by decide)
  obtain ⟨hsome, hcap, htotal⟩ := of_decide_eq_true hend
  obtain ⟨sup, hsup⟩ := Option.isSome_iff_exists.mp hsome
  rw [State.sup_of_some hsup] at hcap
  refine ⟨σ, Run.of_foldlM (fun s c hc => ?_) hσ, sup, hsup, hcap, htotal⟩
  simp only [dropAndRecap, List.mem_cons, List.not_mem_nil, or_false] at hc
  rcases hc with rfl | rfl | rfl | rfl | rfl
  · trivial
  · trivial
  · exact legal_issue_coreTokens (by decide)
  · trivial
  · trivial

/-- **Dropping the record breaks the cap** once two units of a symbol are out: the symbol can be
registered again with a cap of one unit. -/
theorem drop_breaks_cap (h : Inv o σ) (hauth : ctx.hasAuth ctx.self) {s : Symbol}
    (htotal : 2 ≤ total σ s) :
    ∃ σ₁ σ₂, cfginit ctx σ = .ok σ₁ ∧
      setsupplies ctx σ₁ ((∅ : FungiblePairs).insert s 1) = .ok σ₂ ∧
      σ₂.sup.maxSupply[s]? = some 1 ∧ 1 < total σ₂ s := by
  -- some row holds the symbol, so the symbol is valid
  have hvalid : s.isValid = true := by
    by_contra hs
    have hzero : total σ s = 0 := by
      refine List.sum_eq_zero ?_
      intro x hx
      obtain ⟨e, he, rfl⟩ := List.mem_map.mp hx
      have hrow := h.holdings e.1 e.2 (OrdMap.mem_toList.mp he)
      exact bal_of_none (OrdMap.not_mem_iff.mp fun hmem => hs (hrow.valid s hmem))
    omega
  let record : Supplies :=
    ⟨(∅ : FungiblePairs).insertIfNew s 0, (∅ : FungiblePairs).insertIfNew s 1⟩
  have hone : setsuppliesOne {} (s, 1) = .ok record := by
    refine setsuppliesOne_eq_ok_iff.mpr ⟨ExtTreeMap.not_mem_empty, ?_, by decide, rfl⟩
    refine Asset.isValid_iff.mpr ⟨?_, hvalid⟩
    show -(2 ^ 62 - 1) ≤ (1 : Int64).toInt ∧ (1 : Int64).toInt ≤ 2 ^ 62 - 1
    decide
  let σ₁ : State := { σ with config := some {}, fungibles := some ∅, supplies := some {} }
  refine ⟨σ₁, { σ₁ with supplies := some record }, ?_, ?_, ?_, htotal⟩
  · rw [cfginit, Context.requireAuth, check_bind_eq_ok_iff]
    exact ⟨hauth, rfl⟩
  · rw [setsupplies, Context.requireAuth, check_bind_eq_ok_iff]
    refine ⟨hauth, ?_⟩
    rw [OrdMap.toList_insert_empty, bind_eq_ok_iff]
    refine ⟨{}, rfl, bind_eq_ok_iff.mpr ⟨record, ?_, rfl⟩⟩
    rw [List.foldlM_cons, hone]
    rfl
  · show ((∅ : FungiblePairs).insertIfNew s 1)[s]? = some 1
    rw [insertIfNew_of_not_mem ExtTreeMap.not_mem_empty]
    simp

end Twig.Token
