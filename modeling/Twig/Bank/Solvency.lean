import Twig.Bank.Payouts

/-!
# Solvency

The bank next to the ledger of the token contract. A deposit has been credited when the bank is
notified of it, and the transfers that the bank sends run in the ledger afterwards, one by one. An
action that one of them fails aborts altogether.

* `Treasury.Solvent` — the balance of the bank covers what is outstanding in its rows;
* `bank_solvent` — the bank is solvent in every state reached, and honours everything it sends.
-/

namespace Twig.Bank

open Std Fallible Twig.System Token

/-! ### The bank and the ledger -/

/-- The lucky number, the vesting table and the ledger, with the accounts that exist. -/
structure Treasury where
  luck : ALuckyNumber := { producer := systemAccount }
  vesting : Table Name Vesting := ∅
  ledger : Token.State := {}
  accounts : Name → Bool := fun _ => false
  /-- All deposits together. -/
  deposited : ℤ := 0

namespace Treasury

inductive Event
  /-- A lucky block, which may open an epoch. -/
  | hit (ctx : Context) (producer : Name)
  /-- A transfer of a share from the chunks account. -/
  | deposit (ctx : Context) (share : Share) (amount : Int64)
  /-- A further call of `onepoch`. -/
  | onepoch (ctx : Context) (epoch : UInt32)
  | cleanup (ctx : Context)
  /-- Any other action of the token contract. -/
  | ledger (ctx : Context) (call : Token.Call)

namespace Event

def ctx : Event → Context
  | .hit ctx _ | .deposit ctx _ _ | .onepoch ctx _ | .cleanup ctx | .ledger ctx _ => ctx

/-- What is deposited. -/
def amount : Event → ℤ
  | .deposit _ _ amount => amount.toInt
  | _ => 0

end Event

variable (v : Treasury)

/-- The lucky number after a block. -/
def luckAfter : Event → ALuckyNumber
  | .hit _ producer => (luckyHit producer v.luck).1
  | _ => v.luck

/-- What happens to the ledger before the bank acts. -/
def credit : Event → Outcome Token.State
  | .deposit ctx share amount =>
    Token.transfer (ctx.inlineBy tokenAccount chunksAccount) v.ledger chunksAccount bankAccount
      [⟨amount, coreSymbol⟩] share.memo
  | .ledger ctx call => Token.apply ctx v.ledger call
  | _ => pure v.ledger

/-- What the bank does, and the transfers that it sends. It is notified of every transfer. -/
def act : Event → Outcome (Table Name Vesting × List Token.Inline)
  | .hit ctx producer =>
    match luckyHit producer v.luck with
    | (luck, .onepoch epoch) =>
      Bank.onepoch (ctx.inlineBy bankAccount bankAccount) (some luck) v.vesting epoch
    | _ => pure (v.vesting, [])
  | .deposit ctx share amount =>
    tokenDeposit (ctx.inlineBy bankAccount chunksAccount) (some v.luck) v.vesting chunksAccount
      bankAccount [⟨amount, coreSymbol⟩] share.memo
  | .onepoch ctx epoch =>
    Bank.onepoch { ctx with self := bankAccount } (some v.luck) v.vesting epoch
  | .cleanup ctx => do pure (← Bank.cleanup { ctx with self := bankAccount } v.vesting, [])
  | .ledger ctx (.transfer sender receiver tokens memo) =>
    tokenDeposit { ctx with self := bankAccount } (some v.luck) v.vesting sender receiver tokens
      memo
  | .ledger _ _ => pure (v.vesting, [])

def step (e : Event) : Outcome Treasury := do
  let ledger ← v.credit e
  let (vesting, sends) ← v.act e
  let ledger ← runToken e.ctx ledger sends
  pure
    { luck := v.luckAfter e
      vesting
      ledger
      accounts := e.ctx.isAccount
      deposited := v.deposited + e.amount }

/-- What an event has to meet by itself. -/
def Allowed : Event → Prop
  | .hit _ _ => True
  -- a positive deposit for an existing account other than the bank
  | .deposit ctx share amount =>
    share.beneficiary v.luck ≠ bankAccount ∧ ctx.isAccount (share.beneficiary v.luck) ∧
      0 < amount.toInt ∧ v.deposited + amount.toInt ≤ 2 ^ 62 - 1
  -- in step with the system's epoch
  | .onepoch ctx epoch => ctx.hasAuth bankAccount ∧ epoch = v.luck.epoch
  | .cleanup ctx => ctx.hasAuth bankAccount
  -- neither a deposit nor a debit of the bank
  | .ledger ctx call =>
    DropGuard v.ledger (ctx, call) ∧ v.act (.ledger ctx call) = .ok (v.vesting, []) ∧
      ∀ τ, Token.apply ctx v.ledger call = .ok τ →
        balanceOf v.ledger bankAccount coreSymbol ≤ balanceOf τ bankAccount coreSymbol

/-- Accounts are not removed, and the empty name is none. -/
structure Guard (e : Event) : Prop where
  kept : ∀ a, v.accounts a → e.ctx.isAccount a
  unnamed : e.ctx.isAccount ⟨0⟩ = false
  allowed : v.Allowed e

end Treasury

/-- The transfers of a chunk to the bank are deposits. -/
theorem share_of_chunkShares {total : Int64} {t : Name × Int64 × String}
    (ht : t ∈ chunkShares total) (hbank : t.1 = bankAccount) :
    ∃ share : Share, t.2.2 = share.memo := by
  have hboard : boardAccount ≠ bankAccount := by decide
  have hworld : worldAccount ≠ bankAccount := by decide
  simp only [chunkShares, List.mem_cons, List.not_mem_nil, or_false] at ht
  rcases ht with rfl | rfl | rfl | rfl
  · exact ⟨.team, rfl⟩
  · exact absurd hbank hboard
  · exact ⟨.producer, rfl⟩
  · exact absurd hbank hworld

/-- **Solvency.** -/
structure Treasury.Solvent (v : Treasury) : Prop where
  covered : OrdMap.sumOf outstanding v.vesting ≤ balanceOf v.ledger bankAccount coreSymbol
  vested : ∀ (p : Name) (row : Vesting), v.vesting[p]? = some row → 0 ≤ row.vested.amount.toInt
  unvested : ∀ (p : Name) (row : Vesting), v.vesting[p]? = some row →
    0 ≤ row.unvested.amount.toInt ∧
      row.unvested.amount.toInt ≤ row.unvestingTotal.amount.toInt

/-! ### Runs -/

/-- The invariant: the books are in order, every row is, and the balance covers the rows. -/
structure SolvencyInv (v : Treasury) : Prop where
  ledger : LifeInv v.ledger
  rows : ∀ (p : Name) (row : Vesting), v.vesting[p]? = some row → RowOk v.accounts p row
  covered : OrdMap.sumOf outstanding v.vesting ≤ balanceOf v.ledger bankAccount coreSymbol

theorem solvencyInv_start : SolvencyInv {} where
  ledger := lifeInv_empty
  rows p row h := by simp at h
  covered := by
    rw [OrdMap.sumOf_empty]
    exact Int.le_refl 0

variable {v v' : Treasury} {e : Treasury.Event} {τ τ₁ : Token.State} {sends : List Token.Inline}

theorem SolvencyInv.solvent (h : SolvencyInv v) : v.Solvent where
  covered := h.covered
  vested p row hp := (h.rows p row hp).vested
  unvested p row hp := ⟨(h.rows p row hp).unvested, (h.rows p row hp).le⟩

theorem SolvencyInv.tableOk (h : SolvencyInv v) : TableOk v.accounts v.vesting :=
  ⟨h.rows, h.covered.trans (h.ledger.balanceOf_le bankAccount coreSymbol)⟩

/-- **Before the bank acts** the ledger has credited what is deposited. -/
theorem SolvencyInv.credit (h : SolvencyInv v) (hguard : v.Guard e) (hok : v.credit e = .ok τ) :
    LifeInv τ ∧ balanceOf v.ledger bankAccount coreSymbol + e.amount ≤
      balanceOf τ bankAccount coreSymbol := by
  cases e with
  | deposit ctx share amount =>
    have hne : chunksAccount ≠ bankAccount := by decide
    obtain ⟨hlife, hbook⟩ := transfer_book h.ledger hok
    refine ⟨hlife, ?_⟩
    rw [hbook, Book.move_apply hne, if_neg hne.symm, if_pos rfl, sent_singleton, if_pos rfl]
    exact Int.le_refl _
  | ledger ctx call =>
    obtain ⟨hdrop, -, hdebit⟩ := hguard.allowed
    refine ⟨h.ledger.step hdrop hok, ?_⟩
    simpa [Treasury.Event.amount] using hdebit τ hok
  | _ =>
    obtain rfl := pure_eq_ok_iff.mp hok
    exact ⟨h.ledger, by simp [Treasury.Event.amount]⟩

/-- **The bank never fails**, and pays only what it takes out of its rows. -/
theorem SolvencyInv.act (h : SolvencyInv v) (hguard : v.Guard e) (hcredit : v.credit e = .ok τ) :
    ∃ r, v.act e = .ok r ∧ TableMove e.ctx e.amount v.vesting r.1 r.2 := by
  have hrefl : TableMove e.ctx 0 v.vesting v.vesting [] := h.tableOk.refl hguard.kept
  obtain ⟨hlife, hcredited⟩ := h.credit hguard hcredit
  have hmax := hlife.balanceOf_le bankAccount coreSymbol
  have hcovered := h.covered
  cases e with
  | hit ctx producer =>
    rcases UInt32.eq_zero_or_pos v.luck.chunksRemaining with hzero | hpos
    · -- the epoch that `onepoch` is sent is the one that the lucky number has moved on to
      rw [Treasury.act, luckyHit_of_zero hzero]
      exact h.tableOk.exists_onepoch_move (a := { v.luck with
        blocksSince := 0, producer, chunksRemaining := luckyNumberChunks,
        epoch := v.luck.epoch + 1 }) hguard.kept rfl (by simp [Context.inlineBy])
    · exact ⟨(v.vesting, []), by rw [Treasury.act, luckyHit_of_pos hpos]; rfl, hrefl⟩
  | deposit ctx share amount =>
    obtain ⟨hother, hexist, hpos, -⟩ := hguard.allowed
    rw [Treasury.Event.amount] at hcredited
    obtain ⟨r, hr, hmove⟩ := h.tableOk.exists_depositFor_move (a := v.luck) hguard.kept hother
      hexist hpos (by omega)
    have hnamed : (share.beneficiary v.luck).value ≠ 0 := by
      intro hzero
      have hempty : share.beneficiary v.luck = ⟨0⟩ := congrArg Name.mk hzero
      rw [hempty] at hexist
      exact absurd (hexist.symm.trans hguard.unnamed) Bool.noConfusion
    exact ⟨r, tokenDeposit_share_eq_ok_iff.mpr ⟨hnamed, hr⟩, hmove⟩
  | onepoch ctx epoch =>
    obtain ⟨hauth, rfl⟩ := hguard.allowed
    exact h.tableOk.exists_onepoch_move hguard.kept rfl hauth
  | cleanup ctx =>
    have hauth : ctx.hasAuth bankAccount := hguard.allowed
    refine ⟨(∅, []), bind_eq_ok_iff.mpr ⟨∅, cleanup_eq_ok_iff.mpr ⟨hauth, rfl⟩, rfl⟩,
      by simp, by simp, ?_⟩
    simpa [Treasury.Event.amount] using h.tableOk.nonneg
  | ledger ctx call =>
    obtain ⟨-, hunnoticed, -⟩ := hguard.allowed
    exact ⟨_, hunnoticed, hrefl⟩

/-- **What the bank sends is honoured**, and the invariant is kept. -/
theorem SolvencyInv.settle (h : SolvencyInv v) (hguard : v.Guard e) (hcredit : v.credit e = .ok τ) :
    ∃ vesting sends τ₁, v.act e = .ok (vesting, sends) ∧ Honoured e.ctx τ sends τ₁ ∧
      SolvencyInv ⟨v.luckAfter e, vesting, τ₁, e.ctx.isAccount, v.deposited + e.amount⟩ := by
  obtain ⟨⟨vesting, sends⟩, hact, hmove⟩ := h.act hguard hcredit
  obtain ⟨hlife, hcredited⟩ := h.credit hguard hcredit
  have hcovered := h.covered
  obtain ⟨τ₁, hhonoured, hlife', hleft⟩ := hmove.honoured hlife (by omega)
  exact ⟨vesting, sends, τ₁, hact, hhonoured, hlife', hmove.rows, hleft⟩

/-- A step whose transfers are honoured. -/
theorem step_eq_ok {vesting : Table Name Vesting} (hcredit : v.credit e = .ok τ)
    (hact : v.act e = .ok (vesting, sends)) (hhonoured : Honoured e.ctx τ sends τ₁) :
    v.step e =
      .ok ⟨v.luckAfter e, vesting, τ₁, e.ctx.isAccount, v.deposited + e.amount⟩ := by
  refine bind_eq_ok_iff.mpr ⟨τ, hcredit, bind_eq_ok_iff.mpr ⟨(vesting, sends), hact, ?_⟩⟩
  exact bind_eq_ok_iff.mpr ⟨τ₁, hhonoured.runToken_eq, rfl⟩

/-- **Every step keeps the invariant.** -/
theorem SolvencyInv.step (h : SolvencyInv v) (hguard : v.Guard e) (hok : v.step e = .ok v') :
    SolvencyInv v' := by
  simp only [Treasury.step, bind_eq_ok_iff, pure_eq_ok_iff] at hok
  obtain ⟨τ, hcredit, ⟨vesting, sends⟩, hact, τ₁, hrun, rfl⟩ := hok
  obtain ⟨vesting', sends', τ₂, hact', hhonoured, hinv⟩ := h.settle hguard hcredit
  obtain ⟨rfl, rfl⟩ := Prod.mk.inj (Except.ok.inj (hact.symm.trans hact'))
  obtain rfl := Except.ok.inj (hrun.symm.trans hhonoured.runToken_eq)
  exact hinv

/-- **The bank is solvent.** In every run of lucky blocks, deposits for existing accounts, calls of
`onepoch` and `cleanup`, and actions of the token contract that do not debit the bank: its balance
covers what is outstanding in its rows, nothing of which is negative. Whatever happens next, once
the ledger has credited a deposit the bank does not fail, each of its transfers is positive and
covered at the moment it runs, and the step goes through. -/
theorem bank_solvent {tr : List Treasury.Event}
    (hrun : Run Treasury.step Treasury.Guard {} tr v) :
    v.Solvent ∧ ∀ e τ, v.Guard e → v.credit e = .ok τ → ∃ vesting sends τ₁ v₁,
      v.act e = .ok (vesting, sends) ∧ Honoured e.ctx τ sends τ₁ ∧ v.step e = .ok v₁ := by
  have h : SolvencyInv v :=
    hrun.state_invariant solvencyInv_start fun _ _ _ hI hg hs => hI.step hg hs
  refine ⟨h.solvent, ?_⟩
  intro e τ hguard hcredit
  obtain ⟨vesting, sends, τ₁, hact, hhonoured, -⟩ := h.settle hguard hcredit
  exact ⟨vesting, sends, τ₁, _, hact, hhonoured, step_eq_ok hcredit hact hhonoured⟩

/-! ### A first deposit -/

/-- Every authorisation, on a chain where every name but the empty one is an account. -/
def everybody : Context := { Context.permissive tokenAccount with isAccount := fun a => a ≠ ⟨0⟩ }

/-- A step from a state in which the bank holds nothing can be any action of the token contract
that does not concern it. -/
theorem SolvencyInv.run_ledger (call : Token.Call) (h : SolvencyInv v)
    (hkept : ∀ a, v.accounts a → everybody.isAccount a)
    (hdrop : DropGuard v.ledger (everybody, call))
    (hact : v.act (.ledger everybody call) = .ok (v.vesting, []))
    (hzero : balanceOf v.ledger bankAccount coreSymbol = 0)
    (hok : v.step (.ledger everybody call) = .ok v') :
    Run Treasury.step Treasury.Guard v [.ledger everybody call] v' ∧ SolvencyInv v' ∧
      ∀ a, v'.accounts a → everybody.isAccount a := by
  have hguard : v.Guard (.ledger everybody call) := by
    refine ⟨hkept, show everybody.isAccount ⟨0⟩ = false by decide, hdrop, hact, ?_⟩
    intro τ hτ
    obtain ⟨o, hinv, -⟩ := h.ledger.step hdrop hτ
    rw [hzero]
    exact hinv.balanceOf_nonneg bankAccount coreSymbol
  refine ⟨.single hguard hok, h.step hguard hok, ?_⟩
  simp only [Treasury.step, bind_eq_ok_iff, pure_eq_ok_iff] at hok
  obtain ⟨-, -, -, -, -, -, rfl⟩ := hok
  exact fun a ha => ha

/-- A cap and an issue to the chunks account, of which nine units are deposited for the team. -/
theorem bank_solvent_firstDeposit :
    ∃ v, Run Treasury.step Treasury.Guard {}
        [.ledger everybody .cfginit, .ledger everybody (.setsupplies (coreTokens 100)),
          .ledger everybody (.issue chunksAccount (coreTokens 50) ""),
          .deposit everybody .team 9] v ∧
      balanceOf v.ledger bankAccount coreSymbol = 9 ∧
      OrdMap.sumOf outstanding v.vesting = 9 ∧ v.Solvent := by
  obtain ⟨v₁, h₁, hlast⟩ := returns_iff.mp (show returns
    (Treasury.step {} (.ledger everybody .cfginit)) (fun v₁ =>
      balanceOf v₁.ledger bankAccount coreSymbol = 0 ∧
      returns (v₁.step (.ledger everybody (.setsupplies (coreTokens 100)))) fun v₂ =>
        balanceOf v₂.ledger bankAccount coreSymbol = 0 ∧
        returns (v₂.step (.ledger everybody (.issue chunksAccount (coreTokens 50) ""))) fun v₃ =>
          v₃.deposited = 0 ∧
          returns (v₃.step (.deposit everybody .team 9)) fun v₄ =>
            balanceOf v₄.ledger bankAccount coreSymbol = 9 ∧
            OrdMap.sumOf outstanding v₄.vesting = 9) = true by decide +kernel)
  obtain ⟨hzero₁, hlast⟩ := of_decide_eq_true hlast
  obtain ⟨v₂, h₂, hlast⟩ := returns_iff.mp hlast
  obtain ⟨hzero₂, hlast⟩ := of_decide_eq_true hlast
  obtain ⟨v₃, h₃, hlast⟩ := returns_iff.mp hlast
  obtain ⟨hdeposited, hlast⟩ := of_decide_eq_true hlast
  obtain ⟨v, h₄, hlast⟩ := returns_iff.mp hlast
  obtain ⟨hbalance, hrows⟩ := of_decide_eq_true hlast
  have hnone : ∀ a, (fun _ => false : Name → Bool) a → everybody.isAccount a :=
    fun a ha => absurd ha Bool.false_ne_true
  obtain ⟨hrun₁, hinv₁, hkept₁⟩ := solvencyInv_start.run_ledger .cfginit hnone
    ⟨trivial, fun _ s => by rw [total_of_accounts_empty rfl]; exact zero_le_one⟩ rfl rfl h₁
  obtain ⟨hrun₂, hinv₂, hkept₂⟩ := hinv₁.run_ledger (.setsupplies (coreTokens 100)) hkept₁
    ⟨trivial, fun h => absurd h Bool.false_ne_true⟩ rfl hzero₁ h₂
  obtain ⟨hrun₃, -, hkept₃⟩ := hinv₂.run_ledger
    (.issue chunksAccount (coreTokens 50) "") hkept₂
    ⟨legal_issue_coreTokens (by decide), fun h => absurd h Bool.false_ne_true⟩ rfl hzero₂ h₃
  have hguard : v₃.Guard (.deposit everybody .team 9) :=
    ⟨hkept₃, by decide, show teamAccount ≠ bankAccount by decide,
      show everybody.isAccount teamAccount by decide, by decide, by rw [hdeposited]; decide⟩
  have hrun := ((hrun₁.trans hrun₂).trans hrun₃).trans (.single hguard h₄)
  exact ⟨v, hrun, hbalance, hrows, (bank_solvent hrun).1⟩

end Twig.Bank
