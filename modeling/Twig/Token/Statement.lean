import Twig.Token.Lifetime

/-!
# Statements of account

What an account holds is what the calls of a run have moved to it, less what they have moved
away: `movement` says what a call moves, from its arguments alone. Every call that moves something
away is signed by the holder or by the contract.

* `balance_step` — a call changes each balance by its movement;
* `statement_of_account` — over a run the movements add up to the balance;
* `no_unsigned_debit` — without the signatures of its holder and of the contract, nothing leaves
  an account, no row disappears, and the supplies and the configuration stand still.
-/

namespace Twig.Token

open Std Fallible

variable {o : Symbol → ℤ} {σ σ' : State} {ctx : Context} {call : Call} {a : Name} {s : Symbol}

/-! ### Movements -/

/-- What a call that succeeds adds to what an account holds of a symbol. -/
def Call.movement (a : Name) (s : Symbol) : Call → ℤ
  | .issue owner tokens _ => if owner = a then bal tokens s else 0
  | .retire owner tokens _ => if owner = a then -bal tokens s else 0
  | .transfer sender receiver tokens _ =>
    (if receiver = a then sent tokens s else 0) - if sender = a then sent tokens s else 0
  | _ => 0

/-- The movements of a trace on an account. -/
def movements (a : Name) (s : Symbol) (tr : List (Context × Call)) : ℤ :=
  (tr.map fun c => c.2.movement a s).sum

theorem movements_snoc {tr : List (Context × Call)} {c : Context × Call} :
    movements a s (tr ++ [c]) = movements a s tr + c.2.movement a s := by
  simp [movements]

/-- Nobody transfers to themselves. -/
theorem ne_of_transfer {sender receiver : Name} {tokens : List Asset} {memo : String}
    (hok : transfer ctx σ sender receiver tokens memo = .ok σ') : sender ≠ receiver := by
  simp only [transfer, bind_eq_ok_iff, check_eq_ok_iff, exists_const] at hok
  obtain ⟨-, -, hne, -⟩ := hok
  exact hne

/-- The calls that write none of the balances. -/
def Call.sparesBalances : Call → Bool
  | .issue _ _ _ | .retire _ _ _ | .transfer _ _ _ _ | .claimdrops _ _ => false
  | _ => true

/-- Calls that configure the contract, or open and close accounts, move nothing. -/
theorem balanceOf_of_sparesBalances (h : Inv o σ) (hcall : call.sparesBalances)
    (hok : step σ (ctx, call) = .ok σ') : balanceOf σ' = balanceOf σ := by
  cases call with
  | openAccount owner => exact (openAccount_spec h hok).2.2
  | closeAccount owner => exact (closeAccount_spec h hok).2.2.1
  | issue _ _ _ => exact absurd hcall (by simp [Call.sparesBalances])
  | retire _ _ _ => exact absurd hcall (by simp [Call.sparesBalances])
  | transfer _ _ _ _ => exact absurd hcall (by simp [Call.sparesBalances])
  | claimdrops _ _ => exact absurd hcall (by simp [Call.sparesBalances])
  | _ =>
    have hrows : σ'.accounts = σ.accounts := by
      simp only [step, apply, cfginit, cfgdestruct, cfgsetparams, setfungibles, setsupplies,
        rmvsupply, setdrops, rmvdrops, rolldrops, execdrops, bind_eq_ok_iff, pure_eq_ok_iff,
        Context.requireAuth_eq_ok_iff, exists_const] at hok
      grind
    funext b s
    rw [balanceOf, hrows, ← balanceOf]

/-- **A call changes each balance by its movement.** -/
theorem balance_step (h : LifeInv σ) (hlegal : call.Legal) (hok : step σ (ctx, call) = .ok σ')
    (a : Name) (s : Symbol) : balanceOf σ' a s = balanceOf σ a s + call.movement a s := by
  obtain ⟨o, hinv, ho, hunboxed⟩ := h
  have hspared (hcall : call.sparesBalances) (hnone : call.movement a s = 0) :
      balanceOf σ' a s = balanceOf σ a s + call.movement a s := by
    rw [balanceOf_of_sparesBalances hinv hcall hok, hnone, add_zero]
  cases call with
  | issue owner tokens memo =>
    have hissue : issue ctx σ owner tokens memo = .ok σ' := hok
    obtain ⟨-, -, hbook, -⟩ := issue_spec hinv ho (hinv.fits_of_legal hlegal) hissue
    rw [hbook, Book.credit_apply, Call.movement]
    by_cases ha : a = owner
    · rw [if_pos ha, if_pos ha.symm, ha]
    · rw [if_neg ha, if_neg (Ne.symm ha), add_zero]
  | retire owner tokens memo =>
    have hretire : retire ctx σ owner tokens memo = .ok σ' := hok
    obtain ⟨-, -, hbook, -⟩ := retire_spec hinv hretire
    rw [hbook, Book.debit_apply, Call.movement]
    by_cases ha : a = owner
    · rw [if_pos ha, if_pos ha.symm, ha, sub_eq_add_neg]
    · rw [if_neg ha, if_neg (Ne.symm ha), add_zero]
  | transfer sender receiver tokens memo =>
    obtain ⟨-, -, hbook⟩ := transfer_spec hinv ho hok
    have hne : sender ≠ receiver := ne_of_transfer hok
    rw [hbook, Book.move_apply hne, Call.movement]
    by_cases hs : a = sender
    · rw [if_pos hs, if_pos hs.symm, if_neg (hs ▸ hne.symm), hs, zero_sub, sub_eq_add_neg]
    · rw [if_neg hs, if_neg (Ne.symm hs), sub_zero]
      by_cases hr : a = receiver
      · rw [if_pos hr, if_pos hr.symm, hr]
      · rw [if_neg hr, if_neg (Ne.symm hr), add_zero]
  | claimdrops indices owner =>
    rw [step, apply, bind_eq_ok_iff] at hok
    obtain ⟨r, hclaim, hissue⟩ := hok
    -- nothing can be claimed, so the `issue` that is sent is empty
    obtain rfl := claimdrops_of_unboxed_empty hunboxed hclaim
    have hfits : IssueFits σ ∅ := fun s a hs => by simp at hs
    obtain ⟨-, -, hbook, -⟩ := issue_spec hinv ho hfits hissue
    have hnone : Call.movement a s (.claimdrops indices owner) = 0 := rfl
    rw [hbook, Book.credit_apply, bal_empty, hnone, add_zero, add_zero]
    split_ifs with ha
    · rw [ha]
    · rfl
  | _ => exact hspared rfl rfl

/-! ### Signatures -/

/-- What a transfer lists is strictly positive. -/
theorem pos_of_transfer {sender receiver : Name} {tokens : List Asset} {memo : String}
    (hok : transfer ctx σ sender receiver tokens memo = .ok σ') :
    ∀ t ∈ tokens, 0 < t.amount.toInt := by
  simp only [transfer, bind_eq_ok_iff] at hok
  obtain ⟨-, -, -, -, -, -, -, -, -, -, row, -, acc, hloop, -⟩ := hok
  intro t ht
  obtain ⟨acc₁, acc₂, hone⟩ := exists_of_foldlM hloop ht
  obtain ⟨held, -, -, hpos, -⟩ := transferOne_eq_ok_iff.mp hone
  exact Int64.toInt_pos_iff.mp hpos

/-- **What moves something away is signed** by the holder or by the contract. -/
theorem signed_of_movement_neg (hok : step σ (ctx, call) = .ok σ')
    (hneg : call.movement a s < 0) : ctx.hasAuth a ∨ ctx.hasAuth ctx.self := by
  cases call with
  | issue owner tokens memo =>
    have hnonneg : 0 ≤ bal tokens s := by
      cases hs : tokens[s]? with
      | none => rw [bal_of_none hs]
      | some amount =>
        have hissue : issue ctx σ owner tokens memo = .ok σ' := hok
        rw [bal_of_some hs]
        exact (pos_of_issue hissue hs).le
    rw [Call.movement] at hneg
    split_ifs at hneg
    · exact absurd hneg hnonneg.not_gt
    · exact absurd hneg (lt_irrefl 0)
  | retire owner tokens memo =>
    simp only [step, apply, retire, bind_eq_ok_iff, Context.requireAuth_eq_ok_iff] at hok
    obtain ⟨-, hauth, -⟩ := hok
    exact .inr hauth
  | transfer sender receiver tokens memo =>
    have hnonneg := sent_nonneg (pos_of_transfer hok) s
    simp only [step, apply, transfer, bind_eq_ok_iff, Context.requireAuth_eq_ok_iff] at hok
    obtain ⟨-, hauth, -⟩ := hok
    rw [Call.movement] at hneg
    split_ifs at hneg with hr hs hs
    · exact .inl (hs ▸ hauth)
    · rw [sub_zero] at hneg
      exact absurd hneg hnonneg.not_gt
    · exact .inl (hs ▸ hauth)
    · rw [sub_zero] at hneg
      exact absurd hneg (lt_irrefl 0)
  | _ => exact absurd hneg (lt_irrefl 0)

/-! ### Runs -/

theorem lifeInv_of_run {tr : List (Context × Call)} (hrun : Run step DropGuard {} tr σ) :
    LifeInv σ :=
  hrun.state_invariant lifeInv_empty fun _ _ _ hI hg hs => hI.step hg hs

/-- **Statement of account.** In every run whose issues are of legal amounts, and that drops the
supplies only while at most one unit of each symbol is out, the balance of every account in every
symbol is the sum of its movements, and each movement that takes something from an account is
signed by its holder or by the contract. -/
theorem statement_of_account {tr : List (Context × Call)} (hrun : Run step DropGuard {} tr σ)
    (a : Name) (s : Symbol) :
    balanceOf σ a s = movements a s tr ∧
      ∀ c ∈ tr, c.2.movement a s < 0 → c.1.hasAuth a ∨ c.1.hasAuth c.1.self := by
  refine ⟨?_, hrun.forall_mem fun _ ⟨_, _⟩ _ hs hneg => signed_of_movement_neg hs hneg⟩
  have hempty : balanceOf {} a s = 0 := by simp [balanceOf]
  refine (hrun.invariant (I := fun tr σ => LifeInv σ ∧ balanceOf σ a s = movements a s tr)
    ⟨lifeInv_empty, hempty⟩ ?_).2
  rintro tr σ c σ' - ⟨hlife, hsum⟩ hguard hok
  refine ⟨hlife.step hguard hok, ?_⟩
  rw [balance_step hlife hguard.1 hok, hsum, movements_snoc]

/-- Of 50 units issued to Alice, she sends 20 to Bob. -/
def issueAndPay : List (Context × Call) :=
  [tokenCall .cfginit, tokenCall (.setsupplies (coreTokens 100)),
    tokenCall (.issue (.ofString "alice") (coreTokens 50) ""),
    tokenCall (.transfer (.ofString "alice") (.ofString "bob") [⟨20, coreSymbol⟩] "rent")]

theorem exists_issueAndPay : ∃ σ, Run step DropGuard {} issueAndPay σ ∧
    balanceOf σ (.ofString "alice") coreSymbol = 30 := by
  obtain ⟨σ₁, hσ₁, hrest⟩ := returns_iff.mp (show returns (step {} (tokenCall .cfginit)) (fun σ =>
    returns ((issueAndPay.drop 1).foldlM step σ) fun σ =>
      balanceOf σ (.ofString "alice") coreSymbol = 30) = true by decide +kernel)
  obtain ⟨σ, hσ, hbal⟩ := returns_iff.mp hrest
  have hinit : Run step DropGuard {} [tokenCall .cfginit] σ₁ :=
    .single ⟨trivial, fun _ s => by rw [total_of_accounts_empty rfl]; exact zero_le_one⟩ hσ₁
  have hcalls : Run step DropGuard σ₁ (issueAndPay.drop 1) σ := by
    refine Run.of_foldlM (fun s c hc => ?_) hσ
    simp only [issueAndPay, List.drop_succ_cons, List.drop_zero, List.mem_cons, List.not_mem_nil,
      or_false] at hc
    rcases hc with rfl | rfl | rfl
    · exact ⟨trivial, fun h => absurd h Bool.false_ne_true⟩
    · exact ⟨legal_issue_coreTokens (by decide), fun h => absurd h Bool.false_ne_true⟩
    · exact ⟨trivial, fun h => absurd h Bool.false_ne_true⟩
  exact ⟨σ, hinit.trans hcalls, of_decide_eq_true hbal⟩

theorem statement_of_account_issueAndPay :
    ∃ σ, Run step DropGuard {} issueAndPay σ ∧
      30 = movements (.ofString "alice") coreSymbol issueAndPay := by
  obtain ⟨σ, hrun, hbal⟩ := exists_issueAndPay
  exact ⟨σ, hrun, hbal.symm.trans (statement_of_account hrun _ _).1⟩

/-- Neither the account nor the contract has signed. -/
def Unsigned (a : Name) (_ : State) (c : Context × Call) : Prop :=
  ¬ c.1.hasAuth a ∧ ¬ c.1.hasAuth c.1.self

/-- What stands still while the contract does not sign. -/
structure StandsStill (σ σ' : State) : Prop where
  config : σ'.config = σ.config
  fungibles : σ'.fungibles = σ.fungibles
  supplies : σ'.supplies = σ.supplies
  drops : σ'.drops = σ.drops

theorem StandsStill.trans {σ₁ : State} (h : StandsStill σ σ₁) (h' : StandsStill σ₁ σ') :
    StandsStill σ σ' where
  config := h'.config.trans h.config
  fungibles := h'.fungibles.trans h.fungibles
  supplies := h'.supplies.trans h.supplies
  drops := h'.drops.trans h.drops

/-- Users open and close accounts, transfer, and claim drops. -/
theorem user_call (hself : ¬ ctx.hasAuth ctx.self) (hok : step σ (ctx, call) = .ok σ') :
    (∃ owner, call = .openAccount owner ∨ call = .closeAccount owner) ∨
      (∃ indices owner, call = .claimdrops indices owner) ∨
      ∃ sender receiver tokens memo, call = .transfer sender receiver tokens memo := by
  cases call with
  | openAccount owner => exact .inl ⟨owner, .inl rfl⟩
  | closeAccount owner => exact .inl ⟨owner, .inr rfl⟩
  | claimdrops indices owner => exact .inr (.inl ⟨indices, owner, rfl⟩)
  | transfer sender receiver tokens memo => exact .inr (.inr ⟨sender, receiver, tokens, memo, rfl⟩)
  | _ =>
    simp only [step, apply, cfginit, cfgdestruct, cfgsetparams, setfungibles, setsupplies,
      rmvsupply, setdrops, rmvdrops, rolldrops, execdrops, issue, retire, bind_eq_ok_iff,
      Context.requireAuth_eq_ok_iff, exists_const] at hok
    exact absurd hok.1 hself

/-- Without the contract's signature a call leaves alone what only the contract may write. -/
theorem standsStill_of_user (h : LifeInv σ) (hself : ¬ ctx.hasAuth ctx.self)
    (hok : step σ (ctx, call) = .ok σ') : StandsStill σ σ' := by
  obtain ⟨o, hinv, ho, hunboxed⟩ := h
  rcases user_call hself hok with ⟨owner, rfl | rfl⟩ | ⟨indices, owner, rfl⟩ |
    ⟨sender, receiver, tokens, memo, rfl⟩
  · simp only [step, apply, openAccount, check_bind_eq_ok_iff, pure_eq_ok_iff] at hok
    obtain ⟨-, rfl⟩ := hok
    split_ifs <;> exact ⟨rfl, rfl, rfl, rfl⟩
  · simp only [step, apply, closeAccount, bind_eq_ok_iff, pure_eq_ok_iff] at hok
    obtain ⟨-, -, -, -, -, -, rfl⟩ := hok
    exact ⟨rfl, rfl, rfl, rfl⟩
  · rw [step, apply, bind_eq_ok_iff] at hok
    obtain ⟨r, hclaim, hissue⟩ := hok
    obtain rfl := claimdrops_of_unboxed_empty hunboxed hclaim
    have hnil : (∅ : FungiblePairs).toList = [] := ExtTreeMap.toList_eq_nil_iff.mpr rfl
    simp only [issue, hnil, bind_eq_ok_iff, singletonGet_eq_ok_iff, List.foldlM_nil,
      pure_eq_ok_iff] at hissue
    obtain ⟨-, -, sup, hsup, -, rfl, rfl⟩ := hissue
    exact ⟨rfl, rfl, hsup.symm, rfl⟩
  · simp only [step, apply, transfer, bind_eq_ok_iff, pure_eq_ok_iff] at hok
    obtain ⟨-, -, -, -, -, -, -, -, -, -, -, -, -, -, rfl⟩ := hok
    exact ⟨rfl, rfl, rfl, rfl⟩

/-- A call that its holder does not sign takes no row away. -/
theorem mem_accounts_of_unsigned (hself : ¬ ctx.hasAuth ctx.self) (ha : ¬ ctx.hasAuth a)
    (hok : step σ (ctx, call) = .ok σ') (hmem : a ∈ σ.accounts) : a ∈ σ'.accounts := by
  rcases user_call hself hok with ⟨owner, rfl | rfl⟩ | ⟨indices, owner, rfl⟩ |
    ⟨sender, receiver, tokens, memo, rfl⟩
  · simp only [step, apply, openAccount, check_bind_eq_ok_iff, pure_eq_ok_iff] at hok
    obtain ⟨-, rfl⟩ := hok
    split_ifs
    · exact hmem
    · simp [hmem]
  · simp only [step, apply, closeAccount, bind_eq_ok_iff, check_eq_ok_iff, exists_const,
      pure_eq_ok_iff] at hok
    obtain ⟨hauth, -, -, -, -, rfl⟩ := hok
    have hne : owner ≠ a := by
      rintro rfl
      exact hauth.elim hself ha
    simp [hmem, hne]
  · simp only [step, apply, claimdrops, issue, bind_eq_ok_iff, pure_eq_ok_iff] at hok
    obtain ⟨-, ⟨-, -, -, -, rfl⟩, -, -, -, -, -, -, rfl⟩ := hok
    simp [hmem]
  · simp only [step, apply, transfer, bind_eq_ok_iff, pure_eq_ok_iff] at hok
    obtain ⟨-, -, -, -, -, -, -, -, -, -, -, -, -, -, rfl⟩ := hok
    simp [hmem]

/-- Calls of users are within what a lifetime allows. -/
theorem dropGuard_of_user (hself : ¬ ctx.hasAuth ctx.self)
    (hok : step σ (ctx, call) = .ok σ') : DropGuard σ (ctx, call) := by
  rcases user_call hself hok with ⟨owner, rfl | rfl⟩ | ⟨indices, owner, rfl⟩ |
    ⟨sender, receiver, tokens, memo, rfl⟩
  all_goals exact ⟨trivial, fun h => absurd h Bool.false_ne_true⟩

/-- **No unsigned debit.** Whatever others do after a lifetime of the contract, while neither the
holder of an account nor the contract signs, no balance of the account falls, its row stays, and
neither the supplies nor the configuration nor the drops change. -/
theorem no_unsigned_debit {tr tr' : List (Context × Call)} (hrun : Run step DropGuard {} tr σ)
    (hrun' : Run step (Unsigned a) σ tr' σ') :
    (∀ s, balanceOf σ a s ≤ balanceOf σ' a s) ∧ (a ∈ σ.accounts → a ∈ σ'.accounts) ∧
      StandsStill σ σ' := by
  refine (hrun'.state_invariant (I := fun σ' => LifeInv σ' ∧
    (∀ s, balanceOf σ a s ≤ balanceOf σ' a s) ∧ (a ∈ σ.accounts → a ∈ σ'.accounts) ∧
      StandsStill σ σ')
    ⟨lifeInv_of_run hrun, fun _ => le_rfl, id, ⟨rfl, rfl, rfl, rfl⟩⟩ ?_).2
  rintro σ₁ ⟨ctx, call⟩ σ₂ ⟨hlife, hbal, hmem, hstill⟩ ⟨ha, hself⟩ hok
  have hguard := dropGuard_of_user hself hok
  refine ⟨hlife.step hguard hok, fun s => ?_,
    fun h => mem_accounts_of_unsigned hself ha hok (hmem h),
    hstill.trans (standsStill_of_user hlife hself hok)⟩
  -- a movement that takes something away would be signed
  have hnonneg : 0 ≤ call.movement a s := by
    by_contra hneg
    exact (signed_of_movement_neg hok (lt_of_not_ge hneg)).elim ha hself
  calc balanceOf σ a s ≤ balanceOf σ₁ a s + call.movement a s :=
        (hbal s).trans (le_add_of_nonneg_right hnonneg)
    _ = balanceOf σ₂ a s := (balance_step hlife hguard.1 hok a s).symm

/-- Bob pays five units back. -/
def payBack : Context × Call :=
  ({ Context.permissive (.ofString "eosio.token") with hasAuth := fun a => a = .ofString "bob" },
    .transfer (.ofString "bob") (.ofString "alice") [⟨5, coreSymbol⟩] "change")

theorem no_unsigned_debit_payBack :
    ∃ σ σ', Run step DropGuard {} issueAndPay σ ∧ step σ payBack = .ok σ' ∧
      balanceOf σ (.ofString "alice") coreSymbol ≤ balanceOf σ' (.ofString "alice") coreSymbol := by
  obtain ⟨σ, hσ, hpay⟩ := returns_iff.mp (show returns (issueAndPay.foldlM step {}) (fun σ =>
    returns (step σ payBack) fun _ => true) = true by decide +kernel)
  obtain ⟨σ', hσ', -⟩ := returns_iff.mp hpay
  obtain ⟨σ₁, hrun, -⟩ := exists_issueAndPay
  have hcalls : Run step (fun _ _ => True) {} issueAndPay σ :=
    Run.of_foldlM (fun _ _ _ => trivial) hσ
  obtain rfl := hrun.unique hcalls
  have hrun' : Run step (Unsigned (.ofString "alice")) σ₁ [payBack] σ' :=
    .single ⟨by decide, by decide⟩ hσ'
  exact ⟨σ₁, σ', hrun, hσ', (no_unsigned_debit hrun hrun').1 coreSymbol⟩

end Twig.Token
