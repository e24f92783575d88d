import Twig.System.Tokenomics
import Twig.Token.Conservation

/-!
# What a chunk sends

The inline actions of `onchunk`, run against the token contract's ledger. Their amounts are the
whole balance of the chunks account, the freshly issued share included, times a weight and
truncated; so each is integer division of that total (`toInt_scaleBy`), and together they never
exceed it.

* `runToken_transfers_iff` — transfers from one sender are all accepted exactly when each
  amount is positive and their sum is covered;
* `onchunk_transfers_iff` — the four transfers of a chunk are accepted exactly when the total is
  at least 400 units. From 399 units down the producers' share is nothing, and a transfer of
  nothing is rejected.
-/

namespace Twig.System

open Std Fallible Token

/-- Runs inline actions for the token contract, each with the authority of its actor. -/
def runToken (ctx : Context) (τ : Token.State) (actions : List Token.Inline) :
    Outcome Token.State :=
  actions.foldlM (fun τ i => Token.apply (ctx.inlineBy tokenAccount i.actor) τ i.call) τ

theorem runToken_append {ctx : Context} {τ τ' : Token.State} {l l' : List Token.Inline} :
    runToken ctx τ (l ++ l') = .ok τ' ↔
      ∃ τ₁, runToken ctx τ l = .ok τ₁ ∧ runToken ctx τ₁ l' = .ok τ' := by
  rw [runToken, List.foldlM_append, bind_eq_ok_iff]
  rfl

theorem runToken_cons {ctx : Context} {τ τ' : Token.State} {i : Token.Inline}
    {l : List Token.Inline} : runToken ctx τ (i :: l) = .ok τ' ↔
      ∃ τ₁, Token.apply (ctx.inlineBy tokenAccount i.actor) τ i.call = .ok τ₁ ∧
        runToken ctx τ₁ l = .ok τ' := by
  rw [runToken, List.foldlM_cons, bind_eq_ok_iff]
  rfl

/-! ### Transfers from the chunks account -/

section Transfers

variable {ctx : Context} {τ : Token.State} {o : Symbol → ℤ}

/-- A transfer from the chunks account that can fail on its amount only. -/
structure Deliverable (ctx : Context) (t : Name × Int64 × String) : Prop where
  other : chunksAccount ≠ t.1
  exist : ctx.isAccount t.1
  memo : t.2.2.utf8ByteSize ≤ 256

/-- **Transfers from one sender** are all accepted exactly when every amount is positive and
the sender's balance covers their sum. -/
theorem runToken_transfers_iff (ho : AtMostOne o) (ts : List (Name × Int64 × String)) :
    ∀ τ, Inv o τ → (∀ t ∈ ts, Deliverable ctx t) →
      ((∃ τ', runToken ctx τ (ts.map chunkTransfer) = .ok τ') ↔
        (∀ t ∈ ts, 0 < t.2.1.toInt) ∧
          (ts.map fun t => t.2.1.toInt).sum ≤ balanceOf τ chunksAccount coreSymbol) := by
  induction ts with
  | nil =>
    intro τ h _
    refine iff_of_true ⟨τ, rfl⟩ ⟨by simp, ?_⟩
    exact h.balanceOf_nonneg chunksAccount coreSymbol
  | cons t ts ih =>
    intro τ h hts
    have ht := hts t List.mem_cons_self
    have hauth : (ctx.inlineBy tokenAccount chunksAccount).hasAuth chunksAccount := by
      simp [Context.inlineBy]
    have hone := transfer_single_ok_iff (a := t.2.1) (s := coreSymbol) h ho hauth ht.other
      ht.exist ht.memo
    -- what one accepted transfer leaves
    have hafter (τ₁ : Token.State) (hok : Token.apply (ctx.inlineBy tokenAccount chunksAccount) τ
        (chunkTransfer t).call = .ok τ₁) : Inv o τ₁ ∧
          balanceOf τ₁ chunksAccount coreSymbol =
            balanceOf τ chunksAccount coreSymbol - t.2.1.toInt := by
      obtain ⟨hinv, -, hbook⟩ := transfer_spec h ho hok
      refine ⟨hinv, ?_⟩
      rw [hbook, Book.move_apply ht.other, if_pos rfl, sent_singleton, if_pos rfl]
    have hrest (τ₁ : Token.State) (hinv : Inv o τ₁) :=
      ih τ₁ hinv fun t ht => hts t (List.mem_cons_of_mem _ ht)
    simp only [List.map_cons, runToken_cons, List.forall_mem_cons, List.sum_cons]
    constructor
    · rintro ⟨τ', τ₁, hok, hmore⟩
      obtain ⟨hinv, hleft⟩ := hafter τ₁ hok
      obtain ⟨hpos, hsum⟩ := (hrest τ₁ hinv).mp ⟨τ', hmore⟩
      exact ⟨⟨(hone.mp ⟨τ₁, hok⟩).1, hpos⟩, by omega⟩
    · rintro ⟨⟨hpos, hposs⟩, hsum⟩
      have hnn : 0 ≤ (ts.map fun t => t.2.1.toInt).sum := by
        refine List.sum_nonneg ?_
        intro x hx
        obtain ⟨u, hu, rfl⟩ := List.mem_map.mp hx
        exact (hposs u hu).le
      obtain ⟨τ₁, hok⟩ := hone.mpr ⟨hpos, by omega⟩
      obtain ⟨hinv, hleft⟩ := hafter τ₁ hok
      obtain ⟨τ', hmore⟩ := (hrest τ₁ hinv).mpr ⟨hposs, by omega⟩
      exact ⟨τ', τ₁, hok, hmore⟩

/-- Transfers from the chunks account leave the supplies alone and the account's row in place. -/
theorem runToken_transfers_spec (ho : AtMostOne o) {ts : List (Name × Int64 × String)}
    {τ' : Token.State} (h : Inv o τ) (hrow : chunksAccount ∈ τ.accounts)
    (hok : runToken ctx τ (ts.map chunkTransfer) = .ok τ') :
    Inv o τ' ∧ τ'.supplies = τ.supplies ∧ chunksAccount ∈ τ'.accounts := by
  refine foldlM_invariant (fun (l : List Token.Inline) (s : Token.State) =>
      (∀ i ∈ l, ∃ t, i = chunkTransfer t) ∧ Inv o s ∧ s.supplies = τ.supplies ∧
        chunksAccount ∈ s.accounts)
    (fun i l s s' hI hs => ?_) ⟨fun i hi => ?_, h, rfl, hrow⟩ hok |>.2
  · obtain ⟨hl, hinv, hsup, -⟩ := hI
    obtain ⟨t, rfl⟩ := hl i List.mem_cons_self
    obtain ⟨hinv', hsup', -⟩ := transfer_spec hinv ho hs
    exact ⟨fun j hj => hl j (List.mem_cons_of_mem _ hj), hinv', hsup'.trans hsup,
      sender_mem_of_transfer hs⟩
  · obtain ⟨t, -, rfl⟩ := List.mem_map.mp hi
    exact ⟨t, rfl⟩

end Transfers

/-! ### The shares of a chunk -/

/-- Scaling by a weight of at most one stays in range. -/
theorem toInt_scaleBy_eq_truncate {amount : Int64} {w : ℚ} (hw : 0 ≤ w) (hw1 : w ≤ 1)
    (ha : 0 ≤ amount.toInt) : (scaleBy amount w).toInt = Rat.truncate (amount.toInt * w) := by
  have hmax := amount.toInt_lt
  have hnn := Rat.truncate_share_nonneg ha hw
  have hle := Rat.truncate_share_le ha hw hw1
  rw [scaleBy, Int64.toInt_ofInt_of_mem (by omega) (by omega)]

/-- Scaling by a fraction of at most one is exact integer division. -/
theorem toInt_scaleBy {amount : Int64} {w : ℚ} {n d : ℕ} (hw : w = n / d) (hn : n ≤ d)
    (ha : 0 ≤ amount.toInt) : (scaleBy amount w).toInt = amount.toInt * n / d := by
  have hw0 : 0 ≤ w := hw ▸ div_nonneg n.cast_nonneg d.cast_nonneg
  have hw1 : w ≤ 1 := hw ▸ div_le_one_of_le₀ (by exact_mod_cast hn) d.cast_nonneg
  rw [toInt_scaleBy_eq_truncate hw0 hw1 ha, hw, Rat.truncate_mul_div ha]

/-- The four shares of a total are positive and covered by it exactly from 400 units on. -/
theorem chunkShares_iff {total : Int64} (h : 0 ≤ total.toInt) :
    ((∀ t ∈ chunkShares total, 0 < t.2.1.toInt) ∧
      ((chunkShares total).map fun t => t.2.1.toInt).sum ≤ total.toInt) ↔ 400 ≤ total.toInt := by
  have hteam : (scaleBy total luckyNumberTeamWeight).toInt = total.toInt * 9 / 800 :=
    toInt_scaleBy luckyNumberTeamWeight_eq (by norm_num) h
  have hboard : (scaleBy total luckyNumberBoardWeight).toInt = total.toInt * 9 / 800 :=
    toInt_scaleBy luckyNumberBoardWeight_eq (by norm_num) h
  have hproducer : (scaleBy total luckyNumberProducerWeight).toInt = total.toInt * 1 / 400 :=
    toInt_scaleBy luckyNumberProducerWeight_eq (by norm_num) h
  have hworld : (scaleBy total luckyNumberWorldWeight).toInt = total.toInt * 39 / 40 :=
    toInt_scaleBy luckyNumberWorldWeight_eq (by norm_num) h
  simp only [chunkShares, List.forall_mem_cons, List.map_cons, List.map_nil, List.sum_cons,
    List.sum_nil, List.not_mem_nil, false_implies, implies_true, and_true]
  omega

/-- The receivers of a chunk's transfers are other accounts, and the memos are short. -/
theorem deliverable_of_mem_chunkShares {ctx : Context} {total : Int64}
    (hexist : ∀ r ∈ [bankAccount, boardAccount, worldAccount], ctx.isAccount r) :
    ∀ t ∈ chunkShares total, Deliverable ctx t := by
  intro t ht
  simp only [List.mem_cons, List.not_mem_nil, or_false, forall_eq_or_imp, forall_eq] at hexist
  obtain ⟨hbank, hboard, hworld⟩ := hexist
  simp only [chunkShares, List.mem_cons, List.not_mem_nil, or_false] at ht
  rcases ht with rfl | rfl | rfl | rfl
  · exact ⟨show chunksAccount ≠ bankAccount by decide, hbank,
      show "team_share".utf8ByteSize ≤ 256 by decide⟩
  · exact ⟨show chunksAccount ≠ boardAccount by decide, hboard,
      show "board_share".utf8ByteSize ≤ 256 by decide⟩
  · exact ⟨show chunksAccount ≠ bankAccount by decide, hbank,
      show "producer_share".utf8ByteSize ≤ 256 by decide⟩
  · exact ⟨show chunksAccount ≠ worldAccount by decide, hworld,
      show "Refilling World...".utf8ByteSize ≤ 256 by decide⟩

/-! ### Chunk distribution -/

section Distribution

variable {ctx : Context} {σ : State} {τ τ₁ : Token.State} {a : ALuckyNumber}
  {actions : List Token.Inline}

/-- What a chunk issues in an epoch: a `1 / 1215000` part of the maximal supply, truncated, and
nothing after the twentieth epoch. -/
def chunkIssued (a : ALuckyNumber) (τ : Token.State) : ℤ :=
  if a.epoch < 21 then bal τ.sup.maxSupply coreSymbol / 1215000 else 0

/-- Whether `onchunk` sends an `issue`, as a number of actions. -/
def issueCount (a : ALuckyNumber) : ℕ := if a.epoch < 21 then 1 else 0

/-- What `onchunk` sends while chunks are issued. -/
theorem onchunk_eq_of_lt {row : FungiblePairs} {sup : Supplies} {cap : Int64}
    (hauth : ctx.hasAuth ctx.self) (ha : σ.aluckynumber = some a) (hepoch : a.epoch < 21)
    (hrow : τ.accounts[chunksAccount]? = some row) (hsup : τ.supplies = some sup)
    (hcap : sup.maxSupply[coreSymbol]? = some cap) :
    onchunk ctx σ τ = .ok (chunkIssue (scaleBy cap luckyNumberChunkWeight) ::
      (chunkShares (row[coreSymbol]?.getD 0 + scaleBy cap luckyNumberChunkWeight)).map
        chunkTransfer) := by
  rw [onchunk, Context.requireAuth, check, if_pos hauth, ha, hsup,
    Table.requireFind_eq_ok_iff.mpr hrow]
  simp only [ok_bind, singletonGet, if_pos hepoch, hcap, deref]
  rfl

/-- What `onchunk` has read when it returns, and what it sends. -/
theorem onchunk_ok (ha : σ.aluckynumber = some a) (hok : onchunk ctx σ τ = .ok actions) :
    ∃ row, τ.accounts[chunksAccount]? = some row ∧
      ((a.epoch < 21 ∧ ∃ cap, τ.sup.maxSupply[coreSymbol]? = some cap ∧
          actions = chunkIssue (scaleBy cap luckyNumberChunkWeight) ::
            (chunkShares (row[coreSymbol]?.getD 0 + scaleBy cap luckyNumberChunkWeight)).map
              chunkTransfer) ∨
        (¬ a.epoch < 21 ∧
          actions = (chunkShares (row[coreSymbol]?.getD 0)).map chunkTransfer)) := by
  simp only [onchunk, bind_eq_ok_iff, Context.requireAuth_eq_ok_iff, exists_const,
    singletonGet_eq_ok_iff, Table.requireFind_eq_ok_iff, ha, Option.some.injEq,
    exists_eq_left'] at hok
  obtain ⟨-, row, hrow, hok⟩ := hok
  refine ⟨row, hrow, ?_⟩
  split_ifs at hok with hepoch
  · simp only [bind_eq_ok_iff, singletonGet_eq_ok_iff, deref_eq_ok_iff, pure_eq_ok_iff] at hok
    obtain ⟨sup, hsup, cap, hcap, rfl⟩ := hok
    rw [← Token.State.sup_of_some hsup] at hcap
    exact .inl ⟨hepoch, cap, hcap, rfl⟩
  · exact .inr ⟨hepoch, (pure_eq_ok_iff.mp hok).symm⟩

/-- The share of the maximal supply that a chunk issues. -/
theorem toInt_chunkShare {cap : Int64} (h : LedgerInv (fun _ => 0) τ)
    (hcap : τ.sup.maxSupply[coreSymbol]? = some cap) :
    0 ≤ cap.toInt ∧ cap.toInt ≤ 2 ^ 62 - 1 ∧
      (scaleBy cap luckyNumberChunkWeight).toInt = cap.toInt / 1215000 := by
  obtain ⟨v, hv⟩ := OrdMap.mem_iff_exists.mp
    ((h.supplies.keys coreSymbol).mpr (OrdMap.mem_iff_exists.mpr ⟨cap, hcap⟩))
  obtain ⟨hv0, hlt⟩ := h.supplies.capped coreSymbol v cap hv hcap
  have hnn : 0 ≤ cap.toInt := hv0.trans hlt.le
  refine ⟨hnn, (h.supplies.legal coreSymbol cap hcap).1, ?_⟩
  rw [toInt_scaleBy luckyNumberChunkWeight_eq (by norm_num) hnn]
  push_cast
  rw [mul_one]

/-- What the issue of a chunk does: the supply and the chunks account grow by the share. -/
theorem chunkIssue_spec {cap : Int64} (h : LedgerInv (fun _ => 0) τ)
    (hcap : τ.sup.maxSupply[coreSymbol]? = some cap)
    (hok : Token.apply (ctx.inlineBy tokenAccount tokenAccount) τ
      (chunkIssue (scaleBy cap luckyNumberChunkWeight)).call = .ok τ₁) :
    LedgerInv (fun _ => 0) τ₁ ∧ chunksAccount ∈ τ₁.accounts ∧
      τ₁.sup.maxSupply = τ.sup.maxSupply ∧
      supplyOf τ₁ coreSymbol = supplyOf τ coreSymbol + cap.toInt / 1215000 ∧
      balanceOf τ₁ chunksAccount coreSymbol =
        balanceOf τ chunksAccount coreSymbol + cap.toInt / 1215000 := by
  obtain ⟨hnn, hlegal, hshare⟩ := toInt_chunkShare h hcap
  have hcall : issue (ctx.inlineBy tokenAccount tokenAccount) τ chunksAccount
      (coreTokens (scaleBy cap luckyNumberChunkWeight))
      "A chunk has been found! Distributing rewards..." = .ok τ₁ := hok
  have hfits : IssueFits τ (coreTokens (scaleBy cap luckyNumberChunkWeight)) := by
    intro s amount hs
    obtain ⟨rfl, rfl⟩ := eq_of_coreTokens hs
    have hsupply := h.supplies.bal_bounds coreSymbol
    rw [supplyOf, hshare]
    omega
  obtain ⟨hinv, hsupply, hbook, supply, hsup⟩ := issue_spec h.toInv atMostOne_zero hfits hcall
  have hafter := congrFun (congrFun hbook chunksAccount) coreSymbol
  rw [Book.credit_apply, if_pos rfl, bal_coreTokens, if_pos rfl, hshare] at hafter
  refine ⟨⟨hinv, by rw [hsup]; rfl⟩, owner_mem_of_issue hcall, by rw [State.sup, hsup]; rfl, ?_,
    hafter⟩
  rw [hsupply, bal_coreTokens, if_pos rfl, hshare]

/-- **Where a chunk's transfers start**: once its issue has gone through, the chunks account
holds the total that the shares are computed from, which is its balance before and what was
issued. -/
theorem onchunk_spec (h : LedgerInv (fun _ => 0) τ) (ha : σ.aluckynumber = some a)
    (hok : onchunk ctx σ τ = .ok actions)
    (hissue : runToken ctx τ (actions.take (issueCount a)) = .ok τ₁) :
    ∃ total : Int64, LedgerInv (fun _ => 0) τ₁ ∧ chunksAccount ∈ τ₁.accounts ∧
      τ₁.sup.maxSupply = τ.sup.maxSupply ∧
      supplyOf τ₁ coreSymbol = supplyOf τ coreSymbol + chunkIssued a τ ∧
      actions.drop (issueCount a) = (chunkShares total).map chunkTransfer ∧
      total.toInt = balanceOf τ₁ chunksAccount coreSymbol ∧
      total.toInt = balanceOf τ chunksAccount coreSymbol + chunkIssued a τ := by
  obtain ⟨row, hrow, hsent⟩ := onchunk_ok ha hok
  have hheld : (row[coreSymbol]?.getD 0).toInt = balanceOf τ chunksAccount coreSymbol := by
    rw [balanceOf, hrow]
    rfl
  rw [issueCount] at hissue ⊢
  rw [chunkIssued]
  rcases hsent with ⟨hepoch, cap, hcap, rfl⟩ | ⟨hepoch, rfl⟩
  · simp only [if_pos hepoch] at hissue ⊢
    rw [List.take_succ_cons, List.take_zero, runToken_cons] at hissue
    obtain ⟨τ₂, happly, hnil⟩ := hissue
    obtain rfl : τ₂ = τ₁ := Except.ok.inj hnil
    obtain ⟨hinv, hmem, hmax, hsupply, hafter⟩ := chunkIssue_spec h hcap happly
    obtain ⟨hcap0, -, hshare⟩ := toInt_chunkShare h hcap
    have hb := h.balanceOf_nonneg chunksAccount coreSymbol
    have hlegal := hinv.balanceOf_le atMostOne_zero chunksAccount coreSymbol
    -- the contract adds up balance and share before the issue; the account holds that sum after
    have htotal : (row[coreSymbol]?.getD 0 + scaleBy cap luckyNumberChunkWeight).toInt =
        balanceOf τ chunksAccount coreSymbol + cap.toInt / 1215000 := by
      rw [Int64.toInt_add_of_mem] <;> rw [hheld, hshare] <;> omega
    rw [bal_of_some hcap]
    exact ⟨_, hinv, hmem, hmax, hsupply, rfl, htotal.trans hafter.symm, htotal⟩
  · simp only [if_neg hepoch] at hissue ⊢
    obtain rfl : τ = τ₁ := Except.ok.inj hissue
    exact ⟨row[coreSymbol]?.getD 0, h, OrdMap.mem_iff_exists.mpr ⟨row, hrow⟩, rfl,
      by rw [add_zero], rfl, hheld, by rw [hheld, add_zero]⟩

/-- Once the issue of `onchunk` (if its epoch calls for one) has gone through, its four
transfers are accepted exactly when they share out 400 units at least. -/
theorem transfers_iff_of_ledgerInv (h : LedgerInv (fun _ => 0) τ) (ha : σ.aluckynumber = some a)
    (hexist : ∀ r ∈ [bankAccount, boardAccount, worldAccount], ctx.isAccount r)
    (hok : onchunk ctx σ τ = .ok actions)
    (hissue : runToken ctx τ (actions.take (issueCount a)) = .ok τ₁) :
    (∃ τ₂, runToken ctx τ₁ (actions.drop (issueCount a)) = .ok τ₂) ↔
      400 ≤ balanceOf τ chunksAccount coreSymbol + chunkIssued a τ := by
  obtain ⟨total, ⟨hinv, -⟩, -, -, -, hdrop, hheld, htotal⟩ := onchunk_spec h ha hok hissue
  have hnn : 0 ≤ total.toInt := hheld ▸ hinv.balanceOf_nonneg chunksAccount coreSymbol
  rw [hdrop, runToken_transfers_iff atMostOne_zero _ τ₁ hinv
    (deliverable_of_mem_chunkShares hexist), ← hheld, chunkShares_iff hnn, htotal]

/-- **Chunk distribution.** In a reachable ledger, once the issue of `onchunk` (if its epoch
calls for one) has gone through, all four of its transfers are accepted exactly when the chunks
account's balance and the share issued make up 400 units at least. -/
theorem onchunk_transfers_iff {tr : List (Context × Token.Call)}
    (hrun : Run Token.step LegalGuard fresh tr τ) (ha : σ.aluckynumber = some a)
    (hexist : ∀ r ∈ [bankAccount, boardAccount, worldAccount], ctx.isAccount r)
    (hok : onchunk ctx σ τ = .ok actions)
    (hissue : runToken ctx τ (actions.take (issueCount a)) = .ok τ₁) :
    (∃ τ₂, runToken ctx τ₁ (actions.drop (issueCount a)) = .ok τ₂) ↔
      400 ≤ balanceOf τ chunksAccount coreSymbol + chunkIssued a τ :=
  transfers_iff_of_ledgerInv (ledgerInv_of_legal_run hrun) ha hexist hok hissue

end Distribution

/-- A cap on the core token, and an empty row for the chunks account. -/
def capAndOpen (cap : Int64) : List (Context × Token.Call) :=
  [tokenCall (.setsupplies (coreTokens cap)), tokenCall (.openAccount chunksAccount)]

theorem run_capAndOpen {cap : Int64} {τ : Token.State}
    (h : (capAndOpen cap).foldlM Token.step fresh = .ok τ) :
    Run Token.step LegalGuard fresh (capAndOpen cap) τ := by
  refine Run.of_foldlM (fun s c hc => ?_) h
  simp only [capAndOpen, List.mem_cons, List.not_mem_nil, or_false] at hc
  rcases hc with rfl | rfl <;> exact ⟨rfl, trivial⟩

/-- With a cap of 1215000000 units a chunk issues 1000 of them, and delivers them. -/
theorem onchunk_transfers_iff_first :
    ∃ τ τ₁ actions, Run Token.step LegalGuard fresh (capAndOpen 1215000000) τ ∧
      onchunk systemContext { aluckynumber := some {} } τ = .ok actions ∧
      runToken systemContext τ (actions.take 1) = .ok τ₁ ∧
      ∃ τ₂, runToken systemContext τ₁ (actions.drop 1) = .ok τ₂ := by
  obtain ⟨τ, hτ, hchunk⟩ := returns_iff.mp (show returns
    ((capAndOpen 1215000000).foldlM Token.step fresh) (fun τ =>
      400 ≤ balanceOf τ chunksAccount coreSymbol + chunkIssued {} τ ∧
      returns (onchunk systemContext { aluckynumber := some {} } τ) (fun actions =>
        returns (runToken systemContext τ (actions.take (issueCount {}))) fun _ => true)) = true
    by decide +kernel)
  obtain ⟨htotal, hchunk⟩ := of_decide_eq_true hchunk
  obtain ⟨actions, hok, hissue⟩ := returns_iff.mp hchunk
  obtain ⟨τ₁, hissue, -⟩ := returns_iff.mp hissue
  have hrun := run_capAndOpen hτ
  exact ⟨τ, τ₁, actions, hrun, hok, hissue,
    (onchunk_transfers_iff hrun rfl (fun _ _ => rfl) hok hissue).mpr htotal⟩

/-- After the twentieth epoch an empty chunks account cannot deliver its four transfers. -/
theorem onchunk_rejected_when_empty :
    ∃ τ actions, Run Token.step LegalGuard fresh (capAndOpen 1215000000) τ ∧
      balanceOf τ chunksAccount coreSymbol = 0 ∧
      onchunk systemContext { aluckynumber := some { epoch := 21 } } τ = .ok actions ∧
      issueCount { epoch := 21 } = 0 ∧
      ∀ τ₂, runToken systemContext τ actions ≠ .ok τ₂ := by
  obtain ⟨τ, hτ, hchunk⟩ := returns_iff.mp (show returns
    ((capAndOpen 1215000000).foldlM Token.step fresh) (fun τ =>
      balanceOf τ chunksAccount coreSymbol = 0 ∧
      returns (onchunk systemContext { aluckynumber := some { epoch := 21 } } τ) (fun actions =>
        returns (runToken systemContext τ actions) (fun _ => true) = false)) = true
    by decide +kernel)
  obtain ⟨hzero, hchunk⟩ := of_decide_eq_true hchunk
  obtain ⟨actions, hok, hrejected⟩ := returns_iff.mp hchunk
  refine ⟨τ, actions, run_capAndOpen hτ, hzero, hok, rfl, ?_⟩
  intro τ₂ hrun
  rw [decide_eq_true_eq, hrun] at hrejected
  exact Bool.noConfusion hrejected

end Twig.System
