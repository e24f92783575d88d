import Twig.Deployment.Soundness

/-!
# The contracts together: progress

A block is processed as a whole, with the chunk or the epoch that it announces, the shares that
the chunk hands out, and the payouts that these lead to. Nothing of that can fail but the chunk
itself: its share has to fit under the cap, and what is handed out has to be at least 400 units.
Other contracts, those that random values are sent to and those that are notified of a transfer,
are taken not to object, and the shares are computed in exact products (in doubles those of very
large amounts could come to more than the total).

* `exists_chunkTransfers` — positive shares that the chunks account covers are handed out, whatever
  the bank pays in between;
* `onchunk_goes_iff`, `exists_onepoch` — when a milestone goes through;
* `block_goes_through_iff` — when a block does, in every state reached.
-/

namespace Twig.Deployment

open Std Fallible Twig.System Token

variable {hashes : Hashes} {host : Host} {ctx : Context} {d d' : Deployment}

/-! ### The accounts of a chain -/

/-- The accounts that the contracts send to, and no account without a name. -/
structure Populated (accounts : Name → Bool) : Prop where
  team : accounts teamAccount
  bank : accounts bankAccount
  board : accounts boardAccount
  world : accounts worldAccount
  unnamed : accounts ⟨0⟩ = false

/-! ### Transfers of a chunk -/

/-- Payouts of the bank take nothing away from others. -/
theorem balanceOf_le_of_honoured {τ τ' : Token.State} {sends : List Token.Inline} {a : Name}
    (ha : a ≠ bankAccount) (h : Bank.Honoured ctx τ sends τ') :
    LifeInv τ → balanceOf τ a coreSymbol ≤ balanceOf τ' a coreSymbol := by
  induction h with
  | nil => exact fun _ => Int.le_refl _
  | @cons τ τ₁ τ₂ p amount memo sends _ _ hok _ ih =>
    intro hlife
    let call : Token.Call := .transfer bankAccount p [⟨amount, coreSymbol⟩] memo
    have hstep : Token.step τ (ctx.inlineBy tokenAccount bankAccount, call) = .ok τ₁ := hok
    have hlegal : call.Legal := trivial
    have hdebtor : debtor call ≠ some a := fun h => ha (Option.some.inj h).symm
    have hmoved := balance_step hlife hlegal hstep a coreSymbol
    have hnonneg := movement_nonneg (s := coreSymbol) hdebtor hstep
    have hrest := ih (hlife.step ⟨hlegal, fun h => absurd h Bool.false_ne_true⟩ hstep)
    omega

/-- A share of a chunk that is sent to the bank is a deposit. -/
def IsShare (t : Name × Int64 × String) : Prop :=
  t.1 = bankAccount → ∃ share : Bank.Share, t.2.2 = share.memo

section Transfers

variable (hpop : Populated ctx.isAccount)

include hpop

/-- **The bank takes what a chunk hands out.** -/
theorem Sound.exists_notify (h : Sound ctx.isAccount d) {a : ALuckyNumber}
    (ha : d.system.state.aluckynumber = some a) {t : Name × Int64 × String} (ht : IsShare t)
    {τ : Token.State} (hok : Token.step d.ledger
      (ctx.inlineBy tokenAccount chunksAccount, (chunkTransfer t).call) = .ok τ) :
    ∃ r gain, d.notify (ctx.inlineBy tokenAccount chunksAccount) (chunkTransfer t).call = .ok r ∧
      Bank.TableMove (ctx.inlineBy tokenAccount chunksAccount) gain d.vesting r.1 r.2 ∧
      balanceOf d.ledger bankAccount coreSymbol + gain ≤ balanceOf τ bankAccount coreSymbol := by
  have hguard : DropGuard d.ledger
      (ctx.inlineBy tokenAccount chunksAccount, (chunkTransfer t).call) :=
    ⟨trivial, fun h => absurd h Bool.false_ne_true⟩
  have hdebtor : debtor (chunkTransfer t).call ≠ some bankAccount :=
    fun h => absurd (Option.some.inj h) (by decide)
  have hexists : ∃ r, d.notify (ctx.inlineBy tokenAccount chunksAccount)
      (chunkTransfer t).call = .ok r := by
    obtain ⟨receiver, amount, memo⟩ := t
    by_cases hto : receiver = bankAccount
    · subst hto
      obtain ⟨share, rfl⟩ := ht rfl
      have hne : chunksAccount ≠ bankAccount := by decide
      have hpos : 0 < amount.toInt := pos_of_transfer hok _ List.mem_cons_self
      obtain ⟨hlife, hbook⟩ := Bank.transfer_book h.ledger hok
      have hgain : balanceOf τ bankAccount coreSymbol =
          balanceOf d.ledger bankAccount coreSymbol + amount.toInt := by
        rw [hbook, Book.move_apply hne, if_neg hne.symm, if_pos rfl, sent_singleton, if_pos rfl]
      have hshare : share.beneficiary a = teamAccount ∨ share.beneficiary a = a.producer := by
        cases share
        · exact .inl rfl
        · exact .inr rfl
      obtain ⟨r, hr, -⟩ := h.deposited hpop.team hlife ha hshare hpos hgain.ge
      have hnamed : (share.beneficiary a).value ≠ 0 := by
        intro hzero
        have hexist : ctx.isAccount (share.beneficiary a) := by
          rcases hshare with hp | hp
          · rw [hp]
            exact hpop.team
          · rw [hp]
            exact (h.luck a ha).2
        have hempty : share.beneficiary a = ⟨0⟩ := congrArg Name.mk hzero
        rw [hempty, hpop.unnamed] at hexist
        exact absurd hexist Bool.false_ne_true
      refine ⟨r, ?_⟩
      simp only [chunkTransfer, notify, ha]
      exact Bank.tokenDeposit_share_eq_ok_iff.mpr ⟨hnamed, hr⟩
    · refine ⟨(d.vesting, []), ?_⟩
      simp only [chunkTransfer, notify]
      rw [Bank.tokenDeposit, if_pos (Or.inl hto)]
      rfl
  obtain ⟨r, hr⟩ := hexists
  have hinner : Sound (ctx.inlineBy tokenAccount chunksAccount).isAccount d := h
  obtain ⟨gain, hmove, hgain⟩ := hinner.notified hpop.team hguard hdebtor hok hr
  exact ⟨r, gain, hr, hmove, hgain⟩

/-- **A share is handed out** if the chunks account covers it. -/
theorem Sound.exists_chunkTransfer (h : Sound ctx.isAccount d) {a : ALuckyNumber}
    (ha : d.system.state.aluckynumber = some a) {t : Name × Int64 × String}
    (ht : Deliverable ctx t) (hshare : IsShare t) (hpos : 0 < t.2.1.toInt)
    (hle : t.2.1.toInt ≤ balanceOf d.ledger chunksAccount coreSymbol) (depth : ℕ) :
    ∃ d', perform hashes host (depth + 2) (ctx.inlineBy tokenAccount chunksAccount) d
        (.token (chunkTransfer t).call) = .ok d' ∧
      Sound ctx.isAccount d' ∧ d'.system = d.system ∧
      balanceOf d.ledger chunksAccount coreSymbol - t.2.1.toInt ≤
        balanceOf d'.ledger chunksAccount coreSymbol := by
  have hauth : (ctx.inlineBy tokenAccount chunksAccount).hasAuth chunksAccount := by
    simp [Context.inlineBy]
  obtain ⟨τ, hτ⟩ : ∃ τ, Token.transfer (ctx.inlineBy tokenAccount chunksAccount) d.ledger
      chunksAccount t.1 [⟨t.2.1, coreSymbol⟩] t.2.2 = .ok τ := by
    obtain ⟨o, hinv, ho, -⟩ := h.ledger
    exact (transfer_single_ok_iff hinv ho hauth ht.other ht.exist ht.memo).mpr ⟨hpos, hle⟩
  obtain ⟨hlife, hbook⟩ := Bank.transfer_book h.ledger hτ
  have hleft : balanceOf τ chunksAccount coreSymbol =
      balanceOf d.ledger chunksAccount coreSymbol - t.2.1.toInt := by
    rw [hbook, Book.move_apply ht.other, if_pos rfl, sent_singleton, if_pos rfl]
  obtain ⟨r, gain, hr, hmove, hgain⟩ := h.exists_notify hpop ha hshare hτ
  have hinner : Sound (ctx.inlineBy tokenAccount chunksAccount).isAccount d := h
  obtain ⟨τ₁, hhonoured, hsound⟩ := hinner.honoured hlife hmove hgain
  refine ⟨{ d with ledger := τ₁, vesting := r.1 }, ?_, hsound, rfl, ?_⟩
  · have hact : act hashes host (ctx.inlineBy tokenAccount chunksAccount) d
        (.token (chunkTransfer t).call) = .ok ({ d with ledger := τ, vesting := r.1 },
          r.2.map fun i => ⟨i.actor, .token i.call⟩) := by
      rw [act, bind_eq_ok_iff]
      exact ⟨τ, hτ, bind_eq_ok_iff.mpr ⟨r, hr, rfl⟩⟩
    rw [perform, hact]
    refine (perform_payouts depth hmove.payouts).trans ?_
    rw [hhonoured.runToken_eq]
    rfl
  · rw [← hleft]
    exact balanceOf_le_of_honoured (by decide) hhonoured hlife

/-- **The shares are handed out**, one after the other, if the chunks account covers them all. -/
theorem Sound.exists_chunkTransfers {a : ALuckyNumber} (depth : ℕ)
    {ts : List (Name × Int64 × String)} : ∀ {d : Deployment}, Sound ctx.isAccount d →
      d.system.state.aluckynumber = some a → (∀ t ∈ ts, Deliverable ctx t) → (∀ t ∈ ts, IsShare t) →
      (∀ t ∈ ts, 0 < t.2.1.toInt) →
      (ts.map fun t => t.2.1.toInt).sum ≤ balanceOf d.ledger chunksAccount coreSymbol →
      ∃ d', ((ts.map chunkTransfer).map fun i => (⟨i.actor, .token i.call⟩ : Sent)).foldlM
        (fun d i => perform hashes host (depth + 2)
          (ctx.inlineBy i.action.receiver i.actor) d i.action) d = .ok d' := by
  induction ts with
  | nil => exact fun {d} _ _ _ _ _ _ => ⟨d, rfl⟩
  | cons t ts ih =>
    intro d h ha hts hshares hpos hsum
    rw [List.map_cons, List.sum_cons] at hsum
    have hnn : 0 ≤ (ts.map fun t => t.2.1.toInt).sum := by
      refine List.sum_nonneg ?_
      intro x hx
      obtain ⟨u, hu, rfl⟩ := List.mem_map.mp hx
      exact (hpos u (List.mem_cons_of_mem t hu)).le
    obtain ⟨d₁, hfirst, hsound, hsystem, hleft⟩ := h.exists_chunkTransfer hpop ha
      (hts t List.mem_cons_self) (hshares t List.mem_cons_self) (hpos t List.mem_cons_self)
      (by omega) depth
    obtain ⟨d₂, hrest⟩ := ih hsound (hsystem ▸ ha)
      (fun u hu => hts u (List.mem_cons_of_mem t hu))
      (fun u hu => hshares u (List.mem_cons_of_mem t hu))
      (fun u hu => hpos u (List.mem_cons_of_mem t hu)) (by omega)
    rw [List.map_cons, List.map_cons, List.foldlM_cons]
    exact ⟨d₂, bind_eq_ok_iff.mpr ⟨d₁, hfirst, hrest⟩⟩

end Transfers

/-- Shares that have been handed out were positive. -/
theorem pos_of_chunkTransfers {ts : List (Name × Int64 × String)} {depth : ℕ}
    (hok : ((ts.map chunkTransfer).map fun i => (⟨i.actor, .token i.call⟩ : Sent)).foldlM
      (fun d i => perform hashes host depth
        (ctx.inlineBy i.action.receiver i.actor) d i.action) d = .ok d') :
    ∀ t ∈ ts, 0 < t.2.1.toInt := by
  intro t ht
  obtain ⟨d₁, d₂, hone⟩ := exists_of_foldlM hok
    (List.mem_map.mpr ⟨_, List.mem_map.mpr ⟨t, ht, rfl⟩, rfl⟩)
  cases depth with
  | zero => exact nomatch hone
  | succ depth =>
    simp only [perform, act, bind_eq_ok_iff] at hone
    obtain ⟨-, ⟨τ, htransfer, -⟩, -⟩ := hone
    exact pos_of_transfer htransfer _ List.mem_cons_self

/-! ### Chunks -/

/-- **When a chunk goes through**: the chunks account is open, the share of the chunk fits under
the cap, and at least 400 units are handed out. -/
def ChunkDue (epoch : UInt32) (ledger : Token.State) : Prop :=
  chunksAccount ∈ ledger.accounts ∧
    if epoch < 21 then
      ∃ cap : Int64, ledger.sup.maxSupply[coreSymbol]? = some cap ∧
        0 < cap.toInt / 1215000 ∧ supplyOf ledger coreSymbol + cap.toInt / 1215000 < cap.toInt ∧
        400 ≤ balanceOf ledger chunksAccount coreSymbol + cap.toInt / 1215000
    else 400 ≤ balanceOf ledger chunksAccount coreSymbol

section Chunk

variable {ledger : Token.State} {cap : Int64}

/-- The share of the cap, which is below the cap. -/
theorem toInt_share (h : LifeInv ledger) (hcap : ledger.sup.maxSupply[coreSymbol]? = some cap) :
    0 ≤ cap.toInt ∧ cap.toInt ≤ 2 ^ 62 - 1 ∧
      (scaleBy cap luckyNumberChunkWeight).toInt = cap.toInt / 1215000 := by
  obtain ⟨o, hinv, -, -⟩ := h
  obtain ⟨v, hv⟩ := OrdMap.mem_iff_exists.mp
    ((hinv.supplies.keys coreSymbol).mpr (OrdMap.mem_iff_exists.mpr ⟨cap, hcap⟩))
  obtain ⟨hv0, hlt⟩ := hinv.supplies.capped coreSymbol v cap hv hcap
  have hnn : 0 ≤ cap.toInt := hv0.trans hlt.le
  refine ⟨hnn, (hinv.supplies.legal coreSymbol cap hcap).1, ?_⟩
  rw [toInt_scaleBy luckyNumberChunkWeight_eq (by norm_num) hnn]
  push_cast
  rw [mul_one]

/-- **When the share of a chunk is issued.** -/
theorem chunkIssue_ok_iff (h : LifeInv ledger)
    (hcap : ledger.sup.maxSupply[coreSymbol]? = some cap) :
    (∃ τ, Token.step ledger (ctx.inlineBy tokenAccount tokenAccount,
        (chunkIssue (scaleBy cap luckyNumberChunkWeight)).call) = .ok τ) ↔
      0 < cap.toInt / 1215000 ∧
        supplyOf ledger coreSymbol + cap.toInt / 1215000 < cap.toInt := by
  obtain ⟨hnn, hmax, hshare⟩ := toInt_share h hcap
  obtain ⟨o, hinv, -, -⟩ := h
  have hauth : (ctx.inlineBy tokenAccount tokenAccount).hasAuth
      (ctx.inlineBy tokenAccount tokenAccount).self := by
    simp [Context.inlineBy]
  obtain ⟨sup, hsup⟩ : ∃ sup, ledger.supplies = some sup := by
    cases hsup : ledger.supplies with
    | some sup => exact ⟨sup, rfl⟩
    | none =>
      rw [State.sup, hsup] at hcap
      simp at hcap
  have hsup' : ledger.sup = sup := State.sup_of_some hsup
  have hwf : sup.WF := hsup' ▸ hinv.supplies
  rw [hsup'] at hcap
  obtain ⟨v, hv⟩ := OrdMap.mem_iff_exists.mp
    ((hwf.keys coreSymbol).mpr (OrdMap.mem_iff_exists.mpr ⟨cap, hcap⟩))
  obtain ⟨hv0, hlt⟩ := hwf.capped coreSymbol v cap hv hcap
  have hsupply : supplyOf ledger coreSymbol = v.toInt := by rw [supplyOf, hsup', bal_of_some hv]
  have hsum : (v + scaleBy cap luckyNumberChunkWeight).toInt = v.toInt + cap.toInt / 1215000 := by
    rw [← hshare]
    exact Int64.toInt_add_of_mem (by omega) (by omega)
  have hissue : (∃ τ, Token.issue (ctx.inlineBy tokenAccount tokenAccount) ledger chunksAccount
      (coreTokens (scaleBy cap luckyNumberChunkWeight))
      "A chunk has been found! Distributing rewards..." = .ok τ) ↔
        ∀ (s : Symbol) (a : Int64),
          (coreTokens (scaleBy cap luckyNumberChunkWeight))[s]? = some a →
            ∃ v m, sup.supply[s]? = some v ∧ sup.maxSupply[s]? = some m ∧ v + a < m ∧ 0 < a :=
    issue_ok_iff hauth hsup
  rw [hsupply]
  refine hissue.trans ?_
  constructor
  · intro haccepted
    have hentry : (coreTokens (scaleBy cap luckyNumberChunkWeight))[coreSymbol]? =
        some (scaleBy cap luckyNumberChunkWeight) := by
      rw [coreTokens, OrdMap.getElem?_insert, if_pos rfl]
    obtain ⟨v', m, hv', hm, hless, hpos⟩ := haccepted coreSymbol _ hentry
    obtain rfl := Option.some.inj (hv.symm.trans hv')
    obtain rfl := Option.some.inj (hcap.symm.trans hm)
    rw [Int64.lt_iff_toInt_lt, hsum] at hless
    rw [Int64.toInt_pos_iff, hshare] at hpos
    exact ⟨hpos, hless⟩
  · rintro ⟨hpos, hless⟩ s amount hs
    obtain ⟨rfl, rfl⟩ := eq_of_coreTokens hs
    refine ⟨v, cap, hv, hcap, ?_, ?_⟩
    · rwa [Int64.lt_iff_toInt_lt, hsum]
    · rwa [Int64.toInt_pos_iff, hshare]

/-- The issue of a chunk runs in the ledger, and the bank takes no notice. -/
theorem perform_chunkIssue {amount : Int64} (depth : ℕ) :
    perform hashes host (depth + 1) (ctx.inlineBy tokenAccount tokenAccount) d
        (.token (chunkIssue amount).call) =
      (Token.step d.ledger (ctx.inlineBy tokenAccount tokenAccount, (chunkIssue amount).call)).map
        fun ledger => { d with ledger } := by
  have hself : { ctx.inlineBy tokenAccount tokenAccount with self := tokenAccount } =
      ctx.inlineBy tokenAccount tokenAccount := rfl
  rw [perform, act, hself, Token.step]
  cases Token.apply (ctx.inlineBy tokenAccount tokenAccount) d.ledger (chunkIssue amount).call with
  | error e => rfl
  | ok ledger => rfl

/-- **What the issue of a chunk leaves**: the chunks account holds what the shares are computed
from. -/
theorem Sound.issued (h : Sound ctx.isAccount d)
    (hcap : d.ledger.sup.maxSupply[coreSymbol]? = some cap) {row : FungiblePairs}
    (hrow : d.ledger.accounts[chunksAccount]? = some row) {τ : Token.State}
    (hok : Token.step d.ledger (ctx.inlineBy tokenAccount tokenAccount,
      (chunkIssue (scaleBy cap luckyNumberChunkWeight)).call) = .ok τ) :
    Sound ctx.isAccount { d with ledger := τ } ∧
      (row[coreSymbol]?.getD 0 + scaleBy cap luckyNumberChunkWeight).toInt =
        balanceOf τ chunksAccount coreSymbol ∧
      balanceOf τ chunksAccount coreSymbol =
        balanceOf d.ledger chunksAccount coreSymbol + cap.toInt / 1215000 := by
  obtain ⟨hnn, -, hshare⟩ := toInt_share h.ledger hcap
  have hlegal := legal_chunkIssue h.ledger hcap
  have hlife : LifeInv τ :=
    h.ledger.step ⟨hlegal, fun h => absurd h Bool.false_ne_true⟩ hok
  have hbank := balance_step h.ledger hlegal hok bankAccount coreSymbol
  have hchunks := balance_step h.ledger hlegal hok chunksAccount coreSymbol
  have hbank0 : (chunkIssue (scaleBy cap luckyNumberChunkWeight)).call.movement bankAccount
      coreSymbol = 0 := by
    rw [chunkIssue, Token.Call.movement, if_neg (by decide)]
  have hchunks0 : (chunkIssue (scaleBy cap luckyNumberChunkWeight)).call.movement chunksAccount
      coreSymbol = cap.toInt / 1215000 := by
    rw [chunkIssue, Token.Call.movement, if_pos rfl, bal_coreTokens, if_pos rfl, hshare]
  rw [hbank0, add_zero] at hbank
  rw [hchunks0] at hchunks
  refine ⟨⟨hlife, h.rows, hbank ▸ h.covered, h.luck, h.foreign⟩, ?_, hchunks⟩
  have hheld : (row[coreSymbol]?.getD 0).toInt = balanceOf d.ledger chunksAccount coreSymbol := by
    rw [balanceOf, hrow]
    rfl
  have hmax := hlife.balanceOf_le chunksAccount coreSymbol
  have hheld0 : 0 ≤ balanceOf d.ledger chunksAccount coreSymbol := by
    obtain ⟨o, hinv, -, -⟩ := h.ledger
    exact hinv.balanceOf_nonneg chunksAccount coreSymbol
  rw [hchunks, Int64.toInt_add_of_mem]
  all_goals rw [hheld, hshare]
  all_goals omega

/-- What `onchunk` sends runs one after the other. -/
theorem perform_onchunk (depth : ℕ) :
    perform hashes host (depth + 1) (ctx.inlineBy systemAccount systemAccount) d
        (.system (.onchunk {})) = .ok d' ↔
      ∃ sends, System.onchunk (ctx.inlineBy systemAccount systemAccount) d.system.state
          d.ledger = .ok sends ∧
        (sends.map fun i => (⟨i.actor, .token i.call⟩ : Sent)).foldlM (fun d i =>
          perform hashes host depth (ctx.inlineBy i.action.receiver i.actor) d i.action) d =
            .ok d' := by
  have hinline (sends : List Token.Inline) : (sends.map Effect.token).filterMap inlineOf =
      sends.map fun i => (⟨i.actor, .token i.call⟩ : Sent) := by
    rw [List.filterMap_map]
    exact List.filterMap_eq_map ▸ rfl
  have hself : { ctx.inlineBy systemAccount systemAccount with self := systemAccount } =
      ctx.inlineBy systemAccount systemAccount := rfl
  simp only [perform, act, reading, Contract.apply, hself, bind_eq_ok_iff, pure_eq_ok_iff]
  constructor
  · rintro ⟨-, ⟨-, ⟨sends, hsends, rfl⟩, rfl⟩, hrest⟩
    rw [hinline] at hrest
    exact ⟨sends, hsends, hrest⟩
  · rintro ⟨sends, hsends, hrest⟩
    refine ⟨_, ⟨_, ⟨sends, hsends, rfl⟩, rfl⟩, ?_⟩
    rw [hinline]
    exact hrest

variable (hpop : Populated ctx.isAccount)

include hpop

/-- **The shares of what the chunks account holds** are handed out exactly from 400 units on. -/
theorem Sound.chunkShares_go_iff (h : Sound ctx.isAccount d) {a : ALuckyNumber}
    (ha : d.system.state.aluckynumber = some a) {total : Int64}
    (htotal : total.toInt = balanceOf d.ledger chunksAccount coreSymbol) (depth : ℕ) :
    (∃ d', (((chunkShares total).map chunkTransfer).map fun i =>
        (⟨i.actor, .token i.call⟩ : Sent)).foldlM (fun d i => perform hashes host (depth + 2)
          (ctx.inlineBy i.action.receiver i.actor) d i.action) d = .ok d') ↔
      400 ≤ balanceOf d.ledger chunksAccount coreSymbol := by
  have hnn : 0 ≤ balanceOf d.ledger chunksAccount coreSymbol := by
    obtain ⟨o, hinv, -, -⟩ := h.ledger
    exact hinv.balanceOf_nonneg chunksAccount coreSymbol
  rw [← htotal] at hnn ⊢
  constructor
  · rintro ⟨d', hok⟩
    have hpos := pos_of_chunkTransfers hok
    have hshare : (scaleBy total luckyNumberProducerWeight).toInt = total.toInt * 1 / 400 :=
      toInt_scaleBy luckyNumberProducerWeight_eq (by norm_num) hnn
    have hproducer := hpos (bankAccount, scaleBy total luckyNumberProducerWeight, "producer_share")
      (by simp [chunkShares])
    rw [hshare] at hproducer
    omega
  · intro hdue
    obtain ⟨hpos, hsum⟩ := (chunkShares_iff hnn).mpr hdue
    refine h.exists_chunkTransfers hpop depth ha (deliverable_of_mem_chunkShares ?_)
      (fun t ht => Bank.share_of_chunkShares ht) hpos (htotal ▸ hsum)
    simp only [List.mem_cons, List.not_mem_nil, or_false, forall_eq_or_imp, forall_eq]
    exact ⟨hpop.bank, hpop.board, hpop.world⟩

/-- **When a chunk goes through**, with the shares and the payouts that follow. -/
theorem Sound.onchunk_goes_iff (h : Sound ctx.isAccount d) {a : ALuckyNumber}
    (ha : d.system.state.aluckynumber = some a) (depth : ℕ) :
    (∃ d', perform hashes host (depth + 3) (ctx.inlineBy systemAccount systemAccount) d
        (.system (.onchunk {})) = .ok d') ↔ ChunkDue a.epoch d.ledger := by
  have hauth : (ctx.inlineBy systemAccount systemAccount).hasAuth
      (ctx.inlineBy systemAccount systemAccount).self := by
    simp [Context.inlineBy]
  rw [ChunkDue]
  simp only [perform_onchunk]
  constructor
  · rintro ⟨d', sends, hsends, hrest⟩
    obtain ⟨row, hrow, ⟨hepoch, cap, hcap, rfl⟩ | ⟨hepoch, rfl⟩⟩ := onchunk_ok ha hsends
    · rw [List.map_cons, List.foldlM_cons, bind_eq_ok_iff] at hrest
      obtain ⟨d₁, hissue, hrest⟩ := hrest
      have hperform : perform hashes host (depth + 2) (ctx.inlineBy tokenAccount tokenAccount) d
          (.token (chunkIssue (scaleBy cap luckyNumberChunkWeight)).call) = .ok d₁ := hissue
      rw [perform_chunkIssue, map_eq_ok_iff] at hperform
      obtain ⟨τ, hτ, rfl⟩ := hperform
      obtain ⟨hsound, htotal, hheld⟩ := h.issued hcap hrow hτ
      obtain ⟨hpos, hless⟩ := (chunkIssue_ok_iff h.ledger hcap).mp ⟨τ, hτ⟩
      have hdue := (hsound.chunkShares_go_iff hpop ha htotal depth).mp ⟨d', hrest⟩
      refine ⟨OrdMap.mem_iff_exists.mpr ⟨row, hrow⟩, ?_⟩
      rw [if_pos hepoch]
      exact ⟨cap, hcap, hpos, hless, hheld ▸ hdue⟩
    · refine ⟨OrdMap.mem_iff_exists.mpr ⟨row, hrow⟩, ?_⟩
      rw [if_neg hepoch]
      exact (h.chunkShares_go_iff hpop ha (by rw [balanceOf, hrow]; rfl) depth).mp ⟨d', hrest⟩
  · rintro ⟨hmem, hdue⟩
    obtain ⟨row, hrow⟩ := OrdMap.mem_iff_exists.mp hmem
    split_ifs at hdue with hepoch
    · obtain ⟨cap, hcap, hpos, hless, hdue⟩ := hdue
      obtain ⟨τ, hτ⟩ := (chunkIssue_ok_iff h.ledger hcap).mpr ⟨hpos, hless⟩
      obtain ⟨hsound, htotal, hheld⟩ := h.issued hcap hrow hτ
      obtain ⟨d', hrest⟩ := (hsound.chunkShares_go_iff hpop ha htotal depth).mpr (hheld ▸ hdue)
      obtain ⟨sup, hsup⟩ : ∃ sup, d.ledger.supplies = some sup := by
        simp only [Token.step, chunkIssue, Token.apply, Token.issue, bind_eq_ok_iff,
          singletonGet_eq_ok_iff] at hτ
        obtain ⟨-, -, sup, hsup, -⟩ := hτ
        exact ⟨sup, hsup⟩
      rw [State.sup_of_some hsup] at hcap
      refine ⟨d', _, onchunk_eq_of_lt hauth ha hepoch hrow hsup hcap, ?_⟩
      rw [List.map_cons, List.foldlM_cons, bind_eq_ok_iff]
      refine ⟨{ d with ledger := τ }, ?_, hrest⟩
      show perform hashes host (depth + 2) (ctx.inlineBy tokenAccount tokenAccount) d
        (.token (chunkIssue (scaleBy cap luckyNumberChunkWeight)).call) = _
      rw [perform_chunkIssue, hτ]
      rfl
    · obtain ⟨d', hrest⟩ := (h.chunkShares_go_iff hpop ha
        (show (row[coreSymbol]?.getD 0).toInt = _ by rw [balanceOf, hrow]; rfl) depth).mpr hdue
      refine ⟨d', _, ?_, hrest⟩
      rw [System.onchunk, Context.requireAuth, check, if_pos hauth, ha,
        Table.requireFind_eq_ok_iff.mpr hrow]
      simp only [ok_bind, singletonGet, if_neg hepoch]
      rfl

end Chunk

/-! ### Epochs -/

/-- **An epoch that the bank is told of in time goes through**, with the payouts that follow. -/
theorem Sound.exists_onepoch (h : Sound ctx.isAccount d) {a : ALuckyNumber}
    (ha : d.system.state.aluckynumber = some a) (depth : ℕ) :
    ∃ d', perform hashes host (depth + 2) (ctx.inlineBy bankAccount bankAccount) d
      (.onepoch a.epoch) = .ok d' := by
  have hinner : Sound (ctx.inlineBy bankAccount bankAccount).isAccount d := h
  have hauth : (ctx.inlineBy bankAccount bankAccount).hasAuth bankAccount := by
    simp [Context.inlineBy]
  obtain ⟨r, hr, hmove⟩ : ∃ r, Bank.onepoch (ctx.inlineBy bankAccount bankAccount) (some a)
      d.vesting a.epoch = .ok r ∧
        Bank.TableMove (ctx.inlineBy bankAccount bankAccount) 0 d.vesting r.1 r.2 :=
    hinner.tableOk.exists_onepoch_move (fun _ => id) rfl hauth
  obtain ⟨τ, hhonoured, -⟩ := hinner.honoured h.ledger hmove (by omega)
  have hact : act hashes host (ctx.inlineBy bankAccount bankAccount) d (.onepoch a.epoch) =
      .ok ({ d with vesting := r.1 }, r.2.map fun i => ⟨i.actor, .token i.call⟩) := by
    rw [act, bind_eq_ok_iff]
    refine ⟨r, ?_, rfl⟩
    rw [ha]
    exact hr
  refine ⟨{ d with ledger := τ, vesting := r.1 }, ?_⟩
  rw [perform, hact]
  refine (perform_payouts depth hmove.payouts).trans ?_
  rw [hhonoured.runToken_eq]
  rfl

/-! ### Blocks -/

section Block

variable {σ : Twig.System.State} {header : BlockHeader} {res : BlockResult}

/-- Whom a block sends its milestone to. Random values go elsewhere. -/
def milestoneOf (sends : List Twig.System.Inline) : List Sent :=
  sends.filterMap fun i => inlineOf (.send i)

/-- **A block announces a chunk, or an epoch by its number, or nothing.** -/
theorem milestoneOf_onblock {ctx' : Context} (hok : onblock hashes host ctx' σ header = .ok res) :
    (.onchunk ∉ res.sends ∧ milestoneOf res.sends = []) ∨
      (.onchunk ∈ res.sends ∧
        milestoneOf res.sends = [⟨systemAccount, .system (.onchunk {})⟩]) ∨
      ∃ a, res.state.aluckynumber = some a ∧ .onchunk ∉ res.sends ∧
        milestoneOf res.sends = [⟨bankAccount, .onepoch a.epoch⟩] := by
  obtain ⟨a, -, -, hsends⟩ := onblock_luck hok
  obtain ⟨seed, calls, hcalls, heq⟩ := onblockLuck_eq hashes σ.rngcalls a header
  have hnone : milestoneOf calls = [] := by
    refine List.filterMap_eq_nil_iff.mpr fun i hi => ?_
    obtain ⟨index, row, blend, -, -, rfl⟩ := hcalls i hi
    rfl
  have hchunk : Twig.System.Inline.onchunk ∉ calls := by
    intro hmem
    obtain ⟨index, row, blend, -, -, hcall⟩ := hcalls _ hmem
    exact nomatch hcall
  rw [heq] at hsends
  split_ifs at hsends with hhit
  · cases hluck :
      (luckyHit header.producer { a with seed, totalBlocks := a.totalBlocks + 1 }).2 with
    | onchunk =>
      rw [hluck] at hsends
      refine .inr (.inl ⟨by simp [hsends], ?_⟩)
      rw [hsends, milestoneOf, List.filterMap_cons]
      exact congrArg _ hnone
    | onepoch epoch =>
      rw [hluck] at hsends
      have hsent : .onepoch epoch ∈ res.sends := by simp [hsends]
      obtain ⟨b, hb, rfl⟩ := epoch_eq_of_onepoch hok hsent
      refine .inr (.inr ⟨b, hb, ?_, ?_⟩)
      · simpa [hsends] using hchunk
      · rw [hsends, milestoneOf, List.filterMap_cons]
        exact congrArg _ hnone
    | rngcall contract action blend =>
      simp only [luckyHit] at hluck
      split_ifs at hluck
  · exact .inl ⟨hsends ▸ hchunk, hsends ▸ hnone⟩

/-- **What is left out** of what a block sends are the calls of active rows of `rngcalls`. -/
theorem calledBy_of_left_out {ctx' : Context} (hok : onblock hashes host ctx' σ header = .ok res)
    {i : Twig.System.Inline} (hi : i ∈ res.sends) (hout : inlineOf (.send i) = none) :
    i.CalledBy σ.rngcalls := by
  obtain ⟨a, -, -, hsends⟩ := onblock_luck hok
  obtain ⟨seed, calls, hcalls, heq⟩ := onblockLuck_eq hashes σ.rngcalls a header
  rw [hsends, heq] at hi
  split_ifs at hi
  · rcases List.mem_cons.mp hi with rfl | hi
    · -- a milestone goes to the system contract or to the bank
      refine absurd hout ?_
      simp only [luckyHit]
      split_ifs <;> exact Option.some_ne_none _
    · exact hcalls i hi
  · exact hcalls i hi

/-- What a block leads to: its milestone runs after it. -/
theorem perform_onblock
    (hok : onblock hashes host { ctx with self := systemAccount } d.system.state header = .ok res)
    (depth : ℕ) :
    perform hashes host (depth + 1) ctx d (.system (.onblock header)) =
      (milestoneOf res.sends).foldlM (fun d i => perform hashes host depth
          (ctx.inlineBy i.action.receiver i.actor) d i.action)
        { d with system.state := res.state } := by
  have hinline : (res.proposed.toList.map Effect.setProposedProducers ++
      res.policy.toList.map Effect.setFinalizers ++ res.sends.map Effect.send).filterMap inlineOf =
        milestoneOf res.sends := by
    have hproposed :
        (res.proposed.toList.map Effect.setProposedProducers).filterMap inlineOf = [] :=
      List.filterMap_eq_nil_iff.mpr fun e he => by
        obtain ⟨producers, -, rfl⟩ := List.mem_map.mp he
        rfl
    have hpolicy : (res.policy.toList.map Effect.setFinalizers).filterMap inlineOf = [] :=
      List.filterMap_eq_nil_iff.mpr fun e he => by
        obtain ⟨policy, -, rfl⟩ := List.mem_map.mp he
        rfl
    rw [List.filterMap_append, List.filterMap_append, hproposed, hpolicy, List.filterMap_map]
    rfl
  simp only [perform, act, reading, Contract.apply, hok, ok_bind, pure_bind, hinline]

/-- **When a block goes through.** In every state that the three contracts reach, a block that
`onblock` accepts goes through, with everything that follows from it in the three, exactly if the
chunk that it announces, if any, can be issued and hands out at least 400 units. What it sends to
other contracts are calls of active rows of `rngcalls`. (These, and the other contracts that are
notified of a transfer, are taken not to object, and the shares are those of exact products.) -/
theorem block_goes_through_iff {depth : ℕ} {tr : List (Context × Action)}
    (hrun : Run (step hashes host depth) Guard {} tr d)
    (hguard : Guard d (ctx, .system (.onblock header))) (hpop : Populated ctx.isAccount)
    (hok : onblock hashes host { ctx with self := systemAccount } d.system.state header = .ok res)
    {levels : ℕ} (hlevels : 4 ≤ levels) :
    ((∃ d', step hashes host levels d (ctx, .system (.onblock header)) = .ok d') ↔
      (.onchunk ∈ res.sends → ∃ a, res.state.aluckynumber = some a ∧
        ChunkDue a.epoch d.ledger)) ∧
      ∀ i ∈ res.sends, inlineOf (.send i) = none → i.CalledBy d.system.state.rngcalls := by
  refine ⟨?_, fun i => calledBy_of_left_out hok⟩
  obtain ⟨levels, rfl⟩ := Nat.exists_eq_add_of_le' hlevels
  have hstep : (∃ d', step hashes host (levels + 4) d (ctx, .system (.onblock header)) = .ok d') ↔
      ∃ d', (milestoneOf res.sends).foldlM (fun d i => perform hashes host (levels + 3)
        (ctx.inlineBy i.action.receiver i.actor) d i.action)
          { d with system.state := res.state } = .ok d' := by
    rw [← perform_onblock hok]
    simp only [step, bind_eq_ok_iff, pure_eq_ok_iff]
    constructor
    · rintro ⟨-, d₁, hd₁, -⟩
      exact ⟨d₁, hd₁⟩
    · rintro ⟨d₁, hd₁⟩
      exact ⟨_, d₁, hd₁, rfl⟩
  -- the state between the block and its milestone
  have hbefore := (sound_of_run hrun).mono hguard.kept
  have hsound : Sound ctx.isAccount { d with system.state := res.state } := by
    have happly : d.system.apply hashes host { ctx with self := systemAccount }
        (reading d.ledger (.onblock header)) = .ok ({ d.system with state := res.state },
          res.proposed.toList.map .setProposedProducers ++ res.policy.toList.map .setFinalizers ++
            res.sends.map .send) := by
      simp only [reading, Contract.apply, hok, ok_bind]
      rfl
    exact hbefore.system hguard.system hguard.safe happly
  obtain ⟨a, ha⟩ : ∃ a, res.state.aluckynumber = some a := by
    obtain ⟨b, -, hstored, -⟩ := onblock_luck hok
    exact ⟨_, hstored⟩
  rw [hstep]
  rcases milestoneOf_onblock hok with ⟨hnone, hmilestone⟩ | ⟨hchunk, hmilestone⟩ |
    ⟨b, hb, hnone, hmilestone⟩
  · rw [hmilestone]
    exact iff_of_true ⟨_, rfl⟩ fun h => absurd h hnone
  · rw [hmilestone]
    simp only [List.foldlM_cons, List.foldlM_nil, bind_pure]
    refine (hsound.onchunk_goes_iff hpop ha levels).trans ?_
    exact ⟨fun hdue _ => ⟨a, ha, hdue⟩, fun h => by
      obtain ⟨a', ha', hdue⟩ := h hchunk
      obtain rfl := Option.some.inj (ha.symm.trans ha')
      exact hdue⟩
  · rw [hmilestone]
    simp only [List.foldlM_cons, List.foldlM_nil, bind_pure]
    exact iff_of_true (hsound.exists_onepoch hb (levels + 1)) fun h => absurd h hnone

theorem block_goes_through_iff_firstChunk :
    ∃ d res, Run (step luckyHashes System.plainHost 4) Guard {} setUp d ∧
      onblock luckyHashes System.plainHost { Bank.everybody with self := systemAccount }
        d.system.state (headerAt 1 1) = .ok res ∧ .onchunk ∈ res.sends ∧
      ∃ a, res.state.aluckynumber = some a ∧ ChunkDue a.epoch d.ledger := by
  obtain ⟨d, hd, hblock⟩ := returns_iff.mp (show returns
    (setUp.foldlM (step luckyHashes System.plainHost 4) {}) (fun d =>
      (returns (step luckyHashes System.plainHost 4 d luckyBlock) fun _ => true) &&
        returns (onblock luckyHashes System.plainHost
          { Bank.everybody with self := systemAccount } d.system.state (headerAt 1 1)) fun res =>
            .onchunk ∈ res.sends) = true by decide +kernel)
  rw [Bool.and_eq_true] at hblock
  obtain ⟨d', hd', -⟩ := returns_iff.mp hblock.1
  obtain ⟨res, hres, hchunk⟩ := returns_iff.mp hblock.2
  obtain ⟨hrun, hkept⟩ := run_setUp hd
  have hguard : Guard d luckyBlock := guard_everybody hkept ⟨by decide, by decide⟩
  have hpop : Populated Bank.everybody.isAccount :=
    ⟨by decide, by decide, by decide, by decide, by decide⟩
  have hgoes : ∃ d', step luckyHashes System.plainHost 4 d luckyBlock = .ok d' := ⟨d', hd'⟩
  exact ⟨d, res, hrun, hres, of_decide_eq_true hchunk,
    (block_goes_through_iff hrun hguard hpop hres (Nat.le_refl 4)).1.mp hgoes
      (of_decide_eq_true hchunk)⟩

end Block

end Twig.Deployment
