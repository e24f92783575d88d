import Twig.Bank.Basic
import Twig.Lib.Exact
import Twig.Lib.Run

/-!
# Rewards in the bank

Runs of the bank under the system contract's lucky number: hits, the deposits that chunks make,
and repeated calls of `onepoch`. A hit that opens an epoch sends `onepoch`, which runs within
it. What has been deposited and what the bank has sent are logged beside the table, with the
epochs counted without wrapping.

The rest of the module says once what each entry point does to a row: `modifyRow_spec`,
`depositFor_of_none` and `depositFor_of_some`, `finishRow_of_due` and `finishRow_of_not_due`.
Integer division leaves `currentPayoutRatio` no value between zero and one: the payout is all or
nothing.
-/

namespace Twig.Bank

open Std Fallible Twig.System

/-! ### Runs -/

/-- The shares of a chunk that are deposited. -/
inductive Share
  | team
  | producer
deriving DecidableEq, Repr

def Share.memo : Share → String
  | .team => "team_share"
  | .producer => "producer_share"

/-- Whom a share is deposited for. -/
def Share.beneficiary (a : ALuckyNumber) : Share → Name
  | .team => teamAccount
  | .producer => a.producer

structure Deposit where
  producer : Name
  epoch : ℕ
  amount : Int64

/-- The lucky number and the vesting table, with a log of the deposits and of what was sent. -/
structure World where
  luck : ALuckyNumber := { producer := systemAccount }
  vesting : Table Name Vesting := ∅
  /-- The number of the epoch, counted without wrapping. -/
  epoch : ℕ := 1
  deposits : List Deposit := []
  sends : List Token.Inline := []

inductive Event
  /-- A lucky block. -/
  | hit (ctx : Context) (producer : Name)
  /-- The notification of a transfer from the chunks account. -/
  | deposit (ctx : Context) (share : Share) (amount : Int64)
  /-- A further call of `onepoch`. -/
  | onepoch (ctx : Context) (epoch : UInt32)

def World.step (w : World) : Event → Outcome World
  | .hit ctx producer =>
    match luckyHit producer w.luck with
    | (luck, .onepoch epoch) => do
      let (vesting, sends) ←
        onepoch (ctx.inlineBy bankAccount bankAccount) (some luck) w.vesting epoch
      pure { w with luck, vesting, epoch := w.epoch + 1, sends := w.sends ++ sends }
    | (luck, _) => pure { w with luck }
  | .deposit ctx share amount => do
    let (vesting, sends) ← tokenDeposit (ctx.inlineBy bankAccount chunksAccount) (some w.luck)
      w.vesting chunksAccount bankAccount [⟨amount, coreSymbol⟩] share.memo
    pure { w with
      vesting
      deposits := w.deposits ++ [⟨share.beneficiary w.luck, w.epoch, amount⟩]
      sends := w.sends ++ sends }
  | .onepoch ctx epoch => do
    let (vesting, sends) ←
      Bank.onepoch { ctx with self := bankAccount } (some w.luck) w.vesting epoch
    pure { w with vesting, sends := w.sends ++ sends }

/-! ### What has been sent -/

/-- What an action transfers to `p`. -/
def received (p : Name) (i : Token.Inline) : ℤ :=
  match i.call with
  | .transfer _ receiver tokens _ =>
    if receiver = p then (tokens.map fun t => t.amount.toInt).sum else 0
  | _ => 0

/-- What the actions transfer to `p` altogether. -/
def sentTo (p : Name) (sends : List Token.Inline) : ℤ := (sends.map (received p)).sum

variable {p producer self : Name} {a : ALuckyNumber} {quantity : Asset} {row row' : Vesting}
  {sends sends' : List Token.Inline}

@[simp]
theorem sentTo_nil : sentTo p [] = 0 := rfl

@[simp]
theorem sentTo_append : sentTo p (sends ++ sends') = sentTo p sends + sentTo p sends' := by
  rw [sentTo, List.map_append, List.sum_append]
  rfl

@[simp]
theorem sentTo_send {tokens : Asset} {memo : String} :
    sentTo p [send self producer tokens memo] =
      if producer = p then tokens.amount.toInt else 0 := by
  simp [sentTo, received, send]

/-! ### Payouts -/

theorem le_maxAmount_of_isAmountWithinRange {amount : Int64} {symbol : Symbol}
    (h : Asset.isAmountWithinRange ⟨amount, symbol⟩) : amount.toInt ≤ 2 ^ 62 - 1 := by
  simp only [Asset.isAmountWithinRange, decide_eq_true_eq, Int64.le_iff_toInt_le,
    Asset.toInt_maxAmount] at h
  exact h.2

/-- The quotient of what has been paid out and the total. -/
theorem toInt_paid_div_total (htotal : 0 < row.unvestingTotal.amount.toInt)
    (hpaid : 0 ≤ row.unvested.amount.toInt)
    (hle : row.unvested.amount.toInt ≤ row.unvestingTotal.amount.toInt) :
    (row.unvested.amount / row.unvestingTotal.amount).toInt =
      if row.unvested.amount.toInt < row.unvestingTotal.amount.toInt then 0 else 1 := by
  have hne : row.unvestingTotal.amount ≠ -1 := by
    intro heq
    rw [heq] at htotal
    exact absurd htotal (by decide)
  rw [Int64.toInt_div_of_ne_right _ _ hne, Int.tdiv_eq_ediv_of_nonneg hpaid]
  split_ifs with hlt
  · exact Int.ediv_eq_zero_of_lt hpaid hlt
  · rw [show row.unvested.amount.toInt = row.unvestingTotal.amount.toInt by omega,
      Int.ediv_self htotal.ne']

/-- **The payout ratio** is one before anything has been paid out and zero afterwards, less the
quotient of the chunks. -/
theorem currentPayoutRatio_eq {chunksRemaining : UInt32}
    (htotal : 0 < row.unvestingTotal.amount.toInt) (hpaid : 0 ≤ row.unvested.amount.toInt)
    (hle : row.unvested.amount.toInt ≤ row.unvestingTotal.amount.toInt) :
    currentPayoutRatio chunksRemaining row =
      (if row.unvested.amount.toInt < row.unvestingTotal.amount.toInt then 1 else 0) -
        ((chunksRemaining.toNat / 60750 : ℕ) : ℚ) := by
  have hquot := toInt_paid_div_total htotal hpaid hle
  have hchunks : (chunksRemaining / luckyNumberChunks).toNat = chunksRemaining.toNat / 60750 := by
    rw [UInt32.toNat_div, toNat_luckyNumberChunks]
  rw [currentPayoutRatio, hchunks]
  congr 1
  split_ifs at hquot ⊢ with hlt
  · rw [Int64.toInt_inj.mp (hquot.trans Int64.toInt_zero.symm)]
    rfl
  · rw [Int64.toInt_inj.mp (hquot.trans (show (1 : Int64).toInt = 1 from rfl).symm)]
    rfl

/-- A payout is due: there is something to vest, and the epoch has drawn a chunk. -/
def PayoutDue (chunksRemaining : UInt32) (row : Vesting) : Prop :=
  0 < row.unvestingTotal.amount.toInt ∧ chunksRemaining.toNat < 60750

instance (chunksRemaining : UInt32) (row : Vesting) : Decidable (PayoutDue chunksRemaining row) :=
  inferInstanceAs (Decidable (_ ∧ _))

/-- A positive ratio is one, and means that nothing has been paid out of what is due. -/
theorem currentPayoutRatio_pos_iff {chunksRemaining : UInt32}
    (htotal : 0 < row.unvestingTotal.amount.toInt) (hpaid : 0 ≤ row.unvested.amount.toInt)
    (hle : row.unvested.amount.toInt ≤ row.unvestingTotal.amount.toInt) :
    0 < currentPayoutRatio chunksRemaining row ↔
      currentPayoutRatio chunksRemaining row = 1 ∧
        row.unvested.amount.toInt < row.unvestingTotal.amount.toInt ∧
        chunksRemaining.toNat < 60750 := by
  refine ⟨?_, fun h => by rw [h.1]; exact one_pos⟩
  intro hpos
  rw [currentPayoutRatio_eq htotal hpaid hle] at hpos ⊢
  have hq : (0 : ℚ) ≤ ((chunksRemaining.toNat / 60750 : ℕ) : ℚ) := Nat.cast_nonneg _
  split_ifs at hpos ⊢ with hlt
  · have hlt1 : ((chunksRemaining.toNat / 60750 : ℕ) : ℚ) < (1 : ℕ) := by
      push_cast
      linarith
    have hzero : chunksRemaining.toNat / 60750 = 0 := by
      have := Nat.cast_lt.mp hlt1
      omega
    rw [hzero]
    exact ⟨by norm_num, hlt, by omega⟩
  · linarith

/-- A payout of the total is cut to what is left of it. -/
theorem toInt_fixRounding {total paid : Int64} {s : Symbol} (hpaid : 0 ≤ paid.toInt)
    (hlt : paid.toInt < total.toInt) (hmax : total.toInt ≤ 2 ^ 62 - 1) :
    (fixRounding total paid ⟨total, s⟩).amount.toInt = total.toInt - paid.toInt := by
  have hsum : (total + paid).toInt = _ := Int64.toInt_add_of_mem (by omega) (by omega)
  have hdiff : (total - paid).toInt = _ := Int64.toInt_sub_of_mem (by omega) (by omega)
  rw [fixRounding]
  split_ifs with hover
  · exact hdiff
  · rw [Int64.lt_iff_toInt_lt, hsum] at hover
    simp only
    omega

/-- **What a deposit does to a row**: `vested` grows by it, and when a payout is due all of
`unvestingTotal` that is left is paid out at once. -/
theorem modifyRow_spec (hpaid : 0 ≤ row.unvested.amount.toInt)
    (hle : 0 < row.unvestingTotal.amount.toInt →
      row.unvested.amount.toInt ≤ row.unvestingTotal.amount.toInt)
    (hok : modifyRow self producer a quantity row = .ok (row', sends)) :
    row'.vested.amount = row.vested.amount + quantity.amount ∧
      row'.unvestingTotal = row.unvestingTotal ∧ row'.epoch = row.epoch ∧
      row'.unvested.amount.toInt =
        (if PayoutDue a.chunksRemaining row then row.unvestingTotal.amount.toInt
          else row.unvested.amount.toInt) ∧
      sentTo producer sends = row'.unvested.amount.toInt - row.unvested.amount.toInt ∧
      ∀ p, p ≠ producer → sentTo p sends = 0 := by
  rw [modifyRow] at hok
  have hratio : currentPayoutRatio a.chunksRemaining
      { row with vested.amount := row.vested.amount + quantity.amount } =
      currentPayoutRatio a.chunksRemaining row := rfl
  split_ifs at hok with hpay
  · obtain ⟨htotal, hpos⟩ := hpay
    rw [Int64.toInt_pos_iff] at htotal
    rw [hratio, currentPayoutRatio_pos_iff htotal hpaid (hle htotal)] at hpos
    obtain ⟨hone, hlt, hchunks⟩ := hpos
    simp only [hratio, hone, one_mul, Rat.truncate_intCast, Int64.ofInt_toInt, bind_eq_ok_iff,
      Asset.make_eq_ok_iff, pure_eq_ok_iff, Prod.mk.injEq] at hok
    obtain ⟨tokens, ⟨hrange, -, rfl⟩, rfl, rfl⟩ := hok
    have hmax := le_maxAmount_of_isAmountWithinRange hrange
    have hleft := toInt_fixRounding (s := quantity.symbol) hpaid hlt hmax
    have hpaid' : (row.unvested.amount + (fixRounding row.unvestingTotal.amount
        row.unvested.amount ⟨row.unvestingTotal.amount, quantity.symbol⟩).amount).toInt =
        row.unvestingTotal.amount.toInt := by
      rw [Int64.toInt_add_of_mem] <;> rw [hleft] <;> omega
    refine ⟨rfl, rfl, rfl, ?_, ?_, ?_⟩
    · rwa [if_pos (show PayoutDue a.chunksRemaining row from ⟨htotal, hchunks⟩)]
    · rw [sentTo_send, if_pos rfl, hleft, hpaid']
    · intro p hp
      rw [sentTo_send, if_neg hp.symm]
  · rw [pure_eq_ok_iff, Prod.mk.injEq] at hok
    obtain ⟨rfl, rfl⟩ := hok
    refine ⟨rfl, rfl, rfl, ?_, by simp, fun _ _ => rfl⟩
    split_ifs with hdue
    · -- nothing is sent although a payout is due: all of it has been paid before
      obtain ⟨htotal, hchunks⟩ := hdue
      by_contra hne
      have hle' := hle htotal
      change ¬ row.unvested.amount.toInt = row.unvestingTotal.amount.toInt at hne
      refine hpay ⟨Int64.toInt_pos_iff.mpr htotal, ?_⟩
      rw [hratio, currentPayoutRatio_eq htotal hpaid hle', if_pos (by omega),
        Nat.div_eq_of_lt hchunks]
      norm_num
    · rfl

/-! ### Deposits -/

variable {ctx : Context} {vesting vesting' : Table Name Vesting}

/-- The notification of a share. -/
theorem tokenDeposit_share_eq_ok_iff {share : Share} {amount : Int64}
    {r : Table Name Vesting × List Token.Inline} :
    tokenDeposit (ctx.inlineBy bankAccount chunksAccount) (some a) vesting chunksAccount
        bankAccount [⟨amount, coreSymbol⟩] share.memo = .ok r ↔
      (share.beneficiary a).value ≠ 0 ∧
        depositFor bankAccount (share.beneficiary a) a ⟨amount, coreSymbol⟩ vesting = .ok r := by
  have hself : chunksAccount ≠ bankAccount := by decide
  cases share with
  | team =>
    have hmemo : Share.team.memo ≠ "ignore_memo" := by decide
    rw [tokenDeposit, if_neg (by simp [Context.inlineBy, hself, hmemo])]
    simp only [ne_eq, not_true_eq_false, if_false, singletonGet, ok_bind, check_bind_eq_ok_iff]
    rfl
  | producer =>
    have hmemo : Share.producer.memo ≠ "ignore_memo" := by decide
    have hteam : Share.producer.memo ≠ "team_share" := by decide
    rw [tokenDeposit, if_neg (by simp [Context.inlineBy, hself, hmemo])]
    simp only [ne_eq, not_true_eq_false, if_false, singletonGet, ok_bind, check_bind_eq_ok_iff,
      hteam]
    rfl

/-- A first deposit creates a row. -/
theorem depositFor_of_none (hnone : vesting[producer]? = none)
    (hok : depositFor self producer a quantity vesting = .ok (vesting', sends)) :
    ∃ zero : Asset, zero.amount = 0 ∧ sends = [] ∧
      vesting' = vesting.insert producer
        { vested := quantity, unvestingTotal := zero, unvested := zero, epoch := a.epoch } := by
  simp only [depositFor, hnone, bind_eq_ok_iff, Asset.make_eq_ok_iff, Table.emplace_eq_ok_iff,
    pure_eq_ok_iff, Prod.mk.injEq] at hok
  obtain ⟨zero, ⟨-, -, rfl⟩, table, ⟨-, rfl⟩, rfl, rfl⟩ := hok
  exact ⟨_, rfl, rfl, rfl⟩

/-- A further one modifies it. -/
theorem depositFor_of_some (hrow : vesting[producer]? = some row)
    (hok : depositFor self producer a quantity vesting = .ok (vesting', sends)) :
    ∃ row', modifyRow self producer a quantity row = .ok (row', sends) ∧
      vesting' = vesting.insert producer row' := by
  simp only [depositFor, hrow, bind_eq_ok_iff, pure_eq_ok_iff, Prod.mk.injEq] at hok
  obtain ⟨⟨row', sent⟩, hmodify, rfl, rfl⟩ := hok
  exact ⟨row', hmodify, rfl⟩

/-! ### Epochs -/

/-- **What the end of an epoch does to a row**: the rest of `unvestingTotal` is sent, and
`vested` takes its place. -/
theorem finishRow_of_due {epoch : UInt32} (hdue : row.epoch + 1 = epoch)
    (hok : finishRow self epoch producer row = .ok (row', sends)) :
    row'.unvestingTotal.amount = row.vested.amount ∧ row'.unvested.amount = 0 ∧
      row'.vested.amount = 0 ∧ row'.epoch = epoch ∧
      sentTo producer sends = max 0 (row.unvestingTotal.amount - row.unvested.amount).toInt := by
  simp only [finishRow, if_pos hdue, bind_eq_ok_iff, Asset.make_eq_ok_iff] at hok
  obtain ⟨finished, ⟨-, -, rfl⟩, hok⟩ := hok
  split_ifs at hok with hpos
  all_goals
    rw [pure_eq_ok_iff, Prod.mk.injEq] at hok
    obtain ⟨rfl, rfl⟩ := hok
    refine ⟨rfl, rfl, rfl, rfl, ?_⟩
    rw [Int64.toInt_pos_iff] at hpos
  · rw [sentTo_send, if_pos rfl, max_eq_right hpos.le]
  · rw [sentTo_nil, max_eq_left (by simpa using hpos)]

/-- A row of the current epoch stays as it is. -/
theorem finishRow_of_not_due {epoch : UInt32} (hdue : row.epoch + 1 ≠ epoch) :
    finishRow self epoch producer row = .ok (row, []) := if_neg hdue

/-- The end of an epoch sends a row's producer only what it holds. -/
theorem sentTo_finishRow_other {epoch : UInt32} (hp : producer ≠ p) :
    sentTo p (OrdMap.replaced (finishRow self epoch) producer row).2 = 0 := by
  rw [OrdMap.replaced]
  cases hfinish : finishRow self epoch producer row with
  | error e => rfl
  | ok r =>
    rw [finishRow] at hfinish
    split_ifs at hfinish with hdue
    · simp only [bind_eq_ok_iff] at hfinish
      obtain ⟨finished, -, hfinish⟩ := hfinish
      split_ifs at hfinish
      all_goals obtain rfl := pure_eq_ok_iff.mp hfinish
      · rw [sentTo_send, if_neg hp]
      · rfl
    · obtain rfl := pure_eq_ok_iff.mp hfinish
      rfl

/-- **What `onepoch` does**: every row is finished on its own. -/
theorem onepoch_spec {epoch : UInt32}
    (hok : onepoch ctx (some a) vesting epoch = .ok (vesting', sends)) :
    a.epoch = epoch ∧
      (∀ p, vesting[p]? = none → vesting'[p]? = none ∧ sentTo p sends = 0) ∧
      ∀ p row, vesting[p]? = some row → ∃ row' sent,
        finishRow ctx.self epoch p row = .ok (row', sent) ∧ vesting'[p]? = some row' ∧
          sentTo p sends = sentTo p sent := by
  simp only [onepoch, singletonGet, ok_bind, bind_eq_ok_iff, Context.requireAuth_eq_ok_iff,
    check_eq_ok_iff, exists_const] at hok
  obtain ⟨-, hepoch, hupdate⟩ := hok
  obtain ⟨hrows, hvesting, hsends⟩ := OrdMap.updateAll_spec hupdate
  have hsent (p : Name) : sentTo p sends = OrdMap.entry
      (fun q v => sentTo p (OrdMap.replaced (finishRow ctx.self epoch) q v).2) vesting p := by
    rw [hsends]
    exact OrdMap.sum_emitted fun q v hq => sentTo_finishRow_other hq
  refine ⟨hepoch, fun p hp => ⟨by rw [hvesting, hp]; rfl, ?_⟩, fun p row hp => ?_⟩
  · rw [hsent, OrdMap.entry_of_none hp]
  · refine ⟨(OrdMap.replaced (finishRow ctx.self epoch) p row).1,
      (OrdMap.replaced (finishRow ctx.self epoch) p row).2, hrows p row hp, ?_, ?_⟩
    · rw [hvesting, hp]
      rfl
    · rw [hsent, OrdMap.entry_of_some hp]

/-- A repeated `onepoch` changes nothing and sends nothing. -/
theorem onepoch_of_current {epoch : UInt32}
    (hrows : ∀ (p : Name) (row : Vesting), vesting[p]? = some row → row.epoch = a.epoch)
    (hok : onepoch ctx (some a) vesting epoch = .ok (vesting', sends)) :
    vesting' = vesting ∧ ∀ p, sentTo p sends = 0 := by
  obtain ⟨rfl, habsent, hpresent⟩ := onepoch_spec hok
  have hrow (p : Name) : vesting'[p]? = vesting[p]? ∧ sentTo p sends = 0 := by
    cases hp : vesting[p]? with
    | none => exact habsent p hp
    | some row =>
      obtain ⟨row', sent, hfinish, hp', hsent⟩ := hpresent p row hp
      have hdue : row.epoch + 1 ≠ a.epoch := by
        rw [hrows p row hp]
        simp
      rw [finishRow_of_not_due hdue, Except.ok.injEq, Prod.mk.injEq] at hfinish
      obtain ⟨rfl, rfl⟩ := hfinish
      exact ⟨hp', hsent⟩
  exact ⟨ExtTreeMap.ext_getElem? fun p => (hrow p).1, fun p => (hrow p).2⟩

/-! ### Steps -/

variable {w w' : World}

theorem step_hit_of_pos (h : 0 < w.luck.chunksRemaining) :
    w.step (.hit ctx producer) = .ok { w with luck := (luckyHit producer w.luck).1 } := by
  rw [World.step, luckyHit_of_pos h]
  rfl

theorem step_hit_of_zero (h : w.luck.chunksRemaining = 0) :
    w.step (.hit ctx producer) = .ok w' ↔
      ∃ vesting sends, onepoch (ctx.inlineBy bankAccount bankAccount)
          (some (luckyHit producer w.luck).1) w.vesting (w.luck.epoch + 1) = .ok (vesting, sends) ∧
        { w with
          luck := (luckyHit producer w.luck).1
          vesting
          epoch := w.epoch + 1
          sends := w.sends ++ sends } = w' := by
  simp only [World.step, luckyHit_of_zero h, bind_eq_ok_iff, pure_eq_ok_iff, Prod.exists]

theorem step_deposit {share : Share} {amount : Int64} :
    w.step (.deposit ctx share amount) = .ok w' ↔
      (share.beneficiary w.luck).value ≠ 0 ∧
        ∃ vesting sends, depositFor bankAccount (share.beneficiary w.luck) w.luck
            ⟨amount, coreSymbol⟩ w.vesting = .ok (vesting, sends) ∧
          { w with
            vesting
            deposits := w.deposits ++ [⟨share.beneficiary w.luck, w.epoch, amount⟩]
            sends := w.sends ++ sends } = w' := by
  simp only [World.step, bind_eq_ok_iff, tokenDeposit_share_eq_ok_iff, pure_eq_ok_iff,
    Prod.exists, and_assoc, exists_and_left]

theorem step_onepoch {epoch : UInt32} :
    w.step (.onepoch ctx epoch) = .ok w' ↔
      ∃ vesting sends, onepoch { ctx with self := bankAccount } (some w.luck) w.vesting epoch =
          .ok (vesting, sends) ∧
        { w with vesting, sends := w.sends ++ sends } = w' := by
  simp only [World.step, bind_eq_ok_iff, pure_eq_ok_iff, Prod.exists]

end Twig.Bank
