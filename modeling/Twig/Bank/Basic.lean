import Twig.Lib.Rows
import Twig.System.Tokenomics

/-!
# The bank contract

The `vesting` table of `eosio.bank` and its entry points: `token_deposit`, the notification of an
incoming transfer, and `onepoch`, which both return the table and the transfers they send, and
`cleanup`.

The ratios of `token_deposit` are integer quotients that the source converts to `double`
afterwards, and are computed in that order here: first the machine division, then the fraction.
-/

namespace Twig.Bank

open Std Fallible Twig.System

/-- A row of `vesting`, filed under its producer. -/
structure Vesting where
  /-- Starts at zero, builds up, and empties into `unvestingTotal` at the end of an epoch. -/
  vested : Asset
  unvestingTotal : Asset
  /-- What has been sent of `unvestingTotal`. -/
  unvested : Asset
  epoch : UInt32
deriving DecidableEq, Repr

/-- A transfer that the bank sends. -/
def send (self producer : Name) (tokens : Asset) (memo : String) : Token.Inline :=
  ⟨self, .transfer self producer [tokens] memo⟩

/-! ### Deposits -/

/-- `current_payout_ratio`. -/
def currentPayoutRatio (chunksRemaining : UInt32) (row : Vesting) : ℚ :=
  let chunksRatio : ℚ := (chunksRemaining / luckyNumberChunks).toNat
  let inversePaidoutRatio : ℚ :=
    ((row.unvested.amount / row.unvestingTotal.amount - 1) * -1).toInt
  inversePaidoutRatio - chunksRatio

/-- "Fix rounding errors": no more is sent than is left of the total. -/
def fixRounding (total paid : Int64) (tokens : Asset) : Asset :=
  if total < tokens.amount + paid then { tokens with amount := total - paid } else tokens

/-- A deposit for a producer that has a row. -/
def modifyRow (self producer : Name) (a : ALuckyNumber) (quantity : Asset) (row : Vesting) :
    Outcome (Vesting × List Token.Inline) := do
  let total := row.unvestingTotal.amount
  let paid := row.unvested.amount
  let row := { row with vested.amount := row.vested.amount + quantity.amount }
  let ratio := currentPayoutRatio a.chunksRemaining row
  if 0 < total ∧ 0 < ratio then
    let tokens ← Asset.make (.ofInt (Rat.truncate (ratio * total.toInt))) quantity.symbol
    let tokens := fixRounding total paid tokens
    pure ({ row with unvested.amount := paid + tokens.amount },
      [send self producer tokens
        ("Distributing unvested production rewards for " ++ producer.toString)])
  else pure (row, [])

/-- A deposit for `producer`. -/
def depositFor (self producer : Name) (a : ALuckyNumber) (quantity : Asset)
    (vesting : Table Name Vesting) : Outcome (Table Name Vesting × List Token.Inline) :=
  match vesting[producer]? with
  | none => do
    let zero ← Asset.make 0 quantity.symbol
    let vesting ← vesting.emplace producer
      { vested := quantity, unvestingTotal := zero, unvested := zero, epoch := a.epoch }
    pure (vesting, [])
  | some row => do
    let (row, sends) ← modifyRow self producer a quantity row
    pure (vesting.insert producer row, sends)

def tokenDeposit (ctx : Context) (aluckynumber : Option ALuckyNumber)
    (vesting : Table Name Vesting) (sender receiver : Name) (tokens : List Asset)
    (memo : String) : Outcome (Table Name Vesting × List Token.Inline) :=
  if receiver ≠ ctx.self ∨ sender = ctx.self ∨ sender ≠ chunksAccount ∨ memo = "ignore_memo" then
    pure (vesting, [])
  else
    match tokens with
    | [quantity] => do
      if quantity.symbol ≠ coreSymbol then pure (vesting, [])
      else
        let a ← singletonGet aluckynumber
        let producer :=
          if memo = "team_share" then teamAccount
          else if memo = "producer_share" then a.producer
          else ⟨0⟩
        -- the name of an unknown memo is empty
        check (producer.value ≠ 0) "invalid memo"
        depositFor ctx.self producer a quantity vesting
    | _ => pure (vesting, [])

/-! ### Epochs -/

/-- What `onepoch` does to a row: if the row is of the epoch before, what is left of its
`unvestingTotal` is sent and the row moves on. -/
def finishRow (self : Name) (epoch : UInt32) (producer : Name) (row : Vesting) :
    Outcome (Vesting × List Token.Inline) :=
  -- a row that has moved on already is passed over
  if row.epoch + 1 = epoch then do
    let finishedVesting ← Asset.make (row.unvestingTotal.amount - row.unvested.amount)
      row.vested.symbol
    let row' := { row with
      unvestingTotal.amount := row.vested.amount
      unvested.amount := 0
      vested.amount := 0
      epoch }
    if 0 < finishedVesting.amount then
      pure (row', [send self producer finishedVesting "Distributing end of Epoch rewards..."])
    else pure (row', [])
  else pure (row, [])

def onepoch (ctx : Context) (aluckynumber : Option ALuckyNumber)
    (vesting : Table Name Vesting) (epoch : UInt32) :
    Outcome (Table Name Vesting × List Token.Inline) := do
  ctx.requireAuth ctx.self
  let a ← singletonGet aluckynumber
  check (a.epoch = epoch) "invalid epoch"
  OrdMap.updateAll (finishRow ctx.self epoch) vesting

/-! ### Administration -/

/-- `cleanup`: erases one row after the other. -/
def cleanup (ctx : Context) (vesting : Table Name Vesting) : Outcome (Table Name Vesting) := do
  ctx.requireAuth ctx.self
  pure (vesting.toList.foldl (fun vesting e => vesting.erase e.1) vesting)

/-- Nothing is left. -/
@[simp]
theorem cleanup_eq_ok_iff {ctx : Context} {vesting vesting' : Table Name Vesting} :
    cleanup ctx vesting = .ok vesting' ↔ ctx.hasAuth ctx.self ∧ vesting' = ∅ := by
  rw [cleanup, OrdMap.foldl_erase_toList, Context.requireAuth, check_bind_eq_ok_iff,
    pure_eq_ok_iff, eq_comm (a := ∅)]

end Twig.Bank
