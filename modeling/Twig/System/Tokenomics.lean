import Twig.System.Randomness
import Twig.Token.Basic

/-!
# Lucky tokenomics

`on_a_lucky_block`, `process_rng_calls` and the actions `feedthebeast` and `onchunk`. Inline
actions are returned in the order they are sent: those to other contracts than the token as
`Inline`, those to the token as `Token.Inline`.

The hit branch of `on_a_lucky_block` is a function of its own, `luckyHit`: the runs of lucky
hits, which are all that matters to emission and vesting, are made of it.
-/

namespace Twig.System

open Std

/-- The inline actions that `onblock` sends. -/
inductive Inline
  | onchunk
  | onepoch (epoch : UInt32)
  | rngcall (contract action : Name) (blend : Checksum256)
deriving DecidableEq

/-- The hit branch of `on_a_lucky_block`: a chunk, or a new epoch when none is left. -/
def luckyHit (producer : Name) (a : ALuckyNumber) : ALuckyNumber × Inline :=
  let a := { a with blocksSince := 0, producer }
  if 0 < a.chunksRemaining then
    ({ a with chunksRemaining := a.chunksRemaining - 1 }, .onchunk)
  else
    let a := { a with chunksRemaining := luckyNumberChunks, epoch := a.epoch + 1 }
    (a, .onepoch a.epoch)

theorem luckyHit_of_pos {producer : Name} {a : ALuckyNumber} (h : 0 < a.chunksRemaining) :
    luckyHit producer a =
      ({ a with blocksSince := 0, producer, chunksRemaining := a.chunksRemaining - 1 },
        .onchunk) := by
  rw [luckyHit]
  exact if_pos h

theorem luckyHit_of_zero {producer : Name} {a : ALuckyNumber} (h : a.chunksRemaining = 0) :
    luckyHit producer a =
      ({ a with
          blocksSince := 0, producer, chunksRemaining := luckyNumberChunks, epoch := a.epoch + 1 },
        .onepoch (a.epoch + 1)) := by
  rw [luckyHit]
  exact if_neg (by rw [h]; decide)

/-- Only a hit that had a chunk left sends `onchunk`. -/
theorem chunksRemaining_pos_of_onchunk {producer : Name} {a : ALuckyNumber}
    (h : (luckyHit producer a).2 = .onchunk) : 0 < a.chunksRemaining := by
  by_contra hpos
  rw [luckyHit, if_neg hpos] at h
  exact nomatch h

def onALuckyBlock (producer : Name) (a : ALuckyNumber) (rp : RandomnessProvider) :
    ALuckyNumber × RandomnessProvider × List Inline :=
  let a := { a with totalBlocks := a.totalBlocks + 1 }
  let (luckRoll, rp) := rp.getRand (a.odds * 16)
  if 16 ≤ luckRoll then ({ a with blocksSince := a.blocksSince + 1 }, rp, [])
  else
    let (a, send) := luckyHit producer a
    (a, rp, [send])

def processRngCalls (hashes : Hashes) (rngcalls : Table UInt64 RngCall) (a : ALuckyNumber)
    (rp : RandomnessProvider) : RandomnessProvider × List Inline :=
  rngcalls.toList.foldl (fun (rp, sends) (_, row) =>
    if row.active ≠ 0 then
      let (blend, rp) := rp.getBlend hashes a.seed row.contract.value
      (rp, sends ++ [.rngcall row.contract row.action blend])
    else (rp, sends)) (rp, [])

def feedthebeast (hashes : Hashes) (σ : State) (seed : Checksum256) : Outcome State := do
  let a ← singletonGet σ.aluckynumber
  let rp := RandomnessProvider.make seed
  pure { σ with aluckynumber := some { a with seed := (rp.getBlend hashes a.seed).1 } }

/-- The `issue` of a chunk. -/
def chunkIssue (amount : Int64) : Token.Inline :=
  ⟨tokenAccount, .issue chunksAccount (Token.coreTokens amount)
    "A chunk has been found! Distributing rewards..."⟩

/-- One transfer from the chunks account. -/
def chunkTransfer (t : Name × Int64 × String) : Token.Inline :=
  ⟨chunksAccount, .transfer chunksAccount t.1 [⟨t.2.1, coreSymbol⟩] t.2.2⟩

/-- The receivers, amounts and memos of the four transfers of a chunk, each amount the product
of all chunks tokens with its weight. -/
def chunkShares (chunksTokens : Int64) : List (Name × Int64 × String) :=
  [(bankAccount, scaleBy chunksTokens luckyNumberTeamWeight, "team_share"),
    (boardAccount, scaleBy chunksTokens luckyNumberBoardWeight, "board_share"),
    (bankAccount, scaleBy chunksTokens luckyNumberProducerWeight, "producer_share"),
    (worldAccount, scaleBy chunksTokens luckyNumberWorldWeight, "Refilling World...")]

/-- `onchunk`: the actions it sends to the token contract, whose tables `τ` it reads. -/
def onchunk (ctx : Context) (σ : State) (τ : Token.State) : Outcome (List Token.Inline) := do
  ctx.requireAuth ctx.self
  let a ← singletonGet σ.aluckynumber
  let chunksBalance ← τ.accounts.requireFind chunksAccount "chunks_account_missing"
  let chunksTokens := chunksBalance[coreSymbol]?.getD 0
  if a.epoch < 21 then
    let supplies ← singletonGet τ.supplies
    let maxSupply ← deref supplies.maxSupply[coreSymbol]?
    let tokensToIssue := scaleBy maxSupply luckyNumberChunkWeight
    pure (chunkIssue tokensToIssue ::
      (chunkShares (chunksTokens + tokensToIssue)).map chunkTransfer)
  else pure ((chunkShares chunksTokens).map chunkTransfer)

end Twig.System
