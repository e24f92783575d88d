import Twig.System.Producers

/-!
# Blocks

`onblock`, the action that the chain runs at the start of every block, with
`add_to_blockinfo_table`. The header's fields past the previous block id are not read.

`onblock` takes a copy of the `global` singleton, calls `update_elected_producers`, which takes
and stores a copy of its own, and at the end stores the first copy: what the schedule update
wrote is lost.
-/

namespace Twig.System

open Std Fallible

/-- The fields of a block header that `onblock` reads. -/
structure BlockHeader where
  /-- A block timestamp, in slots. -/
  timestamp : UInt32
  producer : Name
  previous : Checksum256

/-- `block_height_from_id`: the first four bytes, in big endian order. -/
def blockHeightFromId (blockId : Checksum256) : UInt32 :=
  (blockId[0].toUInt32 <<< 0x18) ||| (blockId[1].toUInt32 <<< 0x10) |||
    (blockId[2].toUInt32 <<< 0x08) ||| blockId[3].toUInt32

/-- `add_to_blockinfo_table`, on the table in the scope of the contract. -/
def addToBlockinfoTable (blockinfo : Table UInt32 BlockInfo) (previousBlockId : Checksum256)
    (timestamp : UInt32) : Outcome (Table UInt32 BlockInfo) := do
  let newBlockHeight := blockHeightFromId previousBlockId + 1
  let blockinfo ← blockinfo.emplace newBlockHeight
    { blockTimestamp := timeOfSlot timestamp }
  let lastPrunableBlockHeight := max newBlockHeight rollingWindowSize - rollingWindowSize
  -- no more than two old rows go at a time
  let old := (blockinfo.toList.takeWhile fun e => e.1 ≤ lastPrunableBlockHeight).take 2
  pure (old.foldl (fun t e => t.erase e.1) blockinfo)

/-- What a block leads to. -/
structure BlockResult where
  state : State
  sends : List Inline
  /-- The list given to `set_proposed_producers`. -/
  proposed : Option (List ProducerAuthority) := none
  policy : Option FinalizerPolicy := none

/-- Whether `onblock` updates the schedule: once every minute. -/
def updateDue (global : Global) (timestamp : UInt32) : Bool :=
  blocksPerMinute < timestamp - global.lastProducerScheduleUpdate

/-- What `onblock` does with the lucky number, and what that sends. -/
def onblockLuck (hashes : Hashes) (rngcalls : Table UInt64 RngCall) (a : ALuckyNumber)
    (header : BlockHeader) : ALuckyNumber × List Inline :=
  let rp := RandomnessProvider.make a.seed (a.totalBlocks + 1)
  let (seed, rp) := rp.getBlend hashes header.previous header.producer.value
  let (a, rp, sends) := onALuckyBlock header.producer { a with seed } rp
  let (_, rngSends) := processRngCalls hashes rngcalls a rp
  (a, sends ++ rngSends)

/-- What `onblock` does with the schedule, given its copy of `global`. -/
def onblockSchedule (host : Host) (global : Global) (σ : State) (timestamp : UInt32) :
    Outcome (State × Option (List ProducerAuthority) × Option FinalizerPolicy) :=
  if updateDue global timestamp then updateElectedProducers host σ timestamp
  else pure (σ, none, none)

def onblock (hashes : Hashes) (host : Host) (ctx : Context) (σ : State) (header : BlockHeader) :
    Outcome BlockResult := do
  ctx.requireAuth ctx.self
  let global ← singletonGet σ.global
  let a ← singletonGet σ.aluckynumber
  let blockinfo ← addToBlockinfoTable (σ.blockinfo ctx.self.value) header.previous header.timestamp
  let σ := { σ with blockinfo := Function.update σ.blockinfo ctx.self.value blockinfo }
  let (a, sends) := onblockLuck hashes σ.rngcalls a header
  let (σ, proposed, policy) ← onblockSchedule host global σ header.timestamp
  pure {
    state := { σ with global := some global, aluckynumber := some a }
    sends
    proposed
    policy }

end Twig.System
