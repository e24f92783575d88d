import Twig.Eosio.Chain
import Twig.Lib.Truncate

/-!
# The system contract: constants and tables

What the system contract's actions share: the constants of its lucky tokenomics, its tables and
their default rows.

The weights are written in `double` in the source and read as exact fractions here; so are the
votes of a producer. Of the weights, `luckyNumberTeamWeight_eq` and its companions give the
reduced form.
-/

namespace Twig.System

open Std

/-! ### Constants -/

/-- The account of the system contract. -/
def systemAccount : Name := .ofString "eosio"

def tokenAccount : Name := .ofString "eosio.token"
def chunksAccount : Name := .ofString "eosio.chunks"
def teamAccount : Name := .ofString "eosio.twig"
def worldAccount : Name := .ofString "eosio.world"
def bankAccount : Name := .ofString "eosio.bank"
def boardAccount : Name := .ofString "eosio.board"

/-- The system account calling itself, on a chain where every account exists. -/
def systemContext : Context := .permissive systemAccount

def blocksPerDay : UInt32 := 24 * 3600
def blocksPerMinute : UInt32 := blocksPerDay / 24 / 60
def rollingWindowSize : UInt32 := 10

def luckyNumberOdds : UInt32 := 16 * 16

/-- The chunks of an epoch, about half a year of lucky blocks. -/
def luckyNumberChunks : UInt32 := 6 * 30 * 24 * 3600 / luckyNumberOdds

/-- The part of the maximal supply that a chunk issues: all of it over twenty epochs. -/
def luckyNumberChunkWeight : ℚ := 1 / (luckyNumberChunks.toNat * 20)

def luckyNumberWorldWeight : ℚ := 975 / 1000
def luckyNumberWorldWeightInverse : ℚ := (luckyNumberWorldWeight - 1) * -1
def luckyNumberTeamWeight : ℚ := luckyNumberWorldWeightInverse * (45 / 100)
def luckyNumberBoardWeight : ℚ := luckyNumberWorldWeightInverse * (45 / 100)
def luckyNumberProducerWeight : ℚ := luckyNumberWorldWeightInverse * (1 / 10)

theorem toNat_luckyNumberChunks : luckyNumberChunks.toNat = 60750 := by decide

theorem luckyNumberChunkWeight_eq : luckyNumberChunkWeight = (1 : ℕ) / (1215000 : ℕ) := by
  norm_num [luckyNumberChunkWeight, toNat_luckyNumberChunks]

theorem luckyNumberWorldWeight_eq : luckyNumberWorldWeight = (39 : ℕ) / (40 : ℕ) := by
  norm_num [luckyNumberWorldWeight]

theorem luckyNumberTeamWeight_eq : luckyNumberTeamWeight = (9 : ℕ) / (800 : ℕ) := by
  norm_num [luckyNumberTeamWeight, luckyNumberWorldWeightInverse, luckyNumberWorldWeight]

theorem luckyNumberBoardWeight_eq : luckyNumberBoardWeight = (9 : ℕ) / (800 : ℕ) :=
  luckyNumberTeamWeight_eq

theorem luckyNumberProducerWeight_eq : luckyNumberProducerWeight = (1 : ℕ) / (400 : ℕ) := by
  norm_num [luckyNumberProducerWeight, luckyNumberWorldWeightInverse, luckyNumberWorldWeight]

/-- `int64_t(amount * weight)`. -/
def scaleBy (amount : Int64) (weight : ℚ) : Int64 :=
  .ofInt (Rat.truncate (amount.toInt * weight))

/-! ### Tables -/

/-- The `global` singleton. -/
structure Global where
  /-- A block timestamp, in slots. -/
  lastProducerScheduleUpdate : UInt32 := 0
  lastProducerScheduleSize : UInt16 := 0
deriving DecidableEq, Repr

/-- The `aluckynumber` singleton. -/
structure ALuckyNumber where
  seed : Checksum256 := Vector.replicate 32 0
  odds : UInt32 := luckyNumberOdds
  /-- The first epoch stands for the initial supply. -/
  epoch : UInt32 := 1
  chunksRemaining : UInt32 := luckyNumberChunks
  blocksSince : UInt32 := 0
  totalBlocks : UInt64 := 0
  producer : Name := ⟨0⟩
deriving DecidableEq, Repr

/-- A row of `rngcalls`: an action that is sent a fresh random value every block. -/
structure RngCall where
  contract : Name
  action : Name
  active : UInt8 := 0

/-- A row of `blockinfo`, filed under its height. -/
structure BlockInfo where
  version : UInt8 := 0
  blockTimestamp : TimePoint

structure KeyWeight where
  key : Bytes
  weight : UInt16

structure BlockSigningAuthority where
  threshold : UInt32
  keys : List KeyWeight

/-- `is_valid`: distinct keys whose weights can reach the threshold. -/
def BlockSigningAuthority.isValid (auth : BlockSigningAuthority) : Bool :=
  (auth.keys.map KeyWeight.key).Nodup ∧ auth.threshold ≠ 0 ∧
    auth.threshold.toNat ≤ (auth.keys.map fun k => k.weight.toNat).sum

/-- A row of `producers`, filed under its owner. -/
structure Producer where
  totalVotes : ℚ := 0
  producerKey : Bytes
  isActive : Bool := true
  url : String := ""
  lastClaimTime : TimePoint := 0
  location : UInt16 := 0
  producerAuthority : Option BlockSigningAuthority

/-- The empty public key. -/
def defaultPublicKey : Bytes := List.replicate 34 0

def Producer.deactivate (p : Producer) : Producer :=
  { p with producerKey := defaultPublicKey, producerAuthority := none, isActive := false }

/-- The key of the `prototalvote` index. -/
def Producer.byVotes (p : Producer) : ℚ := if p.isActive then -p.totalVotes else p.totalVotes

def Producer.getProducerAuthority (p : Producer) : BlockSigningAuthority :=
  match p.producerAuthority with
  | some auth =>
    if auth.threshold ≠ 0 then auth else { threshold := 1, keys := [⟨p.producerKey, 1⟩] }
  | none => { threshold := 1, keys := [⟨p.producerKey, 1⟩] }

/-- A row of `finkeys`, filed under its id. -/
structure FinKey where
  finalizerName : Name
  finalizerKey : String
  finalizerKeyBinary : Bytes

/-- A row of `finalizers`, filed under its name. -/
structure Finalizer where
  activeKeyId : UInt64
  activeKeyBinary : Bytes
  finalizerKeyCount : UInt32 := 0

structure FinalizerAuthority where
  description : String
  weight : UInt64
  publicKey : Bytes

structure FinalizerAuthInfo where
  keyId : UInt64
  finAuthority : FinalizerAuthority

/-- The tables of the system contract. -/
structure State where
  global : Option Global := none
  aluckynumber : Option ALuckyNumber := none
  rngcalls : Table UInt64 RngCall := ∅
  /-- By scope. -/
  blockinfo : UInt64 → Table UInt32 BlockInfo := fun _ => ∅
  producers : Table Name Producer := ∅
  finkeys : Table UInt64 FinKey := ∅
  finalizers : Table Name Finalizer := ∅
  /-- The only row, if there is one. -/
  lastpropfins : Option (List FinalizerAuthInfo) := none
  /-- `next_finalizer_key_id` of the only row, if there is one. -/
  finkeyidgen : Option UInt64 := none

/-- `init`, without the chain parameters. -/
def init (ctx : Context) (σ : State) (destruct : Bool) : Outcome State := do
  ctx.requireAuth ctx.self
  if destruct then pure { σ with global := none, aluckynumber := none }
  else
    pure { σ with
      global := some {}
      aluckynumber := some { producer := systemAccount } }

/-- What `init` leaves. -/
theorem init_ok {ctx : Context} {σ σ' : State} (h : init ctx σ false = .ok σ') :
    σ' = { σ with global := some {}, aluckynumber := some { producer := systemAccount } } := by
  rw [init, Context.requireAuth, check_bind_eq_ok_iff, if_neg Bool.false_ne_true,
    Fallible.pure_eq_ok_iff] at h
  exact h.2.symm

end Twig.System
