import Twig.Eosio.Chain

/-!
# The multisig contract

The tables of `eosio.msig` and its six actions, as the sources compute them. Two of the tables
are scoped by proposer: a scope is an argument of the table here.

What the contract calls outside its own sources is the structure `Host`: the chain's
authorisation check, the hash it asserts, and the development kit's decoding of the packed
transaction, which a datastream reads in three steps (header, context-free actions, actions).
-/

namespace Twig.Msig

open Std

/-- The fields of a `transaction_header` that the contract reads. -/
structure TransactionHeader where
  /-- Seconds since the epoch. -/
  expiration : UInt32
  delaySec : UInt32
deriving DecidableEq, Repr

/-- An `action` of a transaction. -/
structure Action where
  account : Name
  name : Name
  authorization : List PermissionLevel
  data : Bytes
deriving DecidableEq, Repr

/-- What the contract calls outside its sources. -/
structure Host where
  /-- `check_transaction_authorization`, given a packed transaction and permission levels. -/
  authorized : Bytes → List PermissionLevel → Bool
  /-- `sha256`. -/
  sha256 : Bytes → Checksum256
  /-- `ds >> trx_header`: the header, and what is left of the stream. -/
  readHeader : Bytes → Outcome (TransactionHeader × Bytes)
  /-- `ds >> actions`: the actions, and what is left of the stream. -/
  readActions : Bytes → Outcome (List Action × Bytes)

/-! ### Tables -/

/-- A row of `proposals`, filed under its name. The extension holds the earliest execution
time; rows of an older layout lack it. -/
structure Proposal where
  packedTransaction : Bytes
  earliestExecTime : Option (Option TimePoint)

structure Approval where
  level : PermissionLevel
  time : TimePoint
deriving DecidableEq, Repr

/-- A row of `approvals`, filed under the proposal's name. -/
structure Approvals where
  requestedApprovals : List Approval := []
  providedApprovals : List Approval := []

/-- The tables of the contract; the first two by scope. -/
structure State where
  proposals : Name → Table Name Proposal := fun _ => ∅
  approvals : Name → Table Name Approvals := fun _ => ∅
  /-- The last invalidation time of an account. -/
  invalids : Table Name TimePoint := ∅

namespace State

def setProposal (σ : State) (proposer proposalName : Name) (row : Proposal) : State :=
  { σ with
    proposals := Function.update σ.proposals proposer
      ((σ.proposals proposer).insert proposalName row) }

def eraseProposal (σ : State) (proposer proposalName : Name) : State :=
  { σ with
    proposals := Function.update σ.proposals proposer
      ((σ.proposals proposer).erase proposalName) }

def setApprovals (σ : State) (proposer proposalName : Name) (row : Approvals) : State :=
  { σ with
    approvals := Function.update σ.approvals proposer
      ((σ.approvals proposer).insert proposalName row) }

def eraseApprovals (σ : State) (proposer proposalName : Name) : State :=
  { σ with
    approvals := Function.update σ.approvals proposer
      ((σ.approvals proposer).erase proposalName) }

end State

/-! ### Private functions -/

def getTrxHeader (host : Host) (packed : Bytes) : Outcome TransactionHeader := do
  let (trxHeader, _) ← host.readHeader packed
  pure trxHeader

def trxIsAuthorized (host : Host) (approvals : List PermissionLevel) (packedTrx : Bytes) : Bool :=
  host.authorized packedTrx approvals

/-- Whether an approval is later than the last invalidation of its actor. -/
def inForce (invalids : Table Name TimePoint) (permission : Approval) : Bool :=
  match invalids[permission.level.actor]? with
  | none => true
  | some lastInvalidationTime => lastInvalidationTime < permission.time

/-- The levels whose approvals are in force, and the tables after `tableOp`, which is called on
an existing row only. -/
def getApprovalsAndAdjustTable (σ : State) (proposer proposalName : Name)
    (tableOp : State → State) : List PermissionLevel × State :=
  match (σ.approvals proposer)[proposalName]? with
  | some row =>
    ((row.providedApprovals.filter (inForce σ.invalids)).map Approval.level, tableOp σ)
  | none => ([], σ)

/-! ### Actions -/

def propose (host : Host) (ctx : Context) (σ : State) (proposer proposalName : Name)
    (requested : List PermissionLevel) (trx : Bytes) : Outcome State := do
  ctx.requireAuth proposer
  let (trxHeader, ds) ← host.readHeader trx
  check (ctx.currentTimePoint.sec ≤ trxHeader.expiration) "transaction expired"
  let (contextFreeActions, _) ← host.readActions ds
  check (contextFreeActions = [])
    "not allowed to `propose` a transaction with context-free actions"
  check (proposalName ∉ σ.proposals proposer) "proposal with the same name exists"
  check (host.authorized trx requested) "transaction authorization failed"
  let proposals ← (σ.proposals proposer).emplace proposalName
    { packedTransaction := trx, earliestExecTime := some none }
  let approvals ← (σ.approvals proposer).emplace proposalName
    { requestedApprovals := requested.map fun level => { level, time := 0 } }
  pure { σ with
    proposals := Function.update σ.proposals proposer proposals
    approvals := Function.update σ.approvals proposer approvals }

def approve (host : Host) (ctx : Context) (σ : State) (proposer proposalName : Name)
    (level : PermissionLevel) (proposalHash : Option Checksum256) : Outcome State := do
  ctx.requirePermission level
  let proposal ← (σ.proposals proposer).requireFind proposalName "proposal not found"
  check (∀ hash ∈ proposalHash, host.sha256 proposal.packedTransaction = hash) "hash mismatch"
  let row ← (σ.approvals proposer).requireFind proposalName
    "approval is not on the list of requested approvals"
  check (∃ a ∈ row.requestedApprovals, a.level = level)
    "approval is not on the list of requested approvals"
  let σ := σ.setApprovals proposer proposalName {
    providedApprovals :=
      row.providedApprovals ++ [{ level, time := ctx.currentTimePoint }]
    requestedApprovals := row.requestedApprovals.eraseP fun a => a.level = level }
  let trxHeader ← getTrxHeader host proposal.packedTransaction
  match proposal.earliestExecTime with
  | some none =>
    let (levels, σ) := getApprovalsAndAdjustTable σ proposer proposalName id
    if trxIsAuthorized host levels proposal.packedTransaction then
      let earliest := ctx.currentTimePoint + trxHeader.delaySec.toNat * 1000000
      pure (σ.setProposal proposer proposalName
        { proposal with earliestExecTime := some (some earliest) })
    else pure σ
  | some (some _) => pure σ
  | none =>
    check (trxHeader.delaySec = 0)
      "old proposals are not allowed to have non-zero `delay_sec`; cancel and retry"
    pure σ

def unapprove (host : Host) (ctx : Context) (σ : State) (proposer proposalName : Name)
    (level : PermissionLevel) : Outcome State := do
  ctx.requirePermission level
  let row ← (σ.approvals proposer).requireFind proposalName "no approval previously granted"
  check (∃ a ∈ row.providedApprovals, a.level = level) "no approval previously granted"
  let σ := σ.setApprovals proposer proposalName {
    requestedApprovals :=
      row.requestedApprovals ++ [{ level, time := ctx.currentTimePoint }]
    providedApprovals := row.providedApprovals.eraseP fun a => a.level = level }
  let proposal ← (σ.proposals proposer).requireFind proposalName "proposal not found"
  match proposal.earliestExecTime with
  | some none => pure σ
  | some (some _) =>
    let (levels, σ) := getApprovalsAndAdjustTable σ proposer proposalName id
    if trxIsAuthorized host levels proposal.packedTransaction then pure σ
    else
      pure (σ.setProposal proposer proposalName { proposal with earliestExecTime := some none })
  | none =>
    let trxHeader ← getTrxHeader host proposal.packedTransaction
    check (trxHeader.delaySec = 0)
      "old proposals are not allowed to have non-zero `delay_sec`; cancel and retry"
    pure σ

def cancel (host : Host) (ctx : Context) (σ : State) (proposer proposalName canceler : Name) :
    Outcome State := do
  ctx.requireAuth canceler
  let proposal ← (σ.proposals proposer).requireFind proposalName "proposal not found"
  if canceler ≠ proposer then
    let trxHeader ← getTrxHeader host proposal.packedTransaction
    check (trxHeader.expiration < ctx.currentTimePoint.sec) "cannot cancel until expiration"
  let σ := σ.eraseProposal proposer proposalName
  check (proposalName ∈ σ.approvals proposer) "approval not found"
  pure (σ.eraseApprovals proposer proposalName)

/-- `exec`: the tables, and the inline actions it sends. -/
def exec (host : Host) (ctx : Context) (σ : State) (proposer proposalName executer : Name) :
    Outcome (State × List Action) := do
  ctx.requireAuth executer
  let proposal ← (σ.proposals proposer).requireFind proposalName "proposal not found"
  let (trxHeader, ds) ← host.readHeader proposal.packedTransaction
  check (ctx.currentTimePoint.sec ≤ trxHeader.expiration) "transaction expired"
  let (contextFreeActions, ds) ← host.readActions ds
  check (contextFreeActions = [])
    "not allowed to `exec` a transaction with context-free actions"
  let (actions, _) ← host.readActions ds
  let (levels, σ) := getApprovalsAndAdjustTable σ proposer proposalName
    fun σ => σ.eraseApprovals proposer proposalName
  check (trxIsAuthorized host levels proposal.packedTransaction) "transaction authorization failed"
  match proposal.earliestExecTime with
  | some (some earliest) => check (earliest ≤ ctx.currentTimePoint) "too early to execute"
  | _ =>
    check (trxHeader.delaySec = 0)
      "old proposals are not allowed to have non-zero `delay_sec`; cancel and retry"
  pure (σ.eraseProposal proposer proposalName, actions)

def invalidate (ctx : Context) (σ : State) (account : Name) : Outcome State := do
  ctx.requireAuth account
  pure { σ with invalids := σ.invalids.insert account ctx.currentTimePoint }

/-! ### Dispatch -/

/-- The actions of the multisig contract. -/
inductive Call
  | propose (proposer proposalName : Name) (requested : List PermissionLevel) (trx : Bytes)
  | approve (proposer proposalName : Name) (level : PermissionLevel)
    (proposalHash : Option Checksum256)
  | unapprove (proposer proposalName : Name) (level : PermissionLevel)
  | cancel (proposer proposalName canceler : Name)
  | exec (proposer proposalName executer : Name)
  | invalidate (account : Name)
deriving DecidableEq

/-- What an action does to the tables. -/
def step (host : Host) (σ : State) (c : Context × Call) : Outcome State :=
  match c.2 with
  | .propose proposer proposalName requested trx =>
    propose host c.1 σ proposer proposalName requested trx
  | .approve proposer proposalName level proposalHash =>
    approve host c.1 σ proposer proposalName level proposalHash
  | .unapprove proposer proposalName level => unapprove host c.1 σ proposer proposalName level
  | .cancel proposer proposalName canceler => cancel host c.1 σ proposer proposalName canceler
  | .exec proposer proposalName executer => do
    let (σ, _) ← exec host c.1 σ proposer proposalName executer
    pure σ
  | .invalidate account => invalidate c.1 σ account

end Twig.Msig
