import Twig.Bank.Basic
import Twig.System.Contract

/-!
# The contracts together

The system contract, the token contract and the bank on one chain. An action runs in its contract;
the bank is notified of the transfers that name it; and the inline actions that either has sent run
next, depth first, each with what it sends in turn. All of it succeeds, or nothing of it happens.

* `Deployment.perform` — an action and everything that follows from it;
* `Deployment.step` — an action of a transaction.

The random values of `rngcalls` go to contracts other than these three (`ForeignCalls`). What other
contracts do with them, or when they are notified of an action, is left out: they are taken to let
it pass. Products of doubles are read as exact rationals, as everywhere.
-/

namespace Twig

open Std Fallible Twig.System

/-- The tables of the three contracts, and the accounts that exist. -/
structure Deployment where
  system : Contract := {}
  ledger : Token.State := {}
  vesting : Table Name Bank.Vesting := ∅
  accounts : Name → Bool := fun _ => false

namespace Deployment

/-- An action of one of the contracts. -/
inductive Action
  | system (call : System.Call)
  | token (call : Token.Call)
  /-- `onepoch` of the bank. -/
  | onepoch (epoch : UInt32)
  /-- `cleanup` of the bank. -/
  | cleanup

/-- An inline action, under the active permission of `actor`. -/
structure Sent where
  actor : Name
  action : Action

/-- `onchunk` reads the ledger as it stands. -/
def reading (ledger : Token.State) : System.Call → System.Call
  | .onchunk _ => .onchunk ledger
  | call => call

/-- The inline actions among the effects of an action of the system contract. Those for other
contracts, the random values of active rows of `rngcalls`, are left out: none of them is taken to
fail. -/
def inlineOf : Effect → Option Sent
  | .send .onchunk => some ⟨systemAccount, .system (.onchunk {})⟩
  | .send (.onepoch epoch) => some ⟨bankAccount, .onepoch epoch⟩
  | .token i => some ⟨i.actor, .token i.call⟩
  | _ => none

/-- What the bank does when it is notified of an action of the token contract: it looks at
transfers only. -/
def notify (ctx : Context) (d : Deployment) :
    Token.Call → Outcome (Table Name Bank.Vesting × List Token.Inline)
  | .transfer sender receiver tokens memo =>
    Bank.tokenDeposit { ctx with self := bankAccount } d.system.state.aluckynumber d.vesting sender
      receiver tokens memo
  | _ => pure (d.vesting, [])

/-- The account of the contract that an action belongs to. -/
def Action.receiver : Action → Name
  | .system _ => systemAccount
  | .token _ => tokenAccount
  | .onepoch _ | .cleanup => bankAccount

section Perform

variable (hashes : Hashes) (host : Host)

/-- An action by itself: what it leaves, and the inline actions that it and the notified bank
send. -/
def act (ctx : Context) (d : Deployment) : Action → Outcome (Deployment × List Sent)
  | .system call => do
    let (system, effects) ←
      d.system.apply hashes host { ctx with self := systemAccount } (reading d.ledger call)
    pure ({ d with system }, effects.filterMap inlineOf)
  | .token call => do
    let ledger ← Token.apply { ctx with self := tokenAccount } d.ledger call
    let (vesting, sends) ← d.notify ctx call
    pure ({ d with ledger, vesting }, sends.map fun i => ⟨i.actor, .token i.call⟩)
  | .onepoch epoch => do
    let (vesting, sends) ← Bank.onepoch { ctx with self := bankAccount }
      d.system.state.aluckynumber d.vesting epoch
    pure ({ d with vesting }, sends.map fun i => ⟨i.actor, .token i.call⟩)
  | .cleanup => do
    let vesting ← Bank.cleanup { ctx with self := bankAccount } d.vesting
    pure ({ d with vesting }, [])

/-- An action and everything that follows from it, with as many levels of inline actions. -/
def perform : ℕ → Context → Deployment → Action → Outcome Deployment
  | 0, _, _, _ => .error (.check "max inline action depth per transaction reached")
  | depth + 1, ctx, d, action => do
    let (d, sends) ← act hashes host ctx d action
    sends.foldlM (fun d i =>
      perform depth (ctx.inlineBy i.action.receiver i.actor) d i.action) d

/-- An action of a transaction. -/
def step (depth : ℕ) (d : Deployment) (e : Context × Action) : Outcome Deployment := do
  let d ← perform hashes host depth e.1 d e.2
  pure { d with accounts := e.1.isAccount }

end Perform

/-! ### Environment -/

/-- Random values go to other contracts. -/
def ForeignCalls (rngcalls : Table UInt64 RngCall) : Prop :=
  ∀ (index : UInt64) (row : RngCall), rngcalls[index]? = some row →
    row.contract ≠ systemAccount ∧ row.contract ≠ tokenAccount ∧ row.contract ≠ bankAccount

end Deployment

end Twig
