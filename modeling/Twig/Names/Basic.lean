import Twig.Eosio.Chain

/-!
# The name auction contract

The tables of `eosio.names` and its actions. The refunds are scoped by name: a row is filed under
its scope and its bidder here. `init` calls a function of the token contract that is not among
the sources, as a check that the contract exists; it is a parameter (`Host`).

The actions send `transfer`s of the token contract. Each is kept as the tuple of arguments that
the contract packs (`Transfer`), which has a single asset where the token contract expects a
vector.
-/

namespace Twig.Names

open Std

def tokenAccount : Name := .ofString "eosio.token"

/-- What the contract calls outside its sources. -/
structure Host where
  /-- `token::get_max_supply`. -/
  getMaxSupply : Name → SymbolCode → Outcome Int64

/-! ### Tables -/

/-- A row of `namebids`, filed under its name. -/
structure NameBid where
  highBidder : Name
  /-- Negative when the auction is closed and waits to be claimed. -/
  highBid : Asset
  lastBidTime : TimePoint
deriving DecidableEq

/-- What a row of `bidrefunds` is filed under: its scope, and its bidder. -/
structure RefundKey where
  newname : Name
  bidder : Name
deriving DecidableEq

instance : Ord RefundKey := ⟨compareLex (compareOn RefundKey.newname) (compareOn RefundKey.bidder)⟩

instance : TransOrd RefundKey :=
  inferInstanceAs (TransCmp (compareLex (compareOn RefundKey.newname) (compareOn RefundKey.bidder)))

instance : LawfulEqOrd RefundKey where
  eq_of_compare {a b} h := by
    obtain ⟨hnewname, hbidder⟩ := compareLex_eq_eq.mp h
    cases a
    cases b
    exact congrArg₂ RefundKey.mk (compare_eq_iff_eq.mp hnewname) (compare_eq_iff_eq.mp hbidder)

/-- The tables of the contract. -/
structure State where
  /-- The core symbol of the `config` singleton. -/
  config : Option Symbol := none
  namebids : Table Name NameBid := ∅
  /-- The amounts to be refunded. -/
  bidrefunds : Table RefundKey Asset := ∅

/-! ### Actions -/

/-- A `transfer` of the token contract under the active permission of `actor`, with the arguments
that are packed into it. -/
structure Transfer where
  actor : Name
  sender : Name
  receiver : Name
  quantity : Asset
  memo : String
deriving DecidableEq

def init (host : Host) (ctx : Context) (σ : State) (destruct : Bool) (coreSymbol : Symbol) :
    Outcome State := do
  ctx.requireAuth ctx.self
  if destruct then pure { σ with config := none }
  else
    let _ ← host.getMaxSupply tokenAccount coreSymbol.code
    pure { σ with config := some coreSymbol }

/-- `exec`, which does nothing yet. -/
def exec (ctx : Context) (σ : State) : Outcome State := do
  ctx.requireAuth ctx.self
  check False "currently disabled"
  pure σ

def cleanup (ctx : Context) (σ : State) (newname : Name) : Outcome State := do
  ctx.requireAuth ctx.self
  let _ ← σ.namebids.requireFind newname "newname not found"
  pure { σ with namebids := σ.namebids.erase newname }

/-- What `bidname` adds to the refunds when a high bid is outbid. -/
def addRefund (bidrefunds : Table RefundKey Asset) (newname : Name) (row : NameBid) :
    Outcome (Table RefundKey Asset) :=
  match bidrefunds[RefundKey.mk newname row.highBidder]? with
  | some amount => do
    let amount ← amount.add row.highBid
    pure (bidrefunds.insert ⟨newname, row.highBidder⟩ amount)
  | none => bidrefunds.emplace ⟨newname, row.highBidder⟩ row.highBid

def bidname (ctx : Context) (σ : State) (bidder newname : Name) (bid : Asset) :
    Outcome (State × List Transfer) := do
  ctx.requireAuth bidder
  check (newname.suffix = newname) "you can only bid on top-level suffix"
  let coreSymbol ← singletonGet σ.config
  check (newname.value ≠ 0) "the empty name is not a valid account name to bid on"
  check (newname.value &&& 0xF = 0) "13 character names are not valid account names to bid on"
  check (newname.value &&& 0x1F0 = 0)
    "accounts with 12 character names and no dots can be created without bidding required"
  check (ctx.isAccount newname = false) "account already exists"
  check (bid.symbol = coreSymbol) "asset must be system token"
  check (0 < bid.amount) "insufficient bid"
  let transfer : Transfer :=
    { actor := bidder
      sender := bidder
      receiver := ctx.self
      quantity := bid
      memo := "bid name " ++ newname.toString }
  let row' : NameBid :=
    { highBidder := bidder, highBid := bid, lastBidTime := ctx.currentTimePoint }
  match σ.namebids[newname]? with
  | none => do
    let namebids ← σ.namebids.emplace newname row'
    pure ({ σ with namebids }, [transfer])
  | some row => do
    check (0 < row.highBid.amount) "this auction has already closed"
    check (row.highBid.amount / 10 < bid.amount - row.highBid.amount) "must increase bid by 10%"
    check (row.highBidder ≠ bidder) "account is already highest bidder"
    let bidrefunds ← addRefund σ.bidrefunds newname row
    pure ({ σ with bidrefunds, namebids := σ.namebids.insert newname row' }, [transfer])

def bidrefund (ctx : Context) (σ : State) (bidder newname : Name) :
    Outcome (State × List Transfer) := do
  let amount ← σ.bidrefunds.requireFind ⟨newname, bidder⟩ "refund not found"
  let transfer : Transfer :=
    { actor := ctx.self
      sender := ctx.self
      receiver := bidder
      quantity := amount
      memo := "refund bid on name " ++ newname.toString }
  pure ({ σ with bidrefunds := σ.bidrefunds.erase ⟨newname, bidder⟩ }, [transfer])

/-! ### An auction -/

def alice : Name := .ofString "alice"

/-- The name that is bid on. -/
def nice : Name := .ofString "nice"

/-- The name auction contract, on a chain without the account that is bid on. -/
def namesContext : Context :=
  { Context.permissive (.ofString "eosio.names") with isAccount := fun _ => false }

/-! ### Inversion -/

section Inversion

open Fallible

variable {ctx : Context} {σ σ' : State} {bidder newname : Name} {bid : Asset}
  {sends : List Transfer}

/-- The transfer of a bid. -/
def bidTransfer (self bidder newname : Name) (bid : Asset) : Transfer :=
  ⟨bidder, bidder, self, bid, "bid name " ++ newname.toString⟩

/-- The transfer of a refund. -/
def refundTransfer (self bidder newname : Name) (amount : Asset) : Transfer :=
  ⟨self, self, bidder, amount, "refund bid on name " ++ newname.toString⟩

/-- What a successful `bidname` has checked, what it sends and what it stores: a first bid, or one
that outbids another bidder's. -/
theorem bidname_ok (h : bidname ctx σ bidder newname bid = .ok (σ', sends)) :
    σ.config = some bid.symbol ∧ 0 < bid.amount ∧
      sends = [bidTransfer ctx.self bidder newname bid] ∧ ∃ bidrefunds,
      ((σ.namebids[newname]? = none ∧ bidrefunds = σ.bidrefunds) ∨
        ∃ row, σ.namebids[newname]? = some row ∧ 0 < row.highBid.amount ∧
          row.highBid.amount / 10 < bid.amount - row.highBid.amount ∧ row.highBidder ≠ bidder ∧
          addRefund σ.bidrefunds newname row = .ok bidrefunds) ∧
      σ' = { σ with
        bidrefunds
        namebids := σ.namebids.insert newname ⟨bidder, bid, ctx.currentTimePoint⟩ } := by
  simp only [bidname, bind_eq_ok_iff, Context.requireAuth_eq_ok_iff, check_eq_ok_iff, exists_const,
    singletonGet_eq_ok_iff] at h
  obtain ⟨-, -, coreSymbol, hconfig, -, -, -, -, rfl, hpos, h⟩ := h
  refine ⟨hconfig, hpos, ?_⟩
  split at h
  · next hnone =>
    simp only [bind_eq_ok_iff, Table.emplace_eq_ok_iff, pure_eq_ok_iff, Prod.mk.injEq] at h
    obtain ⟨namebids, ⟨-, rfl⟩, rfl, rfl⟩ := h
    exact ⟨rfl, σ.bidrefunds, .inl ⟨hnone, rfl⟩, rfl⟩
  · next row hrow =>
    simp only [bind_eq_ok_iff, check_eq_ok_iff, exists_const, pure_eq_ok_iff, Prod.mk.injEq] at h
    obtain ⟨hopen, hmore, hother, bidrefunds, hadd, rfl, rfl⟩ := h
    exact ⟨rfl, bidrefunds, .inr ⟨row, hrow, hopen, hmore, hother, hadd⟩, rfl⟩

/-- What a successful `bidrefund` has found, and what it sends. -/
theorem bidrefund_ok (h : bidrefund ctx σ bidder newname = .ok (σ', sends)) :
    ∃ amount, σ.bidrefunds[RefundKey.mk newname bidder]? = some amount ∧
      sends = [refundTransfer ctx.self bidder newname amount] ∧
      σ' = { σ with bidrefunds := σ.bidrefunds.erase ⟨newname, bidder⟩ } := by
  simp only [bidrefund, bind_eq_ok_iff, Table.requireFind_eq_ok_iff, pure_eq_ok_iff,
    Prod.mk.injEq] at h
  obtain ⟨amount, hamount, rfl, rfl⟩ := h
  exact ⟨amount, hamount, rfl, rfl⟩

end Inversion

end Twig.Names
