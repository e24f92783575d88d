import Twig.Eosio.Chain

/-!
# The token contract

The tables of `twig.token` and its actions, as the sources compute them. Supplies and balances
are maps from symbols to wrapping 64-bit amounts; every loop over a map or a list of assets is
a fold of one iteration (`issueOne`, `retireOne`, `transferOne`, ...), which checks, aborts and
updates in the order of the source.

An iterator that the source dereferences without comparing it with `end()` is read with
`deref`, so that a missing entry shows as `Fault.deref` and not as an arbitrary value.

A `memo` is kept where the contract reads it (`transfer`) or another action supplies it
(`issue`, `retire`); the parameters of `rolldrops` and `execdrops`, whose bodies are empty past
the authority check, are left out.
-/

namespace Twig.Token

open Std

/-! ### Tables -/

/-- `fungible_pairs`, a `std::map<symbol, int64_t>`. -/
abbrev FungiblePairs := ExtTreeMap Symbol Int64

structure BrandingMeta where
  x64 : String
  x256 : String
  x1024 : String
  svg : String
  extras : List (String × String)

structure FungibleMeta extends BrandingMeta where
  name : String
  desc : String
  tags : List Int32

abbrev FungibleParams := ExtTreeMap Symbol FungibleMeta

structure FungibleRng where
  odds : UInt32
  sym : Symbol
  quant : Int64
  tags : List Int32

abbrev FungibleDrops := List FungibleRng

structure ConfigParams where
  coreSymbol : Symbol := .make (.ofString "TWIG") 4
  preserved : List Symbol := []

/-- The `supplies` singleton. -/
structure Supplies where
  supply : FungiblePairs := ∅
  maxSupply : FungiblePairs := ∅

/-- A row of the `unboxed` table: tokens that `owner` may claim. -/
structure Unboxed where
  owner : Name
  tokens : FungiblePairs

/-- The tables of the token contract. -/
structure State where
  config : Option ConfigParams := none
  fungibles : Option FungibleParams := none
  supplies : Option Supplies := none
  drops : Table UInt64 FungibleDrops := ∅
  unboxed : Table UInt64 Unboxed := ∅
  accounts : Table Name FungiblePairs := ∅

/-! ### Entries of a balance map -/

/-- Adds `amount` to the entry of `sym`, which is created when it is missing. -/
def credit (balance : FungiblePairs) (sym : Symbol) (amount : Int64) : FungiblePairs :=
  match balance[sym]? with
  | none => balance.insert sym amount
  | some held => balance.insert sym (held + amount)

/-- Leaves `left` in the entry of `sym`, which is erased when nothing is left. -/
def leave (balance : FungiblePairs) (sym : Symbol) (left : Int64) : FungiblePairs :=
  if left = 0 then (balance.insert sym left).erase sym else balance.insert sym left

/-- `amount` of the core token. -/
def coreTokens (amount : Int64) : FungiblePairs := (∅ : FungiblePairs).insert coreSymbol amount

/-! ### Contract administration -/

def issueOne (maxSupply : FungiblePairs) (acc : FungiblePairs × FungiblePairs)
    (fungible : Symbol × Int64) : Outcome (FungiblePairs × FungiblePairs) := do
  let (supply, newBalance) := acc
  let (sym, amount) := fungible
  check (sym ∈ supply) ("this fungible does not exist: " ++ sym.code.toString)
  let issued ← deref supply[sym]?
  let cap ← deref maxSupply[sym]?
  -- a wrapping sum, of an amount that has not been checked to be an asset
  check (issued + amount < cap)
    ("cannot issue above fungible max supply: " ++ sym.code.toString)
  check (0 < amount) ("cannot issue an amount below 0: " ++ sym.code.toString)
  pure (supply.insert sym (issued + amount), credit newBalance sym amount)

def issue (ctx : Context) (σ : State) (owner : Name) (tokens : FungiblePairs)
    (_memo : String) : Outcome State := do
  ctx.requireAuth ctx.self
  let supplies ← singletonGet σ.supplies
  let newBalance := σ.accounts[owner]?.getD ∅
  let (supply, newBalance) ← tokens.toList.foldlM (issueOne supplies.maxSupply)
    (supplies.supply, newBalance)
  pure { σ with
    accounts := σ.accounts.insert owner newBalance
    supplies := some { supplies with supply } }

def retireOne (acc : FungiblePairs × FungiblePairs) (fungible : Symbol × Int64) :
    Outcome (FungiblePairs × FungiblePairs) := do
  let (supply, newBalance) := acc
  let (sym, amount) := fungible
  check (sym ∈ supply) ("this fungible does not exist: " ++ sym.code.toString)
  let issued ← deref supply[sym]?
  -- the difference is taken before the sign of the amount is looked at
  check (0 ≤ issued - amount) ("cannot retire below zero: " ++ sym.code.toString)
  check (0 < amount) ("cannot retire an amount below 0: " ++ sym.code.toString)
  let supply := supply.insert sym (issued - amount)
  check (sym ∈ newBalance) ("owner does not have any of this fungible: " ++ sym.code.toString)
  let held ← deref newBalance[sym]?
  check (0 ≤ held - amount)
    ("owner does not have enough of this fungible: " ++ sym.code.toString)
  pure (supply, leave newBalance sym (held - amount))

def retire (ctx : Context) (σ : State) (owner : Name) (tokens : FungiblePairs)
    (_memo : String) : Outcome State := do
  ctx.requireAuth ctx.self
  let supplies ← singletonGet σ.supplies
  let balance ← σ.accounts.requireFind owner "owner account not found"
  let (supply, newBalance) ← tokens.toList.foldlM retireOne (supplies.supply, balance)
  pure { σ with
    accounts := σ.accounts.insert owner newBalance
    supplies := some { supplies with supply } }

def rolldrops (ctx : Context) (σ : State) : Outcome State := do
  ctx.requireAuth ctx.self
  pure σ

def execdrops (ctx : Context) (σ : State) : Outcome State := do
  ctx.requireAuth ctx.self
  pure σ

/-! ### Contract configuration -/

def cfginit (ctx : Context) (σ : State) : Outcome State := do
  ctx.requireAuth ctx.self
  pure { σ with config := some {}, fungibles := some ∅, supplies := some {} }

def cfgdestruct (ctx : Context) (σ : State) : Outcome State := do
  ctx.requireAuth ctx.self
  pure { σ with config := none, fungibles := none, supplies := none }

def cfgsetparams (ctx : Context) (σ : State) (params : ConfigParams) : Outcome State := do
  ctx.requireAuth ctx.self
  let _ ← singletonGet σ.config
  pure { σ with config := some params }

def setfungibles (ctx : Context) (σ : State) (params : FungibleParams) : Outcome State := do
  ctx.requireAuth ctx.self
  let _ ← singletonGet σ.fungibles
  pure { σ with fungibles := some params }

def setsuppliesOne (supplies : Supplies) (fungible : Symbol × Int64) : Outcome Supplies := do
  let (sym, amount) := fungible
  check (sym ∉ supplies.maxSupply) ("this fungible already exists: " ++ sym.code.toString)
  let checkAsset ← Asset.make amount sym
  check checkAsset.isValid "invalid supply"
  check (0 < checkAsset.amount) "max-supply must be positive"
  pure {
    maxSupply := supplies.maxSupply.insertIfNew sym amount
    supply := supplies.supply.insertIfNew sym 0 }

def setsupplies (ctx : Context) (σ : State) (maxSupply : FungiblePairs) : Outcome State := do
  ctx.requireAuth ctx.self
  let supplies ← singletonGet σ.supplies
  let supplies ← maxSupply.toList.foldlM setsuppliesOne supplies
  pure { σ with supplies := some supplies }

def rmvsupplyOne (supplies : Supplies) (fungible : Symbol × Int64) : Outcome Supplies := do
  let sym := fungible.1
  check (sym ∈ supplies.maxSupply) ("this fungible doesn't exist: " ++ sym.code.toString)
  let issued ← deref supplies.supply[sym]?
  check (issued = 0) ("this fungible has a non-zero supply: " ++ sym.code.toString)
  pure { maxSupply := supplies.maxSupply.erase sym, supply := supplies.supply.erase sym }

def rmvsupply (ctx : Context) (σ : State) (maxSupply : FungiblePairs) : Outcome State := do
  ctx.requireAuth ctx.self
  let supplies ← singletonGet σ.supplies
  let supplies ← maxSupply.toList.foldlM rmvsupplyOne supplies
  pure { σ with supplies := some supplies }

def setdrops (ctx : Context) (σ : State) (index : UInt64) (params : FungibleDrops) :
    Outcome State := do
  ctx.requireAuth ctx.self
  pure { σ with drops := σ.drops.insert index params }

def rmvdrops (ctx : Context) (σ : State) (index : UInt64) : Outcome State := do
  ctx.requireAuth ctx.self
  pure { σ with drops := σ.drops.erase index }

/-! ### Users -/

/-- `open`. -/
def openAccount (ctx : Context) (σ : State) (owner : Name) : Outcome State := do
  check (ctx.hasAuth ctx.self ∨ ctx.hasAuth owner) "missing auth"
  pure (if owner ∈ σ.accounts then σ else { σ with accounts := σ.accounts.insert owner ∅ })

def closeOne (fungible : Symbol × Int64) : Outcome Unit :=
  check (fungible.2 = 0)
    ("cannot close an account with a non-zero fungible balance: " ++ fungible.1.code.toString)

/-- `close`. -/
def closeAccount (ctx : Context) (σ : State) (owner : Name) : Outcome State := do
  check (ctx.hasAuth ctx.self ∨ ctx.hasAuth owner) "missing auth"
  let balance ← σ.accounts.requireFind owner "owner account not found"
  balance.toList.forM closeOne
  pure { σ with accounts := σ.accounts.erase owner }

def transferOne (acc : FungiblePairs × FungiblePairs) (fungible : Asset) :
    Outcome (FungiblePairs × FungiblePairs) := do
  let (fromBalance, toBalance) := acc
  let sym := fungible.symbol
  check fungible.isValid ("invalid quantity: " ++ sym.code.toString)
  check (0 < fungible.amount) ("must transfer positive quantity: " ++ sym.code.toString)
  check (sym ∈ fromBalance) ("owner does not have this fungible: " ++ sym.code.toString)
  let held ← deref fromBalance[sym]?
  check (0 ≤ held - fungible.amount)
    ("owner does not have enough of this fungible: " ++ sym.code.toString)
  pure (leave fromBalance sym (held - fungible.amount), credit toBalance sym fungible.amount)

/-- `transfer`, less the notifications of both parties. -/
def transfer (ctx : Context) (σ : State) (sender receiver : Name) (tokens : List Asset)
    (memo : String) : Outcome State := do
  ctx.requireAuth sender
  check (sender ≠ receiver) "cannot transfer to self"
  check (ctx.isAccount receiver) "to account does not exist"
  check (memo.utf8ByteSize ≤ 256) "memo has more than 256 bytes"
  check (0 < tokens.length ∧ tokens.length < 100) "invalid tokens.size()"
  let fromBalance ← σ.accounts.requireFind sender "from account not found"
  -- a receiver without a row gets one
  let toBalance := σ.accounts[receiver]?.getD ∅
  let (fromBalance, toBalance) ← tokens.foldlM transferOne (fromBalance, toBalance)
  pure { σ with accounts := (σ.accounts.insert sender fromBalance).insert receiver toBalance }

def claimOne (owner : Name) (acc : Table UInt64 Unboxed × FungiblePairs) (index : UInt64) :
    Outcome (Table UInt64 Unboxed × FungiblePairs) := do
  let (unboxed, newTokens) := acc
  let row ← unboxed.requireFind index "index not found"
  check (row.owner = owner) "missing ownership"
  let newTokens := row.tokens.toList.foldl (fun acc e => credit acc e.1 e.2) newTokens
  pure (unboxed.erase index, newTokens)

/-- The body of `claimdrops`: the rows it takes, and the tokens of the `issue` it sends. -/
def claimdrops (ctx : Context) (σ : State) (indices : List UInt64) (owner : Name) :
    Outcome (State × FungiblePairs) := do
  check (ctx.hasAuth ctx.self ∨ ctx.hasAuth owner) "missing auth"
  let (unboxed, newTokens) ← indices.foldlM (claimOne owner) (σ.unboxed, ∅)
  pure ({ σ with unboxed }, newTokens)

/-! ### Dispatch -/

/-- The actions of the token contract. -/
inductive Call
  | cfginit
  | cfgdestruct
  | cfgsetparams (params : ConfigParams)
  | setfungibles (params : FungibleParams)
  | setsupplies (maxSupply : FungiblePairs)
  | rmvsupply (maxSupply : FungiblePairs)
  | setdrops (index : UInt64) (params : FungibleDrops)
  | rmvdrops (index : UInt64)
  | issue (owner : Name) (tokens : FungiblePairs) (memo : String)
  | retire (owner : Name) (tokens : FungiblePairs) (memo : String)
  | rolldrops
  | execdrops
  | openAccount (owner : Name)
  | closeAccount (owner : Name)
  | claimdrops (indices : List UInt64) (owner : Name)
  | transfer (sender receiver : Name) (tokens : List Asset) (memo : String)

/-- What an action does to the tables, the inline `issue` of `claimdrops` included. -/
def apply (ctx : Context) (σ : State) : Call → Outcome State
  | .cfginit => cfginit ctx σ
  | .cfgdestruct => cfgdestruct ctx σ
  | .cfgsetparams params => cfgsetparams ctx σ params
  | .setfungibles params => setfungibles ctx σ params
  | .setsupplies maxSupply => setsupplies ctx σ maxSupply
  | .rmvsupply maxSupply => rmvsupply ctx σ maxSupply
  | .setdrops index params => setdrops ctx σ index params
  | .rmvdrops index => rmvdrops ctx σ index
  | .issue owner tokens memo => issue ctx σ owner tokens memo
  | .retire owner tokens memo => retire ctx σ owner tokens memo
  | .rolldrops => rolldrops ctx σ
  | .execdrops => execdrops ctx σ
  | .openAccount owner => openAccount ctx σ owner
  | .closeAccount owner => closeAccount ctx σ owner
  | .claimdrops indices owner => do
    let (σ, newTokens) ← claimdrops ctx σ indices owner
    issue (ctx.inlineBy ctx.self ctx.self) σ owner newTokens "claiming token drops"
  | .transfer sender receiver tokens memo => transfer ctx σ sender receiver tokens memo

/-- A step of the contract: an action in its context. -/
def step (σ : State) (call : Context × Call) : Outcome State := apply call.1 σ call.2

/-- An inline action for the token contract, authorised by `actor`'s active permission. -/
structure Inline where
  actor : Name
  call : Call

end Twig.Token
