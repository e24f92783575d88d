import Twig.System.Native

/-!
# Configuration, contract records and random calls

The actions of the system contract that keep records of the other contracts (`setabi`, `setcode`,
`setcodeinfo`), configure the chain (`init`, `setparams`, `wasmcfg`, `activate`, `setpriv`) and
maintain the table of `rngcalls`. Each gets the one table it works on, and returns with it the
functions of the host that it calls (`HostCall`).

`setparams` is modelled as it is compiled without `SYSTEM_BLOCKCHAIN_PARAMETERS`, like the `abi`.
-/

namespace Twig.System

open Std Fallible

/-! ### Contract records -/

/-- A hash and the time at which it was taken. -/
structure Temporal256 where
  time : TimePoint := 0
  hash : Checksum256 := Vector.replicate 32 0
deriving DecidableEq

/-- The description of a contract. -/
structure ContractMeta where
  name : String := ""
  desc : String := ""
  site : String := ""
  source : String := "closed"
  version : String := ""
  compiler : String := ""
  build : String := ""
  extras : Table String String := ∅

/-- The artwork of a contract. -/
structure BrandingMeta where
  x64 : String := ""
  x256 : String := ""
  x1024 : String := ""
  svg : String := ""
  extras : Table String String := ∅

/-- A row of `contractinfo`, filed under its owner. -/
structure ContractInfo where
  contract : ContractMeta := {}
  branding : BrandingMeta := {}
  abi : Temporal256 := {}
  code : Temporal256 := {}

/-- The three actions store or modify the row of an account the same way. -/
def modifyInfo (contractinfo : Table Name ContractInfo) (account : Name)
    (modify : ContractInfo → ContractInfo) : Outcome (Table Name ContractInfo) :=
  match contractinfo[account]? with
  | none => contractinfo.emplace account (modify {})
  | some row => pure (contractinfo.insert account (modify row))

/-- `setabi`, which asks for no authority: the chain does. -/
def setabi (sha256 : Bytes → Checksum256) (ctx : Context) (contractinfo : Table Name ContractInfo)
    (account : Name) (abi : Bytes) (_memo : Option String) : Outcome (Table Name ContractInfo) :=
  modifyInfo contractinfo account fun row =>
    { row with abi := { time := ctx.currentTimePoint, hash := sha256 abi } }

def setcode (sha256 : Bytes → Checksum256) (ctx : Context)
    (contractinfo : Table Name ContractInfo) (account : Name) (_vmtype _vmversion : UInt8)
    (code : Bytes) (_memo : Option String) : Outcome (Table Name ContractInfo) :=
  modifyInfo contractinfo account fun row =>
    { row with code := { time := ctx.currentTimePoint, hash := sha256 code } }

def setcodeinfo (ctx : Context) (contractinfo : Table Name ContractInfo) (account : Name)
    (contract : ContractMeta) (branding : BrandingMeta) : Outcome (Table Name ContractInfo) := do
  ctx.requireAuth account
  modifyInfo contractinfo account fun row => { row with contract, branding }

/-- Whether there is a row or not, it is written as if there had been an empty one. -/
theorem modifyInfo_eq (contractinfo : Table Name ContractInfo) (account : Name)
    (modify : ContractInfo → ContractInfo) :
    modifyInfo contractinfo account modify =
      .ok (contractinfo.insert account (modify (contractinfo[account]?.getD {}))) := by
  rw [modifyInfo]
  cases h : contractinfo[account]? with
  | none => exact Table.emplace_eq_ok_iff.mpr ⟨OrdMap.not_mem_iff.mpr h, rfl⟩
  | some row => rfl

/-! ### The configuration of the chain -/

/-- The parameters of the chain. -/
structure BlockchainParameters where
  maxBlockNetUsage : UInt64
  targetBlockNetUsagePct : UInt32
  maxTransactionNetUsage : UInt32
  basePerTransactionNetUsage : UInt32
  netUsageLeeway : UInt32
  contextFreeDiscountNetUsageNum : UInt32
  contextFreeDiscountNetUsageDen : UInt32
  maxBlockCpuUsage : UInt32
  targetBlockCpuUsagePct : UInt32
  maxTransactionCpuUsage : UInt32
  minTransactionCpuUsage : UInt32
  maxTransactionLifetime : UInt32
  deferredTrxExpirationWindow : UInt32
  maxTransactionDelay : UInt32
  maxInlineActionSize : UInt32
  maxInlineActionDepth : UInt16
  maxAuthorityDepth : UInt16
deriving DecidableEq

/-- The `chainparams` singleton. -/
structure ChainParams extends BlockchainParameters where
  maxRamSize : UInt64 := 512 * 1024 * 1024 * 1024 * 1024 * 1024
deriving DecidableEq

/-- A privileged function of the host, with what it is given. -/
inductive HostCall
  | setPrivileged (account : Name) (isPriv : Bool)
  | setBlockchainParameters (params : BlockchainParameters)
  /-- The packed limits, in words. -/
  | setWasmParametersPacked (buf : List UInt32)
  | preactivateFeature (featureDigest : Checksum256)
deriving DecidableEq

/-- What `init` does to `chainparams`, given the parameters of the chain. -/
def initChainparams (parameters : BlockchainParameters) (destruct : Bool) : Option ChainParams :=
  if destruct then none else some { parameters with }

def setparams (ctx : Context) (chainparams : Option ChainParams) (params : BlockchainParameters) :
    Outcome (Option ChainParams × List HostCall) := do
  ctx.requireAuth ctx.self
  let chainparams ← singletonGet chainparams
  let chainparams := { chainparams with toBlockchainParameters := params }
  check (3 ≤ chainparams.maxAuthorityDepth) "max_authority_depth should be at least 3"
  pure (some chainparams, [.setBlockchainParameters params])

/-- `default_wasm_limits`, in the order of its fields. -/
def defaultWasmLimits : List UInt32 :=
  [8192, 8192, 65536, 512 * 1024, 65536, 65536, 8192, 100 * 1024 * 1024, 100 * 1024 * 1024, 1040,
    501]

/-- `wasmcfg`: the limits behind a word of zeros, whatever the settings are called. -/
def wasmcfg (ctx : Context) (_settings : Name) : Outcome (List HostCall) := do
  ctx.requireAuth ctx.self
  pure [.setWasmParametersPacked (0 :: defaultWasmLimits)]

def activate (ctx : Context) (featureDigest : Checksum256) : Outcome (List HostCall) := do
  ctx.requireAuth ctx.self
  pure [.preactivateFeature featureDigest]

def setpriv (ctx : Context) (account : Name) (ispriv : UInt8) : Outcome (List HostCall) := do
  ctx.requireAuth ctx.self
  pure [.setPrivileged account (ispriv ≠ 0)]

/-! ### Random calls -/

def setrngcall (ctx : Context) (rngcalls : Table UInt64 RngCall) (index : UInt64)
    (contract action : Name) : Outcome (Table UInt64 RngCall) := do
  ctx.requireAuth ctx.self
  match rngcalls[index]? with
  | none => rngcalls.emplace index { contract, action }
  | some row => pure (rngcalls.insert index { row with contract, action, active := 0 })

def rmvrngcall (ctx : Context) (rngcalls : Table UInt64 RngCall) (index : UInt64) :
    Outcome (Table UInt64 RngCall) := do
  ctx.requireAuth ctx.self
  match rngcalls[index]? with
  | none => pure rngcalls
  | some _ => pure (rngcalls.erase index)

def modrngcall (ctx : Context) (rngcalls : Table UInt64 RngCall) (index : UInt64)
    (active : UInt8) : Outcome (Table UInt64 RngCall) := do
  ctx.requireAuth ctx.self
  match rngcalls[index]? with
  | none => pure rngcalls
  | some row => pure (rngcalls.insert index { row with active })

/-! ### Actions without a table -/

/-- `canceldelay`, which is left to the chain. -/
def canceldelay (_cancelingAuth : PermissionLevel) (_trxId : Checksum256) : Outcome Unit := pure ()

def onerror : Outcome Unit := check False "the onerror action cannot be called directly"

def logsystemfee (ctx : Context) (_protocol : Name) (_fee : Asset) (_memo : String) :
    Outcome Unit :=
  ctx.requireAuth ctx.self

end Twig.System
