import Twig.System.Tokenomics

/-!
# Producers and finalizers

The schedule update (`update_elected_producers`), the finalizer policy it, `actfinkey` and
`switchtosvnn` propose, the registry of finalizer keys (`regfinkey`, `actfinkey`, `delfinkey`)
and that of producers (`regproducer`, `unregprod`, `rmvproducer`).

`get_last_proposed_finalizers` reads through `_last_prop_finalizers_cached` after assigning `{}`
to it, which disengages the optional when nothing is stored. What such a read yields is left
open by C++ and is a parameter here (`Host.disengaged`); so are the functions of the host.
-/

namespace Twig.System

open Std

/-! ### The host -/

structure ProducerAuthority where
  producerName : Name
  authority : BlockSigningAuthority

/-- What `set_finalizers` is given. -/
structure FinalizerPolicy where
  threshold : UInt64
  finalizers : List FinalizerAuthority

/-- The functions of the host that the producer actions call. -/
structure Host where
  sha256 : Bytes → Checksum256
  decodeBlsPublicKeyToG1 : String → Outcome Bytes
  decodeBlsSignatureToG2 : String → Outcome Bytes
  blsPopVerify : Bytes → Bytes → Bool
  setProposedProducers : List ProducerAuthority → ℤ
  /-- What reading through a disengaged optional yields. -/
  disengaged : List FinalizerAuthInfo := []

/-! ### The finalizer policy -/

/-- `operator==` compares the id and the key only. -/
instance : BEq FinalizerAuthInfo where
  beq a b := a.keyId == b.keyId && a.finAuthority.publicKey == b.finAuthority.publicKey

/-- The constructor from a finalizer. -/
def FinalizerAuthInfo.ofFinalizer (finalizerName : Name) (finalizer : Finalizer) :
    FinalizerAuthInfo where
  keyId := finalizer.activeKeyId
  finAuthority :=
    { description := finalizerName.toString
      weight := 1
      publicKey := finalizer.activeKeyBinary }

/-- `get_last_proposed_finalizers`: the cache, filled from the table when it is empty, and what
reading through it yields. -/
def getLastProposedFinalizers (host : Host)
    (cached lastpropfins : Option (List FinalizerAuthInfo)) :
    Option (List FinalizerAuthInfo) × List FinalizerAuthInfo :=
  let cached := match cached with
    | some l => some l
    | none => lastpropfins
  (cached, cached.getD host.disengaged)

/-- `set_proposed_finalizers`: the table row, the cache and the policy that is established. -/
def setProposedFinalizers (host : Host) (proposedFinalizers : List FinalizerAuthInfo)
    (cached lastpropfins : Option (List FinalizerAuthInfo)) :
    Option (List FinalizerAuthInfo) × Option (List FinalizerAuthInfo) × Option FinalizerPolicy :=
  let proposedFinalizers :=
    proposedFinalizers.insertionSort fun lhs rhs => lhs.keyId ≤ rhs.keyId
  let (cached, lastProposedFinalizers) := getLastProposedFinalizers host cached lastpropfins
  if proposedFinalizers == lastProposedFinalizers then (lastpropfins, cached, none)
  else
    let finalizerAuthorities := proposedFinalizers.map FinalizerAuthInfo.finAuthority
    (some proposedFinalizers, some proposedFinalizers,
      some { threshold := .ofNat (finalizerAuthorities.length * 2 / 3 + 1)
             finalizers := finalizerAuthorities })

/-! ### The schedule -/

/-- The rows of `prototalvote`: by votes, and by owner among equal votes. -/
def prototalvote (producers : Table Name Producer) : List (Name × Producer) :=
  producers.toList.insertionSort fun lhs rhs => lhs.2.byVotes ≤ rhs.2.byVotes

/-- The loop of `update_elected_producers`: up to 21 producers with votes that are active and
have an active finalizer key, each with its finalizer. -/
def electProducers (finalizers : Table Name Finalizer) : List (Name × Producer) →
    List (Name × Producer × Finalizer) → List (Name × Producer × Finalizer)
  | [], topProducers => topProducers
  | (owner, row) :: rest, topProducers =>
    if topProducers.length < 21 ∧ 0 < row.totalVotes ∧ row.isActive then
      match finalizers[owner]? with
      | none => electProducers finalizers rest topProducers
      | some finalizer =>
        if finalizer.activeKeyBinary.isEmpty then electProducers finalizers rest topProducers
        else electProducers finalizers rest (topProducers ++ [(owner, row, finalizer)])
    else topProducers

/-- `update_elected_producers`: the state, the list given to `set_proposed_producers` and the
finalizer policy. -/
def updateElectedProducers (host : Host) (σ : State) (blockTime : UInt32) :
    Outcome (State × Option (List ProducerAuthority) × Option FinalizerPolicy) := do
  let global ← singletonGet σ.global
  let global := { global with lastProducerScheduleUpdate := blockTime }
  let topProducers := electProducers σ.finalizers (prototalvote σ.producers) []
  if topProducers.length = 0 ∨ topProducers.length < global.lastProducerScheduleSize.toNat then
    pure (σ, none, none)
  else
    let newProducers :=
      (topProducers.map fun (owner, row, _) =>
        ({ producerName := owner, authority := row.getProducerAuthority } : ProducerAuthority))
      |>.insertionSort fun lhs rhs => lhs.producerName.value ≤ rhs.producerName.value
    let global :=
      if 0 ≤ host.setProposedProducers newProducers then
        { global with lastProducerScheduleSize := .ofNat newProducers.length }
      else global
    let proposedFinalizers := topProducers.map fun (owner, _, finalizer) =>
      FinalizerAuthInfo.ofFinalizer owner finalizer
    let (lastpropfins, _, policy) :=
      setProposedFinalizers host proposedFinalizers none σ.lastpropfins
    pure ({ σ with global := some global, lastpropfins }, some newProducers, policy)

/-! ### Finalizer keys -/

/-- `to_binary`. -/
def toBinary (host : Host) (finalizerKey : String) : Outcome Bytes := do
  check ("PUB_BLS".toList.isPrefixOf finalizerKey.toList)
    "finalizer key does not start with PUB_BLS"
  host.decodeBlsPublicKeyToG1 finalizerKey

/-- `idx.find(hash)` on the index `byfinkey`. -/
def findByFinKey (host : Host) (finkeys : Table UInt64 FinKey) (hash : Checksum256) :
    Option (UInt64 × FinKey) :=
  finkeys.toList.find? fun e => host.sha256 e.2.finalizerKeyBinary = hash

/-- `get_next_finalizer_key_id`: the id, which is also what the row then holds. -/
def getNextFinalizerKeyId (finkeyidgen : Option UInt64) : UInt64 :=
  match finkeyidgen with
  | none => 0
  | some nextFinalizerKeyId => nextFinalizerKeyId + 1

/-- `get_finalizer_itr`. -/
def getFinalizerItr (finalizers : Table Name Finalizer) (finalizerName : Name) :
    Outcome Finalizer := do
  let finalizer ← finalizers.requireFind finalizerName
    ("finalizer " ++ finalizerName.toString ++ " has not registered any finalizer keys")
  check (0 < finalizer.finalizerKeyCount)
    ("finalizer " ++ finalizerName.toString ++
      "  must have at least one registered finalizer keys, has " ++
      toString finalizer.finalizerKeyCount.toNat)
  pure finalizer

def regfinkey (host : Host) (ctx : Context) (σ : State) (finalizerName : Name)
    (finalizerKey proofOfPossession : String) : Outcome State := do
  ctx.requireAuth finalizerName
  let _ ← σ.producers.requireFind finalizerName "this finalizer is not a registered producer"
  check ("SIG_BLS".toList.isPrefixOf proofOfPossession.toList)
    "proof of possession signature does not start with SIG_BLS"
  let finKeyG1 ← toBinary host finalizerKey
  let popG2 ← host.decodeBlsSignatureToG2 proofOfPossession
  check ((findByFinKey host σ.finkeys (host.sha256 finKeyG1)).isNone)
    ("duplicate finalizer key: " ++ finalizerKey)
  check (host.blsPopVerify finKeyG1 popG2) "proof of possession check failed"
  let id := getNextFinalizerKeyId σ.finkeyidgen
  let finkeys ← σ.finkeys.emplace id
    { finalizerName, finalizerKey, finalizerKeyBinary := finKeyG1 }
  let finalizer := match σ.finalizers[finalizerName]? with
    | none => { activeKeyId := id, activeKeyBinary := finKeyG1, finalizerKeyCount := 1 }
    | some row => { row with finalizerKeyCount := row.finalizerKeyCount + 1 }
  pure { σ with
    finkeys
    finkeyidgen := some id
    finalizers := σ.finalizers.insert finalizerName finalizer }

/-- The key `finalizerKey` as registered by `finalizerName`. -/
def findOwnKey (host : Host) (finkeys : Table UInt64 FinKey) (finalizerName : Name)
    (finalizerKey msg : String) : Outcome (UInt64 × FinKey) := do
  let binary ← toBinary host finalizerKey
  match findByFinKey host finkeys (host.sha256 binary) with
  | none => .error (.check "finalizer key was not registered")
  | some finkey => do
    check (finkey.2.finalizerName = finalizerName) msg
    pure finkey

/-- `std::lower_bound` by key id, on a list in the order of the ids. -/
def lowerBound (finalizers : List FinalizerAuthInfo) (id : UInt64) : ℕ :=
  finalizers.findIdx fun key => ¬ key.keyId < id

def actfinkey (host : Host) (ctx : Context) (σ : State) (finalizerName : Name)
    (finalizerKey : String) : Outcome (State × Option FinalizerPolicy) := do
  ctx.requireAuth finalizerName
  let finalizer ← getFinalizerItr σ.finalizers finalizerName
  let (id, finkey) ← findOwnKey host σ.finkeys finalizerName finalizerKey
    "finalizer key was not registered by the finalizer"
  check (id ≠ finalizer.activeKeyId) "finalizer key was already active"
  let activeKeyId := finalizer.activeKeyId
  let finalizer :=
    { finalizer with activeKeyId := id, activeKeyBinary := finkey.finalizerKeyBinary }
  let σ := { σ with finalizers := σ.finalizers.insert finalizerName finalizer }
  let (cached, lastProposedFinalizers) := getLastProposedFinalizers host none σ.lastpropfins
  if lastProposedFinalizers.isEmpty then
    -- "No Savannah"
    pure (σ, none)
  else
    let itr := lowerBound lastProposedFinalizers activeKeyId
    match lastProposedFinalizers[itr]? with
    | none => pure (σ, none)
    | some entry =>
      if entry.keyId = activeKeyId then
        let matchingEntry : FinalizerAuthInfo :=
          { keyId := id
            finAuthority := { entry.finAuthority with publicKey := finkey.finalizerKeyBinary } }
        let (lastpropfins, _, policy) := setProposedFinalizers host
          (lastProposedFinalizers.set itr matchingEntry) cached σ.lastpropfins
        pure ({ σ with lastpropfins }, policy)
      else pure (σ, none)

def delfinkey (host : Host) (ctx : Context) (σ : State) (finalizerName : Name)
    (finalizerKey : String) : Outcome State := do
  ctx.requireAuth finalizerName
  let finalizer ← getFinalizerItr σ.finalizers finalizerName
  let (id, _) ← findOwnKey host σ.finkeys finalizerName finalizerKey
    ("finalizer key " ++ finalizerKey ++ " was not registered by the finalizer " ++
      finalizerName.toString)
  check (id = finalizer.activeKeyId → finalizer.finalizerKeyCount = 1)
    ("cannot delete an active key unless it is the last registered finalizer key, has " ++
      toString finalizer.finalizerKeyCount.toNat ++ " keys")
  let finalizers :=
    if finalizer.finalizerKeyCount = 1 then σ.finalizers.erase finalizerName
    else σ.finalizers.insert finalizerName
      { finalizer with finalizerKeyCount := finalizer.finalizerKeyCount - 1 }
  pure { σ with finalizers, finkeys := σ.finkeys.erase id }

/-! ### Savanna -/

/-- `is_savanna_consensus`: the cache afterwards, and the answer. -/
def isSavannaConsensus (host : Host) (cached lastpropfins : Option (List FinalizerAuthInfo)) :
    Option (List FinalizerAuthInfo) × Bool :=
  let (cached, lastProposedFinalizers) := getLastProposedFinalizers host cached lastpropfins
  (cached, !lastProposedFinalizers.isEmpty)

/-- The loop of `switchtosvnn`: the finalizers of up to `size` producers with votes that are
active and have an active finalizer key. -/
def collectFinalizers (finalizers : Table Name Finalizer) (size : ℕ) :
    List (Name × Producer) → List FinalizerAuthInfo → List FinalizerAuthInfo
  | [], proposedFinalizers => proposedFinalizers
  | (owner, row) :: rest, proposedFinalizers =>
    if proposedFinalizers.length < size ∧ 0 < row.totalVotes ∧ row.isActive then
      match finalizers[owner]? with
      | none => collectFinalizers finalizers size rest proposedFinalizers
      | some finalizer =>
        if finalizer.activeKeyBinary.isEmpty then
          collectFinalizers finalizers size rest proposedFinalizers
        else
          collectFinalizers finalizers size rest
            (proposedFinalizers ++ [.ofFinalizer owner finalizer])
    else proposedFinalizers

def switchtosvnn (host : Host) (ctx : Context) (σ : State) :
    Outcome (State × Option FinalizerPolicy) := do
  ctx.requireAuth ctx.self
  let global ← singletonGet σ.global
  let (cached, savanna) := isSavannaConsensus host none σ.lastpropfins
  check (savanna = false) "switchtosvnn can be run only once"
  let size := global.lastProducerScheduleSize.toNat
  let proposedFinalizers := collectFinalizers σ.finalizers size (prototalvote σ.producers) []
  check (proposedFinalizers.length = size)
    ("not enough top producers have registered finalizer keys, has " ++
      toString proposedFinalizers.length ++ ", require " ++ toString size)
  let (lastpropfins, cached, policy) :=
    setProposedFinalizers host proposedFinalizers cached σ.lastpropfins
  let (_, savanna) := isSavannaConsensus host cached lastpropfins
  check (savanna = true) "switching to Savanna failed"
  pure ({ σ with lastpropfins }, policy)

/-! ### Producers -/

def regproducer (ctx : Context) (σ : State) (producer : Name)
    (producerAuthority : BlockSigningAuthority) (url : String) (location : UInt16) :
    Outcome State := do
  check (url.utf8ByteSize < 512) "url too long"
  check producerAuthority.isValid "invalid producer authority"
  let producerKey := match producerAuthority.keys with
    | [key] => key.key
    | _ => defaultPublicKey
  match σ.producers[producer]? with
  | some row => do
    check (ctx.hasAuth ctx.self ∨ ctx.hasAuth producer) "invalid producer authority"
    let row := { row with
      producerKey
      isActive := true
      url
      location
      producerAuthority := some producerAuthority
      lastClaimTime := if row.lastClaimTime = 0 then ctx.currentTimePoint else row.lastClaimTime }
    pure { σ with producers := σ.producers.insert producer row }
  | none => do
    ctx.requireAuth ctx.self
    let producers ← σ.producers.emplace producer {
      totalVotes := 0
      producerKey
      isActive := true
      url
      location
      lastClaimTime := ctx.currentTimePoint
      producerAuthority := some producerAuthority }
    pure { σ with producers }

/-- The body that `unregprod` and `rmvproducer` share, past their checks of the authority. -/
def deactivateProducer (σ : State) (producer : Name) : Outcome State := do
  let row ← σ.producers.requireFind producer "producer not found"
  pure { σ with producers := σ.producers.insert producer row.deactivate }

def unregprod (ctx : Context) (σ : State) (producer : Name) : Outcome State := do
  ctx.requireAuth producer
  deactivateProducer σ producer

/-- `rmvproducer`, an action of the contract account. -/
def rmvproducer (ctx : Context) (σ : State) (producer : Name) : Outcome State := do
  ctx.requireAuth ctx.self
  deactivateProducer σ producer

end Twig.System
