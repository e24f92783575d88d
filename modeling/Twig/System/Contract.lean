import Twig.System.Admin
import Twig.System.Onblock
import Twig.System.Policy

/-!
# The whole system contract

All actions of the system contract over all of its tables, and what each has the chain do
(`Effect`): inline actions, privileged functions of the host, schedules and policies. `Call` names
the actions; `Contract.apply` is the dispatcher; `Life` keeps the log of all effects.

* `regproducer_shape`, `actfinkey_shape` and their companions — which tables an action writes, and
  whose signature it asks for;
* `Applied`, `applied_of_apply` — the dispatcher as a relation, with one case for each action;
* `stateStep_of_apply` — what any action does to the tables of blocks and producers;
* `signed_of_isPrivileged` — the actions that ask for the signature of the contract's account.
-/

namespace Twig.System

open Std Fallible

/-! ### Tables and actions -/

/-- The tables of the contract: the ones that its blocks and producers use, and the others. -/
structure Contract where
  state : State := {}
  limitauthchg : Table Name LimitAuthChg := ∅
  whitelist : Table Name Whitelisted := ∅
  contractinfo : Table Name ContractInfo := ∅
  chainparams : Option ChainParams := none

/-- The actions of the contract, with the arguments that they read. -/
inductive Call
  | limitauthchg (account : Name) (allowPerms disallowPerms : List Name)
  | updateauth (account permission parent : Name) (authorizedBy : Option Name)
  | deleteauth (account permission : Name) (authorizedBy : Option Name)
  | linkauth (account code type requirement : Name) (authorizedBy : Option Name)
  | unlinkauth (account code type : Name) (authorizedBy : Option Name)
  | canceldelay (cancelingAuth : PermissionLevel) (trxId : Checksum256)
  | onerror
  | newaccount (creator newAccountName : Name)
  | setabi (account : Name) (abi : Bytes) (memo : Option String)
  | setcode (account : Name) (vmtype vmversion : UInt8) (code : Bytes) (memo : Option String)
  | setcodeinfo (account : Name) (contract : ContractMeta) (branding : BrandingMeta)
  | cleanblocks
  /-- With the parameters that the chain has at that moment. -/
  | init (destruct : Bool) (parameters : BlockchainParameters)
  | setparams (params : BlockchainParameters)
  | wasmcfg (settings : Name)
  | activate (featureDigest : Checksum256)
  | setwhitelist (account : Name) (depth : UInt8)
  | setpriv (account : Name) (ispriv : UInt8)
  | rmvproducer (producer : Name)
  | setrngcall (index : UInt64) (contract action : Name)
  | rmvrngcall (index : UInt64)
  | modrngcall (index : UInt64) (active : UInt8)
  | regproducer (producer : Name) (producerAuthority : BlockSigningAuthority) (url : String)
    (location : UInt16)
  | unregprod (producer : Name)
  | regfinkey (finalizerName : Name) (finalizerKey proofOfPossession : String)
  | actfinkey (finalizerName : Name) (finalizerKey : String)
  | delfinkey (finalizerName : Name) (finalizerKey : String)
  | switchtosvnn
  | feedthebeast (seed : Checksum256)
  | onblock (header : BlockHeader)
  /-- With the tables of the token contract, which it reads. -/
  | onchunk (τ : Token.State)
  | logsystemfee (protocol : Name) (fee : Asset) (memo : String)

/-- What an action has the chain do. -/
inductive Effect
  | send (i : Inline)
  /-- An inline action for the token contract. -/
  | token (i : Token.Inline)
  | host (call : HostCall)
  | setProposedProducers (producers : List ProducerAuthority)
  | setFinalizers (policy : FinalizerPolicy)

variable (hashes : Hashes) (host : Host)

/-- The dispatcher: what an action leaves, and what it has the chain do. -/
def Contract.apply (ctx : Context) (c : Contract) : Call → Outcome (Contract × List Effect)
  | .limitauthchg account allowPerms disallowPerms => do
    let limitauthchg ← System.limitauthchg ctx c.limitauthchg account allowPerms disallowPerms
    pure ({ c with limitauthchg }, [])
  | .updateauth account permission parent authorizedBy => do
    System.updateauth ctx c.limitauthchg account permission parent authorizedBy
    pure (c, [])
  | .deleteauth account permission authorizedBy => do
    System.deleteauth ctx c.limitauthchg account permission authorizedBy
    pure (c, [])
  | .linkauth account code type requirement authorizedBy => do
    System.linkauth ctx c.limitauthchg account code type requirement authorizedBy
    pure (c, [])
  | .unlinkauth account code type authorizedBy => do
    System.unlinkauth ctx c.limitauthchg account code type authorizedBy
    pure (c, [])
  | .canceldelay cancelingAuth trxId => do
    System.canceldelay cancelingAuth trxId
    pure (c, [])
  | .onerror => do
    System.onerror
    pure (c, [])
  | .newaccount creator newAccountName => do
    System.newaccount ctx c.whitelist creator newAccountName
    pure (c, [])
  | .setabi account abi memo => do
    let contractinfo ← System.setabi host.sha256 ctx c.contractinfo account abi memo
    pure ({ c with contractinfo }, [])
  | .setcode account vmtype vmversion code memo => do
    let contractinfo ←
      System.setcode host.sha256 ctx c.contractinfo account vmtype vmversion code memo
    pure ({ c with contractinfo }, [])
  | .setcodeinfo account contract branding => do
    let contractinfo ← System.setcodeinfo ctx c.contractinfo account contract branding
    pure ({ c with contractinfo }, [])
  | .cleanblocks => do
    let blockinfo ← System.cleanblocks ctx c.state.blockinfo
    pure ({ c with state.blockinfo := blockinfo }, [])
  | .init destruct parameters => do
    let state ← System.init ctx c.state destruct
    pure ({ c with state, chainparams := initChainparams parameters destruct }, [])
  | .setparams params => do
    let (chainparams, calls) ← System.setparams ctx c.chainparams params
    pure ({ c with chainparams }, calls.map .host)
  | .wasmcfg settings => do
    let calls ← System.wasmcfg ctx settings
    pure (c, calls.map .host)
  | .activate featureDigest => do
    let calls ← System.activate ctx featureDigest
    pure (c, calls.map .host)
  | .setwhitelist account depth => do
    let whitelist ← System.setwhitelist ctx c.whitelist account depth
    pure ({ c with whitelist }, [])
  | .setpriv account ispriv => do
    let calls ← System.setpriv ctx account ispriv
    pure (c, calls.map .host)
  | .rmvproducer producer => do
    let state ← System.rmvproducer ctx c.state producer
    pure ({ c with state }, [])
  | .setrngcall index contract action => do
    let rngcalls ← System.setrngcall ctx c.state.rngcalls index contract action
    pure ({ c with state.rngcalls := rngcalls }, [])
  | .rmvrngcall index => do
    let rngcalls ← System.rmvrngcall ctx c.state.rngcalls index
    pure ({ c with state.rngcalls := rngcalls }, [])
  | .modrngcall index active => do
    let rngcalls ← System.modrngcall ctx c.state.rngcalls index active
    pure ({ c with state.rngcalls := rngcalls }, [])
  | .regproducer producer producerAuthority url location => do
    let state ← System.regproducer ctx c.state producer producerAuthority url location
    pure ({ c with state }, [])
  | .unregprod producer => do
    let state ← System.unregprod ctx c.state producer
    pure ({ c with state }, [])
  | .regfinkey finalizerName finalizerKey proofOfPossession => do
    let state ← System.regfinkey host ctx c.state finalizerName finalizerKey proofOfPossession
    pure ({ c with state }, [])
  | .actfinkey finalizerName finalizerKey => do
    let (state, policy) ← System.actfinkey host ctx c.state finalizerName finalizerKey
    pure ({ c with state }, policy.toList.map .setFinalizers)
  | .delfinkey finalizerName finalizerKey => do
    let state ← System.delfinkey host ctx c.state finalizerName finalizerKey
    pure ({ c with state }, [])
  | .switchtosvnn => do
    let (state, policy) ← System.switchtosvnn host ctx c.state
    pure ({ c with state }, policy.toList.map .setFinalizers)
  | .feedthebeast seed => do
    let state ← System.feedthebeast hashes c.state seed
    pure ({ c with state }, [])
  | .onblock header => do
    let res ← System.onblock hashes host ctx c.state header
    -- the inline actions run when the action is done
    pure ({ c with state := res.state },
      res.proposed.toList.map .setProposedProducers ++ res.policy.toList.map .setFinalizers ++
        res.sends.map .send)
  | .onchunk τ => do
    let sends ← System.onchunk ctx c.state τ
    pure (c, sends.map .token)
  | .logsystemfee protocol fee memo => do
    System.logsystemfee ctx protocol fee memo
    pure (c, [])

/-- The contract, with everything that it has had the chain do. -/
structure Life where
  contract : Contract := {}
  effects : List Effect := []

def Life.step (w : Life) (e : Context × Call) : Outcome Life := do
  let (contract, effects) ← w.contract.apply hashes host e.1 e.2
  pure { contract, effects := w.effects ++ effects }

variable {hashes host}

theorem Life.step_ok {w w' : Life} {e : Context × Call} (hok : w.step hashes host e = .ok w') :
    ∃ effects, w.contract.apply hashes host e.1 e.2 = .ok (w'.contract, effects) ∧
      w'.effects = w.effects ++ effects := by
  simp only [Life.step, bind_eq_ok_iff, pure_eq_ok_iff] at hok
  obtain ⟨⟨contract, effects⟩, happly, rfl⟩ := hok
  exact ⟨effects, happly, rfl⟩

/-! ### What the actions write -/

section Shapes

variable {ctx : Context} {σ σ' : State} {p : Name}

/-- A registration writes one row of the producers, and leaves its votes as they are. -/
theorem regproducer_shape {auth : BlockSigningAuthority} {url : String} {location : UInt16}
    (hok : regproducer ctx σ p auth url location = .ok σ') :
    (ctx.hasAuth ctx.self ∨ ctx.hasAuth p) ∧ auth.isValid ∧
      ∃ row : Producer, σ' = { σ with producers := σ.producers.insert p row } ∧
        row.producerAuthority = some auth ∧ row.isActive = true ∧
        row.totalVotes = σ.producers[p]?.elim 0 Producer.totalVotes := by
  simp only [regproducer, check_bind_eq_ok_iff] at hok
  obtain ⟨-, hvalid, hok⟩ := hok
  cases hp : σ.producers[p]? with
  | some old =>
    simp only [hp, check_bind_eq_ok_iff, pure_eq_ok_iff] at hok
    obtain ⟨hsigned, rfl⟩ := hok
    exact ⟨hsigned, hvalid, _, rfl, rfl, rfl, rfl⟩
  | none =>
    simp only [hp, bind_eq_ok_iff, Context.requireAuth_eq_ok_iff, exists_const,
      Table.emplace_eq_ok_iff, pure_eq_ok_iff] at hok
    obtain ⟨hsigned, producers, ⟨-, rfl⟩, rfl⟩ := hok
    exact ⟨.inl hsigned, hvalid, _, rfl, rfl, rfl, rfl⟩

theorem deactivateProducer_shape (hok : deactivateProducer σ p = .ok σ') :
    ∃ row, σ.producers[p]? = some row ∧
      σ' = { σ with producers := σ.producers.insert p row.deactivate } := by
  simp only [deactivateProducer, bind_eq_ok_iff, Table.requireFind_eq_ok_iff,
    pure_eq_ok_iff] at hok
  obtain ⟨row, hrow, rfl⟩ := hok
  exact ⟨row, hrow, rfl⟩

theorem unregprod_shape (hok : unregprod ctx σ p = .ok σ') :
    ctx.hasAuth p ∧ deactivateProducer σ p = .ok σ' := by
  rwa [unregprod, Context.requireAuth, check_bind_eq_ok_iff] at hok

/-- An activation writes the row of the finalizer and the finalizers last proposed. -/
theorem actfinkey_shape {host : Host} {key : String} {policy : Option FinalizerPolicy}
    (hok : actfinkey host ctx σ p key = .ok (σ', policy)) :
    ctx.hasAuth p ∧ ∃ fin lastpropfins,
      σ' = { σ with finalizers := σ.finalizers.insert p fin, lastpropfins } := by
  simp only [actfinkey, bind_eq_ok_iff, Context.requireAuth_eq_ok_iff, check_eq_ok_iff,
    exists_const] at hok
  obtain ⟨hsigned, fin, -, ⟨id, row⟩, -, -, hok⟩ := hok
  refine ⟨hsigned, ?_⟩
  split at hok
  · obtain ⟨rfl, -⟩ := Prod.mk.inj (pure_eq_ok_iff.mp hok)
    exact ⟨_, _, rfl⟩
  · split at hok
    · obtain ⟨rfl, -⟩ := Prod.mk.inj (pure_eq_ok_iff.mp hok)
      exact ⟨_, _, rfl⟩
    · split at hok
      all_goals
        obtain ⟨rfl, -⟩ := Prod.mk.inj (pure_eq_ok_iff.mp hok)
        exact ⟨_, _, rfl⟩

theorem feedthebeast_shape {hashes : Hashes} {seed : Checksum256}
    (hok : feedthebeast hashes σ seed = .ok σ') :
    ∃ a seed', σ.aluckynumber = some a ∧
      σ' = { σ with aluckynumber := some { a with seed := seed' } } := by
  simp only [feedthebeast, bind_eq_ok_iff, singletonGet_eq_ok_iff, pure_eq_ok_iff] at hok
  obtain ⟨a, ha, rfl⟩ := hok
  exact ⟨a, _, ha, rfl⟩

theorem init_shape {destruct : Bool} (hok : init ctx σ destruct = .ok σ') :
    σ' = { σ with
      global := if destruct then none else some {}
      aluckynumber := if destruct then none else some { producer := systemAccount } } := by
  rw [init, Context.requireAuth, check_bind_eq_ok_iff] at hok
  obtain ⟨-, hok⟩ := hok
  cases destruct with
  | true => exact (pure_eq_ok_iff.mp hok).symm
  | false => exact (pure_eq_ok_iff.mp hok).symm

theorem switchtosvnn_shape {host : Host} {policy : Option FinalizerPolicy}
    (hok : switchtosvnn host ctx σ = .ok (σ', policy)) :
    ∃ lastpropfins, σ' = { σ with lastpropfins } := by
  simp only [switchtosvnn, bind_eq_ok_iff, pure_eq_ok_iff, check_eq_ok_iff, exists_const] at hok
  obtain ⟨-, -, global, -, -, -, -, hσ⟩ := hok
  obtain ⟨rfl, -⟩ := Prod.mk.inj hσ
  exact ⟨_, rfl⟩

theorem updateElectedProducers_shape {host : Host} {slot : UInt32}
    {r : State × Option (List ProducerAuthority) × Option FinalizerPolicy}
    (hok : updateElectedProducers host σ slot = .ok r) :
    ∃ global lastpropfins, r.1 = { σ with global, lastpropfins } := by
  simp only [updateElectedProducers, bind_eq_ok_iff] at hok
  obtain ⟨global, -, hok⟩ := hok
  split at hok
  · obtain rfl := pure_eq_ok_iff.mp hok
    exact ⟨σ.global, σ.lastpropfins, rfl⟩
  · obtain rfl := pure_eq_ok_iff.mp hok
    exact ⟨_, _, rfl⟩

/-- What a block leads to, past the lucky number: what the schedule update does. -/
theorem onblock_ok {hashes : Hashes} {host : Host} {header : BlockHeader} {res : BlockResult}
    (hok : onblock hashes host ctx σ header = .ok res) :
    ∃ global a blockinfo r, σ.global = some global ∧ σ.aluckynumber = some a ∧
      onblockSchedule host global { σ with blockinfo } header.timestamp = .ok r ∧
      res = { state := { r.1 with
                global := some global
                aluckynumber := some (onblockLuck hashes σ.rngcalls a header).1 }
              sends := (onblockLuck hashes σ.rngcalls a header).2
              proposed := r.2.1
              policy := r.2.2 } := by
  simp only [onblock, bind_eq_ok_iff, singletonGet_eq_ok_iff, pure_eq_ok_iff] at hok
  obtain ⟨-, -, global, hglobal, a, ha, blockinfo, -, r, hr, rfl⟩ := hok
  exact ⟨global, a, _, r, hglobal, ha, hr, rfl⟩

theorem onblock_shape {hashes : Hashes} {host : Host} {header : BlockHeader} {res : BlockResult}
    (hok : onblock hashes host ctx σ header = .ok res) :
    ∃ global aluckynumber blockinfo lastpropfins,
      res.state = { σ with global, aluckynumber, blockinfo, lastpropfins } := by
  obtain ⟨global, a, blockinfo, r, -, -, hr, rfl⟩ := onblock_ok hok
  rw [onblockSchedule] at hr
  split_ifs at hr
  · obtain ⟨global', lastpropfins, hstate⟩ := updateElectedProducers_shape hr
    simp only [hstate]
    exact ⟨_, _, _, _, rfl⟩
  · obtain rfl := pure_eq_ok_iff.mp hr
    exact ⟨_, _, _, σ.lastpropfins, rfl⟩

end Shapes

/-! ### What an action does -/

/-- The votes of a producer. -/
def votesOf (producers : Table Name Producer) (p : Name) : ℚ :=
  producers[p]?.elim 0 Producer.totalVotes

/-- The record of an account, which is empty until something is stored in it. -/
def infoOf (contractinfo : Table Name ContractInfo) (account : Name) : ContractInfo :=
  contractinfo[account]?.getD {}

/-- The dispatcher as a relation, with one case for each action: the signature that the action has
asked for, what it leaves, and what it has the chain do. -/
inductive Applied (hashes : Hashes) (host : Host) (ctx : Context) (c : Contract) :
    Call → Contract → List Effect → Prop
  | limitauthchg {account : Name} {allowPerms disallowPerms : List Name}
      {limitauthchg : Table Name LimitAuthChg} :
    System.limitauthchg ctx c.limitauthchg account allowPerms disallowPerms = .ok limitauthchg →
    Applied hashes host ctx c (.limitauthchg account allowPerms disallowPerms)
      { c with limitauthchg } []
  | updateauth {account permission parent : Name} {authorizedBy : Option Name} :
    Applied hashes host ctx c (.updateauth account permission parent authorizedBy) c []
  | deleteauth {account permission : Name} {authorizedBy : Option Name} :
    Applied hashes host ctx c (.deleteauth account permission authorizedBy) c []
  | linkauth {account code type requirement : Name} {authorizedBy : Option Name} :
    Applied hashes host ctx c (.linkauth account code type requirement authorizedBy) c []
  | unlinkauth {account code type : Name} {authorizedBy : Option Name} :
    Applied hashes host ctx c (.unlinkauth account code type authorizedBy) c []
  | canceldelay {cancelingAuth : PermissionLevel} {trxId : Checksum256} :
    Applied hashes host ctx c (.canceldelay cancelingAuth trxId) c []
  | newaccount {creator newAccountName : Name} :
    Applied hashes host ctx c (.newaccount creator newAccountName) c []
  | setabi {account : Name} {abi : Bytes} {memo : Option String} :
    Applied hashes host ctx c (.setabi account abi memo) { c with
      contractinfo := c.contractinfo.insert account { infoOf c.contractinfo account with
        abi := { time := ctx.currentTimePoint, hash := host.sha256 abi } } } []
  | setcode {account : Name} {vmtype vmversion : UInt8} {code : Bytes} {memo : Option String} :
    Applied hashes host ctx c (.setcode account vmtype vmversion code memo) { c with
      contractinfo := c.contractinfo.insert account { infoOf c.contractinfo account with
        code := { time := ctx.currentTimePoint, hash := host.sha256 code } } } []
  | setcodeinfo {account : Name} {contract : ContractMeta} {branding : BrandingMeta} :
    ctx.hasAuth account →
    Applied hashes host ctx c (.setcodeinfo account contract branding) { c with
      contractinfo := c.contractinfo.insert account
        { infoOf c.contractinfo account with contract, branding } } []
  | cleanblocks {blockinfo : UInt64 → Table UInt32 BlockInfo} : ctx.hasAuth ctx.self →
    Applied hashes host ctx c .cleanblocks { c with state.blockinfo := blockinfo } []
  | init {destruct : Bool} {parameters : BlockchainParameters} : ctx.hasAuth ctx.self →
    Applied hashes host ctx c (.init destruct parameters) { c with
      state := { c.state with
        global := if destruct then none else some {}
        aluckynumber := if destruct then none else some { producer := systemAccount } }
      chainparams := initChainparams parameters destruct } []
  | setparams {params : BlockchainParameters} {chainparams : Option ChainParams}
      {calls : List HostCall} : ctx.hasAuth ctx.self →
    Applied hashes host ctx c (.setparams params) { c with chainparams } (calls.map .host)
  | wasmcfg {settings : Name} {calls : List HostCall} : ctx.hasAuth ctx.self →
    Applied hashes host ctx c (.wasmcfg settings) c (calls.map .host)
  | activate {featureDigest : Checksum256} {calls : List HostCall} : ctx.hasAuth ctx.self →
    Applied hashes host ctx c (.activate featureDigest) c (calls.map .host)
  | setwhitelist {account : Name} {depth : UInt8} {whitelist : Table Name Whitelisted} :
    ctx.hasAuth ctx.self → System.setwhitelist ctx c.whitelist account depth = .ok whitelist →
    Applied hashes host ctx c (.setwhitelist account depth) { c with whitelist } []
  | setpriv {account : Name} {ispriv : UInt8} {calls : List HostCall} : ctx.hasAuth ctx.self →
    Applied hashes host ctx c (.setpriv account ispriv) c (calls.map .host)
  | rmvproducer {producer : Name} {row : Producer} : ctx.hasAuth ctx.self →
    c.state.producers[producer]? = some row →
    Applied hashes host ctx c (.rmvproducer producer)
      { c with state.producers := c.state.producers.insert producer row.deactivate } []
  | setrngcall {index : UInt64} {contract action : Name} : ctx.hasAuth ctx.self →
    Applied hashes host ctx c (.setrngcall index contract action)
      { c with state.rngcalls := c.state.rngcalls.insert index { contract, action } } []
  | rmvrngcall {index : UInt64} : ctx.hasAuth ctx.self →
    Applied hashes host ctx c (.rmvrngcall index)
      { c with state.rngcalls := c.state.rngcalls.erase index } []
  | modrngcall {index : UInt64} {active : UInt8} {rngcalls : Table UInt64 RngCall} :
    ctx.hasAuth ctx.self →
    (∀ i, rngcalls[i]? = if index = i then (c.state.rngcalls[i]?).map fun row => { row with active }
      else c.state.rngcalls[i]?) →
    Applied hashes host ctx c (.modrngcall index active) { c with state.rngcalls := rngcalls } []
  | regproducer {producer : Name} {auth : BlockSigningAuthority} {url : String}
      {location : UInt16} {row : Producer} : ctx.hasAuth ctx.self ∨ ctx.hasAuth producer →
    row.totalVotes = votesOf c.state.producers producer →
    Applied hashes host ctx c (.regproducer producer auth url location)
      { c with state.producers := c.state.producers.insert producer row } []
  | unregprod {producer : Name} {row : Producer} : ctx.hasAuth producer →
    c.state.producers[producer]? = some row →
    Applied hashes host ctx c (.unregprod producer)
      { c with state.producers := c.state.producers.insert producer row.deactivate } []
  | regfinkey {f : Name} {key pop : String} {id : UInt64} {row : FinKey} {fin : Finalizer} :
    ctx.hasAuth f → id ∉ c.state.finkeys → row.finalizerName = f →
    Applied hashes host ctx c (.regfinkey f key pop) { c with
      state := { c.state with
        finkeys := c.state.finkeys.insert id row
        finkeyidgen := some id
        finalizers := c.state.finalizers.insert f fin } } []
  | actfinkey {f : Name} {key : String} {fin : Finalizer}
      {lastpropfins : Option (List FinalizerAuthInfo)} {policy : Option FinalizerPolicy} :
    ctx.hasAuth f →
    System.actfinkey host ctx c.state f key = .ok ({ c.state with
      finalizers := c.state.finalizers.insert f fin, lastpropfins }, policy) →
    Applied hashes host ctx c (.actfinkey f key) { c with
      state := { c.state with finalizers := c.state.finalizers.insert f fin, lastpropfins } }
      (policy.toList.map .setFinalizers)
  | delfinkey {f : Name} {key : String} {id : UInt64} {row : FinKey}
      {finalizers : Table Name Finalizer} : ctx.hasAuth f →
    c.state.finkeys[id]? = some row → row.finalizerName = f →
    (∀ a, f ≠ a → finalizers[a]? = c.state.finalizers[a]?) →
    Applied hashes host ctx c (.delfinkey f key)
      { c with state := { c.state with finkeys := c.state.finkeys.erase id, finalizers } } []
  | switchtosvnn {lastpropfins : Option (List FinalizerAuthInfo)}
      {policy : Option FinalizerPolicy} : ctx.hasAuth ctx.self →
    System.switchtosvnn host ctx c.state = .ok ({ c.state with lastpropfins }, policy) →
    Applied hashes host ctx c .switchtosvnn { c with state.lastpropfins := lastpropfins }
      (policy.toList.map .setFinalizers)
  | feedthebeast {seed seed' : Checksum256} {luck : ALuckyNumber} :
    c.state.aluckynumber = some luck →
    Applied hashes host ctx c (.feedthebeast seed)
      { c with state.aluckynumber := some { luck with seed := seed' } } []
  | onblock {header : BlockHeader} {res : BlockResult} : ctx.hasAuth ctx.self →
    System.onblock hashes host ctx c.state header = .ok res →
    Applied hashes host ctx c (.onblock header) { c with state := res.state }
      (res.proposed.toList.map .setProposedProducers ++ res.policy.toList.map .setFinalizers ++
        res.sends.map .send)
  | onchunk {τ : Token.State} {sends : List Token.Inline} : ctx.hasAuth ctx.self →
    System.onchunk ctx c.state τ = .ok sends →
    Applied hashes host ctx c (.onchunk τ) c (sends.map .token)
  | logsystemfee {protocol : Name} {fee : Asset} {memo : String} : ctx.hasAuth ctx.self →
    Applied hashes host ctx c (.logsystemfee protocol fee memo) c []

section Inversion

variable {ctx : Context} {c c' : Contract} {call : Call} {effects : List Effect}

theorem hasAuth_of_ok {α : Type} {n : Name} {f : Unit → Outcome α} {a : α}
    (h : (ctx.requireAuth n >>= f) = .ok a) : ctx.hasAuth n := by
  rw [Context.requireAuth, check_bind_eq_ok_iff] at h
  exact h.1

theorem setrngcall_ok {rngcalls rngcalls' : Table UInt64 RngCall} {index : UInt64}
    {contract action : Name}
    (hok : setrngcall ctx rngcalls index contract action = .ok rngcalls') :
    ctx.hasAuth ctx.self ∧ rngcalls' = rngcalls.insert index { contract, action } := by
  rw [setrngcall, Context.requireAuth, check_bind_eq_ok_iff] at hok
  obtain ⟨hself, hok⟩ := hok
  refine ⟨hself, ?_⟩
  split at hok
  · exact (Table.emplace_eq_ok_iff.mp hok).2.symm
  · exact (pure_eq_ok_iff.mp hok).symm

theorem rmvrngcall_ok {rngcalls rngcalls' : Table UInt64 RngCall} {index : UInt64}
    (hok : rmvrngcall ctx rngcalls index = .ok rngcalls') :
    ctx.hasAuth ctx.self ∧ rngcalls' = rngcalls.erase index := by
  rw [rmvrngcall, Context.requireAuth, check_bind_eq_ok_iff] at hok
  obtain ⟨hself, hok⟩ := hok
  refine ⟨hself, ?_⟩
  split at hok
  · next hnone =>
    rw [OrdMap.erase_of_not_mem hnone]
    exact (pure_eq_ok_iff.mp hok).symm
  · exact (pure_eq_ok_iff.mp hok).symm

theorem modrngcall_ok {rngcalls rngcalls' : Table UInt64 RngCall} {index : UInt64}
    {active : UInt8} (hok : modrngcall ctx rngcalls index active = .ok rngcalls') :
    ctx.hasAuth ctx.self ∧ ∀ i, rngcalls'[i]? =
      if index = i then (rngcalls[i]?).map fun row => { row with active } else rngcalls[i]? := by
  rw [modrngcall, Context.requireAuth, check_bind_eq_ok_iff] at hok
  obtain ⟨hself, hok⟩ := hok
  refine ⟨hself, fun i => ?_⟩
  split at hok
  · next hnone =>
    obtain rfl := pure_eq_ok_iff.mp hok
    split_ifs with hi
    · rw [← hi, hnone]
      rfl
    · rfl
  · next row hrow =>
    obtain rfl := pure_eq_ok_iff.mp hok
    rw [OrdMap.getElem?_insert]
    by_cases hi : index = i
    · rw [if_pos hi.symm, if_pos hi, ← hi, hrow]
      rfl
    · rw [if_neg (Ne.symm hi), if_neg hi]

/-- **What any action does.** -/
theorem applied_of_apply (hok : c.apply hashes host ctx call = .ok (c', effects)) :
    Applied hashes host ctx c call c' effects := by
  cases call with
  | limitauthchg account allowPerms disallowPerms =>
    simp only [Contract.apply, bind_eq_ok_iff, pure_eq_ok_iff, Prod.mk.injEq] at hok
    obtain ⟨limits, hlimit, rfl, rfl⟩ := hok
    exact .limitauthchg hlimit
  | updateauth | deleteauth | linkauth | unlinkauth | canceldelay | newaccount =>
    simp only [Contract.apply, bind_eq_ok_iff, pure_eq_ok_iff, Prod.mk.injEq] at hok
    obtain ⟨-, -, rfl, rfl⟩ := hok
    constructor
  | onerror => exact absurd hok (by simp [Contract.apply, onerror, check])
  | setabi account abi memo =>
    simp only [Contract.apply, setabi, modifyInfo_eq, ok_bind, pure_eq_ok_iff,
      Prod.mk.injEq] at hok
    obtain ⟨rfl, rfl⟩ := hok
    exact .setabi
  | setcode account vmtype vmversion code memo =>
    simp only [Contract.apply, setcode, modifyInfo_eq, ok_bind, pure_eq_ok_iff,
      Prod.mk.injEq] at hok
    obtain ⟨rfl, rfl⟩ := hok
    exact .setcode
  | setcodeinfo account contract branding =>
    simp only [Contract.apply, bind_eq_ok_iff, pure_eq_ok_iff, Prod.mk.injEq] at hok
    obtain ⟨contractinfo, hset, rfl, rfl⟩ := hok
    have hsigned : ctx.hasAuth account := hasAuth_of_ok hset
    simp only [setcodeinfo, Context.requireAuth, check_bind_eq_ok_iff, modifyInfo_eq,
      Except.ok.injEq] at hset
    rw [← hset.2]
    exact .setcodeinfo hsigned
  | cleanblocks =>
    obtain ⟨blockinfo, hclean, hrest⟩ := bind_eq_ok_iff.mp hok
    obtain ⟨rfl, rfl⟩ := Prod.mk.inj (pure_eq_ok_iff.mp hrest)
    exact .cleanblocks (hasAuth_of_ok hclean)
  | init destruct parameters =>
    obtain ⟨state, hinit, hrest⟩ := bind_eq_ok_iff.mp hok
    obtain ⟨rfl, rfl⟩ := Prod.mk.inj (pure_eq_ok_iff.mp hrest)
    have hself : ctx.hasAuth ctx.self := hasAuth_of_ok hinit
    obtain rfl := init_shape hinit
    exact .init hself
  | setparams params =>
    obtain ⟨r, hset, hrest⟩ := bind_eq_ok_iff.mp hok
    obtain ⟨rfl, rfl⟩ := Prod.mk.inj (pure_eq_ok_iff.mp hrest)
    exact .setparams (hasAuth_of_ok hset)
  | wasmcfg settings =>
    obtain ⟨calls, hcalls, hrest⟩ := bind_eq_ok_iff.mp hok
    obtain ⟨rfl, rfl⟩ := Prod.mk.inj (pure_eq_ok_iff.mp hrest)
    exact .wasmcfg (hasAuth_of_ok hcalls)
  | activate featureDigest =>
    obtain ⟨calls, hcalls, hrest⟩ := bind_eq_ok_iff.mp hok
    obtain ⟨rfl, rfl⟩ := Prod.mk.inj (pure_eq_ok_iff.mp hrest)
    exact .activate (hasAuth_of_ok hcalls)
  | setpriv account ispriv =>
    obtain ⟨calls, hcalls, hrest⟩ := bind_eq_ok_iff.mp hok
    obtain ⟨rfl, rfl⟩ := Prod.mk.inj (pure_eq_ok_iff.mp hrest)
    exact .setpriv (hasAuth_of_ok hcalls)
  | setwhitelist account depth =>
    obtain ⟨whitelist, hset, hrest⟩ := bind_eq_ok_iff.mp hok
    obtain ⟨rfl, rfl⟩ := Prod.mk.inj (pure_eq_ok_iff.mp hrest)
    exact .setwhitelist (hasAuth_of_ok hset) hset
  | rmvproducer producer =>
    obtain ⟨state, hrmv, hrest⟩ := bind_eq_ok_iff.mp hok
    obtain ⟨rfl, rfl⟩ := Prod.mk.inj (pure_eq_ok_iff.mp hrest)
    rw [rmvproducer, Context.requireAuth, check_bind_eq_ok_iff] at hrmv
    obtain ⟨hself, hrmv⟩ := hrmv
    obtain ⟨row, hrow, rfl⟩ := deactivateProducer_shape hrmv
    exact .rmvproducer hself hrow
  | setrngcall index contract action =>
    obtain ⟨rngcalls, hset, hrest⟩ := bind_eq_ok_iff.mp hok
    obtain ⟨rfl, rfl⟩ := Prod.mk.inj (pure_eq_ok_iff.mp hrest)
    obtain ⟨hself, rfl⟩ := setrngcall_ok hset
    exact .setrngcall hself
  | rmvrngcall index =>
    obtain ⟨rngcalls, hrmv, hrest⟩ := bind_eq_ok_iff.mp hok
    obtain ⟨rfl, rfl⟩ := Prod.mk.inj (pure_eq_ok_iff.mp hrest)
    obtain ⟨hself, rfl⟩ := rmvrngcall_ok hrmv
    exact .rmvrngcall hself
  | modrngcall index active =>
    obtain ⟨rngcalls, hmod, hrest⟩ := bind_eq_ok_iff.mp hok
    obtain ⟨rfl, rfl⟩ := Prod.mk.inj (pure_eq_ok_iff.mp hrest)
    obtain ⟨hself, hrows⟩ := modrngcall_ok hmod
    exact .modrngcall hself hrows
  | regproducer producer auth url location =>
    obtain ⟨state, hreg, hrest⟩ := bind_eq_ok_iff.mp hok
    obtain ⟨rfl, rfl⟩ := Prod.mk.inj (pure_eq_ok_iff.mp hrest)
    obtain ⟨hsigned, -, row, rfl, -, -, hvotes⟩ := regproducer_shape hreg
    exact .regproducer hsigned hvotes
  | unregprod producer =>
    obtain ⟨state, hunreg, hrest⟩ := bind_eq_ok_iff.mp hok
    obtain ⟨rfl, rfl⟩ := Prod.mk.inj (pure_eq_ok_iff.mp hrest)
    obtain ⟨hsigned, hunreg⟩ := unregprod_shape hunreg
    obtain ⟨row, hrow, rfl⟩ := deactivateProducer_shape hunreg
    exact .unregprod hsigned hrow
  | regfinkey f key pop =>
    obtain ⟨state, hreg, hrest⟩ := bind_eq_ok_iff.mp hok
    obtain ⟨rfl, rfl⟩ := Prod.mk.inj (pure_eq_ok_iff.mp hrest)
    have hsigned : ctx.hasAuth f := hasAuth_of_ok hreg
    obtain ⟨binary, -, hfresh, rfl⟩ := regfinkey_spec hreg
    exact .regfinkey hsigned hfresh rfl
  | actfinkey f key =>
    obtain ⟨⟨state, policy⟩, hact, hrest⟩ := bind_eq_ok_iff.mp hok
    obtain ⟨rfl, rfl⟩ := Prod.mk.inj (pure_eq_ok_iff.mp hrest)
    obtain ⟨hsigned, fin, lastpropfins, rfl⟩ := actfinkey_shape hact
    exact .actfinkey hsigned hact
  | delfinkey f key =>
    obtain ⟨state, hdel, hrest⟩ := bind_eq_ok_iff.mp hok
    obtain ⟨rfl, rfl⟩ := Prod.mk.inj (pure_eq_ok_iff.mp hrest)
    have hsigned : ctx.hasAuth f := hasAuth_of_ok hdel
    obtain ⟨fin, id, row, -, -, hrow, hown, -, rfl⟩ := delfinkey_spec hdel
    refine .delfinkey hsigned hrow hown fun a hother => ?_
    split_ifs
    · rw [OrdMap.getElem?_erase, if_neg hother.symm]
    · rw [OrdMap.getElem?_insert, if_neg hother.symm]
  | switchtosvnn =>
    obtain ⟨⟨state, policy⟩, hswitch, hrest⟩ := bind_eq_ok_iff.mp hok
    obtain ⟨rfl, rfl⟩ := Prod.mk.inj (pure_eq_ok_iff.mp hrest)
    obtain ⟨lastpropfins, rfl⟩ := switchtosvnn_shape hswitch
    exact .switchtosvnn (hasAuth_of_ok hswitch) hswitch
  | feedthebeast seed =>
    obtain ⟨state, hfeed, hrest⟩ := bind_eq_ok_iff.mp hok
    obtain ⟨rfl, rfl⟩ := Prod.mk.inj (pure_eq_ok_iff.mp hrest)
    obtain ⟨luck, seed', hluck, rfl⟩ := feedthebeast_shape hfeed
    exact .feedthebeast hluck
  | onblock header =>
    obtain ⟨res, hres, hrest⟩ := bind_eq_ok_iff.mp hok
    obtain ⟨rfl, rfl⟩ := Prod.mk.inj (pure_eq_ok_iff.mp hrest)
    exact .onblock (hasAuth_of_ok hres) hres
  | onchunk τ =>
    obtain ⟨sends, hsends, hrest⟩ := bind_eq_ok_iff.mp hok
    obtain ⟨rfl, rfl⟩ := Prod.mk.inj (pure_eq_ok_iff.mp hrest)
    exact .onchunk (hasAuth_of_ok hsends) hsends
  | logsystemfee protocol fee memo =>
    obtain ⟨_, hsigned, hrest⟩ := bind_eq_ok_iff.mp hok
    obtain ⟨rfl, rfl⟩ := Prod.mk.inj (pure_eq_ok_iff.mp hrest)
    exact .logsystemfee (Context.requireAuth_eq_ok_iff.mp hsigned)

end Inversion

/-! ### What an action does to the tables of blocks and producers -/

/-- The index of `rngcalls` that a call maintains. -/
def Call.rngIndex : Call → Option UInt64
  | .setrngcall index _ _ | .rmvrngcall index | .modrngcall index _ => some index
  | _ => none

/-- What an action may do: it moves the chain on, or maintains a random call, or writes a producer,
whose votes it leaves alone, or the keys of a finalizer. -/
inductive StateStep (call : Call) (σ : State) : State → Prop
  | chain (global : Option Global) (aluckynumber : Option ALuckyNumber)
      (blockinfo : UInt64 → Table UInt32 BlockInfo)
      (lastpropfins : Option (List FinalizerAuthInfo)) :
    StateStep call σ { σ with global, aluckynumber, blockinfo, lastpropfins }
  | rng (rngcalls : Table UInt64 RngCall) : call.rngIndex.isSome →
    StateStep call σ { σ with rngcalls }
  | producer (p : Name) (row : Producer) : row.totalVotes = votesOf σ.producers p →
    StateStep call σ { σ with producers := σ.producers.insert p row }
  | keys (finkeys : Table UInt64 FinKey) (finalizers : Table Name Finalizer)
      (lastpropfins : Option (List FinalizerAuthInfo)) (finkeyidgen : Option UInt64) :
    StateStep call σ { σ with finkeys, finalizers, lastpropfins, finkeyidgen }

/-- A producer that is switched off keeps its votes. -/
theorem totalVotes_deactivate {producers : Table Name Producer} {p : Name} {row : Producer}
    (hrow : producers[p]? = some row) : row.deactivate.totalVotes = votesOf producers p := by
  rw [votesOf, hrow]
  rfl

variable {ctx : Context} {c c' : Contract} {call : Call} {effects : List Effect}

/-- **What any action does to them.** -/
theorem stateStep_of_apply (hok : c.apply hashes host ctx call = .ok (c', effects)) :
    StateStep call c.state c'.state := by
  cases applied_of_apply hok with
  | regproducer _ hvotes => exact .producer _ _ hvotes
  | unregprod _ hrow | rmvproducer _ hrow => exact .producer _ _ (totalVotes_deactivate hrow)
  | regfinkey => exact .keys _ _ c.state.lastpropfins _
  | actfinkey => exact .keys c.state.finkeys _ _ c.state.finkeyidgen
  | delfinkey => exact .keys _ _ c.state.lastpropfins c.state.finkeyidgen
  | setrngcall | rmvrngcall | modrngcall => exact .rng _ rfl
  | switchtosvnn => exact .chain c.state.global c.state.aluckynumber c.state.blockinfo _
  | feedthebeast => exact .chain c.state.global _ c.state.blockinfo c.state.lastpropfins
  | init => exact .chain _ _ c.state.blockinfo c.state.lastpropfins
  | cleanblocks => exact .chain c.state.global c.state.aluckynumber _ c.state.lastpropfins
  | onblock _ hres =>
    obtain ⟨global, aluckynumber, blockinfo, lastpropfins, hstate⟩ := onblock_shape hres
    simp only [hstate]
    exact .chain global aluckynumber blockinfo lastpropfins
  | _ => exact .chain c.state.global c.state.aluckynumber c.state.blockinfo c.state.lastpropfins

/-! ### Signatures -/

/-- The actions for the contract's account only. -/
def Call.isPrivileged : Call → Bool
  | .cleanblocks | .init _ _ | .setparams _ | .wasmcfg _ | .activate _ | .setwhitelist _ _
  | .setpriv _ _ | .rmvproducer _ | .setrngcall _ _ _ | .rmvrngcall _ | .modrngcall _ _
  | .switchtosvnn | .onblock _ | .onchunk _ | .logsystemfee _ _ _ => true
  | _ => false

/-- **Whose signature the privileged actions need.** -/
theorem signed_of_isPrivileged (hcall : call.isPrivileged)
    (hok : c.apply hashes host ctx call = .ok (c', effects)) : ctx.hasAuth ctx.self := by
  cases applied_of_apply hok with
  | cleanblocks hself | init hself | setparams hself | wasmcfg hself | activate hself
  | setwhitelist hself | setpriv hself | rmvproducer hself | setrngcall hself | rmvrngcall hself
  | modrngcall hself | switchtosvnn hself | onblock hself | onchunk hself | logsystemfee hself =>
    exact hself
  | _ => exact absurd hcall Bool.false_ne_true

end Twig.System
