import Twig.System.Contract
import Twig.System.Schedule

/-!
# What needs whose signature

The rows that the system contract keeps for one account (`Contract.account`), and what it keeps
for all of them (`Contract.common`). Over runs of all actions of the contract: without the
contract's own signature nothing common changes but the seed of the lucky number, which
`feedthebeast` writes for anyone, and nothing is asked of the chain but the policies that
`actfinkey` proposes; and the rows of an account stand still until it or the contract signs.

Three things are in neither view, and only the actions for them write them: `lastpropfins`
(`actfinkey`), `finkeyidgen` (`regfinkey`), and the hashes of the `abi` and the code of an account
(`setabi` and `setcode`, whose signatures the chain asks for and the contract does not).

* `userStep_of_apply` — what an action does that the contract has not signed;
* `common_of_apply`, `account_of_apply`, `excepted_of_apply` — what it leaves alone;
* `signatures_needed` — a run.
-/

namespace Twig.System

open Std Fallible

/-! ### Views -/

/-- The rows of one account, but for the hashes of its `abi` and its code. -/
structure AccountRows where
  producer : Option Producer
  finalizer : Option Finalizer
  /-- The keys that it has registered, by id. -/
  finkeys : UInt64 → Option FinKey
  limits : Option LimitAuthChg
  contract : ContractMeta
  branding : BrandingMeta

/-- What the contract keeps for all accounts, but for the seed of the lucky number, the finalizers
last proposed and the last id of a key. -/
structure CommonRows where
  global : Option Global
  luck : Option ALuckyNumber
  rngcalls : Table UInt64 RngCall
  blockinfo : UInt64 → Table UInt32 BlockInfo
  whitelist : Table Name Whitelisted
  chainparams : Option ChainParams

/-- The lucky number with a blank seed. -/
def ALuckyNumber.seedless (a : ALuckyNumber) : ALuckyNumber :=
  { a with seed := Vector.replicate 32 0 }

/-- The keys of one finalizer. -/
def ownKeys (finkeys : Table UInt64 FinKey) (account : Name) (id : UInt64) : Option FinKey :=
  finkeys[id]?.filter fun row => row.finalizerName = account

namespace Contract

def account (c : Contract) (a : Name) : AccountRows where
  producer := c.state.producers[a]?
  finalizer := c.state.finalizers[a]?
  finkeys := ownKeys c.state.finkeys a
  limits := c.limitauthchg[a]?
  contract := (infoOf c.contractinfo a).contract
  branding := (infoOf c.contractinfo a).branding

def common (c : Contract) : CommonRows where
  global := c.state.global
  luck := c.state.aluckynumber.map ALuckyNumber.seedless
  rngcalls := c.state.rngcalls
  blockinfo := c.state.blockinfo
  whitelist := c.whitelist
  chainparams := c.chainparams

end Contract

/-! ### What is in neither view -/

/-- The call activates a key of a finalizer. -/
def Call.activatesKey : Call → Bool
  | .actfinkey _ _ => true
  | _ => false

/-- The call registers a key of a finalizer. -/
def Call.registersKey : Call → Bool
  | .regfinkey _ _ _ => true
  | _ => false

/-- The account whose `abi`, code or description a call records. -/
def Call.setsAbi : Call → Option Name
  | .setabi account _ _ => some account
  | _ => none

def Call.setsCode : Call → Option Name
  | .setcode account _ _ _ _ => some account
  | _ => none

def Call.setsInfo : Call → Option Name
  | .setcodeinfo account _ _ => some account
  | _ => none

/-! ### Rows of other accounts -/

variable {hashes : Hashes} {host : Host} {ctx : Context} {c c' : Contract} {call : Call}
  {effects : List Effect} {a : Name}

theorem infoOf_insert {contractinfo : Table Name ContractInfo} {account : Name}
    {row : ContractInfo} : infoOf (contractinfo.insert account row) a =
      if account = a then row else infoOf contractinfo a := by
  rw [infoOf, OrdMap.getElem?_insert]
  by_cases ha : account = a
  · rw [if_pos ha.symm, if_pos ha, Option.getD_some]
  · rw [if_neg (Ne.symm ha), if_neg ha, infoOf]

theorem ownKeys_insert {finkeys : Table UInt64 FinKey} {id : UInt64} {row : FinKey}
    (hfresh : id ∉ finkeys) (hother : row.finalizerName ≠ a) :
    ownKeys (finkeys.insert id row) a = ownKeys finkeys a := by
  funext k
  rw [ownKeys, ownKeys, OrdMap.getElem?_insert]
  split_ifs with hk
  · rw [hk, OrdMap.not_mem_iff.mp hfresh]
    simp [hother]
  · rfl

theorem ownKeys_erase {finkeys : Table UInt64 FinKey} {id : UInt64} {row : FinKey}
    (hrow : finkeys[id]? = some row) (hother : row.finalizerName ≠ a) :
    ownKeys (finkeys.erase id) a = ownKeys finkeys a := by
  funext k
  rw [ownKeys, ownKeys, OrdMap.getElem?_erase]
  split_ifs with hk
  · rw [hk, hrow]
    simp [Option.filter, hother]
  · rfl

theorem getElem?_limitauthchg {limits limits' : Table Name LimitAuthChg} {account : Name}
    {allowPerms disallowPerms : List Name} (hother : account ≠ a)
    (hok : limitauthchg ctx limits account allowPerms disallowPerms = .ok limits') :
    limits'[a]? = limits[a]? := by
  simp only [limitauthchg, bind_eq_ok_iff, Context.requireAuth_eq_ok_iff, check_eq_ok_iff,
    exists_const] at hok
  obtain ⟨-, -, -, -, hok⟩ := hok
  split at hok <;> split at hok
  · obtain ⟨-, rfl⟩ := Table.emplace_eq_ok_iff.mp hok
    rw [OrdMap.getElem?_insert, if_neg hother.symm]
  · obtain rfl := pure_eq_ok_iff.mp hok
    rw [OrdMap.getElem?_insert, if_neg hother.symm]
  · obtain rfl := pure_eq_ok_iff.mp hok
    rfl
  · obtain rfl := pure_eq_ok_iff.mp hok
    rw [OrdMap.getElem?_erase, if_neg hother.symm]

/-! ### One action -/

/-- What an action may do that the contract has not signed: it writes the producer, the keys or the
limits of an account that has signed it, records something about a contract, feeds the lucky
number, or does nothing to the tables. -/
inductive UserStep (ctx : Context) (c : Contract) : Call → Contract → List Effect → Prop
  | same {call : Call} : UserStep ctx c call c []
  | producer {call : Call} (p : Name) (row : Producer) : ctx.hasAuth p →
    UserStep ctx c call
      { c with state := { c.state with producers := c.state.producers.insert p row } } []
  | keys {call : Call} (f : Name) (finkeys : Table UInt64 FinKey)
      (finalizers : Table Name Finalizer) (lastpropfins : Option (List FinalizerAuthInfo))
      (finkeyidgen : Option UInt64) (policies : List FinalizerPolicy) : ctx.hasAuth f →
    (call.activatesKey = false → lastpropfins = c.state.lastpropfins ∧ policies = []) →
    (call.registersKey = false → finkeyidgen = c.state.finkeyidgen) →
    (∀ a, f ≠ a → finalizers[a]? = c.state.finalizers[a]? ∧
      ownKeys finkeys a = ownKeys c.state.finkeys a) →
    UserStep ctx c call
      { c with state := { c.state with finkeys, finalizers, lastpropfins, finkeyidgen } }
      (policies.map .setFinalizers)
  | limits {call : Call} (account : Name) (limitauthchg : Table Name LimitAuthChg) :
    ctx.hasAuth account → (∀ a, account ≠ a → limitauthchg[a]? = c.limitauthchg[a]?) →
    UserStep ctx c call { c with limitauthchg } []
  | record {call : Call} (account : Name) (row : ContractInfo) :
    (ctx.hasAuth account = false → row.contract = (infoOf c.contractinfo account).contract ∧
      row.branding = (infoOf c.contractinfo account).branding) →
    (call.setsAbi ≠ some account → row.abi = (infoOf c.contractinfo account).abi) →
    (call.setsCode ≠ some account → row.code = (infoOf c.contractinfo account).code) →
    UserStep ctx c call { c with contractinfo := c.contractinfo.insert account row } []
  | seed {call : Call} (luck : ALuckyNumber) (seed : Checksum256) :
    c.state.aluckynumber = some luck →
    UserStep ctx c call
      { c with state := { c.state with aluckynumber := some { luck with seed } } } []

/-- A signature that an action needs is not missing. -/
private theorem ne_of_signed {b : Name} (hsigned : ctx.hasAuth b) (ha : ctx.hasAuth a = false) :
    b ≠ a := by
  rintro rfl
  exact absurd hsigned (by rw [ha]; exact Bool.false_ne_true)

/-- Without the contract's signature an action is for any account. -/
theorem isPrivileged_of_apply (hself : ctx.hasAuth ctx.self = false)
    (hok : c.apply hashes host ctx call = .ok (c', effects)) : call.isPrivileged = false := by
  by_contra hcall
  have hsigned := signed_of_isPrivileged (Bool.not_eq_false _ |>.mp hcall) hok
  exact absurd hsigned (by simp [hself])

/-- **What an action does without the contract's signature.** -/
theorem userStep_of_apply (hself : ctx.hasAuth ctx.self = false)
    (hok : c.apply hashes host ctx call = .ok (c', effects)) :
    UserStep ctx c call c' effects := by
  have hunsigned : ¬ ctx.hasAuth ctx.self := by simp [hself]
  cases applied_of_apply hok with
  | regproducer hsigned _ => exact .producer _ _ (hsigned.resolve_left hunsigned)
  | unregprod hsigned _ => exact .producer _ _ hsigned
  | regfinkey hsigned hfresh hown =>
    refine .keys _ _ _ c.state.lastpropfins _ [] hsigned (fun _ => ⟨rfl, rfl⟩)
      (fun h => absurd h (by simp [Call.registersKey])) fun a hother => ⟨?_, ?_⟩
    · rw [OrdMap.getElem?_insert, if_neg hother.symm]
    · exact ownKeys_insert hfresh (hown ▸ hother)
  | actfinkey hsigned _ =>
    refine .keys _ c.state.finkeys _ _ c.state.finkeyidgen _ hsigned
      (fun h => absurd h (by simp [Call.activatesKey])) (fun _ => rfl)
      fun a hother => ⟨?_, rfl⟩
    rw [OrdMap.getElem?_insert, if_neg hother.symm]
  | delfinkey hsigned hrow hown hrest =>
    exact .keys _ _ _ c.state.lastpropfins c.state.finkeyidgen [] hsigned (fun _ => ⟨rfl, rfl⟩)
      (fun _ => rfl) fun a hother => ⟨hrest a hother, ownKeys_erase hrow (hown ▸ hother)⟩
  | feedthebeast hluck => exact .seed _ _ hluck
  | limitauthchg hlimit =>
    exact .limits _ _ (hasAuth_of_ok hlimit) fun a hother => getElem?_limitauthchg hother hlimit
  | setabi =>
    exact .record _ _ (fun _ => ⟨rfl, rfl⟩) (fun h => absurd rfl h) (fun _ => rfl)
  | setcode =>
    exact .record _ _ (fun _ => ⟨rfl, rfl⟩) (fun _ => rfl) (fun h => absurd rfl h)
  | setcodeinfo hsigned =>
    exact .record _ _ (fun h => absurd hsigned (by simp [h])) (fun _ => rfl) (fun _ => rfl)
  | updateauth | deleteauth | linkauth | unlinkauth | canceldelay | newaccount => exact .same
  | cleanblocks h | init h | setparams h | wasmcfg h | activate h | setwhitelist h | setpriv h
  | rmvproducer h | setrngcall h | rmvrngcall h | modrngcall h | switchtosvnn h | onblock h
  | onchunk h | logsystemfee h => exact absurd h hunsigned

/-- **Without the contract's signature** nothing common to all accounts changes, and the chain is
asked for nothing but a finalizer policy. -/
theorem common_of_apply (hself : ctx.hasAuth ctx.self = false)
    (hok : c.apply hashes host ctx call = .ok (c', effects)) :
    c'.common = c.common ∧
      ∃ policies : List FinalizerPolicy, effects = policies.map .setFinalizers := by
  cases userStep_of_apply hself hok with
  | keys f finkeys finalizers lastpropfins finkeyidgen policies => exact ⟨rfl, policies, rfl⟩
  | seed luck seed hluck =>
    refine ⟨?_, [], rfl⟩
    simp only [Contract.common, hluck]
    rfl
  | same | producer | limits | record => exact ⟨rfl, [], rfl⟩

/-- **Without the signatures of an account and of the contract** the rows of the account stand
still. -/
theorem account_of_apply (hself : ctx.hasAuth ctx.self = false) (ha : ctx.hasAuth a = false)
    (hok : c.apply hashes host ctx call = .ok (c', effects)) : c'.account a = c.account a := by
  cases userStep_of_apply hself hok with
  | same | seed => rfl
  | producer p row hsigned =>
    have hother := ne_of_signed hsigned ha
    simp only [Contract.account, OrdMap.getElem?_insert, if_neg hother.symm]
  | keys f finkeys finalizers lastpropfins finkeyidgen policies hsigned _ _ hrest =>
    obtain ⟨hfinalizer, hkeys⟩ := hrest a (ne_of_signed hsigned ha)
    simp only [Contract.account, hfinalizer, hkeys]
  | limits account limitauthchg hsigned hrest =>
    simp only [Contract.account, hrest a (ne_of_signed hsigned ha)]
  | record account row hrow =>
    simp only [Contract.account, infoOf_insert]
    split_ifs with haccount
    · subst haccount
      obtain ⟨hcontract, hbranding⟩ := hrow ha
      rw [hcontract, hbranding]
    · rfl

/-- **What is in neither view** is written by the actions for it. -/
theorem excepted_of_apply (hself : ctx.hasAuth ctx.self = false)
    (hok : c.apply hashes host ctx call = .ok (c', effects)) :
    (call.activatesKey = false →
      c'.state.lastpropfins = c.state.lastpropfins ∧ effects = []) ∧
    (call.registersKey = false → c'.state.finkeyidgen = c.state.finkeyidgen) ∧
    (call.setsAbi ≠ some a → (infoOf c'.contractinfo a).abi = (infoOf c.contractinfo a).abi) ∧
    (call.setsCode ≠ some a →
      (infoOf c'.contractinfo a).code = (infoOf c.contractinfo a).code) := by
  cases userStep_of_apply hself hok with
  | keys f finkeys finalizers lastpropfins finkeyidgen policies _ hactivates hregisters =>
    refine ⟨fun hcall => ?_, hregisters, fun _ => rfl, fun _ => rfl⟩
    obtain ⟨hlast, rfl⟩ := hactivates hcall
    exact ⟨hlast, rfl⟩
  | record account row _ habi hcode =>
    refine ⟨fun _ => ⟨rfl, rfl⟩, fun _ => rfl, fun hcall => ?_, fun hcall => ?_⟩
    · rw [infoOf_insert]
      split_ifs with haccount
      · subst haccount
        exact habi hcall
      · rfl
    · rw [infoOf_insert]
      split_ifs with haccount
      · subst haccount
        exact hcode hcall
      · rfl
  | same | producer | limits | seed =>
    exact ⟨fun _ => ⟨rfl, rfl⟩, fun _ => rfl, fun _ => rfl, fun _ => rfl⟩

/-! ### Runs -/

/-- A call that the contract has not signed. -/
def Unsigned (_ : Life) (e : Context × Call) : Prop := e.1.hasAuth e.1.self = false

variable {w w' : Life} {tr : List (Context × Call)}

/-- **Signatures.** In every run of actions none of which the contract's account signs, from any
tables: none of the actions for that account only is among them, what the contract keeps for all
accounts (`CommonRows`) stands still, the chain is asked for nothing but finalizer policies, and the
rows of every account that has signed none of them (`AccountRows`) stand still. Of what these leave out, `lastpropfins` stands still without
`actfinkey`, and then no policy is asked for either, `finkeyidgen` without `regfinkey`, and the
hashes of an account without `setabi` and `setcode` for it. -/
theorem signatures_needed (hrun : Run (Life.step hashes host) Unsigned w tr w') :
    (∀ e ∈ tr, e.2.isPrivileged = false) ∧ w'.contract.common = w.contract.common ∧
      (∃ policies : List FinalizerPolicy, w'.effects = w.effects ++ policies.map .setFinalizers) ∧
      (∀ a, (∀ e ∈ tr, e.1.hasAuth a = false) →
        w'.contract.account a = w.contract.account a) ∧
      ((∀ e ∈ tr, e.2.activatesKey = false) →
        w'.contract.state.lastpropfins = w.contract.state.lastpropfins ∧
          w'.effects = w.effects) ∧
      ((∀ e ∈ tr, e.2.registersKey = false) →
        w'.contract.state.finkeyidgen = w.contract.state.finkeyidgen) ∧
      ∀ a, ((∀ e ∈ tr, e.2.setsAbi ≠ some a) →
          (infoOf w'.contract.contractinfo a).abi = (infoOf w.contract.contractinfo a).abi) ∧
        ((∀ e ∈ tr, e.2.setsCode ≠ some a) →
          (infoOf w'.contract.contractinfo a).code = (infoOf w.contract.contractinfo a).code) := by
  refine ⟨?_, ?_, ?_, fun a ha => ?_, fun hnone => ?_, fun hnone => ?_, fun a => ⟨?_, ?_⟩⟩
  · refine hrun.invariant (I := fun tr _ => ∀ e ∈ tr, e.2.isPrivileged = false) (by simp) ?_
    rintro tr w₁ e w₂ - hI hunsigned hok
    obtain ⟨effects, happly, -⟩ := Life.step_ok hok
    exact List.forall_mem_append.mpr
      ⟨hI, List.forall_mem_singleton.mpr (isPrivileged_of_apply hunsigned happly)⟩
  · refine hrun.state_invariant
      (I := fun w' : Life => w'.contract.common = w.contract.common) rfl ?_
    intro w₁ e w₂ hI hunsigned hok
    obtain ⟨effects, happly, -⟩ := Life.step_ok hok
    exact (common_of_apply hunsigned happly).1.trans hI
  · refine hrun.state_invariant (I := fun w' : Life => ∃ policies : List FinalizerPolicy,
      w'.effects = w.effects ++ policies.map .setFinalizers) ⟨[], by simp⟩ ?_
    rintro w₁ e w₂ ⟨policies, hpolicies⟩ hunsigned hok
    obtain ⟨effects, happly, heffects⟩ := Life.step_ok hok
    obtain ⟨-, more, rfl⟩ := common_of_apply hunsigned happly
    exact ⟨policies ++ more, by rw [heffects, hpolicies, List.append_assoc, List.map_append]⟩
  · refine hrun.view_eq_of_quiet (fun w : Life => w.contract.account a) ha ?_
    intro w₁ e w₂ hsigned hunsigned hok
    obtain ⟨effects, happly, -⟩ := Life.step_ok hok
    exact account_of_apply hunsigned hsigned happly
  · refine Prod.mk.inj (hrun.view_eq_of_quiet
      (fun w : Life => (w.contract.state.lastpropfins, w.effects)) hnone ?_)
    intro w₁ e w₂ hcall hunsigned hok
    obtain ⟨effects, happly, heffects⟩ := Life.step_ok hok
    obtain ⟨hlast, rfl⟩ := (excepted_of_apply (a := ⟨0⟩) hunsigned happly).1 hcall
    rw [hlast, heffects, List.append_nil]
  · refine hrun.view_eq_of_quiet (fun w : Life => w.contract.state.finkeyidgen) hnone ?_
    intro w₁ e w₂ hcall hunsigned hok
    obtain ⟨effects, happly, -⟩ := Life.step_ok hok
    exact (excepted_of_apply (a := ⟨0⟩) hunsigned happly).2.1 hcall
  · intro hnone
    refine hrun.view_eq_of_quiet (fun w : Life => (infoOf w.contract.contractinfo a).abi) hnone ?_
    intro w₁ e w₂ hcall hunsigned hok
    obtain ⟨effects, happly, -⟩ := Life.step_ok hok
    exact (excepted_of_apply hunsigned happly).2.2.1 hcall
  · intro hnone
    refine hrun.view_eq_of_quiet (fun w : Life => (infoOf w.contract.contractinfo a).code) hnone ?_
    intro w₁ e w₂ hcall hunsigned hok
    obtain ⟨effects, happly, -⟩ := Life.step_ok hok
    exact (excepted_of_apply hunsigned happly).2.2.2 hcall

/-! ### A producer leaves -/

/-- Bob signs, and nobody else. -/
def bobSigns : Context :=
  { systemContext with hasAuth := fun account => account = .ofString "bob" }

/-- Two producers. -/
def twoProducers : Life :=
  { contract := { state := { aluckynumber := some {}, producers := aliceAndBob } } }

/-- Bob unregisters himself and feeds the beast. -/
def bobLeaves : List (Context × Call) :=
  [(bobSigns, .unregprod (.ofString "bob")), (bobSigns, .feedthebeast (Vector.replicate 32 7))]

/-- Alice is still what she was, and Bob is not active any more. -/
theorem signatures_needed_bobLeaves :
    ∃ w, Run (Life.step zeroHashes plainHost) Unsigned twoProducers bobLeaves w ∧
      (∃ row ∈ w.contract.state.producers[Name.ofString "bob"]?, row.isActive = false) ∧
      w.contract.account (.ofString "alice") =
        twoProducers.contract.account (.ofString "alice") := by
  obtain ⟨w, hw, hbob⟩ := returns_iff.mp (show returns
    (bobLeaves.foldlM (Life.step zeroHashes plainHost) twoProducers) (fun w =>
      w.contract.state.producers[Name.ofString "bob"]?.map Producer.isActive = some false) = true
    by decide +kernel)
  have hsigned : ∀ e ∈ bobLeaves, e.1 = bobSigns := by
    intro e he
    simp only [bobLeaves, List.mem_cons, List.not_mem_nil, or_false] at he
    rcases he with rfl | rfl <;> rfl
  have hrun : Run (Life.step zeroHashes plainHost) Unsigned twoProducers bobLeaves w :=
    Run.of_foldlM (fun _ e he => by rw [Unsigned, hsigned e he]; decide +kernel) hw
  obtain ⟨row, hrow, hactive⟩ := Option.map_eq_some_iff.mp (of_decide_eq_true hbob)
  exact ⟨w, hrun, ⟨row, hrow, hactive⟩, (signatures_needed hrun).2.2.2.1 (.ofString "alice")
    fun e he => by rw [hsigned e he]; decide +kernel⟩

end Twig.System
