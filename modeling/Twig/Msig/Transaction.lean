import Twig.Eosio.Wire
import Twig.Lib.Format
import Twig.Msig.Safety

/-!
# Packed transactions

The format of the transactions that are proposed, as the interface of the contract lists it: a
header, context-free actions, actions and extensions. The contract takes apart the bytes that it
has stored with it, up to the actions, whatever stands behind them.

* `transactionFormat` — the format, with `headerFormat` and `actionsFormat`, which a datastream
  reads one after the other;
* `packedHost` — a chain whose datastreams read this format;
* `stored_of_instance` — what stays stored of a proposal is what was proposed;
* `proposed_is_executed` — what runs is what was packed.
-/

namespace Twig.Msig

open Std Fallible

/-- A `transaction_header`, with all of its fields. -/
structure Header where
  expiration : UInt32
  refBlockNum : UInt16
  refBlockPrefix : UInt32
  maxNetUsageWords : UInt32
  maxCpuUsageMs : UInt8
  delaySec : UInt32
deriving DecidableEq

/-- An `extension` of a transaction. -/
structure Extension where
  type : UInt16
  data : Bytes
deriving DecidableEq

/-- A `transaction`. -/
structure Transaction where
  header : Header
  contextFreeActions : List Action := []
  actions : List Action
  transactionExtensions : List Extension := []
deriving DecidableEq

/-! ### The format -/

def uint8Format : Wire.Fixed UInt8 :=
  (Wire.Fixed.number 1).congr ⟨fun n => UInt8.ofNat n, fun a => ⟨a.toNat, a.toNat_lt⟩,
    fun n => Fin.ext (Nat.mod_eq_of_lt n.isLt), fun _ => UInt8.ofNat_toNat⟩

def uint16Format : Wire.Fixed UInt16 :=
  (Wire.Fixed.number 2).congr ⟨fun n => UInt16.ofNat n, fun a => ⟨a.toNat, a.toNat_lt⟩,
    fun n => Fin.ext (Nat.mod_eq_of_lt n.isLt), fun _ => UInt16.ofNat_toNat⟩

def uint32Format : Wire.Fixed UInt32 :=
  (Wire.Fixed.number 4).congr ⟨fun n => UInt32.ofNat n, fun a => ⟨a.toNat, a.toNat_lt⟩,
    fun n => Fin.ext (Nat.mod_eq_of_lt n.isLt), fun _ => UInt32.ofNat_toNat⟩

def permissionLevelFormat : Wire.Fixed PermissionLevel :=
  (nameFormat.pair nameFormat).congr ⟨fun p => ⟨p.1, p.2⟩, fun l => (l.actor, l.permission),
    fun _ => rfl, fun _ => rfl⟩

section Formats

variable (u : Unpacker)

/-- The length of what follows. -/
def lengthFormat : Wire.Format Fault ℕ where
  Fits n := n < 2 ^ 32
  write := packLength
  read := u.readLength
  read_write := Unpacker.readLength_packLength

/-- A `varuint32`. -/
def varuint32Format : Wire.Format Fault UInt32 where
  Fits _ := True
  write a := packLength a.toNat
  read bs := do
    let (n, rest) ← u.readLength bs
    pure (.ofNat n, rest)
  read_write {a rest} _ := by
    simp only [Unpacker.readLength_packLength a.toNat_lt, ok_bind, UInt32.ofNat_toNat]
    rfl

/-- A value of a fixed width. -/
def word {α : Type} (c : Wire.Fixed α) : Wire.Format Fault α := c.format Unpacker.pastEnd

/-- A vector of bytes. -/
def dataFormat : Wire.Format Fault Bytes := .bytesOf (lengthFormat u) Unpacker.pastEnd

def actionFormat : Wire.Format Fault Action :=
  ((word nameFormat).pair ((word nameFormat).pair
    ((Wire.Format.listOf (lengthFormat u) (word permissionLevelFormat)).pair (dataFormat u)))).congr
      ⟨fun p => ⟨p.1, p.2.1, p.2.2.1, p.2.2.2⟩,
        fun a => (a.account, a.name, a.authorization, a.data), fun _ => rfl, fun _ => rfl⟩

def actionsFormat : Wire.Format Fault (List Action) := .listOf (lengthFormat u) (actionFormat u)

def extensionFormat : Wire.Format Fault Extension :=
  ((word uint16Format).pair (dataFormat u)).congr
    ⟨fun p => ⟨p.1, p.2⟩, fun e => (e.type, e.data), fun _ => rfl, fun _ => rfl⟩

def headerFormat : Wire.Format Fault Header :=
  ((word uint32Format).pair ((word uint16Format).pair ((word uint32Format).pair
    ((varuint32Format u).pair ((word uint8Format).pair (varuint32Format u)))))).congr
      ⟨fun p => ⟨p.1, p.2.1, p.2.2.1, p.2.2.2.1, p.2.2.2.2.1, p.2.2.2.2.2⟩,
        fun h => (h.expiration, h.refBlockNum, h.refBlockPrefix, h.maxNetUsageWords,
          h.maxCpuUsageMs, h.delaySec), fun _ => rfl, fun _ => rfl⟩

def transactionFormat : Wire.Format Fault Transaction :=
  ((headerFormat u).pair ((actionsFormat u).pair ((actionsFormat u).pair
    (Wire.Format.listOf (lengthFormat u) (extensionFormat u))))).congr
      ⟨fun p => ⟨p.1, p.2.1, p.2.2.1, p.2.2.2⟩,
        fun t => (t.header, t.contextFreeActions, t.actions, t.transactionExtensions),
        fun _ => rfl, fun _ => rfl⟩

/-- A chain whose datastreams read the format. -/
def packedHost (authorized : Bytes → List PermissionLevel → Bool)
    (sha256 : Bytes → Checksum256) : Host where
  authorized := authorized
  sha256 := sha256
  readHeader bs := do
    let (header, rest) ← (headerFormat u).read bs
    pure (⟨header.expiration, header.delaySec⟩, rest)
  readActions := (actionsFormat u).read

end Formats

variable {u : Unpacker} {t : Transaction} {rest : Bytes}

/-- Every header fits. -/
theorem fits_header (h : Header) : (headerFormat u).Fits h :=
  ⟨trivial, trivial, trivial, trivial, trivial, trivial⟩

theorem fits_action {a : Action} (hlevels : a.authorization.length < 2 ^ 32)
    (hdata : a.data.length < 2 ^ 32) : (actionFormat u).Fits a :=
  ⟨trivial, trivial, ⟨hlevels, fun _ _ => trivial⟩, hdata⟩

/-- A transaction without context-free actions and extensions fits if its actions do. -/
theorem fits_transaction (hfree : t.contextFreeActions = []) (hext : t.transactionExtensions = [])
    (hactions : t.actions.length < 2 ^ 32) (hfits : ∀ a ∈ t.actions, (actionFormat u).Fits a) :
    (transactionFormat u).Fits t := by
  obtain ⟨header, free, actions, extensions⟩ := t
  obtain rfl : free = [] := hfree
  obtain rfl : extensions = [] := hext
  have hnone : (0 : ℕ) < 2 ^ 32 := by decide
  exact ⟨fits_header header, ⟨hnone, fun a ha => nomatch ha⟩, ⟨hactions, hfits⟩,
    ⟨hnone, fun e he => nomatch he⟩⟩

theorem write_transaction : (transactionFormat u).write t = (headerFormat u).write t.header ++
    ((actionsFormat u).write t.contextFreeActions ++ ((actionsFormat u).write t.actions ++
      (Wire.Format.listOf (lengthFormat u) (extensionFormat u)).write
        t.transactionExtensions)) :=
  rfl

/-- **A transaction is taken apart** in the steps in which the contracts read it. -/
theorem read_transaction (rest : Bytes) (h : (transactionFormat u).Fits t) :
    ∃ ds ds' ds'',
      (headerFormat u).read ((transactionFormat u).write t ++ rest) = .ok (t.header, ds) ∧
      (actionsFormat u).read ds = .ok (t.contextFreeActions, ds') ∧
      (actionsFormat u).read ds' = .ok (t.actions, ds'') := by
  obtain ⟨hheader, hfree, hactions, -⟩ := h
  simp only [write_transaction, List.append_assoc]
  exact ⟨_, _, _, (headerFormat u).read_write hheader, (actionsFormat u).read_write hfree,
    (actionsFormat u).read_write hactions⟩

theorem readHeader_packedHost {authorized : Bytes → List PermissionLevel → Bool}
    {sha256 : Bytes → Checksum256} {bs : Bytes} :
    (packedHost u authorized sha256).readHeader bs = ((headerFormat u).read bs >>= fun r =>
      pure (⟨r.1.expiration, r.1.delaySec⟩, r.2)) :=
  rfl

/-- What a host reads of a packed transaction, step by step. -/
def Host.Reads (host : Host) (trx : Bytes) (t : Transaction) : Prop :=
  ∃ ds ds' ds'', host.readHeader trx = .ok (⟨t.header.expiration, t.header.delaySec⟩, ds) ∧
    host.readActions ds = .ok (t.contextFreeActions, ds') ∧
    host.readActions ds' = .ok (t.actions, ds'')

theorem reads_transaction {authorized : Bytes → List PermissionLevel → Bool}
    {sha256 : Bytes → Checksum256} (h : (transactionFormat u).Fits t) :
    (packedHost u authorized sha256).Reads ((transactionFormat u).write t ++ rest) t := by
  obtain ⟨ds, ds', ds'', hheader, hfree, hactions⟩ := read_transaction rest h
  refine ⟨ds, ds', ds'', ?_, hfree, hactions⟩
  rw [readHeader_packedHost, hheader]
  exact pure_eq_ok_iff.mpr rfl

/-! ### What stays stored -/

section Runs

variable {host : Host} {tr since : List (Context × Call)} {σ σ' : State} {p n : Name}

/-- **What stays stored of a proposal** is what was proposed, with the approvals since then. -/
theorem stored_of_instance (hrun : Run (step host) (fun _ _ => True) {} tr σ) {trx : Bytes}
    (hinstance : InstanceOf tr p n trx since) :
    ∃ proposal row, (σ.proposals p)[n]? = some proposal ∧ proposal.packedTransaction = trx ∧
      (σ.approvals p)[n]? = some row ∧ row.providedApprovals = outstanding p n since := by
  refine hrun.invariant (I := fun tr σ => ∀ trx since, InstanceOf tr p n trx since →
    ∃ proposal row, (σ.proposals p)[n]? = some proposal ∧ proposal.packedTransaction = trx ∧
      (σ.approvals p)[n]? = some row ∧ row.providedApprovals = outstanding p n since) ?_ ?_
    trx since hinstance
  · rintro trx since ⟨before, ctx, requested, hnil, -⟩
    exact absurd hnil.symm (by simp)
  · rintro tr σ c σ' - ih - hok trx since ⟨before, ctx, requested, htr, hsince⟩
    rcases List.eq_nil_or_concat since with rfl | ⟨since', c', rfl⟩
    · -- the call that has just been made is the proposal
      obtain ⟨-, hlast⟩ := List.append_inj' htr rfl
      obtain rfl := List.singleton_inj.mp hlast
      rcases step_cases hok p n with ⟨requested', trx', hc, hnew, row, hrow, hprovided⟩ |
        ⟨⟨e, hc | hc⟩, -⟩ | ⟨hc, -⟩
      · cases hc
        exact ⟨_, row, hnew, rfl, hrow, hprovided⟩
      · exact nomatch hc
      · exact nomatch hc
      · simp [Call.turnsOver] at hc
    · -- the call leaves the instance in place
      rw [List.concat_eq_append, ← List.cons_append, ← List.append_assoc] at htr
      obtain ⟨rfl, hlast⟩ := List.append_inj' htr rfl
      obtain rfl := List.singleton_inj.mp hlast
      rw [List.concat_eq_append, List.forall_mem_append, List.forall_mem_singleton] at hsince
      obtain ⟨hsince, hkept⟩ := hsince
      rcases step_cases hok p n with ⟨requested', trx', hc, -⟩ | ⟨⟨e, hc | hc⟩, -⟩ |
        ⟨-, hpacked, happrovals⟩
      · simp [hc, Call.turnsOver] at hkept
      · simp [hc, Call.turnsOver] at hkept
      · simp [hc, Call.turnsOver] at hkept
      · obtain ⟨proposal, row, hproposal, htrx, hrow, hprovided⟩ :=
          ih trx since' ⟨before, ctx, requested, rfl, hsince⟩
        rw [hproposal, Option.map_some, Option.map_eq_some_iff] at hpacked
        rw [hrow, Option.map_some, Option.map_eq_some_iff] at happrovals
        obtain ⟨proposal', hproposal', hsame⟩ := hpacked
        obtain ⟨row', hrow', hprovided'⟩ := happrovals
        refine ⟨proposal', row', hproposal', hsame.trans htrx, hrow', ?_⟩
        rw [hprovided', hprovided, List.concat_eq_append, outstanding_snoc]

/-- The check of `exec` on the time stored with the proposal: the earliest execution time has
passed, or none is stored and the transaction has no delay. -/
def Timely (now : TimePoint) (delaySec : UInt32) : Option (Option TimePoint) → Prop
  | some (some earliest) => earliest ≤ now
  | _ => delaySec = 0

/-- What `exec` sends of a transaction that is read, and what it has checked. -/
theorem exec_ok_of_reads {ctx : Context} {executer : Name} {actions : List Action}
    {proposal : Proposal} (hproposal : (σ.proposals p)[n]? = some proposal)
    (hreads : host.Reads proposal.packedTransaction t)
    (hexec : exec host ctx σ p n executer = .ok (σ', actions)) :
    ctx.hasAuth executer ∧ ctx.currentTimePoint.sec ≤ t.header.expiration ∧
      t.contextFreeActions = [] ∧
      host.authorized proposal.packedTransaction (storedLevels σ p n) = true ∧
      Timely ctx.currentTimePoint t.header.delaySec proposal.earliestExecTime ∧
      actions = t.actions := by
  obtain ⟨ds, ds', ds'', hheader, hfree, hactions⟩ := hreads
  simp only [exec, bind_eq_ok_iff, Context.requireAuth_eq_ok_iff, Table.requireFind_eq_ok_iff,
    check_eq_ok_iff, exists_const] at hexec
  obtain ⟨hsigned, proposal', hproposal', ⟨header, es⟩, hheader', htime, ⟨cfa, es'⟩, hfree', hnone,
    ⟨acts, es''⟩, hactions', hauth, hend⟩ := hexec
  obtain rfl := Option.some.inj (hproposal.symm.trans hproposal')
  obtain ⟨rfl, rfl⟩ := Prod.mk.inj (Except.ok.inj (hheader.symm.trans hheader'))
  obtain ⟨rfl, rfl⟩ := Prod.mk.inj (Except.ok.inj (hfree.symm.trans hfree'))
  obtain ⟨rfl, -⟩ := Prod.mk.inj (Except.ok.inj (hactions.symm.trans hactions'))
  rw [getApprovalsAndAdjustTable_erase] at hauth hend
  refine ⟨hsigned, htime, hnone, hauth, ?_⟩
  generalize proposal.earliestExecTime = o at hend
  rcases o with _ | _ | earliest
  all_goals
    obtain ⟨htimely, hend⟩ := check_bind_eq_ok_iff.mp hend
    exact ⟨htimely, (Prod.mk.inj (pure_eq_ok_iff.mp hend)).2.symm⟩

/-- Nothing else stands in the way of `exec`. -/
theorem exists_exec_of_reads {ctx : Context} {executer : Name} {proposal : Proposal}
    (hproposal : (σ.proposals p)[n]? = some proposal)
    (hreads : host.Reads proposal.packedTransaction t) (hsigned : ctx.hasAuth executer)
    (htime : ctx.currentTimePoint.sec ≤ t.header.expiration) (hnone : t.contextFreeActions = [])
    (hauth : host.authorized proposal.packedTransaction (storedLevels σ p n) = true)
    (htimely : Timely ctx.currentTimePoint t.header.delaySec proposal.earliestExecTime) :
    ∃ σ', exec host ctx σ p n executer = .ok (σ', t.actions) := by
  obtain ⟨ds, ds', ds'', hheader, hfree, hactions⟩ := hreads
  refine ⟨(σ.eraseApprovals p n).eraseProposal p n, ?_⟩
  simp only [exec, bind_eq_ok_iff, Context.requireAuth_eq_ok_iff, Table.requireFind_eq_ok_iff,
    check_eq_ok_iff, exists_const]
  refine ⟨hsigned, proposal, hproposal, _, hheader, htime, _, hfree, hnone, _, hactions, ?_⟩
  rw [getApprovalsAndAdjustTable_erase]
  refine ⟨hauth, ?_⟩
  generalize proposal.earliestExecTime = o at htimely
  rcases o with _ | _ | earliest
  all_goals exact check_bind_eq_ok_iff.mpr ⟨htimely, pure_eq_ok_iff.mpr rfl⟩

/-- **What runs is what was packed.** After every run, if `propose` filed the instance now in place
with a transaction in its format, whatever bytes followed it: `exec` goes through exactly if its
executer has signed, the transaction has not expired and has no context-free actions, the levels
in force authorise it, and the stored earliest execution time has passed, or none is stored and
`delay_sec` is 0; and it sends exactly the actions of the transaction, in their order. -/
theorem proposed_is_executed {authorized : Bytes → List PermissionLevel → Bool}
    {sha256 : Bytes → Checksum256}
    (hrun : Run (step (packedHost u authorized sha256)) (fun _ _ => True) {} tr σ)
    (hfits : (transactionFormat u).Fits t)
    (hinstance : InstanceOf tr p n ((transactionFormat u).write t ++ rest) since) {ctx : Context}
    {executer : Name} {actions : List Action} :
    (∃ σ', exec (packedHost u authorized sha256) ctx σ p n executer = .ok (σ', actions)) ↔
      ctx.hasAuth executer ∧ ctx.currentTimePoint.sec ≤ t.header.expiration ∧
        t.contextFreeActions = [] ∧
        authorized ((transactionFormat u).write t ++ rest) (levelsInForce tr since p n) = true ∧
        (∃ proposal, (σ.proposals p)[n]? = some proposal ∧
          Timely ctx.currentTimePoint t.header.delaySec proposal.earliestExecTime) ∧
        actions = t.actions := by
  obtain ⟨proposal, row, hproposal, hpacked, hrow, hprovided⟩ := stored_of_instance hrun hinstance
  have hlevels := (tracks_of_run hrun).storedLevels hrow hprovided
  have hreads : (packedHost u authorized sha256).Reads proposal.packedTransaction t :=
    hpacked ▸ reads_transaction hfits
  rw [← hlevels, ← hpacked]
  constructor
  · rintro ⟨σ', hexec⟩
    obtain ⟨hsigned, htime, hnone, hauth, htimely, hsent⟩ :=
      exec_ok_of_reads hproposal hreads hexec
    exact ⟨hsigned, htime, hnone, hauth, ⟨proposal, hproposal, htimely⟩, hsent⟩
  · rintro ⟨hsigned, htime, hnone, hauth, ⟨proposal', hproposal', htimely⟩, rfl⟩
    obtain rfl := Option.some.inj (hproposal.symm.trans hproposal')
    exact exists_exec_of_reads hproposal hreads hsigned htime hnone hauth htimely

/-- A transaction with one action. -/
def onePayment : Transaction where
  header := ⟨4294967295, 1, 2, 300, 4, 0⟩
  actions := [⟨.ofString "eosio.token", .ofString "transfer",
    [⟨.ofString "alice", .ofString "active"⟩], [1, 2, 3]⟩]

/-- Alice proposes it, with further bytes behind it. -/
def proposePayment : List (Context × Call) :=
  [(.permissive (.ofString "eosio.msig"), .propose (.ofString "alice") (.ofString "pay") []
    ((transactionFormat {}).write onePayment ++ [7]))]

theorem fits_onePayment : (transactionFormat {}).Fits onePayment := by
  refine fits_transaction rfl rfl (by decide) fun a ha => ?_
  obtain rfl := List.mem_singleton.mp ha
  exact fits_action (by decide) (by decide)

theorem proposed_is_executed_onePayment :
    let host := packedHost {} (fun _ _ => true) fun _ => Vector.replicate 32 0
    ∃ σ σ' actions, Run (step host) (fun _ _ => True) {} proposePayment σ ∧
      exec host (.permissive (.ofString "eosio.msig")) σ (.ofString "alice") (.ofString "pay")
        (.ofString "bob") = .ok (σ', actions) ∧ actions = onePayment.actions := by
  intro host
  obtain ⟨σ, hσ, hrest⟩ := returns_iff.mp (show returns (proposePayment.foldlM (step host) {})
    (fun σ => returns (exec host (.permissive (.ofString "eosio.msig")) σ (.ofString "alice")
      (.ofString "pay") (.ofString "bob")) fun _ => true) = true by decide +kernel)
  obtain ⟨⟨σ', actions⟩, hexec, -⟩ := returns_iff.mp hrest
  have hrun : Run (step host) (fun _ _ => True) {} proposePayment σ :=
    Run.of_foldlM (fun _ _ _ => trivial) hσ
  have hinstance : InstanceOf proposePayment (.ofString "alice") (.ofString "pay")
      ((transactionFormat {}).write onePayment ++ [7]) [] :=
    ⟨[], _, [], rfl, fun c hc => nomatch hc⟩
  obtain ⟨-, -, -, -, -, hsent⟩ :=
    (proposed_is_executed hrun fits_onePayment hinstance).mp ⟨σ', hexec⟩
  exact ⟨σ, σ', actions, hrun, hexec, hsent⟩

end Runs

end Twig.Msig
