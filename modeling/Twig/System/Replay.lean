import Twig.System.Voteless
import Twig.System.NewAccount
import Twig.System.AuthChange
import Twig.Lib.Component

/-!
# Tables that replay their own actions

Over runs of all actions of the system contract, some of its tables are the replay of the few
actions that maintain them, whatever else happens in between: `rngcalls` of `setrngcall`,
`rmvrngcall` and `modrngcall`; the records of the contracts of `setabi`, `setcode` and
`setcodeinfo`; the limits on authorities and the whitelist.

* `rngcalls_of_apply`, `infoOf_of_apply` — what one action writes;
* `random_calls_replayed` — whom a block sends a random value, after any history;
* `records_replayed` — the records, the limits and the whitelist.
-/

namespace Twig.System

open Std Fallible

variable {hashes : Hashes} {host : Host} {ctx : Context} {c c' : Contract} {call : Call}
  {effects : List Effect}

/-! ### Random calls -/

/-- What a call leaves in the row of its index. A row that is set anew is not active. -/
def writeRng (row : Option RngCall) : Call → Option RngCall
  | .setrngcall _ contract action => some { contract, action }
  | .rmvrngcall _ => none
  | .modrngcall _ active => row.map fun row => { row with active }
  | _ => row

/-- The row of an index after a history: what the calls for it have written. -/
def rngHistory (tr : List (Context × Call)) (index : UInt64) : Option RngCall :=
  (tr.filter fun e => e.2.rngIndex = some index).foldl (fun row e => writeRng row e.2) none

theorem rngcalls_of_apply (hok : c.apply hashes host ctx call = .ok (c', effects))
    (index : UInt64) : c'.state.rngcalls[index]? =
      if call.rngIndex = some index then writeRng c.state.rngcalls[index]? call
      else c.state.rngcalls[index]? := by
  cases applied_of_apply hok with
  | @setrngcall i contract action _ =>
    simp only [OrdMap.getElem?_insert, Call.rngIndex, Option.some.injEq, writeRng,
      eq_comm (a := i)]
  | @rmvrngcall i _ =>
    simp only [OrdMap.getElem?_erase, Call.rngIndex, Option.some.injEq, writeRng,
      eq_comm (a := i)]
  | modrngcall _ hrows => simp only [hrows, Call.rngIndex, Option.some.injEq, writeRng]
  | onblock _ hres =>
    obtain ⟨global, aluckynumber, blockinfo, lastpropfins, hstate⟩ := onblock_shape hres
    simp only [hstate, Call.rngIndex, reduceCtorEq, if_false]
  | _ => rfl

/-- Whom a random value is sent, and for which action. -/
def Inline.rngTarget : Inline → Option (Name × Name)
  | .rngcall contract action _ => some (contract, action)
  | _ => none

/-- The contract and the action of a row. -/
def RngCall.target (row : RngCall) : Name × Name := (row.contract, row.action)

/-- The loop goes over the rows in the order of their indices, and sends to the active ones. -/
theorem targets_processRngCalls {rngcalls : Table UInt64 RngCall} {a : ALuckyNumber}
    {rp : RandomnessProvider} :
    (processRngCalls hashes rngcalls a rp).2.filterMap Inline.rngTarget =
      (rngcalls.toList.filter fun e => e.2.active ≠ 0).map fun e => e.2.target := by
  have hloop (l : List (UInt64 × RngCall)) :
      ∀ acc : RandomnessProvider × List Inline,
        (l.foldl (fun (acc : RandomnessProvider × List Inline) (e : UInt64 × RngCall) =>
          if e.2.active ≠ 0 then
            ((acc.1.getBlend hashes a.seed e.2.contract.value).2, acc.2 ++
              [.rngcall e.2.contract e.2.action
                (acc.1.getBlend hashes a.seed e.2.contract.value).1])
          else acc) acc).2.filterMap Inline.rngTarget =
        acc.2.filterMap Inline.rngTarget ++
          (l.filter fun e => e.2.active ≠ 0).map fun e => e.2.target := by
    induction l with
    | nil => simp
    | cons e l ih =>
      intro acc
      rw [List.foldl_cons, ih]
      by_cases hactive : e.2.active = 0
      · simp [hactive]
      · simp [hactive, Inline.rngTarget, RngCall.target]
  exact hloop rngcalls.toList (rp, [])

/-- A milestone is no random call. -/
theorem targets_onblockLuck {rngcalls : Table UInt64 RngCall} {a : ALuckyNumber}
    {header : BlockHeader} :
    (onblockLuck hashes rngcalls a header).2.filterMap Inline.rngTarget =
      (rngcalls.toList.filter fun e => e.2.active ≠ 0).map fun e => e.2.target := by
  have hluck (producer : Name) (a : ALuckyNumber) (rp : RandomnessProvider) :
      (onALuckyBlock producer a rp).2.2.filterMap Inline.rngTarget = [] := by
    simp only [onALuckyBlock, luckyHit]
    split_ifs <;> rfl
  simp only [onblockLuck, List.filterMap_append, hluck, List.nil_append]
  exact targets_processRngCalls

variable {w : Life} {tr : List (Context × Call)}

/-- **Random calls.** After every history of the contract, the row of an index is what the calls
for that index have written, one after the other; and the next block sends a random value to the
indices whose row is active, once each, in increasing order. -/
theorem random_calls_replayed (hrun : Run (Life.step hashes host) (fun _ _ => True) {} tr w) :
    (∀ index, w.contract.state.rngcalls[index]? = rngHistory tr index) ∧
      ∀ ctx header res, onblock hashes host ctx w.contract.state header = .ok res →
        ∃ indices : List UInt64, indices.Pairwise (· < ·) ∧
          (∀ index, index ∈ indices ↔ ∃ row ∈ rngHistory tr index, row.active ≠ 0) ∧
          res.sends.filterMap Inline.rngTarget =
            indices.filterMap fun index => (rngHistory tr index).map RngCall.target := by
  have hrows (index : UInt64) : w.contract.state.rngcalls[index]? = rngHistory tr index := by
    have hother (s : Life) (e : Context × Call) (s' : Life) (he : ¬ e.2.rngIndex = some index)
        (hs : s.step hashes host e = .ok s') :
        s'.contract.state.rngcalls[index]? = s.contract.state.rngcalls[index]? := by
      obtain ⟨effects, happly, -⟩ := Life.step_ok hs
      exact (rngcalls_of_apply happly index).trans (if_neg he)
    have hown (s : Life) (e : Context × Call) (s' : Life) (he : e.2.rngIndex = some index)
        (hs : s.step hashes host e = .ok s') :
        s'.contract.state.rngcalls[index]? = writeRng s.contract.state.rngcalls[index]? e.2 := by
      obtain ⟨effects, happly, -⟩ := Life.step_ok hs
      exact (rngcalls_of_apply happly index).trans (if_pos he)
    have hreplay := Component.view_eq_foldl (fun row e => writeRng row e.2) hother hown hrun
    simpa [rngHistory] using hreplay
  refine ⟨hrows, ?_⟩
  intro ctx header res hok
  obtain ⟨global, a, blockinfo, r, -, -, -, rfl⟩ := onblock_ok hok
  let active := w.contract.state.rngcalls.toList.filter fun e => e.2.active ≠ 0
  have hactive (e : UInt64 × RngCall) :
      e ∈ active ↔ rngHistory tr e.1 = some e.2 ∧ e.2.active ≠ 0 := by
    rw [List.mem_filter, OrdMap.mem_toList, hrows, decide_eq_true_eq]
  refine ⟨active.map Prod.fst, ?_, ?_, ?_⟩
  · exact List.pairwise_map.mpr ((OrdMap.pairwise_lt_toList _).filter _)
  · intro index
    rw [List.mem_map]
    constructor
    · rintro ⟨e, he, rfl⟩
      exact ⟨e.2, (hactive e).mp he⟩
    · rintro ⟨row, hrow⟩
      exact ⟨(index, row), (hactive (index, row)).mpr hrow, rfl⟩
  · rw [targets_onblockLuck, List.filterMap_map, ← List.filterMap_eq_map]
    refine List.filterMap_congr fun e he => ?_
    show some e.2.target = (rngHistory tr e.1).map RngCall.target
    rw [((hactive e).mp he).1]
    rfl

/-- A contract asks for randomness under two indices, one of which is switched on. -/
def diceAndCards : List (Context × Call) :=
  [(systemContext, .setrngcall 7 (.ofString "dice") (.ofString "roll")),
    (systemContext, .setrngcall 3 (.ofString "cards") (.ofString "deal")),
    (systemContext, .modrngcall 7 1)]

theorem random_calls_replayed_diceAndCards :
    ∃ w, Run (Life.step zeroHashes plainHost) (fun _ _ => True) {} diceAndCards w ∧
      w.contract.state.rngcalls[(7 : UInt64)]? =
        some ⟨.ofString "dice", .ofString "roll", 1⟩ := by
  obtain ⟨w, hw, -⟩ := returns_iff.mp (show returns
    (diceAndCards.foldlM (Life.step zeroHashes plainHost) {}) (fun _ => true) = true
    by decide +kernel)
  have hrun : Run (Life.step zeroHashes plainHost) (fun _ _ => True) {} diceAndCards w :=
    Run.of_foldlM (fun _ _ _ => trivial) hw
  have hhistory : rngHistory diceAndCards 7 = some ⟨.ofString "dice", .ofString "roll", 1⟩ := by
    simp [rngHistory, diceAndCards, Call.rngIndex, writeRng]
  exact ⟨w, hrun, ((random_calls_replayed hrun).1 7).trans hhistory⟩

/-! ### Records of contracts -/

/-- What a call records. -/
def abiWritten (host : Host) (e : Context × Call) : Temporal256 :=
  match e.2 with
  | .setabi _ abi _ => { time := e.1.currentTimePoint, hash := host.sha256 abi }
  | _ => {}

def codeWritten (host : Host) (e : Context × Call) : Temporal256 :=
  match e.2 with
  | .setcode _ _ _ code _ => { time := e.1.currentTimePoint, hash := host.sha256 code }
  | _ => {}

def infoWritten (e : Context × Call) : ContractMeta × BrandingMeta :=
  match e.2 with
  | .setcodeinfo _ contract branding => (contract, branding)
  | _ => ({}, {})

/-- The description of a contract. -/
def ContractInfo.described (row : ContractInfo) : ContractMeta × BrandingMeta :=
  (row.contract, row.branding)

/-- The field of a record that has been written last, blank when it never was. -/
def lastWritten {β : Type} (sets : Call → Option Name) (written : Context × Call → β) (blank : β)
    (tr : List (Context × Call)) (account : Name) : β :=
  (Run.lastOf (fun e => sets e.2) (some account) tr).elim blank written

/-- **What an action records.** -/
theorem infoOf_of_apply (hok : c.apply hashes host ctx call = .ok (c', effects))
    (account : Name) :
    (infoOf c'.contractinfo account).abi =
        (if call.setsAbi = some account then abiWritten host (ctx, call)
        else (infoOf c.contractinfo account).abi) ∧
      (infoOf c'.contractinfo account).code =
        (if call.setsCode = some account then codeWritten host (ctx, call)
        else (infoOf c.contractinfo account).code) ∧
      (infoOf c'.contractinfo account).described =
        if call.setsInfo = some account then infoWritten (ctx, call)
        else (infoOf c.contractinfo account).described := by
  cases applied_of_apply hok with
  | setabi =>
    simp only [infoOf_insert, Call.setsAbi, Call.setsCode, Call.setsInfo, Option.some.injEq,
      reduceCtorEq, if_false, abiWritten]
    split_ifs with haccount
    · simp only [ContractInfo.described, haccount, and_self]
    · simp only [and_self]
  | setcode =>
    simp only [infoOf_insert, Call.setsAbi, Call.setsCode, Call.setsInfo, Option.some.injEq,
      reduceCtorEq, if_false, codeWritten]
    split_ifs with haccount
    · simp only [ContractInfo.described, haccount, and_self]
    · simp only [and_self]
  | setcodeinfo =>
    simp only [infoOf_insert, Call.setsAbi, Call.setsCode, Call.setsInfo, Option.some.injEq,
      reduceCtorEq, if_false, infoWritten]
    split_ifs with haccount
    · simp only [ContractInfo.described, haccount, and_self]
    · simp only [and_self]
  | _ => exact ⟨rfl, rfl, rfl⟩

/-- Where an action writes a field for the account that it sets, the field is what has been
written last. -/
theorem lastWritten_of_run {β : Type} {sets : Call → Option Name} {written : Context × Call → β}
    (field : ContractInfo → β) {blank : β} {w₀ : Life} {account : Name}
    (hfield : ∀ (s : Life) e (s' : Life), s.step hashes host e = .ok s' →
      field (infoOf s'.contract.contractinfo account) =
        if sets e.2 = some account then written e
        else field (infoOf s.contract.contractinfo account))
    (hblank : field (infoOf w₀.contract.contractinfo account) = blank)
    (hrun : Run (Life.step hashes host) (fun _ _ => True) w₀ tr w) :
    field (infoOf w.contract.contractinfo account) =
      lastWritten sets written blank tr account := by
  refine hrun.invariant (I := fun tr w => field (infoOf w.contract.contractinfo account) =
    lastWritten sets written blank tr account) hblank ?_
  intro tr s e s' _ hI _ hs
  rw [hfield s e s' hs, hI, lastWritten, lastWritten, Run.lastOf_snoc]
  split_ifs <;> rfl

/-! ### The parts of the contract -/

/-- A call of `limitauthchg`, as an event of the table of limits. -/
def limitCall : Context × Call → Option LimitCall
  | (ctx, .limitauthchg account allowPerms disallowPerms) =>
    some ⟨ctx, account, allowPerms, disallowPerms⟩
  | _ => none

/-- A call of `setwhitelist`, as an event of the whitelist. -/
def whitelistCall : Context × Call → Option WhitelistCall
  | (ctx, .setwhitelist account depth) => some ⟨ctx, account, depth⟩
  | _ => none

theorem limitauthchg_of_apply (hok : c.apply hashes host ctx call = .ok (c', effects)) :
    match limitCall (ctx, call) with
    | some e => e.step c.limitauthchg = .ok c'.limitauthchg
    | none => c'.limitauthchg = c.limitauthchg := by
  cases applied_of_apply hok with
  | limitauthchg hlimit => exact hlimit
  | _ => rfl

theorem whitelist_of_apply (hok : c.apply hashes host ctx call = .ok (c', effects)) :
    match whitelistCall (ctx, call) with
    | some e => e.step c.whitelist = .ok c'.whitelist
    | none => c'.whitelist = c.whitelist := by
  cases applied_of_apply hok with
  | setwhitelist _ hset => exact hset
  | _ => rfl

/-- **Records.** After every history of the contract: the record of an account shows the `abi`,
the code and the description that have been recorded for it last, whatever its other calls; and
the table of limits and the whitelist are those that the calls of `limitauthchg` and of
`setwhitelist` lead to by themselves. -/
theorem records_replayed (hrun : Run (Life.step hashes host) (fun _ _ => True) {} tr w) :
    (∀ account,
      (infoOf w.contract.contractinfo account).abi =
          lastWritten Call.setsAbi (abiWritten host) {} tr account ∧
        (infoOf w.contract.contractinfo account).code =
          lastWritten Call.setsCode (codeWritten host) {} tr account ∧
        (infoOf w.contract.contractinfo account).described =
          lastWritten Call.setsInfo infoWritten ({}, {}) tr account) ∧
      Run LimitCall.step (fun _ _ => True) ∅ (tr.filterMap limitCall) w.contract.limitauthchg ∧
      Run WhitelistCall.step (fun _ _ => True) ∅ (tr.filterMap whitelistCall)
        w.contract.whitelist := by
  have hblank (account : Name) : infoOf ({} : Life).contract.contractinfo account = {} := by
    simp [infoOf]
  refine ⟨fun account => ⟨?_, ?_, ?_⟩, ?_, ?_⟩
  · refine lastWritten_of_run ContractInfo.abi (fun s e s' hs => ?_)
      (by rw [hblank]) hrun
    obtain ⟨effects, happly, -⟩ := Life.step_ok hs
    exact (infoOf_of_apply happly account).1
  · refine lastWritten_of_run ContractInfo.code (fun s e s' hs => ?_)
      (by rw [hblank]) hrun
    obtain ⟨effects, happly, -⟩ := Life.step_ok hs
    exact (infoOf_of_apply happly account).2.1
  · refine lastWritten_of_run ContractInfo.described (fun s e s' hs => ?_)
      (by rw [hblank]; rfl) hrun
    obtain ⟨effects, happly, -⟩ := Life.step_ok hs
    exact (infoOf_of_apply happly account).2.2
  · refine hrun.project (fun w : Life => w.contract.limitauthchg) limitCall ?_ ?_
    · intro s e s' hnone _ hs
      obtain ⟨effects, happly, -⟩ := Life.step_ok hs
      simpa [hnone] using limitauthchg_of_apply happly
    · intro s e s' b hsome _ hs
      obtain ⟨effects, happly, -⟩ := Life.step_ok hs
      exact ⟨trivial, by simpa [hsome] using limitauthchg_of_apply happly⟩
  · refine hrun.project (fun w : Life => w.contract.whitelist) whitelistCall ?_ ?_
    · intro s e s' hnone _ hs
      obtain ⟨effects, happly, -⟩ := Life.step_ok hs
      simpa [hnone] using whitelist_of_apply happly
    · intro s e s' b hsome _ hs
      obtain ⟨effects, happly, -⟩ := Life.step_ok hs
      exact ⟨trivial, by simpa [hsome] using whitelist_of_apply happly⟩

/-- Two versions of a contract. -/
def twoVersions : List (Context × Call) :=
  [(systemContext, .setabi (.ofString "dice") [1] none),
    (systemContext, .setabi (.ofString "dice") [1, 2] none)]

/-- The record shows the later version. -/
theorem records_replayed_twoVersions :
    ∃ w, Run (Life.step zeroHashes lengthHost) (fun _ _ => True) {} twoVersions w ∧
      (infoOf w.contract.contractinfo (.ofString "dice")).abi =
        abiWritten lengthHost (systemContext, .setabi (.ofString "dice") [1, 2] none) := by
  obtain ⟨w, hw, -⟩ := returns_iff.mp (show returns
    (twoVersions.foldlM (Life.step zeroHashes lengthHost) {}) (fun _ => true) = true
    by decide +kernel)
  have hrun : Run (Life.step zeroHashes lengthHost) (fun _ _ => True) {} twoVersions w :=
    Run.of_foldlM (fun _ _ _ => trivial) hw
  have hlast : lastWritten Call.setsAbi (abiWritten lengthHost) {} twoVersions
      (.ofString "dice") =
        abiWritten lengthHost (systemContext, .setabi (.ofString "dice") [1, 2] none) := by
    simp [lastWritten, Run.lastOf, twoVersions, Call.setsAbi]
  exact ⟨w, hrun, ((records_replayed hrun).1 (.ofString "dice")).1.trans hlast⟩

end Twig.System
