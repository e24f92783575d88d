import Twig.Msig.Basic

/-!
# What a multisig action does

One inversion lemma per action, and from these the one fact about a step that the history
arguments use: `step_cases` says what a successful action does to the two rows filed under a
proposer and a proposal name, in terms of the approvals that are outstanding on them.

* a `propose` of that name creates both rows, and nothing was there;
* a `cancel` or an `exec` of that name removes both rows;
* any other action keeps the packed transaction, and changes the provided approvals as
  `outstandingStep` says: an approval is added at the end, and a withdrawal takes out the oldest
  one of its level.
-/

namespace Twig.Msig

open Std Fallible

variable {host : Host} {ctx : Context} {σ σ' : State} {p n : Name}

/-! ### Look-ups -/

section Lookups

variable {p' n' : Name} {row : Proposal} {appr : Approvals}

@[simp]
theorem State.getElem?_setProposal : ((σ.setProposal p n row).proposals p')[n']? =
    if p' = p ∧ n' = n then some row else (σ.proposals p')[n']? := by
  rcases eq_or_ne p' p with rfl | hp
  · simp [setProposal]
  · simp [setProposal, hp]

@[simp]
theorem State.getElem?_eraseProposal : ((σ.eraseProposal p n).proposals p')[n']? =
    if p' = p ∧ n' = n then none else (σ.proposals p')[n']? := by
  rcases eq_or_ne p' p with rfl | hp
  · simp [eraseProposal]
  · simp [eraseProposal, hp]

@[simp]
theorem State.getElem?_setApprovals : ((σ.setApprovals p n appr).approvals p')[n']? =
    if p' = p ∧ n' = n then some appr else (σ.approvals p')[n']? := by
  rcases eq_or_ne p' p with rfl | hp
  · simp [setApprovals]
  · simp [setApprovals, hp]

@[simp]
theorem State.getElem?_eraseApprovals : ((σ.eraseApprovals p n).approvals p')[n']? =
    if p' = p ∧ n' = n then none else (σ.approvals p')[n']? := by
  rcases eq_or_ne p' p with rfl | hp
  · simp [eraseApprovals]
  · simp [eraseApprovals, hp]

@[simp]
theorem State.approvals_setProposal : (σ.setProposal p n row).approvals = σ.approvals := rfl

@[simp]
theorem State.approvals_eraseProposal : (σ.eraseProposal p n).approvals = σ.approvals := rfl

@[simp]
theorem State.proposals_setApprovals : (σ.setApprovals p n appr).proposals = σ.proposals := rfl

@[simp]
theorem State.proposals_eraseApprovals : (σ.eraseApprovals p n).proposals = σ.proposals := rfl

/-- Writing a row back changes nothing. -/
theorem State.setProposal_self (h : (σ.proposals p)[n]? = some row) :
    σ.setProposal p n row = σ := by
  have hrow : (σ.proposals p).insert n row = σ.proposals p := by
    refine ExtTreeMap.ext_getElem? ?_
    intro k
    rcases eq_or_ne k n with rfl | hk
    · simp [h]
    · simp [hk]
  rw [setProposal, hrow, Function.update_eq_self]

/-- A branch that writes no proposal is read as writing the old row back. -/
theorem State.eq_setProposal (σ' : State) (h : (σ.proposals p)[n]? = some row)
    (hsame : σ'.proposals = σ.proposals) :
    σ' = σ'.setProposal p n { row with earliestExecTime := row.earliestExecTime } :=
  (State.setProposal_self (hsame ▸ h)).symm

end Lookups

/-! ### Inversion -/

/-- What a successful `propose` has checked, and what it stores. -/
theorem propose_ok {requested : List PermissionLevel} {trx : Bytes}
    (h : propose host ctx σ p n requested trx = .ok σ') :
    (σ.proposals p)[n]? = none ∧ (σ.approvals p)[n]? = none ∧
      σ' = (σ.setProposal p n ⟨trx, some none⟩).setApprovals p n
        ⟨requested.map fun level => ⟨level, 0⟩, []⟩ := by
  simp only [propose, bind_eq_ok_iff, Context.requireAuth_eq_ok_iff, Table.emplace_eq_ok_iff,
    check_eq_ok_iff, exists_const, pure_eq_ok_iff] at h
  obtain ⟨-, header, -, -, cfa, -, -, hnew, -, proposals, ⟨-, rfl⟩, approvals, ⟨hnone, rfl⟩,
    rfl⟩ := h
  exact ⟨OrdMap.not_mem_iff.mp hnew, OrdMap.not_mem_iff.mp hnone, rfl⟩

/-- The levels in force once an approval is provided besides those of a row. -/
def levelsWith (σ : State) (row : Approvals) (approval : Approval) : List PermissionLevel :=
  ((row.providedApprovals ++ [approval]).filter (inForce σ.invalids)).map Approval.level

/-- What a successful `approve` has checked, and what it stores. The earliest execution time is
set when none is and the approvals have become sufficient. -/
theorem approve_ok {level : PermissionLevel} {hash : Option Checksum256}
    (h : approve host ctx σ p n level hash = .ok σ') :
    ctx.hasPermission level ∧ ∃ proposal row earliest,
      (σ.proposals p)[n]? = some proposal ∧ (σ.approvals p)[n]? = some row ∧
      (earliest = proposal.earliestExecTime ∨ ∃ header, proposal.earliestExecTime = some none ∧
        getTrxHeader host proposal.packedTransaction = .ok header ∧
        host.authorized proposal.packedTransaction
          (levelsWith σ row ⟨level, ctx.currentTimePoint⟩) ∧
        earliest = some (some (ctx.currentTimePoint + header.delaySec.toNat * 1000000))) ∧
      σ' = (σ.setApprovals p n
        ⟨row.requestedApprovals.eraseP fun a => a.level = level,
          row.providedApprovals ++ [⟨level, ctx.currentTimePoint⟩]⟩).setProposal p n
        { proposal with earliestExecTime := earliest } := by
  simp only [approve, bind_eq_ok_iff, Context.requirePermission_eq_ok_iff, check_eq_ok_iff,
    Table.requireFind_eq_ok_iff, exists_const] at h
  obtain ⟨hauth, proposal, hproposal, -, row, hrow, -, trxHeader, hheader, h⟩ := h
  refine ⟨hauth, proposal, row, ?_⟩
  have hkept (t : State) := State.eq_setProposal t hproposal
  rcases hearliest : proposal.earliestExecTime with _ | _ | earliest
  · simp only [hearliest, bind_eq_ok_iff, check_eq_ok_iff, exists_const, pure_eq_ok_iff] at h
    exact ⟨none, hproposal, hrow, .inl rfl, hearliest ▸ h.2 ▸ hkept _ rfl⟩
  · simp only [hearliest, getApprovalsAndAdjustTable, State.getElem?_setApprovals, and_self,
      if_true] at h
    split_ifs at h with hok
    · exact ⟨_, hproposal, hrow, .inr ⟨trxHeader, rfl, hheader, hok, rfl⟩,
        (pure_eq_ok_iff.mp h).symm⟩
    · exact ⟨some none, hproposal, hrow, .inl rfl, hearliest ▸ pure_eq_ok_iff.mp h ▸ hkept _ rfl⟩
  · simp only [hearliest, pure_eq_ok_iff] at h
    exact ⟨some (some earliest), hproposal, hrow, .inl rfl, hearliest ▸ h ▸ hkept _ rfl⟩

/-- An approval is on the list of the requested ones. -/
theorem approve_requested {level : PermissionLevel} {hash : Option Checksum256}
    (h : approve host ctx σ p n level hash = .ok σ') :
    ∃ row, (σ.approvals p)[n]? = some row ∧ ∃ a ∈ row.requestedApprovals, a.level = level := by
  simp only [approve, bind_eq_ok_iff, check_eq_ok_iff, Table.requireFind_eq_ok_iff,
    exists_const] at h
  obtain ⟨-, -, -, -, -, row, hrow, hmem, -⟩ := h
  exact ⟨row, hrow, hmem⟩

/-- What a successful `unapprove` has checked, and what it stores. -/
theorem unapprove_ok {level : PermissionLevel}
    (h : unapprove host ctx σ p n level = .ok σ') :
    ∃ proposal row earliest,
      (σ.proposals p)[n]? = some proposal ∧ (σ.approvals p)[n]? = some row ∧
      (earliest = proposal.earliestExecTime ∨ earliest = some none) ∧
      σ' = (σ.setApprovals p n
        ⟨row.requestedApprovals ++ [⟨level, ctx.currentTimePoint⟩],
          row.providedApprovals.eraseP fun a => a.level = level⟩).setProposal p n
        { proposal with earliestExecTime := earliest } := by
  simp only [unapprove, bind_eq_ok_iff, Context.requirePermission_eq_ok_iff, check_eq_ok_iff,
    Table.requireFind_eq_ok_iff, exists_const, State.proposals_setApprovals] at h
  obtain ⟨-, row, hrow, -, proposal, hproposal, h⟩ := h
  refine ⟨proposal, row, ?_⟩
  have hkept (t : State) := State.eq_setProposal t hproposal
  rcases hearliest : proposal.earliestExecTime with _ | _ | earliest
  · simp only [hearliest, bind_eq_ok_iff, check_eq_ok_iff, exists_const, pure_eq_ok_iff] at h
    obtain ⟨-, -, -, h⟩ := h
    exact ⟨none, hproposal, hrow, .inl rfl, hearliest ▸ h ▸ hkept _ rfl⟩
  · simp only [hearliest, pure_eq_ok_iff] at h
    exact ⟨some none, hproposal, hrow, .inl rfl, hearliest ▸ h ▸ hkept _ rfl⟩
  · simp only [hearliest, getApprovalsAndAdjustTable, State.getElem?_setApprovals, and_self,
      if_true] at h
    split_ifs at h with hok
    · exact ⟨some (some earliest), hproposal, hrow, .inl rfl,
        hearliest ▸ pure_eq_ok_iff.mp h ▸ hkept _ rfl⟩
    · exact ⟨some none, hproposal, hrow, .inr rfl, (pure_eq_ok_iff.mp h).symm⟩

/-- What is withdrawn has been granted. -/
theorem unapprove_provided {level : PermissionLevel}
    (h : unapprove host ctx σ p n level = .ok σ') :
    ∃ row, (σ.approvals p)[n]? = some row ∧ ∃ a ∈ row.providedApprovals, a.level = level := by
  simp only [unapprove, bind_eq_ok_iff, check_eq_ok_iff, Table.requireFind_eq_ok_iff,
    exists_const] at h
  obtain ⟨-, -, row, hrow, hmem, -⟩ := h
  exact ⟨row, hrow, hmem⟩

/-- What a successful `cancel` removes. -/
theorem cancel_ok {canceler : Name} (h : cancel host ctx σ p n canceler = .ok σ') :
    σ' = (σ.eraseProposal p n).eraseApprovals p n := by
  simp only [cancel, bind_eq_ok_iff, Context.requireAuth_eq_ok_iff, exists_const] at h
  obtain ⟨-, proposal, -, h⟩ := h
  split_ifs at h
  · simp only [bind_eq_ok_iff, check_eq_ok_iff, exists_const, pure_eq_ok_iff] at h
    obtain ⟨-, -, -, -, rfl⟩ := h
    rfl
  · simp only [bind_eq_ok_iff, check_eq_ok_iff, exists_const, pure_eq_ok_iff] at h
    obtain ⟨-, rfl⟩ := h
    rfl

/-- The levels that the stored approvals put in force. -/
def storedLevels (σ : State) (p n : Name) : List PermissionLevel :=
  (getApprovalsAndAdjustTable σ p n id).1

theorem storedLevels_of_some {row : Approvals} (h : (σ.approvals p)[n]? = some row) :
    storedLevels σ p n =
      (row.providedApprovals.filter (inForce σ.invalids)).map Approval.level := by
  rw [storedLevels, getApprovalsAndAdjustTable, h]

/-- The levels of a row that is stored together with its proposal. -/
theorem storedLevels_set {proposal : Proposal} {row : Approvals} :
    storedLevels ((σ.setApprovals p n row).setProposal p n proposal) p n =
      (row.providedApprovals.filter (inForce σ.invalids)).map Approval.level :=
  storedLevels_of_some (State.getElem?_setApprovals.trans (if_pos ⟨rfl, rfl⟩))

/-- `exec` reads the levels and removes the approvals, whether or not there are any. -/
theorem getApprovalsAndAdjustTable_erase :
    getApprovalsAndAdjustTable σ p n (fun σ => σ.eraseApprovals p n) =
      (storedLevels σ p n, σ.eraseApprovals p n) := by
  rw [storedLevels, getApprovalsAndAdjustTable, getApprovalsAndAdjustTable]
  cases hrow : (σ.approvals p)[n]? with
  | some row => rfl
  | none => rw [State.eraseApprovals, OrdMap.erase_of_not_mem hrow, Function.update_eq_self]

/-- What a successful `exec` has checked, what it sends and what it removes. -/
theorem exec_ok {executer : Name} {actions : List Action}
    (h : exec host ctx σ p n executer = .ok (σ', actions)) :
    ∃ proposal header ds ds' ds'', (σ.proposals p)[n]? = some proposal ∧
      host.readHeader proposal.packedTransaction = .ok (header, ds) ∧
      ctx.currentTimePoint.sec ≤ header.expiration ∧
      host.readActions ds = .ok ([], ds') ∧ host.readActions ds' = .ok (actions, ds'') ∧
      host.authorized proposal.packedTransaction (storedLevels σ p n) = true ∧
      (header.delaySec = 0 ∨ ∃ earliest, proposal.earliestExecTime = some (some earliest) ∧
        earliest ≤ ctx.currentTimePoint) ∧
      σ' = (σ.eraseApprovals p n).eraseProposal p n := by
  simp only [exec, bind_eq_ok_iff, Context.requireAuth_eq_ok_iff, Table.requireFind_eq_ok_iff,
    check_eq_ok_iff, exists_const] at h
  obtain ⟨-, proposal, hproposal, ⟨header, ds⟩, hheader, htime, ⟨cfa, ds'⟩, hcfa, rfl,
    ⟨acts, ds''⟩, hacts, hauth, h⟩ := h
  rw [getApprovalsAndAdjustTable_erase] at hauth h
  have hend : (header.delaySec = 0 ∨ ∃ earliest, proposal.earliestExecTime = some (some earliest) ∧
      earliest ≤ ctx.currentTimePoint) ∧
        ((σ.eraseApprovals p n).eraseProposal p n, acts) = (σ', actions) := by
    rcases hearliest : proposal.earliestExecTime with _ | _ | earliest
    all_goals
      simp only [hearliest, bind_eq_ok_iff, check_eq_ok_iff, exists_const, pure_eq_ok_iff] at h
    · exact ⟨.inl h.1, h.2⟩
    · exact ⟨.inl h.1, h.2⟩
    · exact ⟨.inr ⟨earliest, rfl, h.1⟩, h.2⟩
  obtain ⟨htimely, hend⟩ := hend
  obtain ⟨rfl, rfl⟩ := Prod.mk.inj hend
  exact ⟨proposal, header, ds, ds', ds'', hproposal, hheader, htime, hcfa, hacts, hauth, htimely,
    rfl⟩

/-- What a successful `exec` removes. -/
theorem step_exec_ok {executer : Name} (h : step host σ (ctx, .exec p n executer) = .ok σ') :
    σ' = (σ.eraseApprovals p n).eraseProposal p n := by
  rw [step, bind_eq_ok_iff] at h
  obtain ⟨⟨σ₁, actions⟩, hexec, hσ'⟩ := h
  obtain rfl := pure_eq_ok_iff.mp hσ'
  obtain ⟨-, -, -, -, -, -, -, -, -, -, -, -, hremoved⟩ := exec_ok hexec
  exact hremoved

/-- What a successful `invalidate` stores. -/
theorem invalidate_ok {account : Name} (h : invalidate ctx σ account = .ok σ') :
    σ' = { σ with invalids := σ.invalids.insert account ctx.currentTimePoint } := by
  simp only [invalidate, bind_eq_ok_iff, pure_eq_ok_iff] at h
  obtain ⟨-, -, hstored⟩ := h
  exact hstored.symm

/-! ### The effect of a step on one proposal -/

/-- The call creates or removes the proposal that `p` filed as `n`. -/
def Call.turnsOver (p n : Name) : Call → Bool
  | .propose p' n' _ _ | .cancel p' n' _ | .exec p' n' _ => p = p' ∧ n = n'
  | _ => false

/-- The outstanding approvals of a proposal after one more call: an approval is added at the
end, a withdrawal takes out the oldest one of its level. -/
def outstandingStep (p n : Name) (l : List Approval) (c : Context × Call) : List Approval :=
  match c.2 with
  | .approve p' n' level _ =>
    if p = p' ∧ n = n' then l ++ [⟨level, c.1.currentTimePoint⟩] else l
  | .unapprove p' n' level =>
    if p = p' ∧ n = n' then l.eraseP fun a => a.level = level else l
  | _ => l

/-- **What a step does to the rows of one proposal.** -/
theorem step_cases {c : Context × Call} (h : step host σ c = .ok σ') (p n : Name) :
    (∃ requested trx, c.2 = .propose p n requested trx ∧
      (σ'.proposals p)[n]? = some ⟨trx, some none⟩ ∧
      ∃ row, (σ'.approvals p)[n]? = some row ∧ row.providedApprovals = []) ∨
    ((∃ e, c.2 = .cancel p n e ∨ c.2 = .exec p n e) ∧
      (σ'.proposals p)[n]? = none ∧ (σ'.approvals p)[n]? = none) ∨
    (c.2.turnsOver p n = false ∧
      ((σ'.proposals p)[n]?).map Proposal.packedTransaction =
        ((σ.proposals p)[n]?).map Proposal.packedTransaction ∧
      ((σ'.approvals p)[n]?).map Approvals.providedApprovals =
        ((σ.approvals p)[n]?).map fun row => outstandingStep p n row.providedApprovals c) := by
  obtain ⟨ctx, call⟩ := c
  cases call with
  | propose p' n' requested trx =>
    obtain ⟨-, -, rfl⟩ := propose_ok h
    by_cases hk : p = p' ∧ n = n'
    · obtain ⟨rfl, rfl⟩ := hk
      exact .inl ⟨requested, trx, rfl, by simp, ⟨requested.map fun level => ⟨level, 0⟩, []⟩,
        by simp, rfl⟩
    · exact .inr (.inr ⟨by simp [Call.turnsOver, hk], by simp [hk],
        by simp [hk, outstandingStep]⟩)
  | approve p' n' level hash =>
    obtain ⟨-, proposal, row, earliest, hproposal, hrow, -, rfl⟩ := approve_ok h
    refine .inr (.inr ⟨rfl, ?_⟩)
    by_cases hk : p = p' ∧ n = n'
    · obtain ⟨rfl, rfl⟩ := hk
      exact ⟨by simp [hproposal], by simp [hrow, outstandingStep]⟩
    · exact ⟨by simp [hk], by simp [hk, outstandingStep]⟩
  | unapprove p' n' level =>
    obtain ⟨proposal, row, earliest, hproposal, hrow, -, rfl⟩ := unapprove_ok h
    refine .inr (.inr ⟨rfl, ?_⟩)
    by_cases hk : p = p' ∧ n = n'
    · obtain ⟨rfl, rfl⟩ := hk
      exact ⟨by simp [hproposal], by simp [hrow, outstandingStep]⟩
    · exact ⟨by simp [hk], by simp [hk, outstandingStep]⟩
  | cancel p' n' canceler =>
    obtain rfl := cancel_ok h
    by_cases hk : p = p' ∧ n = n'
    · obtain ⟨rfl, rfl⟩ := hk
      exact .inr (.inl ⟨⟨canceler, .inl rfl⟩, by simp, by simp⟩)
    · exact .inr (.inr ⟨by simp [Call.turnsOver, hk], by simp [hk],
        by simp [hk, outstandingStep]⟩)
  | exec p' n' executer =>
    obtain rfl := step_exec_ok h
    by_cases hk : p = p' ∧ n = n'
    · obtain ⟨rfl, rfl⟩ := hk
      exact .inr (.inl ⟨⟨executer, .inr rfl⟩, by simp, by simp⟩)
    · exact .inr (.inr ⟨by simp [Call.turnsOver, hk], by simp [hk],
        by simp [hk, outstandingStep]⟩)
  | invalidate account =>
    obtain rfl := invalidate_ok h
    exact .inr (.inr ⟨rfl, rfl, by simp [outstandingStep]⟩)

/-- Only `invalidate` writes the invalidation times. -/
theorem step_invalids {c : Context × Call} (h : step host σ c = .ok σ') (actor : Name) :
    σ'.invalids[actor]? =
      if c.2 = .invalidate actor then some c.1.currentTimePoint else σ.invalids[actor]? := by
  obtain ⟨ctx, call⟩ := c
  cases call with
  | propose p' n' requested trx =>
    obtain ⟨-, -, rfl⟩ := propose_ok h
    rfl
  | approve p' n' level hash =>
    obtain ⟨-, -, -, -, -, -, -, rfl⟩ := approve_ok h
    rfl
  | unapprove p' n' level =>
    obtain ⟨-, -, -, -, -, -, rfl⟩ := unapprove_ok h
    rfl
  | cancel p' n' canceler =>
    obtain rfl := cancel_ok h
    rfl
  | exec p' n' executer =>
    obtain rfl := step_exec_ok h
    rfl
  | invalidate account =>
    obtain rfl := invalidate_ok h
    rcases eq_or_ne actor account with rfl | ha
    · simp
    · simp [ha, ha.symm]

end Twig.Msig
