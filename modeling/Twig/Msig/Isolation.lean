import Twig.Lib.Component
import Twig.Msig.Safety

/-!
# Proposals do not meet

An action on a proposal reads and writes its two rows, and reads the invalidation times, which
only `invalidate` writes. The rows of a proposal and the times are therefore a component of the
contract (`component_about`): what happens to other proposals is of no effect on it, neither on
what is stored nor on what succeeds.

* `proposal_isolated` — a run may be cut down to the calls on one proposal and the
  invalidations;
* `proposals_commute` — calls on different proposals may be exchanged.
-/

namespace Twig.Msig

open Std Fallible

variable {host : Host} {ctx : Context} {σ τ σ' : State} {p n : Name}

/-! ### The component of a proposal -/

/-- What the actions on a proposal read: its rows, and the invalidation times. -/
def State.about (k : Name × Name) (σ : State) :
    Option Proposal × Option Approvals × Table Name TimePoint :=
  ((σ.proposals k.1)[k.2]?, (σ.approvals k.1)[k.2]?, σ.invalids)

/-- The proposer and the name that a call is about; an invalidation is about no proposal. -/
def Call.target : Call → Option (Name × Name)
  | .propose p n _ _ | .approve p n _ _ | .unapprove p n _ | .cancel p n _ | .exec p n _ =>
    some (p, n)
  | .invalidate _ => none

/-- The call is on the proposal, or an invalidation. -/
def Concerns (k : Name × Name) (c : Context × Call) : Prop :=
  ∀ k' ∈ c.2.target, k' = k

instance (k : Name × Name) : DecidablePred (Concerns k) :=
  fun c => inferInstanceAs (Decidable (∀ k' ∈ c.2.target, k' = k))

theorem about_eq : σ.about (p, n) = ((σ.proposals p)[n]?, (σ.approvals p)[n]?, σ.invalids) := rfl

theorem about_eq_iff {k : Name × Name} : σ.about k = τ.about k ↔
    (σ.proposals k.1)[k.2]? = (τ.proposals k.1)[k.2]? ∧
      (σ.approvals k.1)[k.2]? = (τ.approvals k.1)[k.2]? ∧ σ.invalids = τ.invalids := by
  rw [State.about, State.about, Prod.mk.injEq, Prod.mk.injEq]

/-- A state is what it says about each proposal. -/
theorem State.ext_about (h : ∀ k, σ.about k = τ.about k) : σ = τ := by
  have hproposals : σ.proposals = τ.proposals := by
    funext p
    exact ExtTreeMap.ext_getElem? fun n => (about_eq_iff.mp (h (p, n))).1
  have happrovals : σ.approvals = τ.approvals := by
    funext p
    exact ExtTreeMap.ext_getElem? fun n => (about_eq_iff.mp (h (p, n))).2.1
  have hinvalids : σ.invalids = τ.invalids := (about_eq_iff.mp (h (⟨0⟩, ⟨0⟩))).2.2
  cases σ
  cases τ
  rw [State.mk.injEq]
  exact ⟨hproposals, happrovals, hinvalids⟩

/-! ### Stores -/

section Stores

variable {k : Name × Name} {proposal : Proposal} {row : Approvals}

theorem about_setApprovals : (σ.setApprovals p n row).about k =
    if k = (p, n) then ((σ.proposals p)[n]?, some row, σ.invalids) else σ.about k := by
  split_ifs with hk
  · rw [hk, about_eq]
    simp [State.setApprovals]
  · have hpair : ¬ (k.1 = p ∧ k.2 = n) := fun h => hk (Prod.ext h.1 h.2)
    rw [about_eq_iff, State.getElem?_setApprovals, if_neg hpair]
    exact ⟨rfl, rfl, rfl⟩

theorem about_setProposal : (σ.setProposal p n proposal).about k =
    if k = (p, n) then (some proposal, (σ.approvals p)[n]?, σ.invalids) else σ.about k := by
  split_ifs with hk
  · rw [hk, about_eq]
    simp [State.setProposal]
  · have hpair : ¬ (k.1 = p ∧ k.2 = n) := fun h => hk (Prod.ext h.1 h.2)
    rw [about_eq_iff, State.getElem?_setProposal, if_neg hpair]
    exact ⟨rfl, rfl, rfl⟩

theorem about_remove : ((σ.eraseApprovals p n).eraseProposal p n).about k =
    if k = (p, n) then (none, none, σ.invalids) else σ.about k := by
  split_ifs with hk
  · rw [hk, about_eq]
    simp [State.eraseApprovals, State.eraseProposal]
  · have hpair : ¬ (k.1 = p ∧ k.2 = n) := fun h => hk (Prod.ext h.1 h.2)
    rw [about_eq_iff, State.getElem?_eraseProposal, State.approvals_eraseProposal,
      State.getElem?_eraseApprovals, if_neg hpair, if_neg hpair]
    exact ⟨rfl, rfl, rfl⟩

end Stores

/-! ### What an action leaves alone -/

/-- A call that does not concern a proposal leaves alone what is said about it. -/
theorem about_frame {k : Name × Name} {c : Context × Call} (hc : ¬ Concerns k c)
    (h : step host σ c = .ok σ') : σ'.about k = σ.about k := by
  obtain ⟨ctx, call⟩ := c
  have hk (p n : Name) (htarget : call.target = some (p, n)) : k ≠ (p, n) := by
    rintro rfl
    exact hc (by simp [Concerns, htarget])
  cases call with
  | propose p n requested trx =>
    obtain ⟨-, -, rfl⟩ := propose_ok h
    rw [about_setApprovals, if_neg (hk p n rfl), about_setProposal, if_neg (hk p n rfl)]
  | approve p n level hash =>
    obtain ⟨-, -, -, -, -, -, -, rfl⟩ := approve_ok h
    rw [about_setProposal, if_neg (hk p n rfl), about_setApprovals, if_neg (hk p n rfl)]
  | unapprove p n level =>
    obtain ⟨-, -, -, -, -, -, rfl⟩ := unapprove_ok h
    rw [about_setProposal, if_neg (hk p n rfl), about_setApprovals, if_neg (hk p n rfl)]
  | cancel p n canceler =>
    obtain rfl := cancel_ok h
    exact about_remove.trans (if_neg (hk p n rfl))
  | exec p n executer =>
    obtain rfl := step_exec_ok h
    exact about_remove.trans (if_neg (hk p n rfl))
  | invalidate account => exact absurd (by simp [Concerns, Call.target]) hc

/-! ### What an action depends on -/

/-- The states say the same about the proposal. -/
def SameAbout (k : Name × Name) (σ τ : State) : Prop := σ.about k = τ.about k

/-- Without a table operation only the levels are read. -/
theorem getApprovalsAndAdjustTable_id :
    getApprovalsAndAdjustTable σ p n id = (storedLevels σ p n, σ) := by
  rw [storedLevels, getApprovalsAndAdjustTable]
  cases (σ.approvals p)[n]? <;> rfl

section Congr

variable (hsame : SameAbout (p, n) σ τ)

include hsame

theorem storedLevels_congr : storedLevels σ p n = storedLevels τ p n := by
  obtain ⟨-, happrovals, hinvalids⟩ := about_eq_iff.mp hsame
  rw [storedLevels, storedLevels, getApprovalsAndAdjustTable, getApprovalsAndAdjustTable,
    happrovals, hinvalids]
  cases (τ.approvals p)[n]? <;> rfl

theorem sameAbout_setApprovals (row : Approvals) :
    SameAbout (p, n) (σ.setApprovals p n row) (τ.setApprovals p n row) := by
  obtain ⟨hproposal, -, hinvalids⟩ := about_eq_iff.mp hsame
  rw [SameAbout, about_setApprovals, about_setApprovals, if_pos rfl, if_pos rfl, hproposal,
    hinvalids]

theorem sameAbout_setProposal (proposal : Proposal) :
    SameAbout (p, n) (σ.setProposal p n proposal) (τ.setProposal p n proposal) := by
  obtain ⟨-, happrovals, hinvalids⟩ := about_eq_iff.mp hsame
  rw [SameAbout, about_setProposal, about_setProposal, if_pos rfl, if_pos rfl, happrovals,
    hinvalids]

theorem sameAbout_remove : SameAbout (p, n) ((σ.eraseApprovals p n).eraseProposal p n)
    ((τ.eraseApprovals p n).eraseProposal p n) := by
  obtain ⟨-, -, hinvalids⟩ := about_eq_iff.mp hsame
  rw [SameAbout, about_remove, about_remove, if_pos rfl, if_pos rfl, hinvalids]

theorem propose_congr {requested : List PermissionLevel} {trx : Bytes} :
    Simulates (SameAbout (p, n)) (propose host ctx τ p n requested trx)
      (propose host ctx σ p n requested trx) := by
  obtain ⟨hproposal, happrovals, -⟩ := about_eq_iff.mp hsame
  intro σ' h
  obtain ⟨hnew, hnone, rfl⟩ := propose_ok h
  simp only [propose, bind_eq_ok_iff, Context.requireAuth_eq_ok_iff, Table.emplace_eq_ok_iff,
    check_eq_ok_iff, exists_const, pure_eq_ok_iff, OrdMap.not_mem_iff] at h ⊢
  obtain ⟨hauth, header, hheader, htime, cfa, hcfa, hnil, -, hauthorized, -⟩ := h
  exact ⟨(τ.setProposal p n ⟨trx, some none⟩).setApprovals p n
      ⟨requested.map fun level => ⟨level, 0⟩, []⟩,
    ⟨hauth, header, hheader, htime, cfa, hcfa, hnil, hproposal ▸ hnew, hauthorized, _,
      ⟨hproposal ▸ hnew, rfl⟩, _, ⟨happrovals ▸ hnone, rfl⟩, rfl⟩,
    sameAbout_setApprovals (sameAbout_setProposal hsame _) _⟩

theorem approve_congr {level : PermissionLevel} {hash : Option Checksum256} :
    Simulates (SameAbout (p, n)) (approve host ctx τ p n level hash)
      (approve host ctx σ p n level hash) := by
  obtain ⟨hproposal, happrovals, -⟩ := about_eq_iff.mp hsame
  rw [approve, approve, Table.requireFind_congr _ hproposal, Table.requireFind_congr _ happrovals]
  refine simulates_bind fun _ => simulates_bind fun proposal => simulates_bind fun _ =>
    simulates_bind fun row => simulates_bind fun _ => simulates_bind fun trxHeader => ?_
  have hset := sameAbout_setApprovals hsame
    ⟨row.requestedApprovals.eraseP fun a => a.level = level,
      row.providedApprovals ++ [⟨level, ctx.currentTimePoint⟩]⟩
  rcases proposal.earliestExecTime with _ | _ | earliest
  · exact simulates_bind fun _ => simulates_pure hset
  · simp only [getApprovalsAndAdjustTable_id, storedLevels_congr hset]
    split_ifs
    · exact simulates_pure (sameAbout_setProposal hset _)
    · exact simulates_pure hset
  · exact simulates_pure hset

theorem unapprove_congr {level : PermissionLevel} :
    Simulates (SameAbout (p, n)) (unapprove host ctx τ p n level)
      (unapprove host ctx σ p n level) := by
  obtain ⟨hproposal, happrovals, -⟩ := about_eq_iff.mp hsame
  rw [unapprove, unapprove, Table.requireFind_congr _ happrovals]
  refine simulates_bind fun _ => simulates_bind fun row => simulates_bind fun _ => ?_
  simp only [State.proposals_setApprovals, Table.requireFind_congr _ hproposal]
  refine simulates_bind fun proposal => ?_
  have hset := sameAbout_setApprovals hsame
    ⟨row.requestedApprovals ++ [⟨level, ctx.currentTimePoint⟩],
      row.providedApprovals.eraseP fun a => a.level = level⟩
  rcases proposal.earliestExecTime with _ | _ | earliest
  · exact simulates_bind fun _ => simulates_bind fun _ => simulates_pure hset
  · exact simulates_pure hset
  · simp only [getApprovalsAndAdjustTable_id, storedLevels_congr hset]
    split_ifs
    · exact simulates_pure hset
    · exact simulates_pure (sameAbout_setProposal hset _)

theorem cancel_congr {canceler : Name} :
    Simulates (SameAbout (p, n)) (cancel host ctx τ p n canceler)
      (cancel host ctx σ p n canceler) := by
  obtain ⟨hproposal, happrovals, -⟩ := about_eq_iff.mp hsame
  have hrow : n ∈ (σ.eraseProposal p n).approvals p ↔ n ∈ (τ.eraseProposal p n).approvals p := by
    rw [State.approvals_eraseProposal, State.approvals_eraseProposal,
      ExtTreeMap.mem_iff_isSome_getElem?, happrovals, ExtTreeMap.mem_iff_isSome_getElem?]
  have hend : SameAbout (p, n) ((σ.eraseProposal p n).eraseApprovals p n)
      ((τ.eraseProposal p n).eraseApprovals p n) := sameAbout_remove hsame
  rw [cancel, cancel, Table.requireFind_congr _ hproposal]
  refine simulates_bind fun _ => simulates_bind fun proposal => ?_
  simp only [check_congr _ hrow]
  split_ifs
  · exact simulates_bind fun header => simulates_bind fun _ => simulates_bind fun _ =>
      simulates_pure hend
  · exact simulates_bind fun _ => simulates_pure hend

/-- An `exec` sends the same actions. -/
theorem exec_congr {executer : Name} :
    Simulates (fun r r' : State × List Action => SameAbout (p, n) r.1 r'.1 ∧ r.2 = r'.2)
      (exec host ctx τ p n executer) (exec host ctx σ p n executer) := by
  obtain ⟨hproposal, -, -⟩ := about_eq_iff.mp hsame
  rw [exec, exec, Table.requireFind_congr _ hproposal]
  refine simulates_bind fun _ => simulates_bind fun proposal => simulates_bind fun header =>
    simulates_bind fun _ => simulates_bind fun cfa => simulates_bind fun _ =>
    simulates_bind fun actions => ?_
  simp only [getApprovalsAndAdjustTable_erase, storedLevels_congr hsame]
  refine simulates_bind fun _ => ?_
  rcases proposal.earliestExecTime with _ | _ | earliest
  all_goals exact simulates_bind fun _ => simulates_pure ⟨sameAbout_remove hsame, rfl⟩

end Congr

theorem invalidate_congr {account : Name} {k : Name × Name} (hsame : SameAbout k σ τ) :
    Simulates (SameAbout k) (invalidate ctx τ account) (invalidate ctx σ account) := by
  obtain ⟨hproposal, happrovals, hinvalids⟩ := about_eq_iff.mp hsame
  rw [invalidate, invalidate]
  refine simulates_bind fun _ => simulates_pure (about_eq_iff.mpr ⟨hproposal, happrovals, ?_⟩)
  rw [hinvalids]

/-- **The component of a proposal.** What is stored about it, and the invalidation times, decide
what the calls do that concern it, and no other call touches them. -/
theorem component_about (host : Host) (k : Name × Name) :
    Component (step host) (Concerns k) (State.about k) where
  frame := about_frame
  congr := by
    rintro σ τ ⟨ctx, call⟩ hc hsame
    have hk (p n : Name) (htarget : call.target = some (p, n)) : k = (p, n) :=
      (hc (p, n) htarget).symm
    cases call with
    | propose p n requested trx => obtain rfl := hk p n rfl; exact propose_congr hsame
    | approve p n level hash => obtain rfl := hk p n rfl; exact approve_congr hsame
    | unapprove p n level => obtain rfl := hk p n rfl; exact unapprove_congr hsame
    | cancel p n canceler => obtain rfl := hk p n rfl; exact cancel_congr hsame
    | exec p n executer =>
      obtain rfl := hk p n rfl
      exact (exec_congr hsame).bind fun r r' hr => simulates_pure hr.1
    | invalidate account => exact invalidate_congr hsame

/-! ### Runs -/

/-- **Isolation.** The calls on one proposal and the invalidations of a run are a run by
themselves, at the end of which the same is stored about the proposal, and from which an `exec` of
it that succeeds after the whole run succeeds too, and sends the same actions. -/
theorem proposal_isolated {guard : State → Context × Call → Prop} {σ₀ : State}
    {tr : List (Context × Call)} (hrun : Run (step host) guard σ₀ tr σ) (p n : Name) :
    ∃ τ, Run (step host) (fun _ _ => True) σ₀ (tr.filter fun c => Concerns (p, n) c) τ ∧
      τ.about (p, n) = σ.about (p, n) ∧
      ∀ (ctx : Context) (executer : Name) (σ' : State) (actions : List Action),
        exec host ctx σ p n executer = .ok (σ', actions) →
          ∃ τ', exec host ctx τ p n executer = .ok (τ', actions) := by
  obtain ⟨τ, hτ, hsame⟩ := (component_about host (p, n)).run_filter (fun _ _ => True)
    (fun _ _ _ _ _ _ => trivial) rfl hrun
  refine ⟨τ, hτ, hsame, ?_⟩
  intro ctx executer σ' actions hexec
  obtain ⟨⟨τ', actions'⟩, hexec', -, rfl⟩ :=
    exec_congr hsame.symm (σ', actions) hexec
  exact ⟨τ', hexec'⟩

/-- A proposal that Alice is to approve. -/
def proposing (proposer proposalName : Name) : Context × Call :=
  (.permissive (.ofString "eosio.msig"),
    .propose proposer proposalName [⟨.ofString "alice", .ofString "active"⟩] packedSample)

/-- Bob proposes something between the calls on Alice's proposal. -/
def twoProposals : List (Context × Call) :=
  proposeAndApprove.take 1 ++
    proposing (.ofString "bob") (.ofString "rent") :: proposeAndApprove.drop 1

theorem proposal_isolated_twoProposals :
    ∃ σ τ, Run (step aliceHost) (fun _ _ => True) {} twoProposals σ ∧
      Run (step aliceHost) (fun _ _ => True) {} proposeAndApprove τ ∧
      τ.about (.ofString "alice", .ofString "pay") =
        σ.about (.ofString "alice", .ofString "pay") := by
  obtain ⟨σ, hσ, -⟩ := returns_iff.mp (show returns
    (twoProposals.foldlM (step aliceHost) {}) (fun _ => true) = true by decide +kernel)
  have hrun : Run (step aliceHost) (fun _ _ => True) {} twoProposals σ :=
    Run.of_foldlM (fun _ _ _ => trivial) hσ
  obtain ⟨τ, hτ, hsame, -⟩ := proposal_isolated hrun (.ofString "alice") (.ofString "pay")
  exact ⟨σ, τ, hrun, hτ, hsame⟩

/-- **Exchange.** Calls on different proposals, both of which succeed, may be made in either
order, and leave the same tables. -/
theorem proposals_commute {a b : Context × Call} {σ₁ σ₂ : State} {k l : Name × Name}
    (ha : a.2.target = some k) (hb : b.2.target = some l) (hkl : k ≠ l)
    (h₁ : step host σ a = .ok σ₁) (h₂ : step host σ₁ b = .ok σ₂) :
    ∃ τ, step host σ b = .ok τ ∧ step host τ a = .ok σ₂ := by
  have hone {c : Context × Call} {m : Name × Name} (hc : c.2.target = some m) (j : Name × Name) :
      Concerns j c ↔ j = m := by
    rw [Concerns, hc]
    exact ⟨fun h => (h m rfl).symm, fun h _ hm => (Option.some.inj hm).symm.trans h.symm⟩
  exact Component.commute (component_about host) (fun _ _ => State.ext_about) hkl (hone ha)
    (hone hb) h₁ h₂

theorem proposals_commute_payAndRent :
    ∃ σ₁ σ₂ τ, step aliceHost {} (proposing (.ofString "alice") (.ofString "pay")) = .ok σ₁ ∧
      step aliceHost σ₁ (proposing (.ofString "bob") (.ofString "rent")) = .ok σ₂ ∧
      step aliceHost {} (proposing (.ofString "bob") (.ofString "rent")) = .ok τ ∧
      step aliceHost τ (proposing (.ofString "alice") (.ofString "pay")) = .ok σ₂ := by
  obtain ⟨σ₁, hσ₁, h⟩ := returns_iff.mp (show returns
    (step aliceHost {} (proposing (.ofString "alice") (.ofString "pay"))) (fun σ₁ =>
      returns (step aliceHost σ₁ (proposing (.ofString "bob") (.ofString "rent"))) fun _ => true) =
        true by decide +kernel)
  obtain ⟨σ₂, hσ₂, -⟩ := returns_iff.mp h
  obtain ⟨τ, hτ, hback⟩ := proposals_commute rfl rfl (by decide) hσ₁ hσ₂
  exact ⟨σ₁, σ₂, τ, hσ₁, hσ₂, hτ, hback⟩

end Twig.Msig
