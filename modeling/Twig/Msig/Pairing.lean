import Twig.Msig.Safety

/-!
# Proposals and their approvals

The two tables of a proposer hold the same names after every run: `propose` fills both, `cancel`
and `exec` empty both, and no other action adds or removes a row. So an action that has found a
proposal finds its approvals too, and one that has found no proposal finds no approvals in its way.

An approval goes from the requested to the provided ones of a row and back, one at a time, and
takes its level along: the levels of both together are the ones that `propose` was given.

* `step_levels` — what a step leaves of the levels of a row;
* `Paired.step` — the two tables after a step;
* `approvals_paired` — what this says about every run.
-/

namespace Twig.Msig

open Std Fallible

variable {host : Host} {ctx : Context} {σ σ' : State} {p n : Name} {tr : List (Context × Call)}
  {c : Context × Call}

/-! ### The levels of a row -/

/-- The levels of a row, requested or provided. -/
def Approvals.levels (row : Approvals) : Multiset PermissionLevel :=
  (row.requestedApprovals.map Approval.level : Multiset PermissionLevel) +
    (row.providedApprovals.map Approval.level : Multiset PermissionLevel)

/-- Taking out the first approval of a level takes one such level out. -/
theorem map_level_eraseP (l : List Approval) (level : PermissionLevel) :
    (l.eraseP fun a => a.level = level).map Approval.level =
      (l.map Approval.level).erase level := by
  rw [List.erase_eq_eraseP, List.eraseP_map]
  have hsame : (fun a : Approval => decide (a.level = level)) =
      (fun x => level == x) ∘ Approval.level := by
    funext a
    rw [Function.comp_apply, Bool.eq_iff_iff, decide_eq_true_iff, beq_iff_eq, eq_comm]
  rw [hsame]

/-- **An approval that moves** takes its level along. -/
theorem coe_map_level_move {l l' : List Approval} {level : PermissionLevel} {time : TimePoint}
    (h : ∃ a ∈ l, a.level = level) :
    (((l.eraseP fun a => a.level = level).map Approval.level : Multiset PermissionLevel) +
        ((l' ++ [Approval.mk level time]).map Approval.level : Multiset PermissionLevel)) =
      (l.map Approval.level : Multiset PermissionLevel) +
        (l'.map Approval.level : Multiset PermissionLevel) := by
  obtain ⟨a, ha, rfl⟩ := h
  have hmem : a.level ∈ (l.map Approval.level : Multiset PermissionLevel) :=
    List.mem_map.mpr ⟨a, ha, rfl⟩
  have hone : ((l' ++ [Approval.mk a.level time]).map Approval.level : Multiset PermissionLevel) =
      a.level ::ₘ (l'.map Approval.level : Multiset PermissionLevel) := by
    rw [List.map_append, List.map_singleton, ← Multiset.coe_add, Multiset.coe_singleton, add_comm,
      Multiset.singleton_add]
  rw [map_level_eraseP, ← Multiset.coe_erase, hone, Multiset.add_cons, ← Multiset.cons_add,
    Multiset.cons_erase hmem]

/-! ### Steps -/

/-- **The levels of a row** are kept by every step that neither creates nor removes it. -/
theorem step_levels (h : step host σ c = .ok σ') (hkept : c.2.turnsOver p n = false) :
    ((σ'.approvals p)[n]?).map Approvals.levels = ((σ.approvals p)[n]?).map Approvals.levels := by
  obtain ⟨ctx, call⟩ := c
  cases call with
  | propose p' n' requested trx =>
    obtain ⟨-, -, rfl⟩ := propose_ok h
    have hk : ¬ (p = p' ∧ n = n') := by simpa [Call.turnsOver] using hkept
    simp [hk]
  | approve p' n' level hash =>
    obtain ⟨row, hrow, hmem⟩ := approve_requested h
    obtain ⟨-, -, row', -, -, hrow', -, rfl⟩ := approve_ok h
    obtain rfl := Option.some.inj (hrow.symm.trans hrow')
    by_cases hk : p = p' ∧ n = n'
    · obtain ⟨rfl, rfl⟩ := hk
      rw [State.approvals_setProposal, State.getElem?_setApprovals, if_pos ⟨rfl, rfl⟩, hrow]
      exact congrArg some (coe_map_level_move hmem)
    · simp [hk]
  | unapprove p' n' level =>
    obtain ⟨row, hrow, hmem⟩ := unapprove_provided h
    obtain ⟨-, row', -, -, hrow', -, rfl⟩ := unapprove_ok h
    obtain rfl := Option.some.inj (hrow.symm.trans hrow')
    by_cases hk : p = p' ∧ n = n'
    · obtain ⟨rfl, rfl⟩ := hk
      rw [State.approvals_setProposal, State.getElem?_setApprovals, if_pos ⟨rfl, rfl⟩, hrow]
      refine congrArg some ?_
      rw [Approvals.levels, Approvals.levels, add_comm, coe_map_level_move hmem, add_comm]
    · simp [hk]
  | cancel p' n' canceler =>
    obtain rfl := cancel_ok h
    have hk : ¬ (p = p' ∧ n = n') := by simpa [Call.turnsOver] using hkept
    simp [hk]
  | exec p' n' executer =>
    obtain rfl := step_exec_ok h
    have hk : ¬ (p = p' ∧ n = n') := by simpa [Call.turnsOver] using hkept
    simp [hk]
  | invalidate account =>
    obtain rfl := invalidate_ok h
    rfl

/-- The levels that `propose` files. -/
theorem step_propose_levels {requested : List PermissionLevel} {trx : Bytes}
    (h : step host σ c = .ok σ') (hc : c.2 = .propose p n requested trx) :
    ((σ'.approvals p)[n]?).map Approvals.levels = some (requested : Multiset PermissionLevel) := by
  rw [step, hc] at h
  obtain ⟨-, -, rfl⟩ := propose_ok h
  rw [State.getElem?_setApprovals, if_pos ⟨rfl, rfl⟩, Option.map_some, Approvals.levels]
  simp [Function.comp_def]

/-! ### The tables after a run -/

/-- The trace proposed `trx` under the name, requesting these levels, and then made no call that
proposes, cancels or executes it. -/
def RequestedBy (tr : List (Context × Call)) (p n : Name) (trx : Bytes)
    (requested : List PermissionLevel) : Prop :=
  ∃ before ctx since, tr = before ++ (ctx, .propose p n requested trx) :: since ∧
    ∀ c ∈ since, c.2.turnsOver p n = false

theorem RequestedBy.snoc {trx : Bytes} {requested : List PermissionLevel}
    (h : RequestedBy tr p n trx requested) (hc : c.2.turnsOver p n = false) :
    RequestedBy (tr ++ [c]) p n trx requested := by
  obtain ⟨before, ctx, since, rfl, hsince⟩ := h
  exact ⟨before, ctx, since ++ [c], by simp,
    List.forall_mem_append.mpr ⟨hsince, List.forall_mem_singleton.mpr hc⟩⟩

/-- The two tables are paired, and the levels of each row are those that were requested. -/
structure Paired (tr : List (Context × Call)) (σ : State) : Prop where
  stored : ∀ (p n : Name) (proposal : Proposal), (σ.proposals p)[n]? = some proposal →
    ∃ row requested, (σ.approvals p)[n]? = some row ∧
      RequestedBy tr p n proposal.packedTransaction requested ∧
      row.levels = (requested : Multiset PermissionLevel)
  unstored : ∀ p n : Name, (σ.proposals p)[n]? = none → (σ.approvals p)[n]? = none

theorem paired_nil : Paired [] {} where
  stored p n proposal h := by simp at h
  unstored p n _ := by simp

/-- **A step keeps the tables paired.** -/
theorem Paired.step (h : Paired tr σ) (hok : step host σ c = .ok σ') :
    Paired (tr ++ [c]) σ' where
  stored := by
    intro p n proposal hproposal
    rcases step_cases hok p n with ⟨requested, trx, hc, hnew, row, hrow, -⟩ | ⟨-, hgone, -⟩ |
      ⟨hkept, hpacked, -⟩
    · obtain rfl : ⟨trx, some none⟩ = proposal := Option.some.inj (hnew.symm.trans hproposal)
      have hlevels := step_propose_levels hok hc
      rw [hrow, Option.map_some] at hlevels
      exact ⟨row, requested, hrow, ⟨tr, c.1, [], by rw [← hc], by simp⟩, Option.some.inj hlevels⟩
    · exact absurd (hgone.symm.trans hproposal) (by simp)
    · rw [hproposal, Option.map_some, eq_comm, Option.map_eq_some_iff] at hpacked
      obtain ⟨old, hold, hsame⟩ := hpacked
      obtain ⟨row, requested, hrow, hrequested, hlevels⟩ := h.stored p n old hold
      have hmoved := step_levels hok hkept
      rw [hrow, Option.map_some, Option.map_eq_some_iff] at hmoved
      obtain ⟨row', hrow', hlevels'⟩ := hmoved
      exact ⟨row', requested, hrow', hsame ▸ hrequested.snoc hkept, hlevels'.trans hlevels⟩
  unstored := by
    intro p n hnone
    rcases step_cases hok p n with ⟨_, _, _, hnew, _⟩ | ⟨-, -, hgone⟩ | ⟨hkept, hpacked, -⟩
    · exact absurd (hnone.symm.trans hnew) (by simp)
    · exact hgone
    · rw [hnone, Option.map_none, eq_comm, Option.map_eq_none_iff] at hpacked
      have hmoved := step_levels hok hkept
      rw [h.unstored p n hpacked, Option.map_none, Option.map_eq_none_iff] at hmoved
      exact hmoved

theorem paired_of_run (h : Run (Msig.step host) (fun _ _ => True) {} tr σ) : Paired tr σ :=
  h.invariant paired_nil fun _ _ _ _ _ hI _ hs => hI.step hs

/-- The tables of a proposer hold the same names. -/
theorem Paired.mem_iff (h : Paired tr σ) : n ∈ σ.proposals p ↔ n ∈ σ.approvals p := by
  constructor
  · intro hmem
    obtain ⟨proposal, hproposal⟩ := OrdMap.mem_iff_exists.mp hmem
    obtain ⟨row, -, hrow, -⟩ := h.stored p n proposal hproposal
    exact OrdMap.mem_iff_exists.mpr ⟨row, hrow⟩
  · intro hmem
    by_contra hnone
    exact OrdMap.not_mem_iff.mpr (h.unstored p n (OrdMap.not_mem_iff.mp hnone)) hmem

/-! ### What the actions check -/

/-- What `cancel` checks, the approvals apart. -/
def Cancelable (host : Host) (ctx : Context) (σ : State) (p n canceler : Name) : Prop :=
  ctx.hasAuth canceler ∧ ∃ proposal, (σ.proposals p)[n]? = some proposal ∧
    (canceler ≠ p → ∃ header, getTrxHeader host proposal.packedTransaction = .ok header ∧
      header.expiration < ctx.currentTimePoint.sec)

/-- What `propose` checks, the approvals apart. -/
def Proposable (host : Host) (ctx : Context) (σ : State) (p n : Name)
    (requested : List PermissionLevel) (trx : Bytes) : Prop :=
  ctx.hasAuth p ∧ n ∉ σ.proposals p ∧ host.authorized trx requested = true ∧
    ∃ header ds ds', host.readHeader trx = .ok (header, ds) ∧
      ctx.currentTimePoint.sec ≤ header.expiration ∧ host.readActions ds = .ok ([], ds')

/-- Where the tables are paired, `cancel` does not fail for want of approvals. -/
theorem Paired.cancel_iff (h : Paired tr σ) {canceler : Name} :
    (∃ σ', cancel host ctx σ p n canceler = .ok σ') ↔ Cancelable host ctx σ p n canceler := by
  constructor
  · rintro ⟨σ', hok⟩
    simp only [cancel, bind_eq_ok_iff, Context.requireAuth_eq_ok_iff, exists_const,
      Table.requireFind_eq_ok_iff] at hok
    obtain ⟨hauth, proposal, hproposal, hok⟩ := hok
    refine ⟨hauth, proposal, hproposal, fun hother => ?_⟩
    simp only [if_pos hother, bind_eq_ok_iff, check_eq_ok_iff, exists_const] at hok
    obtain ⟨header, hheader, hexpired, -⟩ := hok
    exact ⟨header, hheader, hexpired⟩
  · rintro ⟨hauth, proposal, hproposal, hexpired⟩
    have hmem : n ∈ (σ.eraseProposal p n).approvals p :=
      h.mem_iff.mp (OrdMap.mem_iff_exists.mpr ⟨proposal, hproposal⟩)
    refine ⟨(σ.eraseProposal p n).eraseApprovals p n, ?_⟩
    simp only [cancel, bind_eq_ok_iff, Context.requireAuth_eq_ok_iff, exists_const,
      Table.requireFind_eq_ok_iff]
    refine ⟨hauth, proposal, hproposal, ?_⟩
    split_ifs with hother
    · simp only [bind_eq_ok_iff, check_eq_ok_iff, exists_const, pure_eq_ok_iff]
      obtain ⟨header, hheader, hexpired⟩ := hexpired hother
      exact ⟨header, hheader, hexpired, hmem, trivial⟩
    · simp only [bind_eq_ok_iff, check_eq_ok_iff, exists_const, pure_eq_ok_iff]
      exact ⟨hmem, trivial⟩

/-- Where the tables are paired, `propose` does not fail on approvals that are left over. -/
theorem Paired.propose_iff (h : Paired tr σ) {requested : List PermissionLevel} {trx : Bytes} :
    (∃ σ', propose host ctx σ p n requested trx = .ok σ') ↔
      Proposable host ctx σ p n requested trx := by
  simp only [propose, bind_eq_ok_iff, Context.requireAuth_eq_ok_iff, Table.emplace_eq_ok_iff,
    check_eq_ok_iff, exists_const, pure_eq_ok_iff]
  constructor
  · rintro ⟨σ', hauth, ⟨header, ds⟩, hheader, htime, ⟨cfa, ds'⟩, hcfa, rfl, hnew, hok, -⟩
    exact ⟨hauth, hnew, hok, header, ds, ds', hheader, htime, hcfa⟩
  · rintro ⟨hauth, hnew, hok, header, ds, ds', hheader, htime, hcfa⟩
    have hnone : n ∉ σ.approvals p := fun hmem => hnew (h.mem_iff.mpr hmem)
    exact ⟨_, hauth, (header, ds), hheader, htime, ([], ds'), hcfa, rfl, hnew, hok, _,
      ⟨hnew, rfl⟩, _, ⟨hnone, rfl⟩, rfl⟩

/-- **Approvals are paired and complete.** After every run of actions on empty tables:

* a proposer's two tables hold the same names;
* a stored proposal's approvals are found, and the levels of them, requested and provided, are as
  a multiset those that the `propose` of the instance now stored requested;
* whether `cancel` and `propose` succeed does not depend on the approvals. -/
theorem approvals_paired (hrun : Run (Msig.step host) (fun _ _ => True) {} tr σ) :
    (∀ p n : Name, n ∈ σ.proposals p ↔ n ∈ σ.approvals p) ∧
      (∀ (p n : Name) (proposal : Proposal), (σ.proposals p)[n]? = some proposal →
        ∃ row requested, (∀ msg, (σ.approvals p).requireFind n msg = .ok row) ∧
          RequestedBy tr p n proposal.packedTransaction requested ∧
          row.levels = (requested : Multiset PermissionLevel)) ∧
      (∀ (ctx : Context) (p n canceler : Name),
        (∃ σ', cancel host ctx σ p n canceler = .ok σ') ↔ Cancelable host ctx σ p n canceler) ∧
      ∀ (ctx : Context) (p n : Name) (requested : List PermissionLevel) (trx : Bytes),
        (∃ σ', propose host ctx σ p n requested trx = .ok σ') ↔
          Proposable host ctx σ p n requested trx := by
  have hpaired := paired_of_run hrun
  refine ⟨fun _ _ => hpaired.mem_iff, ?_, fun _ _ _ _ => hpaired.cancel_iff,
    fun _ _ _ _ _ => hpaired.propose_iff⟩
  intro p n proposal hproposal
  obtain ⟨row, requested, hrow, hrequested, hlevels⟩ := hpaired.stored p n proposal hproposal
  exact ⟨row, requested, fun _ => Table.requireFind_eq_ok_iff.mpr hrow, hrequested, hlevels⟩

/-- Alice asks for her own approval twice, gives it twice and takes one back. -/
def askedTwice : List (Context × Call) :=
  let ctx := Context.permissive (.ofString "eosio.msig")
  let alice := Name.ofString "alice"
  let level : PermissionLevel := ⟨alice, .ofString "active"⟩
  [(ctx, .propose alice (.ofString "pay") [level, level] packedSample),
    (ctx, .approve alice (.ofString "pay") level none),
    (ctx, .approve alice (.ofString "pay") level none),
    (ctx, .unapprove alice (.ofString "pay") level)]

theorem approvals_paired_askedTwice :
    ∃ σ proposal row requested, Run (Msig.step aliceHost) (fun _ _ => True) {} askedTwice σ ∧
      (σ.proposals (.ofString "alice"))[Name.ofString "pay"]? = some proposal ∧
      (σ.approvals (.ofString "alice")).requireFind (.ofString "pay") "approval not found" =
        .ok row ∧
      RequestedBy askedTwice (.ofString "alice") (.ofString "pay") proposal.packedTransaction
        requested ∧
      row.levels = (requested : Multiset PermissionLevel) := by
  obtain ⟨σ, hσ, hstored⟩ := returns_iff.mp (show returns
    (askedTwice.foldlM (Msig.step aliceHost) {}) (fun σ =>
      ((σ.proposals (.ofString "alice"))[Name.ofString "pay"]?).isSome) = true by decide +kernel)
  have hrun : Run (Msig.step aliceHost) (fun _ _ => True) {} askedTwice σ :=
    Run.of_foldlM (fun _ _ _ => trivial) hσ
  obtain ⟨proposal, hproposal⟩ := Option.isSome_iff_exists.mp hstored
  obtain ⟨-, hlevels, -, -⟩ := approvals_paired hrun
  obtain ⟨row, requested, hfound, hrequested, hrow⟩ := hlevels _ _ proposal hproposal
  exact ⟨σ, proposal, row, requested, hrun, hproposal, hfound _, hrequested, hrow⟩

end Twig.Msig
