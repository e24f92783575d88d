import Twig.Msig.Safety

/-!
# The delay of a proposal

A transaction with a delay may only be executed when its approvals have been sufficient for that
long. `approve` notes the earliest execution time when they become sufficient, and `unapprove`
takes the note back when they no longer are. `invalidate` leaves it: approvals that become
sufficient again later find the old note and need not wait anew.

* `step_earliest` — where the earliest execution time of a proposal comes from;
* `WaitsAnew` — the approvals that do not find a note that is too early;
* `delay_respected` — with these only, the delay is respected in every run;
* `exec_without_waiting` — a proposal that is executed in the second it becomes sufficient.
-/

namespace Twig.Msig

open Std Fallible

variable {host : Host} {σ σ' : State} {p n : Name} {tr since since' : List (Context × Call)}
  {c : Context × Call} {trx trx' : Bytes}

/-! ### The earliest execution time -/

/-- **Where the earliest execution time comes from**: it was there before, or the call is an
approval that makes the approvals sufficient. -/
theorem step_earliest (h : step host σ c = .ok σ') {proposal' : Proposal}
    (hproposal' : (σ'.proposals p)[n]? = some proposal') {earliest : TimePoint}
    (hearliest : proposal'.earliestExecTime = some (some earliest)) :
    (∃ proposal, (σ.proposals p)[n]? = some proposal ∧
      proposal.packedTransaction = proposal'.packedTransaction ∧
      proposal.earliestExecTime = some (some earliest)) ∨
    ∃ header, getTrxHeader host proposal'.packedTransaction = .ok header ∧
      host.authorized proposal'.packedTransaction (storedLevels σ' p n) ∧
      earliest = c.1.currentTimePoint + header.delaySec.toNat * 1000000 := by
  obtain ⟨ctx, call⟩ := c
  cases call with
  | propose p' n' requested trx =>
    obtain ⟨-, -, rfl⟩ := propose_ok h
    rw [State.proposals_setApprovals, State.getElem?_setProposal] at hproposal'
    split_ifs at hproposal' with hk
    · obtain rfl := Option.some.inj hproposal'
      exact nomatch hearliest
    · exact .inl ⟨proposal', hproposal', rfl, hearliest⟩
  | approve p' n' level hash =>
    obtain ⟨-, proposal, row, stored, hproposal, hrow, hstored, rfl⟩ := approve_ok h
    rw [State.getElem?_setProposal] at hproposal'
    split_ifs at hproposal' with hk
    · obtain ⟨rfl, rfl⟩ := hk
      obtain rfl := Option.some.inj hproposal'
      rcases hstored with rfl | ⟨header, -, hheader, hauth, rfl⟩
      · exact .inl ⟨proposal, hproposal, rfl, hearliest⟩
      · refine .inr ⟨header, hheader, ?_, (Option.some.inj (Option.some.inj hearliest)).symm⟩
        rw [storedLevels_set]
        exact hauth
    · exact .inl ⟨proposal', hproposal', rfl, hearliest⟩
  | unapprove p' n' level =>
    obtain ⟨proposal, row, stored, hproposal, hrow, hstored, rfl⟩ := unapprove_ok h
    rw [State.getElem?_setProposal] at hproposal'
    split_ifs at hproposal' with hk
    · obtain ⟨rfl, rfl⟩ := hk
      obtain rfl := Option.some.inj hproposal'
      rcases hstored with rfl | rfl
      · exact .inl ⟨proposal, hproposal, rfl, hearliest⟩
      · exact nomatch hearliest
    · exact .inl ⟨proposal', hproposal', rfl, hearliest⟩
  | cancel p' n' canceler =>
    obtain rfl := cancel_ok h
    rw [State.proposals_eraseApprovals, State.getElem?_eraseProposal] at hproposal'
    split_ifs at hproposal'
    exact .inl ⟨proposal', hproposal', rfl, hearliest⟩
  | exec p' n' executer =>
    obtain rfl := step_exec_ok h
    rw [State.getElem?_eraseProposal] at hproposal'
    split_ifs at hproposal'
    exact .inl ⟨proposal', hproposal', rfl, hearliest⟩
  | invalidate account =>
    obtain rfl := invalidate_ok h
    exact .inl ⟨proposal', hproposal', rfl, hearliest⟩

/-- The levels in force after an approval. -/
theorem storedLevels_approve {ctx : Context} {level : PermissionLevel}
    {hash : Option Checksum256} (h : approve host ctx σ p n level hash = .ok σ') :
    ∃ row, (σ.approvals p)[n]? = some row ∧
      storedLevels σ' p n = levelsWith σ row ⟨level, ctx.currentTimePoint⟩ := by
  obtain ⟨-, proposal, row, earliest, -, hrow, -, rfl⟩ := approve_ok h
  exact ⟨row, hrow, storedLevels_set⟩

/-! ### Approvals over time -/

/-- An account was last invalidated by a call of the trace. -/
theorem exists_of_mem_lastInvalidate {actor : Name} {t : TimePoint}
    (h : t ∈ lastInvalidate tr actor) : ∃ d ∈ tr, t = d.1.currentTimePoint := by
  induction tr using List.reverseRecOn with
  | nil => exact nomatch h
  | append_singleton tr c ih =>
    rw [lastInvalidate_snoc] at h
    split_ifs at h
    · exact ⟨c, by simp, (Option.some.inj h).symm⟩
    · obtain ⟨d, hd, ht⟩ := ih h
      exact ⟨d, List.mem_append_left _ hd, ht⟩

/-- **Only an approval puts a level in force**, as long as time does not run backwards. -/
theorem levelsInForce_snoc_subset (htime : ∀ d ∈ tr, d.1.currentTimePoint ≤ c.1.currentTimePoint)
    (hcall : ∀ level hash, c.2 ≠ .approve p n level hash) :
    levelsInForce (tr ++ [c]) (since ++ [c]) p n ⊆ levelsInForce tr since p n := by
  intro level hlevel
  simp only [levelsInForce, List.mem_map, List.mem_filter, decide_eq_true_eq] at hlevel ⊢
  obtain ⟨a, ⟨hmem, hvalid⟩, rfl⟩ := hlevel
  rw [outstanding_snoc] at hmem
  rcases mem_of_mem_outstandingStep hmem with hmem | ⟨⟨hash, happrove⟩, -⟩
  · refine ⟨a, ⟨hmem, ?_⟩, rfl⟩
    intro t ht
    rw [lastInvalidate_snoc] at hvalid
    split_ifs at hvalid
    · obtain ⟨d, hd, rfl⟩ := exists_of_mem_lastInvalidate ht
      exact (htime d hd).trans_lt (hvalid _ rfl)
    · exact hvalid t ht
  · exact absurd happrove (hcall a.level hash)

/-- A trace has one current instance of a proposal. -/
theorem InstanceOf.unique (h : InstanceOf tr p n trx since) (h' : InstanceOf tr p n trx' since') :
    trx = trx' ∧ since = since' := by
  induction since using List.reverseRecOn generalizing tr since' with
  | nil =>
    obtain ⟨before, ctx, requested, rfl, -⟩ := h
    obtain ⟨before', ctx', requested', heq, hsince'⟩ := h'
    rcases List.eq_nil_or_concat since' with rfl | ⟨l, d, rfl⟩
    · obtain ⟨-, hlast⟩ := List.append_inj' heq rfl
      simp only [List.cons.injEq, Prod.mk.injEq, Call.propose.injEq] at hlast
      exact ⟨hlast.1.2.2.2.2, rfl⟩
    · rw [List.concat_eq_append, ← List.cons_append, ← List.append_assoc] at heq
      obtain ⟨-, hlast⟩ := List.append_inj' heq rfl
      have hturn := hsince' d (by simp)
      rw [← (List.cons.inj hlast).1] at hturn
      simp [Call.turnsOver] at hturn
  | append_singleton since c ih =>
    obtain ⟨before, ctx, requested, rfl, hsince⟩ := h
    obtain ⟨before', ctx', requested', heq, hsince'⟩ := h'
    rw [← List.cons_append, ← List.append_assoc] at heq
    rcases List.eq_nil_or_concat since' with rfl | ⟨l, d, rfl⟩
    · obtain ⟨-, hlast⟩ := List.append_inj' heq rfl
      have hturn := hsince c (by simp)
      rw [(List.cons.inj hlast).1] at hturn
      simp [Call.turnsOver] at hturn
    · rw [List.concat_eq_append, ← List.cons_append, ← List.append_assoc] at heq
      obtain ⟨hinit, hlast⟩ := List.append_inj' heq rfl
      obtain rfl := (List.cons.inj hlast).1
      obtain ⟨htrx, rfl⟩ := ih ⟨before, ctx, requested, rfl, fun d hd => hsince d (by simp [hd])⟩
        ⟨before', ctx', requested', hinit, fun d hd => hsince' d (by simp [hd])⟩
      exact ⟨htrx, List.concat_eq_append.symm⟩

/-! ### Waiting -/

/-- From `delay` before `time` on, the approvals in force have been sufficient: after every part
of the trace that all later calls follow by less than that before `time`. -/
def SufficientFrom (host : Host) (tr : List (Context × Call)) (p n : Name) (trx : Bytes)
    (since : List (Context × Call)) (delay : ℕ) (time : TimePoint) : Prop :=
  ∀ pre post, tr = pre ++ post → (∀ c ∈ post, time < c.1.currentTimePoint + delay) →
    ∃ since', since = since' ++ post ∧ InstanceOf pre p n trx since' ∧
      host.authorized trx (levelsInForce pre since' p n) = true

variable {delay : ℕ} {time : TimePoint}

/-- What is sufficient after a call that need not be looked behind. -/
theorem SufficientFrom.of_last (hinstance : InstanceOf (tr ++ [c]) p n trx since)
    (hauth : host.authorized trx (levelsInForce (tr ++ [c]) since p n) = true)
    (hlast : c.1.currentTimePoint + delay ≤ time) :
    SufficientFrom host (tr ++ [c]) p n trx since delay time := by
  intro pre post heq hpost
  rcases List.eq_nil_or_concat post with rfl | ⟨l, d, rfl⟩
  · rw [List.append_nil] at heq
    subst heq
    exact ⟨since, (List.append_nil since).symm, hinstance, hauth⟩
  · rw [List.concat_eq_append, ← List.append_assoc] at heq
    obtain rfl := (List.cons.inj (List.append_inj' heq rfl).2).1
    exact absurd (hpost c (by simp)) (Nat.not_lt.mpr hlast)

/-- What was sufficient and still is. -/
theorem SufficientFrom.snoc (h : SufficientFrom host tr p n trx since delay time)
    (hinstance : InstanceOf (tr ++ [c]) p n trx (since ++ [c]))
    (hauth : host.authorized trx (levelsInForce (tr ++ [c]) (since ++ [c]) p n) = true) :
    SufficientFrom host (tr ++ [c]) p n trx (since ++ [c]) delay time := by
  intro pre post heq hpost
  rcases List.eq_nil_or_concat post with rfl | ⟨l, d, rfl⟩
  · rw [List.append_nil] at heq
    subst heq
    exact ⟨since ++ [c], (List.append_nil _).symm, hinstance, hauth⟩
  · rw [List.concat_eq_append, ← List.append_assoc] at heq
    obtain ⟨hinit, hlast⟩ := List.append_inj' heq rfl
    obtain rfl := (List.cons.inj hlast).1
    obtain ⟨since', rfl, hsince', hauth'⟩ := h pre l hinit fun d hd => hpost d (by simp [hd])
    exact ⟨since', by simp, hsince', hauth'⟩

/-- An approval that makes the approvals in force sufficient again finds no earliest execution
time, or one that is not before its own time plus the delay. -/
def WaitsAnew (host : Host) (σ : State) (c : Context × Call) : Prop :=
  match c.2 with
  | .approve p n level _ => ∀ proposal ∈ (σ.proposals p)[n]?, ∀ row ∈ (σ.approvals p)[n]?,
    ∀ earliest ∈ proposal.earliestExecTime.join,
      ∀ header ∈ (getTrxHeader host proposal.packedTransaction).toOption,
        ¬ host.authorized proposal.packedTransaction (storedLevels σ p n) →
        host.authorized proposal.packedTransaction
          (levelsWith σ row ⟨level, c.1.currentTimePoint⟩) →
        c.1.currentTimePoint + header.delaySec.toNat * 1000000 ≤ earliest
  | _ => True

/-- **The delay invariant**: where an earliest execution time is noted and the approvals are
sufficient, they have been for the whole delay before it. -/
structure DelayInv (host : Host) (tr : List (Context × Call)) (σ : State) : Prop where
  tracks : Tracks tr σ
  waited : ∀ (p n : Name) (proposal : Proposal) (since : List (Context × Call))
    (header : TransactionHeader) (earliest : TimePoint),
    (σ.proposals p)[n]? = some proposal → InstanceOf tr p n proposal.packedTransaction since →
    getTrxHeader host proposal.packedTransaction = .ok header →
    proposal.earliestExecTime = some (some earliest) →
    host.authorized proposal.packedTransaction (levelsInForce tr since p n) = true →
    SufficientFrom host tr p n proposal.packedTransaction since (header.delaySec.toNat * 1000000)
      earliest

theorem delayInv_nil : DelayInv host [] {} where
  tracks := tracks_nil
  waited p n proposal _ _ _ h := by simp at h

/-- **Every step that waits anew keeps the invariant.** -/
theorem DelayInv.step (hmono : ∀ trx l l', l ⊆ l' → host.authorized trx l = true →
      host.authorized trx l' = true) (h : DelayInv host tr σ)
    (htime : ∀ d ∈ tr, d.1.currentTimePoint ≤ c.1.currentTimePoint)
    (hwaits : WaitsAnew host σ c) (hok : step host σ c = .ok σ') :
    DelayInv host (tr ++ [c]) σ' where
  tracks := h.tracks.step hok
  waited := by
    intro p n proposal' since' header earliest hproposal' hinstance' hheader hearliest hauth'
    rcases step_earliest hok hproposal' hearliest with
      ⟨proposal, hproposal, hpacked, hnoted⟩ | ⟨header', hheader', -, rfl⟩
    · obtain ⟨since, row, hinstance, hrow, hprovided⟩ := h.tracks.stored p n proposal hproposal
      obtain ⟨since'', row', hinstance'', hrow', hprovided'⟩ :=
        (h.tracks.step hok).stored p n proposal' hproposal'
      have hturn : c.2.turnsOver p n = false := by
        rcases step_cases hok p n with ⟨requested, trx, -, hnew, -⟩ | ⟨-, hgone, -⟩ | ⟨hturn, -⟩
        · obtain rfl := Option.some.inj (hnew.symm.trans hproposal')
          exact nomatch hearliest
        · exact nomatch hgone.symm.trans hproposal'
        · exact hturn
      obtain ⟨-, rfl⟩ := hinstance'.unique (hinstance.snoc hturn)
      obtain ⟨-, rfl⟩ := hinstance'.unique hinstance''
      rw [← hpacked] at hinstance' hheader hauth' ⊢
      by_cases hauth : host.authorized proposal.packedTransaction (levelsInForce tr since p n) =
          true
      · exact (h.waited p n proposal since header earliest hproposal hinstance hheader hnoted
          hauth).snoc hinstance' hauth'
      · -- the approvals have become sufficient: the call is an approval
        obtain ⟨level, hash, hcall⟩ : ∃ level hash, c.2 = .approve p n level hash := by
          by_contra hnone
          push Not at hnone
          exact hauth (hmono _ _ _ (levelsInForce_snoc_subset htime hnone) hauth')
        have happrove := hok
        rw [Msig.step, hcall] at happrove
        obtain ⟨row₀, hrow₀, hlevels⟩ := storedLevels_approve happrove
        rw [WaitsAnew, hcall] at hwaits
        refine .of_last hinstance' hauth' (hwaits proposal hproposal row₀ hrow₀ earliest
          (by rw [hnoted]; rfl) header (by rw [hheader]; rfl) ?_ ?_)
        · rwa [h.tracks.storedLevels hrow hprovided]
        · rwa [← hlevels, (h.tracks.step hok).storedLevels hrow' hprovided']
    · obtain rfl : header = header' := Except.ok.inj (hheader.symm.trans hheader')
      exact .of_last hinstance' hauth' (Nat.le_refl _)

/-- Time does not run backwards in the trace. -/
def TimeOrdered (tr : List (Context × Call)) : Prop :=
  tr.Pairwise fun c d => c.1.currentTimePoint ≤ d.1.currentTimePoint

theorem delayInv_of_run (hmono : ∀ trx l l', l ⊆ l' → host.authorized trx l = true →
      host.authorized trx l' = true) (hrun : Run (step host) (WaitsAnew host) {} tr σ)
    (htime : TimeOrdered tr) : DelayInv host tr σ := by
  refine hrun.invariant (I := fun tr σ => TimeOrdered tr → DelayInv host tr σ)
    (fun _ => delayInv_nil) ?_ htime
  intro tr σ c σ' _ hI hwaits hok htime
  obtain ⟨hbefore, -, hlast⟩ := List.pairwise_append.mp htime
  exact (hI hbefore).step hmono (fun d hd => hlast d hd c (by simp)) hwaits hok

/-- **The delay of the proposal that is executed at `T` is respected**: for its transaction, if
that has a delay, the approvals in force have been sufficient from that long before `T` on. -/
def DelayKept (host : Host) (tr : List (Context × Call)) (p n : Name) (T : TimePoint) : Prop :=
  ∃ trx since header, InstanceOf tr p n trx since ∧ getTrxHeader host trx = .ok header ∧
    (0 < header.delaySec →
      SufficientFrom host tr p n trx since (header.delaySec.toNat * 1000000) T)

/-- **The delay is respected**, with a monotone authorisation and time that does not run
backwards, in every run whose approvals wait anew. -/
theorem delay_respected (hmono : ∀ trx l l', l ⊆ l' → host.authorized trx l = true →
      host.authorized trx l' = true) (hrun : Run (step host) (WaitsAnew host) {} tr σ)
    (htime : TimeOrdered tr) {ctx : Context} {executer : Name} {r : State × List Action}
    (hexec : exec host ctx σ p n executer = .ok r) :
    DelayKept host tr p n ctx.currentTimePoint := by
  have hinv := delayInv_of_run hmono hrun htime
  obtain ⟨proposal, header, ds, -, -, hproposal, hread, -, -, -, hauth, htimely, -⟩ := exec_ok hexec
  obtain ⟨since, row, hinstance, hrow, hprovided⟩ := hinv.tracks.stored p n proposal hproposal
  rw [hinv.tracks.storedLevels hrow hprovided] at hauth
  have hheader : getTrxHeader host proposal.packedTransaction = .ok header := by
    rw [getTrxHeader, hread]
    rfl
  refine ⟨proposal.packedTransaction, since, header, hinstance, hheader, ?_⟩
  intro hdelay
  rcases htimely with hzero | ⟨earliest, hearliest, hle⟩
  · rw [hzero] at hdelay
    exact absurd hdelay (by decide)
  · have hwaited := hinv.waited p n proposal since header earliest hproposal hinstance hheader
      hearliest hauth
    exact fun pre post heq hpost => hwaited pre post heq fun c hc => hle.trans_lt (hpost c hc)

/-! ### Runs with a delay -/

/-- A chain on which `alice@active` and `bob@active` each authorise everything. -/
def aliceOrBobHost : Host :=
  { aliceHost with
    authorized := fun _ levels => ⟨.ofString "alice", .ofString "active"⟩ ∈ levels ∨
      ⟨.ofString "bob", .ofString "active"⟩ ∈ levels }

theorem aliceOrBobHost_mono (trx : Bytes) (l l' : List PermissionLevel) (h : l ⊆ l')
    (hauth : aliceOrBobHost.authorized trx l = true) :
    aliceOrBobHost.authorized trx l' = true := by
  simp only [aliceOrBobHost, decide_eq_true_eq] at hauth ⊢
  exact hauth.imp (fun hmem => h hmem) (fun hmem => h hmem)

/-- The transaction of `packedSample`, with a delay of one second, which is two slots. -/
def packedDelayed : Bytes := packedSample.set 12 1

def ctxAt (slot : UInt32) : Context := { Context.permissive (.ofString "eosio.msig") with slot }

def levelOf (account : String) : PermissionLevel := ⟨.ofString account, .ofString "active"⟩

/-- Alice proposes the transaction, for her or Bob to approve. -/
def proposePay (slot : UInt32) : Context × Call :=
  (ctxAt slot, .propose (.ofString "alice") (.ofString "pay") [levelOf "alice", levelOf "bob"]
    packedDelayed)

def approvePay (slot : UInt32) (account : String) : Context × Call :=
  (ctxAt slot, .approve (.ofString "alice") (.ofString "pay") (levelOf account) none)

def execPay (slot : UInt32) (σ : State) : Outcome (State × List Action) :=
  exec aliceOrBobHost (ctxAt slot) σ (.ofString "alice") (.ofString "pay") (.ofString "alice")

/-- Alice approves at once, and the transaction is executed two slots later. -/
theorem delay_respected_aliceApproves :
    ∃ σ r, Run (step aliceOrBobHost) (WaitsAnew aliceOrBobHost) {}
        ([proposePay 0] ++ [approvePay 0 "alice"]) σ ∧ execPay 2 σ = .ok r ∧
      DelayKept aliceOrBobHost ([proposePay 0] ++ [approvePay 0 "alice"]) (.ofString "alice")
        (.ofString "pay") (ctxAt 2).currentTimePoint := by
  obtain ⟨σ₁, hpropose, hrest⟩ := returns_iff.mp (show
    returns (step aliceOrBobHost {} (proposePay 0)) (fun σ₁ =>
      ((σ₁.proposals (.ofString "alice"))[Name.ofString "pay"]?).all
          (fun proposal => proposal.earliestExecTime.join.isNone) &&
        returns (step aliceOrBobHost σ₁ (approvePay 0 "alice")) fun σ =>
          returns (execPay 2 σ) fun _ => true) = true by decide +kernel)
  obtain ⟨hunset, hrest⟩ := Bool.and_eq_true_iff.mp hrest
  obtain ⟨σ, happrove, hexec⟩ := returns_iff.mp hrest
  obtain ⟨r, hexec, -⟩ := returns_iff.mp hexec
  have hrun : Run (step aliceOrBobHost) (WaitsAnew aliceOrBobHost) {}
      ([proposePay 0] ++ [approvePay 0 "alice"]) σ := by
    refine .snoc (.single trivial hpropose) ?_ happrove
    intro proposal hproposal row _ earliest hearliest
    rw [Option.mem_def.mp hproposal, Option.all_some, Option.isNone_iff_eq_none,
      Option.mem_def.mp hearliest] at hunset
    exact nomatch hunset
  exact ⟨σ, r, hrun, hexec,
    delay_respected aliceOrBobHost_mono hrun (by simp [TimeOrdered, proposePay, approvePay]) hexec⟩

/-- Alice's approval is invalidated in the next slot, and Bob approves in the one after. -/
def bobApprovesLate : List (Context × Call) :=
  [approvePay 0 "alice", (ctxAt 1, .invalidate (.ofString "alice"))]

/-- **Executed without waiting**: Bob's approval is the only one in force, and the transaction is
executed as soon as it is given. -/
theorem exec_without_waiting :
    ∃ σ r, Run (step aliceOrBobHost) (fun _ _ => True) {}
        (proposePay 0 :: (bobApprovesLate ++ [approvePay 2 "bob"])) σ ∧ execPay 2 σ = .ok r ∧
      TimeOrdered (proposePay 0 :: (bobApprovesLate ++ [approvePay 2 "bob"])) ∧
      ¬ DelayKept aliceOrBobHost (proposePay 0 :: (bobApprovesLate ++ [approvePay 2 "bob"]))
        (.ofString "alice") (.ofString "pay") (ctxAt 2).currentTimePoint := by
  obtain ⟨σ, hσ, hexec⟩ := returns_iff.mp (show returns
    ((proposePay 0 :: (bobApprovesLate ++ [approvePay 2 "bob"])).foldlM (step aliceOrBobHost) {})
      (fun σ => returns (execPay 2 σ) fun _ => true) = true by decide +kernel)
  obtain ⟨r, hexec, -⟩ := returns_iff.mp hexec
  refine ⟨σ, r, Run.of_foldlM (fun _ _ _ => trivial) hσ, hexec, ?_, ?_⟩
  · simp [TimeOrdered, proposePay, approvePay, bobApprovesLate, ctxAt, Context.currentTimePoint,
      timeOfSlot]
  · rintro ⟨trx, since, header, hinstance, hheader, hkept⟩
    have hreal : InstanceOf (proposePay 0 :: (bobApprovesLate ++ [approvePay 2 "bob"]))
        (.ofString "alice") (.ofString "pay") packedDelayed
        (bobApprovesLate ++ [approvePay 2 "bob"]) := by
      refine ⟨[], ctxAt 0, [levelOf "alice", levelOf "bob"], rfl, ?_⟩
      intro c hc
      simp only [bobApprovesLate, List.cons_append, List.nil_append, List.mem_cons,
        List.not_mem_nil, or_false] at hc
      rcases hc with rfl | rfl | rfl
      all_goals rfl
    obtain ⟨rfl, rfl⟩ := hinstance.unique hreal
    obtain rfl : (⟨4294967295, 1⟩ : TransactionHeader) = header := by
      refine Except.ok.inj (Eq.trans ?_ hheader)
      decide +kernel
    -- half a second before the execution Alice's approval has been invalidated
    obtain ⟨since', hsince', -, hauth⟩ := hkept (by decide) (proposePay 0 :: bobApprovesLate)
      [approvePay 2 "bob"] rfl (by decide)
    obtain rfl := List.append_cancel_right hsince'
    exact absurd hauth (by decide +kernel)

end Twig.Msig
