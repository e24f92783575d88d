import Twig.Msig.Steps
import Twig.Lib.Run

/-!
# Multisig execution safety

The history of a run against the stored tables. A run keeps its whole trace, so that what an
`exec` does can be stated in terms of the calls that led to it:

* `InstanceOf` — the trace ends in a `propose` of the name followed by calls that neither
  cancel nor execute it: the proposal instance that is stored now;
* `outstanding` — the approvals made on that instance and not withdrawn, a withdrawal taking
  the oldest outstanding approval of its level;
* `lastInvalidate` — the time of an account's last `invalidate`.

`Tracks` ties the tables to these, every step keeps it (`Tracks.step`), and `exec_safe` reads
the guarantees of a successful `exec` off it. Nothing here needs time to be monotone.
-/

namespace Twig.Msig

open Std Fallible

variable {host : Host} {σ σ' : State} {p n : Name} {tr since : List (Context × Call)}
  {c : Context × Call}

/-! ### The history of a proposal -/

/-- The approvals of a proposal that the calls `since` leave outstanding. -/
def outstanding (p n : Name) (since : List (Context × Call)) : List Approval :=
  since.foldl (outstandingStep p n) []

/-- The time of the last `invalidate` of an account. -/
def lastInvalidate (tr : List (Context × Call)) (actor : Name) : Option TimePoint :=
  tr.foldl (fun t c => if c.2 = .invalidate actor then some c.1.currentTimePoint else t) none

/-- The levels of the outstanding approvals that are later than the last `invalidate` of their
actor, if there is one. -/
def levelsInForce (tr since : List (Context × Call)) (p n : Name) : List PermissionLevel :=
  ((outstanding p n since).filter fun a =>
    ∀ t ∈ lastInvalidate tr a.level.actor, t < a.time).map Approval.level

/-- The trace proposed `trx` under the name and then made the calls `since`, none of which
proposes, cancels or executes it. -/
def InstanceOf (tr : List (Context × Call)) (p n : Name) (trx : Bytes)
    (since : List (Context × Call)) : Prop :=
  ∃ before ctx requested, tr = before ++ (ctx, .propose p n requested trx) :: since ∧
    ∀ c ∈ since, c.2.turnsOver p n = false

theorem outstanding_snoc :
    outstanding p n (since ++ [c]) = outstandingStep p n (outstanding p n since) c := by
  rw [outstanding, List.foldl_append]
  rfl

theorem lastInvalidate_snoc {actor : Name} :
    lastInvalidate (tr ++ [c]) actor =
      if c.2 = .invalidate actor then some c.1.currentTimePoint else lastInvalidate tr actor := by
  rw [lastInvalidate, List.foldl_append]
  rfl

theorem InstanceOf.snoc {trx : Bytes} (h : InstanceOf tr p n trx since)
    (hc : c.2.turnsOver p n = false) : InstanceOf (tr ++ [c]) p n trx (since ++ [c]) := by
  obtain ⟨before, ctx, requested, rfl, hsince⟩ := h
  exact ⟨before, ctx, requested, by simp,
    List.forall_mem_append.mpr ⟨hsince, List.forall_mem_singleton.mpr hc⟩⟩

/-! ### The tables track the history -/

/-- The tables hold what the history says. -/
structure Tracks (tr : List (Context × Call)) (σ : State) : Prop where
  stored : ∀ (p n : Name) (proposal : Proposal), (σ.proposals p)[n]? = some proposal →
    ∃ since row, InstanceOf tr p n proposal.packedTransaction since ∧
      (σ.approvals p)[n]? = some row ∧ row.providedApprovals = outstanding p n since
  unstored : ∀ p n : Name, (σ.proposals p)[n]? = none → (σ.approvals p)[n]? = none
  invalidated : ∀ actor : Name, σ.invalids[actor]? = lastInvalidate tr actor

theorem tracks_nil : Tracks [] {} where
  stored p n proposal h := by simp at h
  unstored p n _ := by simp
  invalidated actor := by simp [lastInvalidate]

/-- **A step keeps the tables in step with the history.** -/
theorem Tracks.step (h : Tracks tr σ) (hok : step host σ c = .ok σ') :
    Tracks (tr ++ [c]) σ' where
  stored := by
    intro p n proposal hproposal
    rcases step_cases hok p n with ⟨requested, trx, hc, hnew, row, hrow, hprovided⟩ |
      ⟨-, hgone, -⟩ | ⟨hc, hpacked, happrovals⟩
    · -- a new instance, with no call since
      obtain rfl : ⟨trx, some none⟩ = proposal := Option.some.inj (hnew.symm.trans hproposal)
      exact ⟨[], row, ⟨tr, c.1, requested, by rw [← hc], by simp⟩, hrow, hprovided⟩
    · exact nomatch hgone.symm.trans hproposal
    · -- the same instance, with one call more
      rw [hproposal, Option.map_some, eq_comm, Option.map_eq_some_iff] at hpacked
      obtain ⟨old, hold, hsame⟩ := hpacked
      obtain ⟨since, row, hinstance, hrow, hprovided⟩ := h.stored p n old hold
      rw [hrow, Option.map_some, Option.map_eq_some_iff] at happrovals
      obtain ⟨row', hrow', hprovided'⟩ := happrovals
      refine ⟨since ++ [c], row', ?_, hrow', ?_⟩
      · rw [← hsame]
        exact hinstance.snoc hc
      · rw [hprovided', hprovided, outstanding_snoc]
  unstored := by
    intro p n hnone
    rcases step_cases hok p n with ⟨_, _, _, hnew, _⟩ | ⟨-, -, hgone⟩ | ⟨-, hpacked, happrovals⟩
    · exact nomatch hnone.symm.trans hnew
    · exact hgone
    · rw [hnone, Option.map_none, eq_comm, Option.map_eq_none_iff] at hpacked
      rw [h.unstored p n hpacked, Option.map_none, Option.map_eq_none_iff] at happrovals
      exact happrovals
  invalidated := by
    intro actor
    rw [step_invalids hok, lastInvalidate_snoc, h.invalidated]

theorem tracks_of_run (h : Run (step host) (fun _ _ => True) {} tr σ) : Tracks tr σ :=
  h.invariant tracks_nil fun _ _ _ _ _ hI _ hs => hI.step hs

/-- The stored levels are the levels that the history puts in force. -/
theorem Tracks.storedLevels (h : Tracks tr σ) {row : Approvals}
    (hrow : (σ.approvals p)[n]? = some row)
    (hprovided : row.providedApprovals = outstanding p n since) :
    storedLevels σ p n = levelsInForce tr since p n := by
  rw [storedLevels_of_some hrow, hprovided, levelsInForce]
  refine congrArg (List.map Approval.level) (List.filter_congr ?_)
  intro a _
  rw [inForce, h.invalidated]
  cases lastInvalidate tr a.level.actor with
  | none => simp
  | some t => simp

/-! ### Who made the outstanding approvals -/

/-- A single call adds no approval but its own. -/
theorem mem_of_mem_outstandingStep {l : List Approval} {a : Approval}
    (h : a ∈ outstandingStep p n l c) :
    a ∈ l ∨ (∃ hash, c.2 = .approve p n a.level hash) ∧ a.time = c.1.currentTimePoint := by
  obtain ⟨ctx, call⟩ := c
  cases call with
  | approve p' n' level hash =>
    simp only [outstandingStep] at h
    split_ifs at h with hk
    · obtain ⟨rfl, rfl⟩ := hk
      rcases List.mem_append.mp h with h | h
      · exact .inl h
      · obtain rfl := List.mem_singleton.mp h
        exact .inr ⟨⟨hash, rfl⟩, rfl⟩
    · exact .inl h
  | unapprove p' n' level =>
    simp only [outstandingStep] at h
    split_ifs at h with hk
    · exact .inl (List.mem_of_mem_eraseP h)
    · exact .inl h
  | _ => exact .inl h

/-- An outstanding approval was made by an `approve` among the calls. -/
theorem exists_approve_of_mem_outstanding {a : Approval} (h : a ∈ outstanding p n since) :
    ∃ c ∈ since, (∃ hash, c.2 = .approve p n a.level hash) ∧ a.time = c.1.currentTimePoint := by
  induction since using List.reverseRecOn with
  | nil => exact absurd h List.not_mem_nil
  | append_singleton since c ih =>
    rw [outstanding_snoc] at h
    rcases mem_of_mem_outstandingStep h with h | h
    · obtain ⟨d, hd, happrove⟩ := ih h
      exact ⟨d, List.mem_append_left _ hd, happrove⟩
    · exact ⟨c, by simp, h⟩

/-- In a run every `approve` was authorised by its level. -/
theorem authorised_of_run (h : Run (step host) (fun _ _ => True) {} tr σ) :
    ∀ c ∈ tr, ∀ (p n : Name) (level : PermissionLevel) (hash : Option Checksum256),
      c.2 = .approve p n level hash → c.1.hasPermission level := by
  refine h.invariant (I := fun tr _ => ∀ c ∈ tr, ∀ (p n : Name) (level : PermissionLevel)
    (hash : Option Checksum256), c.2 = .approve p n level hash → c.1.hasPermission level)
    (by simp) ?_
  intro tr σ c σ' _ hI _ hs d hd p n level hash hcall
  rcases List.mem_append.mp hd with hd | hd
  · exact hI d hd p n level hash hcall
  · obtain rfl := List.mem_singleton.mp hd
    rw [step, hcall] at hs
    exact (approve_ok hs).1

/-! ### Execution -/

/-- Without a new `propose` a proposal that is gone stays gone. -/
theorem gone_of_run {guard : State → Context × Call → Prop}
    (h : Run (step host) guard σ tr σ') (hgone : (σ.proposals p)[n]? = none)
    (hnew : ∀ c ∈ tr, ∀ requested trx, c.2 ≠ .propose p n requested trx) :
    (σ'.proposals p)[n]? = none := by
  refine h.invariant (I := fun tr s =>
    (∀ c ∈ tr, ∀ requested trx, c.2 ≠ .propose p n requested trx) → (s.proposals p)[n]? = none)
    (fun _ => hgone) ?_ hnew
  intro tr s c s' _ hI _ hs hnew
  have hold := hI fun d hd => hnew d (List.mem_append_left _ hd)
  rcases step_cases hs p n with ⟨requested, trx, hc, -⟩ | ⟨-, hgone', -⟩ | ⟨-, hpacked, -⟩
  · exact absurd hc (hnew c (by simp) requested trx)
  · exact hgone'
  · rwa [hold, Option.map_none, Option.map_eq_none_iff] at hpacked

/-- The actions that a packed transaction decodes to: its header, no context-free action, and
its actions. -/
def Host.Packs (host : Host) (trx : Bytes) (header : TransactionHeader) (actions : List Action) :
    Prop :=
  ∃ ds ds' ds'', host.readHeader trx = .ok (header, ds) ∧ host.readActions ds = .ok ([], ds') ∧
    host.readActions ds' = .ok (actions, ds'')

/-- **Multisig execution safety.** Whenever `exec` succeeds after a run,

* it sends exactly the actions of the transaction packed by the `propose` of the instance now
  stored, which has not been cancelled or executed since;
* the chain authorised that transaction by exactly the levels in force, each of whose approvals
  was made on this instance under the authority of its level;
* the time, in whole seconds, is not after the transaction's expiration;
* the instance is used up: until it is proposed again no `exec` of it succeeds. -/
theorem exec_safe (hrun : Run (step host) (fun _ _ => True) {} tr σ) {ctx : Context}
    {executer : Name} {actions : List Action}
    (hexec : exec host ctx σ p n executer = .ok (σ', actions)) :
    ∃ trx header since, InstanceOf tr p n trx since ∧
      ((σ.proposals p)[n]?).map Proposal.packedTransaction = some trx ∧
      host.Packs trx header actions ∧
      host.authorized trx (levelsInForce tr since p n) = true ∧
      (∀ a ∈ outstanding p n since, ∃ c ∈ since, (∃ hash, c.2 = .approve p n a.level hash) ∧
        a.time = c.1.currentTimePoint ∧ c.1.hasPermission a.level) ∧
      ctx.currentTimePoint / 1000000 ≤ header.expiration.toNat ∧
      ∀ more σ₂, Run (step host) (fun _ _ => True) σ' more σ₂ →
        (∀ c ∈ more, ∀ requested trx, c.2 ≠ .propose p n requested trx) →
        ∀ ctx₂ executer₂ r, exec host ctx₂ σ₂ p n executer₂ ≠ .ok r := by
  have htracks := tracks_of_run hrun
  obtain ⟨proposal, header, ds, ds', ds'', hproposal, hheader, htime, hcfa, hactions, hauth, -,
    rfl⟩ := exec_ok hexec
  obtain ⟨since, row, hinstance, hrow, hprovided⟩ := htracks.stored p n proposal hproposal
  rw [htracks.storedLevels hrow hprovided] at hauth
  refine ⟨proposal.packedTransaction, header, since, hinstance, by rw [hproposal]; rfl,
    ⟨ds, ds', ds'', hheader, hcfa, hactions⟩, hauth, ?_, ?_, ?_⟩
  · intro a ha
    obtain ⟨c, hc, ⟨hash, hcall⟩, htime⟩ := exists_approve_of_mem_outstanding ha
    obtain ⟨before, ctx₀, requested, rfl, -⟩ := hinstance
    have hmem : c ∈ before ++ (ctx₀, .propose p n requested proposal.packedTransaction) :: since :=
      List.mem_append_right _ (List.mem_cons_of_mem _ hc)
    exact ⟨c, hc, ⟨hash, hcall⟩, htime, authorised_of_run hrun c hmem p n a.level hash hcall⟩
  · rw [UInt32.le_iff_toNat_le, Context.currentTimePoint, toNat_sec_timeOfSlot] at htime
    exact htime
  · rintro more σ₂ hmore hnew ctx₂ executer₂ ⟨σ₃, actions₂⟩ hagain
    have hgone : (((σ.eraseApprovals p n).eraseProposal p n).proposals p)[n]? = none := by simp
    obtain ⟨proposal₂, -, -, -, -, hproposal₂, -⟩ := exec_ok hagain
    exact nomatch (gone_of_run hmore hgone hnew).symm.trans hproposal₂

/-! ### A run -/

/-- A little-endian number. -/
def littleEndian (bs : Bytes) : ℕ := bs.foldr (fun b v => b.toNat + 256 * v) 0

/-- The name in the first eight bytes. -/
def nameAt (bs : Bytes) : Name := ⟨UInt64.ofNat (littleEndian (bs.take 8))⟩

/-- A chain on which `alice@active` authorises everything, with the decoding of a transaction
that has at most one action, with one authorisation and no data, and one-byte varints. -/
def aliceHost : Host where
  authorized _ levels := ⟨.ofString "alice", .ofString "active"⟩ ∈ levels
  sha256 _ := Vector.replicate 32 0
  readHeader bs := do
    check (13 ≤ bs.length) "datastream attempted to read past the end"
    pure (⟨UInt32.ofNat (littleEndian (bs.take 4)), (bs.getD 12 0).toUInt32⟩, bs.drop 13)
  readActions bs := do
    check (bs ≠ []) "datastream attempted to read past the end"
    if bs.getD 0 0 = 0 then pure ([], bs.drop 1)
    else
      check (35 ≤ bs.length) "datastream attempted to read past the end"
      pure ([⟨nameAt (bs.drop 1), nameAt (bs.drop 9), [⟨nameAt (bs.drop 18), nameAt (bs.drop 26)⟩],
        []⟩], bs.drop 35)

/-- A transaction without delay that expires at `2 ^ 32 - 1`, with no context-free action and
one action without data. -/
def packedSample : Bytes :=
  [255, 255, 255, 255, 0, 0, 0, 0, 0, 0, 0, 0, 0] ++ [0] ++
    ([1] ++ [1, 0, 0, 0, 0, 0, 0, 0] ++ [2, 0, 0, 0, 0, 0, 0, 0] ++
      [1] ++ [3, 0, 0, 0, 0, 0, 0, 0] ++ [4, 0, 0, 0, 0, 0, 0, 0] ++ [0]) ++ [0]

/-- Alice proposes the transaction and approves it. -/
def proposeAndApprove : List (Context × Call) :=
  let ctx := Context.permissive (.ofString "eosio.msig")
  let alice := Name.ofString "alice"
  [(ctx, .propose alice (.ofString "pay") [⟨alice, .ofString "active"⟩] packedSample),
    (ctx, .approve alice (.ofString "pay") ⟨alice, .ofString "active"⟩ none)]

theorem exec_safe_proposeAndApprove :
    ∃ σ, Run (step aliceHost) (fun _ _ => True) {} proposeAndApprove σ ∧
      ∃ trx header since,
        InstanceOf proposeAndApprove (.ofString "alice") (.ofString "pay") trx since ∧
        aliceHost.Packs trx header [⟨⟨1⟩, ⟨2⟩, [⟨⟨3⟩, ⟨4⟩⟩], []⟩] ∧
        aliceHost.authorized trx
          (levelsInForce proposeAndApprove since (.ofString "alice") (.ofString "pay")) = true := by
  obtain ⟨σ, hσ, hexec⟩ := returns_iff.mp (show returns
    (proposeAndApprove.foldlM (step aliceHost) {}) (fun σ =>
      returns (exec aliceHost (.permissive (.ofString "eosio.msig")) σ (.ofString "alice")
        (.ofString "pay") (.ofString "bob"))
        (fun r => r.2 = [⟨⟨1⟩, ⟨2⟩, [⟨⟨3⟩, ⟨4⟩⟩], []⟩])) = true by decide)
  have hrun : Run (step aliceHost) (fun _ _ => True) {} proposeAndApprove σ :=
    Run.of_foldlM (fun _ _ _ => trivial) hσ
  obtain ⟨⟨σ', actions⟩, hok, hactions⟩ := returns_iff.mp hexec
  obtain rfl := of_decide_eq_true hactions
  obtain ⟨trx, header, since, hinstance, -, hpacks, hauth, -⟩ := exec_safe hrun hok
  exact ⟨σ, hrun, trx, header, since, hinstance, hpacks, hauth⟩

end Twig.Msig
