import Twig.System.Launch
import Twig.System.Signatures

/-!
# A contract without votes

No action of the system contract writes the votes of a producer: `regproducer` stores a new one
without any, and nothing adds some later. The schedule update and the switch to Savanna look at
the producers with votes only. So a contract that starts without votes does not propose a schedule
or a finalizer policy, ever.

* `votesOf_apply` — no action writes votes;
* `Voteless.apply` — without votes no action proposes anything;
* `inert_without_votes` — both over runs.
-/

namespace Twig.System

open Std Fallible

variable {hashes : Hashes} {host : Host} {ctx : Context} {σ σ' : State} {c c' : Contract}
  {call : Call} {effects : List Effect}

/-! ### Votes -/

theorem votesOf_insert {producers : Table Name Producer} {p : Name} {row : Producer}
    (hrow : row.totalVotes = votesOf producers p) :
    votesOf (producers.insert p row) = votesOf producers := by
  funext q
  rw [votesOf, OrdMap.elim_getElem?_insert]
  by_cases hq : p = q
  · rw [if_pos hq, hrow, hq]
  · rw [if_neg hq, votesOf]

/-- **No action writes votes.** -/
theorem votesOf_apply (hok : c.apply hashes host ctx call = .ok (c', effects)) :
    votesOf c'.state.producers = votesOf c.state.producers := by
  generalize hσ : c'.state = σ'
  have hstep := stateStep_of_apply hok
  rw [hσ] at hstep
  cases hstep with
  | producer p row hvotes => exact votesOf_insert hvotes
  | chain | rng | keys => rfl

/-! ### Proposals -/

/-- No producer has votes, and no finalizers have been proposed. -/
structure Voteless (c : Contract) : Prop where
  votes : ∀ p, votesOf c.state.producers p = 0
  unproposed : c.state.lastpropfins = none

/-- The effect changes who produces blocks, or who finalizes them. -/
def Effect.isProposal : Effect → Bool
  | .setProposedProducers _ | .setFinalizers _ => true
  | _ => false

theorem Voteless.of_mem_prototalvote (h : Voteless c) {e : Name × Producer}
    (he : e ∈ prototalvote c.state.producers) : ¬ 0 < e.2.totalVotes := by
  have hrow : c.state.producers[e.1]? = some e.2 :=
    OrdMap.mem_toList.mp (List.mem_insertionSort _ |>.mp he)
  have hzero := h.votes e.1
  rw [votesOf, hrow] at hzero
  exact hzero.not_gt

theorem electProducers_voteless {finalizers : Table Name Finalizer} {l : List (Name × Producer)}
    (h : ∀ e ∈ l, ¬ 0 < e.2.totalVotes) : electProducers finalizers l [] = [] := by
  cases l with
  | nil => rfl
  | cons e l =>
    rw [electProducers, if_neg]
    exact fun hvotes => h e List.mem_cons_self hvotes.2.1

theorem collectFinalizers_voteless {finalizers : Table Name Finalizer} {size : ℕ}
    {l : List (Name × Producer)} (h : ∀ e ∈ l, ¬ 0 < e.2.totalVotes) :
    collectFinalizers finalizers size l [] = [] := by
  cases l with
  | nil => rfl
  | cons e l =>
    rw [collectFinalizers, if_neg]
    exact fun hvotes => h e List.mem_cons_self hvotes.2.1

/-- A schedule update elects nobody, and so leaves everything as it is. -/
theorem updateElectedProducers_voteless {slot : UInt32}
    {r : State × Option (List ProducerAuthority) × Option FinalizerPolicy}
    (h : ∀ e ∈ prototalvote σ.producers, ¬ 0 < e.2.totalVotes)
    (hok : updateElectedProducers host σ slot = .ok r) : r = (σ, none, none) := by
  simp only [updateElectedProducers, electProducers_voteless h, List.length_nil, true_or, if_true,
    bind_eq_ok_iff, pure_eq_ok_iff] at hok
  obtain ⟨global, -, rfl⟩ := hok
  rfl

theorem onblock_voteless {header : BlockHeader} {res : BlockResult}
    (h : ∀ e ∈ prototalvote σ.producers, ¬ 0 < e.2.totalVotes)
    (hok : onblock hashes host ctx σ header = .ok res) :
    res.state.lastpropfins = σ.lastpropfins ∧ res.proposed = none ∧ res.policy = none := by
  obtain ⟨global, a, blockinfo, r, -, -, hr, rfl⟩ := onblock_ok hok
  have hnone : r = ({ σ with blockinfo }, none, none) := by
    rw [onblockSchedule] at hr
    split_ifs at hr
    · have hupdate := updateElectedProducers_voteless (σ := { σ with blockinfo }) h hr
      exact hupdate
    · exact (pure_eq_ok_iff.mp hr).symm
  rw [hnone]
  exact ⟨rfl, rfl, rfl⟩

/-- The switch to Savanna fails. -/
theorem Voteless.switchtosvnn_ne_ok (h : Voteless c) (hread : host.disengaged = [])
    (r : State × Option FinalizerPolicy) : switchtosvnn host ctx c.state ≠ .ok r := by
  obtain ⟨σ', policy⟩ := r
  intro hok
  obtain ⟨size, -, lastpropfins, -, -, hpropose, hsome⟩ := switchtosvnn_ok hread hok
  rw [collectFinalizers_voteless fun e => h.of_mem_prototalvote, h.unproposed] at hpropose
  obtain ⟨rfl, -⟩ := Prod.mk.inj hpropose
  exact hsome rfl

/-- **Without votes nothing is proposed**, by no action. -/
theorem Voteless.apply (h : Voteless c) (hread : host.disengaged = [])
    (hok : c.apply hashes host ctx call = .ok (c', effects)) :
    Voteless c' ∧ (∀ e ∈ effects, e.isProposal = false) ∧ call ≠ .switchtosvnn := by
  suffices hrest : c'.state.lastpropfins = none ∧ (∀ e ∈ effects, e.isProposal = false) ∧
      call ≠ .switchtosvnn by
    exact ⟨⟨fun p => by rw [votesOf_apply hok, h.votes], hrest.1⟩, hrest.2⟩
  have hnone := h.unproposed
  cases applied_of_apply hok with
  | actfinkey _ hact =>
    obtain ⟨fin, id, row, -, -, -, lastpropfins, hstate, hpropose⟩ := actfinkey_ok hread hact
    -- nothing is recorded that could be replaced
    rw [State.recorded, hnone] at hpropose
    obtain ⟨hsame, rfl⟩ := hpropose
    exact ⟨(congrArg State.lastpropfins hstate).trans hsame, by simp, by simp⟩
  | switchtosvnn _ hswitch => exact absurd hswitch (h.switchtosvnn_ne_ok hread _)
  | onblock _ hres =>
    obtain ⟨hsame, hproposed, hpolicy⟩ := onblock_voteless (fun e => h.of_mem_prototalvote) hres
    refine ⟨hsame.trans hnone, ?_, by simp⟩
    rw [hproposed, hpolicy]
    intro e he
    simp only [Option.toList_none, List.map_nil, List.nil_append, List.mem_map] at he
    obtain ⟨i, -, rfl⟩ := he
    rfl
  | onchunk | setparams | wasmcfg | activate | setpriv =>
    refine ⟨hnone, ?_, by simp⟩
    intro e he
    obtain ⟨i, -, rfl⟩ := List.mem_map.mp he
    rfl
  | _ => exact ⟨hnone, by simp, by simp⟩

/-! ### Runs -/

/-- **Without votes the contract is inert.** In every run of all actions, whoever signs them, every
producer has as many votes at the end as at the start. If at the start there are none, and no
finalizers have been proposed, then no schedule and no finalizer policy is ever proposed, and no
switch to Savanna goes through, as long as a missing row of `lastpropfins` is read as an empty
list. -/
theorem inert_without_votes {w w' : Life} {tr : List (Context × Call)}
    (hrun : Run (Life.step hashes host) (fun _ _ => True) w tr w') :
    votesOf w'.contract.state.producers = votesOf w.contract.state.producers ∧
      (host.disengaged = [] → Voteless w.contract →
        (∃ effects, w'.effects = w.effects ++ effects ∧ ∀ e ∈ effects, e.isProposal = false) ∧
        (∀ e ∈ tr, e.2 ≠ .switchtosvnn) ∧ w'.contract.state.lastpropfins = none) := by
  have hvotes : votesOf w'.contract.state.producers = votesOf w.contract.state.producers := by
    refine hrun.state_invariant (I := fun w' : Life => votesOf w'.contract.state.producers =
      votesOf w.contract.state.producers) rfl ?_
    intro w₁ e w₂ hI _ hok
    obtain ⟨effects, happly, -⟩ := Life.step_ok hok
    exact (votesOf_apply happly).trans hI
  refine ⟨hvotes, fun hread hstart => ?_⟩
  obtain ⟨hvoteless, heffects, hswitch⟩ := hrun.invariant
    (I := fun tr w' => Voteless w'.contract ∧
      (∃ effects, w'.effects = w.effects ++ effects ∧ ∀ e ∈ effects, e.isProposal = false) ∧
      ∀ e ∈ tr, e.2 ≠ .switchtosvnn)
    ⟨hstart, ⟨[], by simp⟩, by simp⟩ (by
      rintro tr w₁ e w₂ - ⟨hvoteless, ⟨before, hbefore, hquiet⟩, hswitch⟩ - hok
      obtain ⟨effects, happly, heffects⟩ := Life.step_ok hok
      obtain ⟨hvoteless', hquiet', hcall⟩ := hvoteless.apply hread happly
      refine ⟨hvoteless', ⟨before ++ effects, ?_, ?_⟩, ?_⟩
      · rw [heffects, hbefore, List.append_assoc]
      · exact List.forall_mem_append.mpr ⟨hquiet, hquiet'⟩
      · exact List.forall_mem_append.mpr ⟨hswitch, by simpa using hcall⟩)
  exact ⟨heffects, hswitch, hvoteless.unproposed⟩

/-- The tables that `init` fills. -/
def launched : Life :=
  { contract := { state := { global := some {}, aluckynumber := some {} } } }

/-- Alice registers, and a block updates the schedule. -/
def aliceRegisters : List (Context × Call) :=
  [(systemContext, .regproducer (.ofString "alice") ⟨1, [⟨[1], 1⟩]⟩ "" 0),
    (systemContext, .onblock (headerAt 61 1))]

theorem inert_without_votes_aliceRegisters :
    ∃ w, Run (Life.step zeroHashes plainHost) (fun _ _ => True) launched aliceRegisters w ∧
      (∃ row ∈ w.contract.state.producers[Name.ofString "alice"]?, row.isActive = true) ∧
      updateDue {} (headerAt 61 1).timestamp = true ∧
      ∀ e ∈ w.effects, e.isProposal = false := by
  obtain ⟨w, hw, halice⟩ := returns_iff.mp (show returns
    (aliceRegisters.foldlM (Life.step zeroHashes plainHost) launched) (fun w =>
      w.contract.state.producers[Name.ofString "alice"]?.map Producer.isActive = some true) = true
    by decide +kernel)
  have hrun : Run (Life.step zeroHashes plainHost) (fun _ _ => True) launched aliceRegisters w :=
    Run.of_foldlM (fun _ _ _ => trivial) hw
  have hstart : Voteless launched.contract := ⟨fun p => by simp [launched, votesOf], rfl⟩
  obtain ⟨row, hrow, hactive⟩ := Option.map_eq_some_iff.mp (of_decide_eq_true halice)
  obtain ⟨⟨effects, heffects, hquiet⟩, -⟩ := (inert_without_votes hrun).2 rfl hstart
  refine ⟨w, hrun, ⟨row, hrow, hactive⟩, rfl, ?_⟩
  rw [heffects]
  exact hquiet

end Twig.System
