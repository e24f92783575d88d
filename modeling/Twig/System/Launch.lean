import Twig.System.Schedule
import Twig.System.Policy

/-!
# The switch to Savanna

`switchtosvnn` turns the first finalizer policy on: it collects as many finalizers as the size of
the last schedule, which it reads from the `global` singleton. No block leaves a size there
(`onblock` stores its own copy of the singleton over the one that the schedule update wrote), so
what it collects is empty, equal to the empty record, and not proposed.

* `switch_fails` — from no state that `init` and the actions lead to does a switch go through;
* `switch_fails_eligible` — not even when a producer with votes and an active key is there.
-/

namespace Twig.System

open Std Fallible

/-! ### Runs -/

inductive LaunchEvent
  | regproducer (ctx : Context) (producer : Name) (producerAuthority : BlockSigningAuthority)
    (url : String) (location : UInt16)
  | unregprod (ctx : Context) (producer : Name)
  | rmvproducer (ctx : Context) (producer : Name)
  | regfinkey (ctx : Context) (finalizerName : Name) (finalizerKey proofOfPossession : String)
  | actfinkey (ctx : Context) (finalizerName : Name) (finalizerKey : String)
  | delfinkey (ctx : Context) (finalizerName : Name) (finalizerKey : String)
  | onblock (ctx : Context) (header : BlockHeader)
  /-- Any votes for a producer: no action writes them. -/
  | votes (producer : Name) (totalVotes : ℚ)

/-- A producer with other votes. -/
def State.setVotes (σ : State) (producer : Name) (totalVotes : ℚ) : State :=
  match σ.producers[producer]? with
  | none => σ
  | some row => { σ with producers := σ.producers.insert producer { row with totalVotes } }

def State.launchStep (hashes : Hashes) (host : Host) (σ : State) : LaunchEvent → Outcome State
  | .regproducer ctx producer producerAuthority url location =>
    regproducer ctx σ producer producerAuthority url location
  | .unregprod ctx producer => unregprod ctx σ producer
  | .rmvproducer ctx producer => rmvproducer ctx σ producer
  | .regfinkey ctx finalizerName finalizerKey proofOfPossession =>
    regfinkey host ctx σ finalizerName finalizerKey proofOfPossession
  | .actfinkey ctx finalizerName finalizerKey => do
    let (σ, _) ← actfinkey host ctx σ finalizerName finalizerKey
    pure σ
  | .delfinkey ctx finalizerName finalizerKey => delfinkey host ctx σ finalizerName finalizerKey
  | .onblock ctx header => do
    let res ← onblock hashes host ctx σ header
    pure res.state
  | .votes producer totalVotes => pure (σ.setVotes producer totalVotes)

/-! ### What stays in `global` -/

variable {hashes : Hashes} {host : Host} {ctx : Context} {σ σ' : State}

theorem regproducer_global {producer : Name} {producerAuthority : BlockSigningAuthority}
    {url : String} {location : UInt16}
    (hok : regproducer ctx σ producer producerAuthority url location = .ok σ') :
    σ'.global = σ.global := by
  simp only [regproducer, bind_eq_ok_iff, check_eq_ok_iff, exists_const] at hok
  obtain ⟨-, -, hok⟩ := hok
  split at hok
  · simp only [bind_eq_ok_iff, pure_eq_ok_iff] at hok
    obtain ⟨-, -, rfl⟩ := hok
    rfl
  · simp only [bind_eq_ok_iff, pure_eq_ok_iff] at hok
    obtain ⟨-, -, producers, -, rfl⟩ := hok
    rfl

theorem deactivateProducer_global {producer : Name}
    (hok : deactivateProducer σ producer = .ok σ') : σ'.global = σ.global := by
  simp only [deactivateProducer, bind_eq_ok_iff, pure_eq_ok_iff] at hok
  obtain ⟨row, -, rfl⟩ := hok
  rfl

/-- **No step leaves anything in `global`.** -/
theorem launchStep_global (hread : host.disengaged = []) {e : LaunchEvent}
    (h : σ.global = some {}) (hok : σ.launchStep hashes host e = .ok σ') :
    σ'.global = some {} := by
  cases e with
  | regproducer ctx producer producerAuthority url location =>
    exact (regproducer_global hok).trans h
  | unregprod ctx producer =>
    simp only [State.launchStep, unregprod, bind_eq_ok_iff] at hok
    obtain ⟨-, -, hok⟩ := hok
    exact (deactivateProducer_global hok).trans h
  | rmvproducer ctx producer =>
    simp only [State.launchStep, rmvproducer, bind_eq_ok_iff] at hok
    obtain ⟨-, -, hok⟩ := hok
    exact (deactivateProducer_global hok).trans h
  | regfinkey ctx f key pop =>
    obtain ⟨binary, -, -, rfl⟩ := regfinkey_spec hok
    exact h
  | actfinkey ctx f key =>
    simp only [State.launchStep, bind_eq_ok_iff, pure_eq_ok_iff] at hok
    obtain ⟨⟨σ₁, policy⟩, hact, rfl⟩ := hok
    obtain ⟨fin, id, row, -, -, -, lastpropfins, rfl, -⟩ := actfinkey_ok hread hact
    exact h
  | delfinkey ctx f key =>
    obtain ⟨fin, id, row, -, -, -, -, -, rfl⟩ := delfinkey_spec hok
    exact h
  | onblock ctx header =>
    simp only [State.launchStep, bind_eq_ok_iff, pure_eq_ok_iff] at hok
    obtain ⟨res, hres, rfl⟩ := hok
    exact (onblock_spec h hres).1
  | votes producer totalVotes =>
    obtain rfl := pure_eq_ok_iff.mp hok
    rw [State.setVotes]
    split
    · exact h
    · exact h

/-! ### The switch -/

/-- Nothing is collected when the size is zero. -/
theorem collectFinalizers_zero {finalizers : Table Name Finalizer} (l : List (Name × Producer)) :
    collectFinalizers finalizers 0 l [] = [] := by
  cases l with
  | nil => rfl
  | cons e l => simp [collectFinalizers]

/-- A switch without a size and without a record fails at its last check. -/
theorem switchtosvnn_fails (hread : host.disengaged = []) (hauth : ctx.hasAuth ctx.self)
    (hglobal : σ.global = some {}) (hnone : σ.lastpropfins = none) :
    switchtosvnn host ctx σ = .error (.check "switching to Savanna failed") := by
  have hempty : propose [] none = (none, none) := rfl
  simp only [switchtosvnn, isSavannaConsensus, Context.requireAuth, check, hauth, hglobal, hnone,
    singletonGet, getLastProposedFinalizers_eq (Or.inl rfl), hread, ok_bind, if_true,
    Option.getD_none, List.isEmpty_nil, Bool.not_true]
  have hsize : ({} : Global).lastProducerScheduleSize.toNat = 0 := rfl
  rw [hsize, collectFinalizers_zero, setProposedFinalizers_eq hread (Or.inl rfl), hempty]
  simp only [List.length_nil, if_true, ok_bind, getLastProposedFinalizers_eq (Or.inl rfl), hread]
  rfl

/-- **The switch to Savanna never goes through**: whatever producers and keys have been registered
and whatever blocks there have been since `init`, as long as nothing is recorded, `switchtosvnn`
aborts at its last check. -/
theorem switch_fails (hread : host.disengaged = []) {ctx₀ : Context} {σ₀ : State}
    (hinit : init ctx₀ σ₀ false = .ok σ) {tr : List LaunchEvent}
    (hrun : Run (State.launchStep hashes host) (fun _ _ => True) σ tr σ')
    (hnone : σ'.lastpropfins = none) (hauth : ctx.hasAuth ctx.self) :
    switchtosvnn host ctx σ' = .error (.check "switching to Savanna failed") := by
  have hglobal : σ.global = some {} := by rw [init_ok hinit]
  refine switchtosvnn_fails hread hauth ?_ hnone
  exact hrun.state_invariant (I := fun σ : State => σ.global = some {}) hglobal
    fun _ _ _ hI _ hs => launchStep_global hread hI hs

/-- A block, then a producer with a vote and a finalizer key. -/
def votedAndKeyed : List LaunchEvent :=
  [.onblock systemContext (headerAt 1 1),
    .regproducer systemContext registrant { threshold := 1, keys := [⟨[1], 1⟩] } "" 0,
    .votes registrant 1,
    .regfinkey systemContext registrant (lengthKey 1) "SIG_BLS"]

/-- The producer is active, has votes and a finalizer key that is active. -/
def State.isEligible (σ : State) (producer : Name) : Bool :=
  (σ.producers[producer]?).any electable && hasActiveKey σ.finalizers producer

theorem votedAndKeyed_run :
    ∃ σ σ', init systemContext {} false = .ok σ ∧
      Run (State.launchStep zeroHashes lengthHost) (fun _ _ => True) σ votedAndKeyed σ' ∧
      σ'.lastpropfins = none ∧ σ'.isEligible registrant = true ∧
      returns (switchtosvnn lengthHost systemContext σ') (fun _ => true) = false := by
  obtain ⟨σ, hinit, hsteps⟩ := returns_iff.mp (show returns (init systemContext {} false) (fun σ =>
    returns (votedAndKeyed.foldlM (State.launchStep zeroHashes lengthHost) σ) fun σ' =>
      σ'.lastpropfins.isNone && σ'.isEligible registrant &&
        !returns (switchtosvnn lengthHost systemContext σ') fun _ => true) = true by
    decide +kernel)
  obtain ⟨σ', hσ', htest⟩ := returns_iff.mp hsteps
  simp only [Bool.and_eq_true, Option.isNone_iff_eq_none, Bool.not_eq_true'] at htest
  exact ⟨σ, σ', hinit, Run.of_foldlM (fun _ _ _ => trivial) hσ', htest.1.1, htest.1.2, htest.2⟩

theorem switch_fails_votedAndKeyed :
    ∃ σ σ', init systemContext {} false = .ok σ ∧
      Run (State.launchStep zeroHashes lengthHost) (fun _ _ => True) σ votedAndKeyed σ' ∧
      switchtosvnn lengthHost systemContext σ' =
        .error (.check "switching to Savanna failed") := by
  obtain ⟨σ, σ', hinit, hrun, hnone, -⟩ := votedAndKeyed_run
  exact ⟨σ, σ', hinit, hrun, switch_fails rfl hinit hrun hnone rfl⟩

/-- Nothing is recorded and there is an eligible producer; the switch aborts. -/
theorem switch_fails_eligible :
    ∃ σ σ', init systemContext {} false = .ok σ ∧
      Run (State.launchStep zeroHashes lengthHost) (fun _ _ => True) σ votedAndKeyed σ' ∧
      σ'.lastpropfins = none ∧ σ'.isEligible registrant = true ∧
      ∀ r, switchtosvnn lengthHost systemContext σ' ≠ .ok r := by
  obtain ⟨σ, σ', hinit, hrun, hnone, heligible, hfails⟩ := votedAndKeyed_run
  refine ⟨σ, σ', hinit, hrun, hnone, heligible, ?_⟩
  intro r hr
  rw [hr] at hfails
  exact Bool.false_ne_true hfails.symm

end Twig.System
