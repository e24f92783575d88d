import Twig.System.Onblock
import Twig.Lib.Run

/-!
# The producer schedule

The sizes of the schedules that successive blocks propose. `update_elected_producers` is meant
to propose none that is smaller than the last one, which it reads from the `global` singleton;
but `onblock` stores its own copy of the singleton afterwards, so the size read is always zero.

* `onblock_spec` — a block that updates the schedule proposes all producers that are eligible,
  and leaves `global` as it found it;
* `schedule_grows_iff` — the sizes never fall if and only if the numbers of eligible producers
  never do;
* `schedule_shrinks` — two producers are proposed, then one.
-/

namespace Twig.System

open Std Fallible

/-! ### Eligible producers -/

/-- The producer has votes and is active. -/
def electable (row : Producer) : Bool := decide (0 < row.totalVotes) && row.isActive

theorem electable_iff {row : Producer} :
    electable row = true ↔ 0 < row.totalVotes ∧ row.isActive = true := by
  simp [electable]

def hasActiveKey (finalizers : Table Name Finalizer) (owner : Name) : Bool :=
  match finalizers[owner]? with
  | none => false
  | some finalizer => !finalizer.activeKeyBinary.isEmpty

/-- Those of the listed producers that have an active finalizer key, up to the first one that is
not electable. -/
def keyed (finalizers : Table Name Finalizer) (l : List (Name × Producer)) : ℕ :=
  (l.takeWhile fun e => electable e.2).countP fun e => hasActiveKey finalizers e.1

/-- The number of eligible producers: the first 21 that have an active finalizer key, in the order
of `prototalvote` up to the first one that is not electable. Those without a key do not count. -/
def eligible (σ : State) : ℕ := min 21 (keyed σ.finalizers (prototalvote σ.producers))

variable {finalizers : Table Name Finalizer}

/-- A producer with its finalizer, if that has an active key. -/
def withKey (finalizers : Table Name Finalizer) (e : Name × Producer) :
    Option (Name × Producer × Finalizer) :=
  match finalizers[e.1]? with
  | none => none
  | some finalizer =>
    if finalizer.activeKeyBinary.isEmpty then none else some (e.1, e.2, finalizer)

theorem isSome_withKey (e : Name × Producer) :
    (withKey finalizers e).isSome = hasActiveKey finalizers e.1 := by
  rw [withKey, hasActiveKey]
  cases finalizers[e.1]? with
  | none => rfl
  | some finalizer => cases hempty : finalizer.activeKeyBinary.isEmpty <;> simp [hempty]

/-- **The loop takes the first producers with an active key**, up to the first one that is not
electable, and up to 21 in all. -/
theorem electProducers_eq (l : List (Name × Producer)) :
    ∀ top : List (Name × Producer × Finalizer), top.length ≤ 21 →
      electProducers finalizers l top =
        top ++ ((l.takeWhile fun e => electable e.2).filterMap (withKey finalizers)).take
          (21 - top.length) := by
  induction l with
  | nil =>
    intro top _
    simp [electProducers]
  | cons e l ih =>
    intro top htop
    obtain ⟨owner, row⟩ := e
    simp only [electProducers, ← electable_iff]
    rcases lt_or_eq_of_le htop with hroom | hfull
    · by_cases hrow : electable row = true
      · rw [if_pos ⟨hroom, hrow⟩, List.takeWhile_cons, if_pos hrow, List.filterMap_cons, withKey]
        cases finalizers[owner]? with
        | none => exact ih top htop
        | some finalizer =>
          simp only
          -- a producer without an active key is passed over
          split_ifs
          · exact ih top htop
          · obtain ⟨n, hn⟩ : ∃ n, 21 - top.length = n + 1 := ⟨20 - top.length, by omega⟩
            have hone := ih (top ++ [(owner, row, finalizer)]) (by simp; omega)
            rw [List.length_append, List.length_singleton, ← Nat.sub_sub, hn,
              Nat.add_sub_cancel] at hone
            rw [hone, hn, List.take_succ_cons, List.append_assoc]
            rfl
      · rw [if_neg fun h => hrow h.2, List.takeWhile_cons, if_neg hrow]
        simp
    · rw [if_neg fun h => by omega, hfull]
      simp

/-- The loop elects the eligible producers. -/
theorem length_electProducers (l : List (Name × Producer)) :
    (electProducers finalizers l []).length = min 21 (keyed finalizers l) := by
  rw [electProducers_eq l [] (Nat.zero_le 21), List.nil_append, List.length_take,
    List.length_filterMap_eq_countP, keyed]
  simp only [isSome_withKey]
  rfl

/-! ### What a block does -/

variable {hashes : Hashes} {host : Host} {ctx : Context} {σ σ' : State} {header : BlockHeader}

/-- **The schedule update**, when no schedule size is stored: it proposes the eligible
producers, if there are any. -/
theorem updateElectedProducers_spec {blockTime : UInt32}
    {proposed : Option (List ProducerAuthority)} {policy : Option FinalizerPolicy}
    (hglobal : σ.global = some {})
    (hok : updateElectedProducers host σ blockTime = .ok (σ', proposed, policy)) :
    (proposed.map List.length = if eligible σ = 0 then none else some (eligible σ)) ∧
      σ'.producers = σ.producers ∧ σ'.finalizers = σ.finalizers := by
  have hlength : (electProducers σ.finalizers (prototalvote σ.producers) []).length =
      eligible σ := by
    rw [length_electProducers, eligible]
  simp only [updateElectedProducers, hglobal, singletonGet, ok_bind, hlength] at hok
  rcases eq_or_ne (eligible σ) 0 with hnone | hsome
  · rw [if_pos (.inl hnone)] at hok
    obtain ⟨rfl, rfl, -⟩ := pure_eq_ok_iff.mp hok
    exact ⟨(if_pos hnone).symm, rfl, rfl⟩
  · -- the size that is compared with is zero
    have hstored : ¬ eligible σ < (0 : UInt16).toNat := Nat.not_lt_zero _
    rw [if_neg (not_or.mpr ⟨hsome, hstored⟩)] at hok
    obtain ⟨rfl, rfl, -⟩ := pure_eq_ok_iff.mp hok
    refine ⟨?_, rfl, rfl⟩
    rw [if_neg hsome, Option.map_some, List.length_insertionSort, List.length_map, hlength]

/-- **What a block does** when nothing has been stored in `global`: nothing is afterwards. If
the schedule is due, all eligible producers are proposed. -/
theorem onblock_spec {res : BlockResult} (hglobal : σ.global = some {})
    (hok : onblock hashes host ctx σ header = .ok res) :
    res.state.global = some {} ∧
      (res.proposed.map List.length =
        if updateDue {} header.timestamp ∧ eligible σ ≠ 0 then some (eligible σ) else none) := by
  simp only [onblock, hglobal, singletonGet, ok_bind, bind_eq_ok_iff, pure_eq_ok_iff] at hok
  obtain ⟨-, -, a, -, blockinfo, -, ⟨σ₁, proposed, policy⟩, hupdate, rfl⟩ := hok
  refine ⟨rfl, ?_⟩
  rw [onblockSchedule] at hupdate
  split_ifs at hupdate with hdue
  · obtain ⟨hproposed, -, -⟩ := updateElectedProducers_spec rfl hupdate
    simp only [hdue, true_and]
    rw [hproposed]
    exact (ite_not _ _ _).symm
  · obtain ⟨-, rfl, -⟩ := pure_eq_ok_iff.mp hupdate
    rw [if_neg fun h => hdue h.1]
    rfl

/-! ### Runs of blocks -/

/-- The number of eligible producers, at a block that has some and updates the schedule; no
update is ever recorded in `global`, so every block past the first minute does. -/
def eligibleWhenDue (σ : State) (timestamp : UInt32) : List ℕ :=
  if updateDue {} timestamp ∧ eligible σ ≠ 0 then [eligible σ] else []

/-- The state, with a log of the lists proposed and of the eligible producers. -/
structure Blocks where
  state : State
  proposals : List (List ProducerAuthority) := []
  counts : List ℕ := []

inductive BlockEvent
  | onblock (ctx : Context) (header : BlockHeader)
  /-- Any change of the producers. -/
  | producers (producers : Table Name Producer)
  /-- Any change of the finalizers. -/
  | finalizers (finalizers : Table Name Finalizer)

def Blocks.step (hashes : Hashes) (host : Host) (w : Blocks) : BlockEvent → Outcome Blocks
  | .onblock ctx header => do
    let res ← System.onblock hashes host ctx w.state header
    pure {
      state := res.state
      proposals := w.proposals ++ res.proposed.toList
      counts := w.counts ++ eligibleWhenDue w.state header.timestamp }
  | .producers producers => pure { w with state.producers := producers }
  | .finalizers finalizers => pure { w with state.finalizers := finalizers }

/-- **The schedule invariant**: nothing is stored in `global`, and whatever is eligible has been
proposed, however much was proposed before. -/
structure ScheduleInv (w : Blocks) : Prop where
  global : w.state.global = some {}
  sizes : w.proposals.map List.length = w.counts

variable {w w' : Blocks}

theorem ScheduleInv.step {e : BlockEvent} (h : ScheduleInv w)
    (hok : w.step hashes host e = .ok w') : ScheduleInv w' := by
  cases e with
  | producers producers =>
    obtain rfl := pure_eq_ok_iff.mp hok
    exact ⟨h.global, h.sizes⟩
  | finalizers finalizers =>
    obtain rfl := pure_eq_ok_iff.mp hok
    exact ⟨h.global, h.sizes⟩
  | onblock ctx header =>
    simp only [Blocks.step, bind_eq_ok_iff, pure_eq_ok_iff] at hok
    obtain ⟨res, hres, rfl⟩ := hok
    obtain ⟨hglobal, hproposed⟩ := onblock_spec h.global hres
    refine ⟨hglobal, ?_⟩
    rw [List.map_append, h.sizes, ← Option.toList_map, hproposed, eligibleWhenDue]
    split_ifs <;> rfl

/-- **The schedule shrinks exactly when the eligible producers do.** From the state after `init`,
in every run of blocks and of changes to the producers and the finalizers, the sizes of the
proposed lists never fall if and only if the numbers of eligible producers (`eligible`: the first 21
that have an active key) never do, at the blocks that update the schedule and have some. -/
theorem schedule_grows_iff {σ₀ σ : State} (hinit : init ctx σ₀ false = .ok σ)
    {tr : List BlockEvent}
    (hrun : Run (Blocks.step hashes host) (fun _ _ => True) { state := σ } tr w) :
    (w.proposals.map List.length).Pairwise (· ≤ ·) ↔ w.counts.Pairwise (· ≤ ·) := by
  have hglobal : σ.global = some {} := by rw [init_ok hinit]
  have h : ScheduleInv w :=
    hrun.state_invariant ⟨hglobal, rfl⟩ fun _ _ _ hI _ hs => hI.step hs
  rw [h.sizes]

/-! ### A schedule that shrinks -/

/-- Hash functions for an evaluation. -/
def zeroHashes : Hashes where
  sha256 _ := Vector.replicate 32 0
  sha512 _ := Vector.replicate 64 0

/-- A host that decodes nothing and accepts every schedule. -/
def plainHost : Host where
  sha256 _ := Vector.replicate 32 0
  decodeBlsPublicKeyToG1 _ := .error (.check "invalid bls public key")
  decodeBlsSignatureToG2 _ := .error (.check "invalid bls signature")
  blsPopVerify _ _ := false
  setProposedProducers _ := 0

def votedProducer : Producer where
  totalVotes := 1
  producerKey := []
  producerAuthority := none

/-- Producers with votes, each with a finalizer key. -/
def votedProducers (owners : List Name) : Table Name Producer :=
  owners.foldl (fun t owner => t.insert owner votedProducer) ∅

def keyedFinalizers (owners : List Name) : Table Name Finalizer :=
  owners.foldl (fun t owner => t.insert owner
    { activeKeyId := owner.value, activeKeyBinary := [1], finalizerKeyCount := 1 }) ∅

/-- A header at a slot, of a block at the height after that of `height`. -/
def headerAt (slot : UInt32) (height : UInt8) : BlockHeader where
  timestamp := slot
  producer := .ofString "alice"
  previous := .ofFn fun i => if i.val = 3 then height else 0

/-- Two blocks, with these producers at the first and those at the second. -/
def twoBlocks (first second : List Name) : List BlockEvent :=
  [.finalizers (keyedFinalizers [.ofString "alice", .ofString "bob"]),
    .producers (votedProducers first),
    .onblock systemContext (headerAt 61 1),
    .producers (votedProducers second),
    .onblock systemContext (headerAt 62 2)]

/-- The run of `twoBlocks`, with a decidable fact about the state it ends in. -/
theorem twoBlocks_run (first second : List Name) {P : Blocks → Prop} [DecidablePred P]
    (hrun : returns (init systemContext {} false) (fun σ =>
      returns ((twoBlocks first second).foldlM (Blocks.step zeroHashes plainHost)
        { state := σ }) fun w => P w) = true) :
    ∃ σ w, init systemContext {} false = .ok σ ∧
      Run (Blocks.step zeroHashes plainHost) (fun _ _ => True) { state := σ }
        (twoBlocks first second) w ∧ P w := by
  obtain ⟨σ, hinit, hsteps⟩ := returns_iff.mp hrun
  obtain ⟨w, hw, hP⟩ := returns_iff.mp hsteps
  exact ⟨σ, w, hinit, Run.of_foldlM (fun _ _ _ => trivial) hw, of_decide_eq_true hP⟩

/-- One producer is proposed, then two. -/
theorem schedule_grows_iff_oneThenTwo :
    ∃ σ w, init systemContext {} false = .ok σ ∧
      Run (Blocks.step zeroHashes plainHost) (fun _ _ => True) { state := σ }
        (twoBlocks [.ofString "alice"] [.ofString "alice", .ofString "bob"]) w ∧
      w.counts = [1, 2] ∧ (w.proposals.map List.length).Pairwise (· ≤ ·) := by
  obtain ⟨σ, w, hinit, hrun, hcounts⟩ := twoBlocks_run [.ofString "alice"]
    [.ofString "alice", .ofString "bob"] (P := fun w => w.counts = [1, 2]) (by decide +kernel)
  refine ⟨σ, w, hinit, hrun, hcounts, (schedule_grows_iff hinit hrun).mpr ?_⟩
  rw [hcounts]
  decide

/-- Two producers are proposed, then one. -/
theorem schedule_shrinks :
    ∃ σ w, init systemContext {} false = .ok σ ∧
      Run (Blocks.step zeroHashes plainHost) (fun _ _ => True) { state := σ }
        (twoBlocks [.ofString "alice", .ofString "bob"] [.ofString "alice"]) w ∧
      w.proposals.map List.length = [2, 1] ∧
      ¬ (w.proposals.map List.length).Pairwise (· ≤ ·) := by
  obtain ⟨σ, w, hinit, hrun, hsizes⟩ := twoBlocks_run [.ofString "alice", .ofString "bob"]
    [.ofString "alice"] (P := fun w => w.proposals.map List.length = [2, 1]) (by decide +kernel)
  refine ⟨σ, w, hinit, hrun, hsizes, ?_⟩
  rw [hsizes]
  decide

end Twig.System
