import Twig.System.Schedule

/-!
# The pace of the schedule updates

`onblock` means to update the schedule once a minute: in a block that is more than
`blocks_per_minute` slots after the last update. The slot of the last update is written to the
`global` singleton by `update_elected_producers` and overwritten by `onblock`, so it is always
zero, and every block past the first minute counts as due.

* `updates_eq` — the blocks that update the schedule are those past the first minute;
* `throttled_iff` — updates are far apart exactly when these blocks are;
* `not_throttled` — two updates in blocks that follow each other.
-/

namespace Twig.System

open Std Fallible

variable {hashes : Hashes} {host : Host} {ctx : Context}

/-- The slot of a block that updates the schedule. -/
def updateSlot (σ : State) (header : BlockHeader) : List UInt32 :=
  match σ.global with
  | none => []
  | some global => if updateDue global header.timestamp then [header.timestamp] else []

/-- The state, with the slots of the blocks in which `update_elected_producers` ran. -/
structure Updates where
  state : State
  updates : List UInt32 := []

def Updates.step (hashes : Hashes) (host : Host) (w : Updates) : BlockEvent → Outcome Updates
  | .onblock ctx header => do
    let res ← System.onblock hashes host ctx w.state header
    pure { state := res.state, updates := w.updates ++ updateSlot w.state header }
  | .producers producers => pure { w with state.producers := producers }
  | .finalizers finalizers => pure { w with state.finalizers := finalizers }

/-- The slots of the blocks of a run. -/
def slotsOf (tr : List BlockEvent) : List UInt32 :=
  tr.flatMap fun
    | .onblock _ header => [header.timestamp]
    | _ => []

/-- The slots lie more than a minute apart. -/
def MinuteApart (slots : List UInt32) : Prop :=
  slots.Pairwise fun s t => s.toNat + blocksPerMinute.toNat < t.toNat

instance : DecidablePred MinuteApart := fun slots =>
  inferInstanceAs (Decidable (slots.Pairwise _))

variable {w : Updates} {tr : List BlockEvent}

/-- **Every block past the first minute updates the schedule.** -/
theorem updates_eq {σ : State} (hglobal : σ.global = some {})
    (hrun : Run (Updates.step hashes host) (fun _ _ => True) { state := σ } tr w) :
    w.state.global = some {} ∧ w.updates = (slotsOf tr).filter (blocksPerMinute < ·) := by
  refine hrun.invariant (I := fun tr (w : Updates) => w.state.global = some {} ∧
    w.updates = (slotsOf tr).filter (blocksPerMinute < ·)) ⟨hglobal, rfl⟩ ?_
  intro tr w e w' _ hI _ hs
  obtain ⟨hglobal, hupdates⟩ := hI
  cases e with
  | onblock ctx header =>
    simp only [Updates.step, bind_eq_ok_iff, pure_eq_ok_iff] at hs
    obtain ⟨res, hres, rfl⟩ := hs
    refine ⟨(onblock_spec hglobal hres).1, ?_⟩
    -- nothing is subtracted from the slot
    have hdue : updateDue {} header.timestamp = decide (blocksPerMinute < header.timestamp) := by
      rw [updateDue]
      exact congrArg (fun s => decide (blocksPerMinute < s)) (UInt32.sub_zero _)
    have hslot : updateSlot w.state header = [header.timestamp].filter (blocksPerMinute < ·) := by
      simp only [updateSlot, hglobal, hdue, List.filter_singleton, Bool.cond_eq_ite]
    rw [hupdates, hslot, slotsOf, slotsOf, List.flatMap_append, List.filter_append]
    rfl
  | producers producers =>
    obtain rfl := pure_eq_ok_iff.mp hs
    exact ⟨hglobal, by simpa [slotsOf] using hupdates⟩
  | finalizers finalizers =>
    obtain rfl := pure_eq_ok_iff.mp hs
    exact ⟨hglobal, by simpa [slotsOf] using hupdates⟩

/-- **When updates are throttled.** From the state after `init`, in every run of blocks and of
changes to the producers and the finalizers, the updates of the schedule are more than a minute
apart if and only if the blocks past the first minute are. -/
theorem throttled_iff {σ₀ σ : State} (hinit : init ctx σ₀ false = .ok σ)
    (hrun : Run (Updates.step hashes host) (fun _ _ => True) { state := σ } tr w) :
    MinuteApart w.updates ↔ MinuteApart ((slotsOf tr).filter (blocksPerMinute < ·)) := by
  have hglobal : σ.global = some {} := by rw [init_ok hinit]
  obtain ⟨-, hupdates⟩ := updates_eq hglobal hrun
  rw [hupdates]

/-- Two blocks, at these slots. -/
def blocksAt (first second : UInt32) : List BlockEvent :=
  [.onblock systemContext (headerAt first 1), .onblock systemContext (headerAt second 2)]

/-- The run of `blocksAt`, from the state after `init`. -/
theorem blocksAt_run (first second : UInt32)
    (hrun : returns (init systemContext {} false) (fun σ =>
      returns ((blocksAt first second).foldlM (Updates.step zeroHashes plainHost)
        { state := σ }) fun _ => true) = true) :
    ∃ σ w, init systemContext {} false = .ok σ ∧
      Run (Updates.step zeroHashes plainHost) (fun _ _ => True) { state := σ }
        (blocksAt first second) w := by
  obtain ⟨σ, hinit, hsteps⟩ := returns_iff.mp hrun
  obtain ⟨w, hw, -⟩ := returns_iff.mp hsteps
  exact ⟨σ, w, hinit, Run.of_foldlM (fun _ _ _ => trivial) hw⟩

/-- Updates at the slots 61 and 122. -/
theorem throttled_iff_minuteApart :
    ∃ σ w, init systemContext {} false = .ok σ ∧
      Run (Updates.step zeroHashes plainHost) (fun _ _ => True) { state := σ }
        (blocksAt 61 122) w ∧ MinuteApart w.updates := by
  obtain ⟨σ, w, hinit, hrun⟩ := blocksAt_run 61 122 (by decide +kernel)
  refine ⟨σ, w, hinit, hrun, (throttled_iff hinit hrun).mpr ?_⟩
  decide +kernel

/-- Updates in two blocks that follow each other. -/
theorem not_throttled :
    ∃ σ w, init systemContext {} false = .ok σ ∧
      Run (Updates.step zeroHashes plainHost) (fun _ _ => True) { state := σ }
        (blocksAt 61 62) w ∧ (slotsOf (blocksAt 61 62)).Pairwise (· < ·) ∧
      w.updates = [61, 62] ∧ ¬ MinuteApart w.updates := by
  obtain ⟨σ, w, hinit, hrun⟩ := blocksAt_run 61 62 (by decide +kernel)
  have hglobal : σ.global = some {} := by rw [init_ok hinit]
  have hupdates : w.updates = [61, 62] := (updates_eq hglobal hrun).2
  refine ⟨σ, w, hinit, hrun, by decide, hupdates, ?_⟩
  rw [hupdates]
  decide

end Twig.System
