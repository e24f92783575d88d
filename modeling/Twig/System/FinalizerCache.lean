import Twig.System.Producers

/-!
# The cache of the last proposed finalizers

The functions over `_last_prop_finalizers_cached`, an optional that is disengaged when an action
starts and lives as long as the action. Here every dereference of it is a step that can fail
(`deref`), where `Twig.System.Producers` reads on with whatever a disengaged optional yields.

An assignment from empty braces resets the optional; it does not engage it with an empty list. So
the cache is filled from a row of `lastpropfins`, and only from a row.

* `getLastProposedFinalizers_sound` and its companions — where no dereference fails, the functions
  are those of `Twig.System.Producers`;
* `Current.step` — with a row, a call returns, and the cache stays current;
* `cache_coherent_iff` — the cache is coherent exactly when there is a row, or no call.
-/

namespace Twig.System

open Fallible

/-- The optional, and the row of `lastpropfins`, during an action. -/
structure FinalizerCache where
  cached : Option (List FinalizerAuthInfo) := none
  lastpropfins : Option (List FinalizerAuthInfo)

namespace FinalizerCache

/-! ### The functions -/

/-- `get_last_proposed_finalizers`. -/
def getLastProposedFinalizers (s : FinalizerCache) :
    Outcome (FinalizerCache × List FinalizerAuthInfo) := do
  let s :=
    if s.cached.isSome then s
    else
      match s.lastpropfins with
      -- `{}` is an optional without a value
      | none => { s with cached := none }
      | some lastProposedFinalizers => { s with cached := some lastProposedFinalizers }
  let lastProposedFinalizers ← deref s.cached
  pure (s, lastProposedFinalizers)

/-- `is_savanna_consensus`. -/
def isSavannaConsensus (s : FinalizerCache) : Outcome (FinalizerCache × Bool) := do
  let (s, lastProposedFinalizers) ← s.getLastProposedFinalizers
  pure (s, !lastProposedFinalizers.isEmpty)

/-- `set_proposed_finalizers`, with the policy that it establishes. -/
def setProposedFinalizers (s : FinalizerCache) (proposedFinalizers : List FinalizerAuthInfo) :
    Outcome (FinalizerCache × Option FinalizerPolicy) := do
  let proposedFinalizers :=
    proposedFinalizers.insertionSort fun lhs rhs => lhs.keyId ≤ rhs.keyId
  let (s, lastProposedFinalizers) ← s.getLastProposedFinalizers
  if proposedFinalizers == lastProposedFinalizers then pure (s, none)
  else
    let finalizerAuthorities := proposedFinalizers.map FinalizerAuthInfo.finAuthority
    let finPolicy : FinalizerPolicy :=
      { threshold := .ofNat (finalizerAuthorities.length * 2 / 3 + 1)
        finalizers := finalizerAuthorities }
    let s := { s with lastpropfins := some proposedFinalizers }
    if s.cached.isSome then
      -- the swap writes through the optional
      let _ ← deref s.cached
      pure ({ s with cached := some proposedFinalizers }, some finPolicy)
    else pure ({ s with cached := some proposedFinalizers }, some finPolicy)

/-- A call of one of the three. -/
inductive Call
  | isSavannaConsensus
  | getLastProposedFinalizers
  | setProposedFinalizers (proposedFinalizers : List FinalizerAuthInfo)

def step (s : FinalizerCache) : Call → Outcome FinalizerCache
  | .isSavannaConsensus => do
    let (s, _) ← s.isSavannaConsensus
    pure s
  | .getLastProposedFinalizers => do
    let (s, _) ← s.getLastProposedFinalizers
    pure s
  | .setProposedFinalizers proposedFinalizers => do
    let (s, _) ← s.setProposedFinalizers proposedFinalizers
    pure s

/-! ### Where no dereference fails -/

section Sound

variable (host : Host) {s s' : FinalizerCache}

theorem getLastProposedFinalizers_sound {l : List FinalizerAuthInfo}
    (hok : s.getLastProposedFinalizers = .ok (s', l)) :
    System.getLastProposedFinalizers host s.cached s.lastpropfins = (s'.cached, l) ∧
      s'.cached = some l ∧ s'.lastpropfins = s.lastpropfins := by
  obtain ⟨cached, lastpropfins⟩ := s
  simp only [getLastProposedFinalizers, bind_eq_ok_iff, deref_eq_ok_iff, pure_eq_ok_iff] at hok
  obtain ⟨l', hengaged, hpair⟩ := hok
  obtain ⟨rfl, rfl⟩ := Prod.mk.inj hpair
  rcases cached with _ | c
  · rcases lastpropfins with _ | row
    · exact absurd hengaged (by simp)
    · obtain rfl : row = l' := Option.some.inj hengaged
      exact ⟨rfl, rfl, rfl⟩
  · obtain rfl : c = l' := Option.some.inj hengaged
    exact ⟨rfl, rfl, rfl⟩

theorem isSavannaConsensus_sound {answer : Bool}
    (hok : s.isSavannaConsensus = .ok (s', answer)) :
    System.isSavannaConsensus host s.cached s.lastpropfins = (s'.cached, answer) := by
  simp only [isSavannaConsensus, bind_eq_ok_iff, pure_eq_ok_iff] at hok
  obtain ⟨⟨s₁, l⟩, hread, hpair⟩ := hok
  obtain ⟨rfl, rfl⟩ := Prod.mk.inj hpair
  rw [System.isSavannaConsensus, (getLastProposedFinalizers_sound host hread).1]

theorem setProposedFinalizers_sound {proposed : List FinalizerAuthInfo}
    {policy : Option FinalizerPolicy}
    (hok : s.setProposedFinalizers proposed = .ok (s', policy)) :
    System.setProposedFinalizers host proposed s.cached s.lastpropfins =
      (s'.lastpropfins, s'.cached, policy) := by
  rw [setProposedFinalizers, bind_eq_ok_iff] at hok
  obtain ⟨⟨s₁, l⟩, hread, hok⟩ := hok
  obtain ⟨hsame, hengaged, hrow⟩ := getLastProposedFinalizers_sound host hread
  rw [System.setProposedFinalizers, hsame]
  dsimp only at hok ⊢
  split_ifs at hok ⊢ with heq hsome
  · obtain ⟨rfl, rfl⟩ := Prod.mk.inj (pure_eq_ok_iff.mp hok)
    rw [hrow]
  · simp only [bind_eq_ok_iff, pure_eq_ok_iff] at hok
    obtain ⟨-, -, hpair⟩ := hok
    obtain ⟨rfl, rfl⟩ := Prod.mk.inj hpair
    rfl
  · obtain ⟨rfl, rfl⟩ := Prod.mk.inj (pure_eq_ok_iff.mp hok)
    rfl

end Sound

/-! ### The calls of an action -/

variable {s : FinalizerCache}

/-- There is a row, and an engaged optional holds its list. -/
structure Current (s : FinalizerCache) : Prop where
  stored : s.lastpropfins.isSome
  cached : s.cached = none ∨ s.cached = s.lastpropfins

/-- **A read with a row** is of the list in the row, and fills the cache with it. -/
theorem Current.read (h : s.Current) :
    s.getLastProposedFinalizers =
      .ok ({ s with cached := s.lastpropfins }, s.lastpropfins.getD []) := by
  obtain ⟨row, hrow⟩ := Option.isSome_iff_exists.mp h.stored
  obtain ⟨cached, lastpropfins⟩ := s
  obtain rfl : lastpropfins = some row := hrow
  rcases h.cached with hcached | hcached
  · obtain rfl : cached = none := hcached
    rfl
  · obtain rfl : cached = some row := hcached
    rfl

/-- **A call with a row** returns, and keeps the cache current. -/
theorem Current.step (h : s.Current) (c : Call) : ∃ s', s.step c = .ok s' ∧ s'.Current := by
  have hread : ({ s with cached := s.lastpropfins } : FinalizerCache).Current :=
    ⟨h.stored, .inr rfl⟩
  cases c with
  | isSavannaConsensus =>
    refine ⟨_, ?_, hread⟩
    rw [FinalizerCache.step, isSavannaConsensus, h.read]
    rfl
  | getLastProposedFinalizers =>
    refine ⟨_, ?_, hread⟩
    rw [FinalizerCache.step, h.read]
    rfl
  | setProposedFinalizers proposed =>
    rw [FinalizerCache.step, setProposedFinalizers, h.read]
    dsimp only [ok_bind]
    split_ifs with heq hsome
    · exact ⟨_, rfl, hread⟩
    · obtain ⟨row, hrow⟩ := Option.isSome_iff_exists.mp h.stored
      rw [hrow]
      exact ⟨_, rfl, ⟨rfl, .inr rfl⟩⟩
    · exact ⟨_, rfl, ⟨rfl, .inr rfl⟩⟩

theorem Current.run (h : s.Current) (calls : List Call) :
    ∃ s', calls.foldlM FinalizerCache.step s = .ok s' ∧ s'.Current :=
  exists_foldlM (fun c _ _ hcurrent => hcurrent.step c) h

/-- **No call returns without a row**, while the optional is disengaged. -/
theorem step_error (hcached : s.cached = none) (hrow : s.lastpropfins = none) (c : Call) :
    s.step c = .error .deref := by
  have hread : s.getLastProposedFinalizers = .error .deref := by
    rw [getLastProposedFinalizers, hcached, hrow]
    rfl
  cases c with
  | isSavannaConsensus =>
    rw [FinalizerCache.step, isSavannaConsensus, hread]
    rfl
  | getLastProposedFinalizers =>
    rw [FinalizerCache.step, hread]
    rfl
  | setProposedFinalizers proposed =>
    rw [FinalizerCache.step, setProposedFinalizers, hread]
    rfl

/-- The cache is coherent over the calls of an action: each of them finds the optional engaged
wherever it dereferences it, and reads through it what the row holds at that moment, or the empty
list where there is no row. -/
def Coherent (lastpropfins : Option (List FinalizerAuthInfo)) (calls : List Call) : Prop :=
  ∀ before c after, calls = before ++ c :: after →
    ∃ s s₁ s', before.foldlM FinalizerCache.step { lastpropfins } = .ok s ∧
      s.getLastProposedFinalizers = .ok (s₁, s.lastpropfins.getD []) ∧ s.step c = .ok s'

/-- **When the cache is coherent.** For every content of the table and every sequence of calls
within one action: the cache is coherent if and only if the table has a row when the action
starts, or nothing is called. -/
theorem cache_coherent_iff (lastpropfins : Option (List FinalizerAuthInfo)) (calls : List Call) :
    Coherent lastpropfins calls ↔ lastpropfins.isSome ∨ calls = [] := by
  constructor
  · intro hcoherent
    cases calls with
    | nil => exact .inr rfl
    | cons c calls =>
      obtain ⟨s, s₁, s', hnone, -, hstep⟩ := hcoherent [] c calls rfl
      obtain rfl := pure_eq_ok_iff.mp hnone
      refine .inl (Option.isSome_iff_ne_none.mpr fun hrow => ?_)
      rw [step_error rfl hrow] at hstep
      exact absurd hstep (by simp)
  · rintro (hrow | rfl)
    · intro before c after _
      have hstart : ({ lastpropfins } : FinalizerCache).Current := ⟨hrow, .inl rfl⟩
      obtain ⟨s, hbefore, hcurrent⟩ := hstart.run before
      obtain ⟨s', hstep, -⟩ := hcurrent.step c
      exact ⟨s, _, s', hbefore, hcurrent.read, hstep⟩
    · intro before c after hnil
      exact absurd hnil (by simp)

/-- The first question after the consensus of a chain without a row. -/
theorem cache_incoherent : ¬ Coherent none [.isSavannaConsensus] := by
  intro hcoherent
  obtain ⟨s, s₁, s', hnone, -, hstep⟩ := hcoherent [] .isSavannaConsensus [] rfl
  obtain rfl := pure_eq_ok_iff.mp hnone
  rw [step_error rfl rfl] at hstep
  exact absurd hstep (by simp)

end FinalizerCache

end Twig.System
