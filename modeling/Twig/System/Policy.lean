import Twig.System.Registry
import Twig.Lib.SortedBy

/-!
# The recorded finalizer policy

The list of finalizers in `lastpropfins` against the policies passed to `set_finalizers`. Three
actions propose a list: `update_elected_producers` and `switchtosvnn` build it from the votes,
`actfinkey` replaces one entry of the recorded one; `set_proposed_finalizers` sorts, compares
and records it.

The order of the list is strict because every key id belongs to one finalizer and a proposed
list has at most one entry of each, even where it keeps the id of a key that has been deleted.

* `RecordLaw` — what the record and the policies passed so far satisfy;
* `RecordLaw.propose` — it is kept whenever a list with one entry of each owner is proposed;
* `policy_recorded` — the law of a run in which the ids do not start over;
* `policy_repeats_id` — a run in which they do, and the list has an id twice.
-/

namespace Twig.System

open Std Fallible

/-! ### What the functions do -/

variable {host : Host} {ctx : Context} {σ σ' : State}

/-- The list that `lastpropfins` records, empty when it has no row. -/
def State.recorded (σ : State) : List FinalizerAuthInfo := σ.lastpropfins.getD []

/-- The comparison of `set_proposed_finalizers` looks at the ids and the public keys. -/
def FinalizerAuthInfo.shown (e : FinalizerAuthInfo) : UInt64 × Bytes :=
  (e.keyId, e.finAuthority.publicKey)

/-- `proposed_finalizers`, in the order of the key ids. -/
def sortedByKeyId (l : List FinalizerAuthInfo) : List FinalizerAuthInfo :=
  l.insertionSort fun lhs rhs => lhs.keyId ≤ rhs.keyId

/-- The policy that is made of a sorted list. -/
def policyOf (l : List FinalizerAuthInfo) : FinalizerPolicy where
  threshold := .ofNat ((l.map FinalizerAuthInfo.finAuthority).length * 2 / 3 + 1)
  finalizers := l.map FinalizerAuthInfo.finAuthority

/-- What proposing a list comes to when the record is read as it is stored: the record
afterwards, and the policy that is passed on, if any. -/
def propose (proposed : List FinalizerAuthInfo) (lastpropfins : Option (List FinalizerAuthInfo)) :
    Option (List FinalizerAuthInfo) × Option FinalizerPolicy :=
  if (sortedByKeyId proposed).map FinalizerAuthInfo.shown =
      (lastpropfins.getD []).map FinalizerAuthInfo.shown then (lastpropfins, none)
  else (some (sortedByKeyId proposed), some (policyOf (sortedByKeyId proposed)))

theorem beq_iff_shown {l l' : List FinalizerAuthInfo} :
    (l == l') = true ↔ l.map FinalizerAuthInfo.shown = l'.map FinalizerAuthInfo.shown := by
  induction l generalizing l' with
  | nil => cases l' <;> simp
  | cons e l ih =>
    cases l' with
    | nil => simp
    | cons e' l' =>
      rw [List.cons_beq_cons, Bool.and_eq_true, ih, List.map_cons, List.map_cons, List.cons.injEq]
      refine and_congr_left' ?_
      change (e.keyId == e'.keyId && _ == _) = true ↔ _
      simp [FinalizerAuthInfo.shown]

/-- The cache of a fresh action, or one that holds what is stored. -/
theorem getLastProposedFinalizers_eq {cached lastpropfins : Option (List FinalizerAuthInfo)}
    (hcached : cached = none ∨ cached = lastpropfins) :
    getLastProposedFinalizers host cached lastpropfins =
      (lastpropfins, lastpropfins.getD host.disengaged) := by
  rcases hcached with rfl | rfl
  · rfl
  · cases cached <;> rfl

/-- `set_proposed_finalizers` proposes its list. -/
theorem setProposedFinalizers_eq (hread : host.disengaged = [])
    {proposed : List FinalizerAuthInfo} {cached lastpropfins : Option (List FinalizerAuthInfo)}
    (hcached : cached = none ∨ cached = lastpropfins) :
    setProposedFinalizers host proposed cached lastpropfins =
      ((propose proposed lastpropfins).1, (propose proposed lastpropfins).1,
        (propose proposed lastpropfins).2) := by
  rw [setProposedFinalizers, getLastProposedFinalizers_eq hcached, hread, propose]
  simp only [← beq_iff_shown, sortedByKeyId]
  split_ifs <;> rfl

/-- The loop of `switchtosvnn` collects the finalizers of some of the listed producers, each
one stored with an active key, and the list does not grow past its size. -/
theorem collectFinalizers_eq (finalizers : Table Name Finalizer) {size : ℕ}
    (l : List (Name × Producer)) : ∀ acc : List FinalizerAuthInfo, acc.length ≤ size →
      ∃ elected : List (Name × Finalizer),
        collectFinalizers finalizers size l acc =
          acc ++ elected.map (fun e => .ofFinalizer e.1 e.2) ∧
        (elected.map Prod.fst).Sublist (l.map Prod.fst) ∧ acc.length + elected.length ≤ size ∧
        ∀ e ∈ elected, finalizers[e.1]? = some e.2 ∧ e.2.activeKeyBinary.isEmpty = false := by
  induction l with
  | nil =>
    intro acc hacc
    exact ⟨[], by simp [collectFinalizers], List.Sublist.refl _, hacc, by simp⟩
  | cons e l ih =>
    intro acc hacc
    obtain ⟨owner, row⟩ := e
    rw [collectFinalizers]
    split_ifs with hmore
    · -- a producer without an active key is passed over
      have hskip := ih acc hacc
      cases hfin : finalizers[owner]? with
      | none =>
        obtain ⟨elected, heq, hsub, hlen, hmem⟩ := hskip
        exact ⟨elected, heq, hsub.cons owner, hlen, hmem⟩
      | some finalizer =>
        simp only
        split_ifs with hempty
        · obtain ⟨elected, heq, hsub, hlen, hmem⟩ := hskip
          exact ⟨elected, heq, hsub.cons owner, hlen, hmem⟩
        · obtain ⟨elected, heq, hsub, hlen, hmem⟩ :=
            ih (acc ++ [.ofFinalizer owner finalizer]) (by simp; omega)
          rw [List.length_append, List.length_singleton] at hlen
          refine ⟨(owner, finalizer) :: elected, by rw [heq]; simp, hsub.cons_cons owner,
            by rw [List.length_cons]; omega, ?_⟩
          intro e he
          rcases List.mem_cons.mp he with rfl | he
          · exact ⟨hfin, by simpa using hempty⟩
          · exact hmem e he
    · exact ⟨[], by simp, by simp, hacc, by simp⟩

/-- The schedule update proposes what that loop collects, for 21 producers. -/
theorem electProducers_finalizers (finalizers : Table Name Finalizer)
    (l : List (Name × Producer)) : ∀ top : List (Name × Producer × Finalizer),
      (electProducers finalizers l top).map (fun e => FinalizerAuthInfo.ofFinalizer e.1 e.2.2) =
        collectFinalizers finalizers 21 l
          (top.map fun e => FinalizerAuthInfo.ofFinalizer e.1 e.2.2) := by
  induction l with
  | nil =>
    intro top
    rfl
  | cons e l ih =>
    intro top
    obtain ⟨owner, row⟩ := e
    simp only [electProducers, collectFinalizers, List.length_map]
    split_ifs with hmore
    · cases hfin : finalizers[owner]? with
      | none => exact ih top
      | some finalizer =>
        simp only
        split_ifs with hempty
        · exact ih top
        · rw [ih, List.map_append]
          rfl
    · rfl

/-- Every producer is listed once. -/
theorem nodup_prototalvote {producers : Table Name Producer} :
    ((prototalvote producers).map Prod.fst).Nodup := by
  have hperm : ((prototalvote producers).map Prod.fst).Perm (producers.toList.map Prod.fst) :=
    (List.perm_insertionSort _ _).map _
  rw [hperm.nodup_iff, ExtTreeMap.map_fst_toList_eq_keys]
  exact ExtTreeMap.nodup_keys

/-- The recorded list with the entry of `activeKeyId` replaced, if there is one. -/
def replacement (l : List FinalizerAuthInfo) (activeKeyId id : UInt64) (binary : Bytes) :
    Option (List FinalizerAuthInfo) :=
  match l[lowerBound l activeKeyId]? with
  | none => none
  | some entry =>
    if entry.keyId = activeKeyId then
      some (l.set (lowerBound l activeKeyId)
        { keyId := id, finAuthority := { entry.finAuthority with publicKey := binary } })
    else none

/-- What an activation does: if the key that was active before is recorded, its entry is
proposed with the new key. -/
theorem actfinkey_ok {f : Name} {key : String} {policy : Option FinalizerPolicy}
    (hread : host.disengaged = []) (hok : actfinkey host ctx σ f key = .ok (σ', policy)) :
    ∃ fin id row, σ.finalizers[f]? = some fin ∧
      (∃ binary, toBinary host key = .ok binary ∧
        findByFinKey host σ.finkeys (host.sha256 binary) = some (id, row)) ∧
      row.finalizerName = f ∧ ∃ lastpropfins,
      σ' = { σ with
        finalizers := σ.finalizers.insert f
          { fin with activeKeyId := id, activeKeyBinary := row.finalizerKeyBinary }
        lastpropfins } ∧
      match replacement σ.recorded fin.activeKeyId id row.finalizerKeyBinary with
      | none => lastpropfins = σ.lastpropfins ∧ policy = none
      | some proposed => (lastpropfins, policy) = propose proposed σ.lastpropfins := by
  simp only [actfinkey, bind_eq_ok_iff, check_eq_ok_iff, exists_const,
    getLastProposedFinalizers_eq (Or.inl rfl), hread] at hok
  obtain ⟨-, -, fin, hfin, ⟨id, row⟩, hkey, -, hok⟩ := hok
  obtain ⟨hfind, hown⟩ := findOwnKey_found hkey
  refine ⟨fin, id, row, (getFinalizerItr_eq_ok hfin).1, hfind, hown, ?_⟩
  rw [replacement, State.recorded]
  split at hok
  · next hempty =>
    obtain ⟨rfl, rfl⟩ := Prod.mk.inj (pure_eq_ok_iff.mp hok)
    exact ⟨_, rfl, by rw [List.isEmpty_iff.mp hempty]; exact ⟨rfl, rfl⟩⟩
  · cases hentry :
      (σ.lastpropfins.getD [])[lowerBound (σ.lastpropfins.getD []) fin.activeKeyId]? with
    | none =>
      rw [hentry] at hok
      obtain ⟨rfl, rfl⟩ := Prod.mk.inj (pure_eq_ok_iff.mp hok)
      exact ⟨_, rfl, rfl, rfl⟩
    | some entry =>
      simp only [hentry] at hok
      split_ifs at hok with hactive
      · rw [setProposedFinalizers_eq hread (Or.inr rfl)] at hok
        obtain ⟨rfl, rfl⟩ := Prod.mk.inj (pure_eq_ok_iff.mp hok)
        exact ⟨_, rfl, by simp only [if_pos hactive]⟩
      · obtain ⟨rfl, rfl⟩ := Prod.mk.inj (pure_eq_ok_iff.mp hok)
        exact ⟨_, rfl, by simp only [if_neg hactive, and_self]⟩

/-- What the schedule update does: nothing, or it proposes the finalizers it has collected. -/
theorem updateElectedProducers_ok {blockTime : UInt32}
    {proposed : Option (List ProducerAuthority)} {policy : Option FinalizerPolicy}
    (hread : host.disengaged = [])
    (hok : updateElectedProducers host σ blockTime = .ok (σ', proposed, policy)) :
    (σ' = σ ∧ policy = none) ∨ ∃ global lastpropfins, σ' = { σ with global, lastpropfins } ∧
      collectFinalizers σ.finalizers 21 (prototalvote σ.producers) [] ≠ [] ∧
      (lastpropfins, policy) = propose
        (collectFinalizers σ.finalizers 21 (prototalvote σ.producers) []) σ.lastpropfins := by
  have hcollect := electProducers_finalizers σ.finalizers
    (prototalvote σ.producers) []
  rw [List.map_nil] at hcollect
  simp only [updateElectedProducers, bind_eq_ok_iff] at hok
  obtain ⟨global, -, hok⟩ := hok
  split at hok
  · obtain ⟨rfl, -, rfl⟩ := pure_eq_ok_iff.mp hok
    exact .inl ⟨rfl, rfl⟩
  · next hmany =>
    rw [hcollect, setProposedFinalizers_eq hread (Or.inl rfl)] at hok
    obtain ⟨rfl, -, rfl⟩ := pure_eq_ok_iff.mp hok
    refine .inr ⟨_, _, rfl, ?_, rfl⟩
    rw [← hcollect, Ne, List.map_eq_nil_iff]
    intro hnil
    exact hmany (.inl (by rw [hnil]; rfl))

/-- What a switch does: nothing was recorded, and what it proposes is. -/
theorem switchtosvnn_ok {policy : Option FinalizerPolicy} (hread : host.disengaged = [])
    (hok : switchtosvnn host ctx σ = .ok (σ', policy)) :
    ∃ size ≤ 65535, ∃ lastpropfins, σ' = { σ with lastpropfins } ∧ σ.recorded = [] ∧
      (lastpropfins, policy) = propose
        (collectFinalizers σ.finalizers size (prototalvote σ.producers) []) σ.lastpropfins ∧
      lastpropfins.getD [] ≠ [] := by
  simp only [switchtosvnn, isSavannaConsensus, getLastProposedFinalizers_eq (Or.inl rfl), hread,
    setProposedFinalizers_eq hread (Or.inr rfl), getLastProposedFinalizers_eq (Or.inr rfl),
    bind_eq_ok_iff, check_eq_ok_iff, exists_const, pure_eq_ok_iff] at hok
  obtain ⟨-, -, global, -, honce, -, hswitched, hr⟩ := hok
  obtain ⟨rfl, rfl⟩ := Prod.mk.inj hr
  have hsize := global.lastProducerScheduleSize.toNat_lt
  refine ⟨global.lastProducerScheduleSize.toNat, by omega, _, rfl, ?_, rfl, ?_⟩
  · rw [State.recorded]
    simpa using honce
  · simpa using hswitched

/-! ### Runs -/

/-- The state, with the policies passed to `set_finalizers` so far. -/
structure Policies where
  state : State
  policies : List FinalizerPolicy := []

inductive PolicyEvent
  | regfinkey (ctx : Context) (finalizerName : Name) (finalizerKey proofOfPossession : String)
  | actfinkey (ctx : Context) (finalizerName : Name) (finalizerKey : String)
  | delfinkey (ctx : Context) (finalizerName : Name) (finalizerKey : String)
  | switchtosvnn (ctx : Context)
  | updateElectedProducers (blockTime : UInt32)
  /-- Any change of the producers. -/
  | producers (producers : Table Name Producer)

def Policies.step (host : Host) (w : Policies) : PolicyEvent → Outcome Policies
  | .regfinkey ctx finalizerName finalizerKey proofOfPossession => do
    let state ← System.regfinkey host ctx w.state finalizerName finalizerKey proofOfPossession
    pure { w with state }
  | .actfinkey ctx finalizerName finalizerKey => do
    let (state, policy) ← System.actfinkey host ctx w.state finalizerName finalizerKey
    pure { state, policies := w.policies ++ policy.toList }
  | .delfinkey ctx finalizerName finalizerKey => do
    let state ← System.delfinkey host ctx w.state finalizerName finalizerKey
    pure { w with state }
  | .switchtosvnn ctx => do
    let (state, policy) ← System.switchtosvnn host ctx w.state
    pure { state, policies := w.policies ++ policy.toList }
  | .updateElectedProducers blockTime => do
    let (state, _, policy) ← System.updateElectedProducers host w.state blockTime
    pure { state, policies := w.policies ++ policy.toList }
  | .producers producers => pure { w with state.producers := producers }

/-- The ids do not start over. -/
def Policies.Guard (w : Policies) : PolicyEvent → Prop
  | .regfinkey _ _ _ _ => w.state.finkeyidgen ≠ some 18446744073709551615
  | _ => True

instance (w : Policies) : ∀ e : PolicyEvent, Decidable (w.Guard e)
  | .regfinkey _ _ _ _ =>
    inferInstanceAs (Decidable (w.state.finkeyidgen ≠ some 18446744073709551615))
  | .actfinkey _ _ _ | .delfinkey _ _ _ | .switchtosvnn _ | .updateElectedProducers _
  | .producers _ => .isTrue trivial

/-! ### The law of the record -/

/-- More than two thirds of `n` finalizers: any two quorums share more than a third. -/
def FinalizerPolicy.Quorum (p : FinalizerPolicy) : Prop :=
  p.threshold.toNat = 2 * p.finalizers.length / 3 + 1 ∧
    p.threshold.toNat ≤ p.finalizers.length ∧
    (p.finalizers.length : ℤ) < 3 * (2 * p.threshold.toNat - p.finalizers.length)

/-- The ids in the tables have been given out, and to whom they say. -/
structure OwnersLaw (owner : UInt64 → Name) (σ : State) : Prop where
  stored : ∀ (id : UInt64) (row : FinKey), σ.finkeys[id]? = some row →
    Given σ.finkeyidgen id ∧ owner id = row.finalizerName
  active : ∀ (f : Name) (fin : Finalizer), σ.finalizers[f]? = some fin →
    Given σ.finkeyidgen fin.activeKeyId ∧ owner fin.activeKeyId = f

/-- A list with at most one entry of each owner. -/
structure OnePerOwner (owner : UInt64 → Name) (finkeyidgen : Option UInt64)
    (l : List FinalizerAuthInfo) : Prop where
  given : ∀ e ∈ l, Given finkeyidgen e.keyId
  nodup : (l.map fun e => owner e.keyId).Nodup
  length_le : l.length ≤ 65535

/-- **The law of the record.** -/
structure RecordLaw (owner : UInt64 → Name) (finkeyidgen : Option UInt64)
    (lastpropfins : Option (List FinalizerAuthInfo)) (policies : List FinalizerPolicy) :
    Prop where
  owners : OnePerOwner owner finkeyidgen (lastpropfins.getD [])
  sorted : (lastpropfins.getD []).Pairwise fun a b => a.keyId < b.keyId
  last : policies.getLast?.map FinalizerPolicy.finalizers =
    lastpropfins.map (List.map FinalizerAuthInfo.finAuthority)
  quorum : ∀ p ∈ policies, p.Quorum

variable {owner : UInt64 → Name} {finkeyidgen : Option UInt64}
  {lastpropfins : Option (List FinalizerAuthInfo)} {policies : List FinalizerPolicy}
  {l : List FinalizerAuthInfo}

/-- Entries of different owners have different ids. -/
theorem OnePerOwner.nodup_keyId (h : OnePerOwner owner finkeyidgen l) :
    (l.map FinalizerAuthInfo.keyId).Nodup := by
  refine List.Nodup.of_map owner ?_
  rw [List.map_map]
  exact h.nodup

theorem OnePerOwner.sort (h : OnePerOwner owner finkeyidgen l) :
    OnePerOwner owner finkeyidgen (sortedByKeyId l) := by
  have hperm : (sortedByKeyId l).Perm l := List.perm_insertionSort _ l
  constructor
  · intro e he
    exact h.given e (hperm.mem_iff.mp he)
  · exact ((hperm.map _).nodup_iff).mpr h.nodup
  · rw [hperm.length_eq]
    exact h.length_le

/-- The threshold of a policy that fits. -/
theorem quorum_policyOf (hpos : l ≠ []) (hlen : l.length ≤ 65535) : (policyOf l).Quorum := by
  have hlength : (policyOf l).finalizers.length = l.length := List.length_map _
  have hthreshold : (policyOf l).threshold.toNat = 2 * l.length / 3 + 1 := by
    rw [policyOf, List.length_map, UInt64.toNat_ofNat', Nat.mod_eq_of_lt (by omega), mul_comm]
  have hone := List.length_pos_iff.mpr hpos
  rw [FinalizerPolicy.Quorum, hthreshold, hlength]
  exact ⟨rfl, by omega, by push_cast; omega⟩

/-- **Proposing a list keeps the law**, if it has at most one entry of each owner. -/
theorem RecordLaw.propose (h : RecordLaw owner finkeyidgen lastpropfins policies)
    (hl : OnePerOwner owner finkeyidgen l) (hempty : l = [] → lastpropfins.getD [] = []) :
    RecordLaw owner finkeyidgen (propose l lastpropfins).1
      (policies ++ (propose l lastpropfins).2.toList) := by
  rw [System.propose]
  split_ifs with hsame
  · simpa using h
  · have hne : sortedByKeyId l ≠ [] := by
      intro hnil
      have hl : l = [] := by
        have hperm : (sortedByKeyId l).Perm l := List.perm_insertionSort _ l
        rw [hnil] at hperm
        exact hperm.nil_eq.symm
      rw [hnil, hempty hl] at hsame
      exact hsame rfl
    have hsort := hl.sort
    refine ⟨hsort, SortedBy.pairwise_lt_insertionSort hl.nodup_keyId, ?_, ?_⟩
    · simp [policyOf]
    · intro p hp
      rcases List.mem_append.mp hp with hp | hp
      · exact h.quorum p hp
      · rw [Option.toList_some, List.mem_singleton] at hp
        rw [hp]
        exact quorum_policyOf hne hsort.length_le

/-! ### Proposed lists -/

/-- What is collected by votes has one entry of each finalizer. -/
theorem OwnersLaw.collect (h : OwnersLaw owner σ) {size : ℕ} (hsize : size ≤ 65535) :
    OnePerOwner owner σ.finkeyidgen
      (collectFinalizers σ.finalizers size (prototalvote σ.producers) []) := by
  obtain ⟨elected, heq, hsub, hlen, hmem⟩ := collectFinalizers_eq σ.finalizers
    (prototalvote σ.producers) [] (Nat.zero_le size)
  rw [List.length_nil, zero_add] at hlen
  rw [heq, List.nil_append]
  constructor
  · intro e he
    obtain ⟨⟨f, fin⟩, hf, rfl⟩ := List.mem_map.mp he
    exact (h.active f fin (hmem _ hf).1).1
  · -- the owners are the names that were collected
    have hnames : (elected.map fun e => FinalizerAuthInfo.ofFinalizer e.1 e.2).map
        (fun e => owner e.keyId) = elected.map Prod.fst := by
      rw [List.map_map]
      refine List.map_congr_left ?_
      intro e he
      exact (h.active e.1 e.2 (hmem e he).1).2
    rw [hnames]
    exact nodup_prototalvote.sublist hsub
  · rw [List.length_map]
    omega

theorem replacement_eq_some {activeKeyId id : UInt64} {binary : Bytes}
    {l' : List FinalizerAuthInfo} (h : replacement l activeKeyId id binary = some l') :
    ∃ entry, l[lowerBound l activeKeyId]? = some entry ∧ entry.keyId = activeKeyId ∧
      l' = l.set (lowerBound l activeKeyId)
        { keyId := id, finAuthority := { entry.finAuthority with publicKey := binary } } := by
  rw [replacement] at h
  split at h
  · exact nomatch h
  · next entry hentry =>
    split_ifs at h with hactive
    exact ⟨entry, hentry, hactive, (Option.some.inj h).symm⟩

/-- A replaced entry belongs to the same finalizer. -/
theorem OnePerOwner.replace (h : OnePerOwner owner finkeyidgen l) {activeKeyId id : UInt64}
    {binary : Bytes} {l' : List FinalizerAuthInfo} (hid : Given finkeyidgen id)
    (hsame : owner id = owner activeKeyId) (hl' : replacement l activeKeyId id binary = some l') :
    OnePerOwner owner finkeyidgen l' := by
  obtain ⟨entry, hentry, rfl, rfl⟩ := replacement_eq_some hl'
  constructor
  · intro e he
    rcases List.mem_or_eq_of_mem_set he with he | rfl
    · exact h.given e he
    · exact hid
  · rw [SortedBy.map_set_of_eq (f := fun e : FinalizerAuthInfo => owner e.keyId) hentry hsame]
    exact h.nodup
  · rw [List.length_set]
    exact h.length_le

/-! ### Steps -/

/-- Every id given out so far counts as given out after the next one. -/
theorem Given.mono {id : UInt64} (h : Given finkeyidgen id)
    (hgen : finkeyidgen ≠ some 18446744073709551615) :
    Given (some (getNextFinalizerKeyId finkeyidgen)) id :=
  ⟨_, rfl, UInt64.le_of_lt (h.next hgen)⟩

theorem given_next : Given (some (getNextFinalizerKeyId finkeyidgen))
    (getNextFinalizerKeyId finkeyidgen) :=
  ⟨_, rfl, UInt64.le_refl _⟩

/-- **The invariant**: for some assignment of the ids to finalizers. -/
def PolicyInv (w : Policies) : Prop :=
  ∃ owner, OwnersLaw owner w.state ∧
    RecordLaw owner w.state.finkeyidgen w.state.lastpropfins w.policies

variable {w w' : Policies} {f : Name} {key pop : String}

/-- A list has been proposed: it is the record afterwards, and passed on if it looks different. -/
def Policies.proposed (w : Policies) (l : List FinalizerAuthInfo) : Policies where
  state := { w.state with lastpropfins := (propose l w.state.lastpropfins).1 }
  policies := w.policies ++ (propose l w.state.lastpropfins).2.toList

theorem step_regfinkey (hok : w.step host (.regfinkey ctx f key pop) = .ok w') :
    ∃ σ', regfinkey host ctx w.state f key pop = .ok σ' ∧ w' = { w with state := σ' } := by
  simp only [Policies.step, bind_eq_ok_iff, pure_eq_ok_iff] at hok
  obtain ⟨σ', hreg, rfl⟩ := hok
  exact ⟨σ', hreg, rfl⟩

theorem step_delfinkey (hok : w.step host (.delfinkey ctx f key) = .ok w') :
    ∃ σ', delfinkey host ctx w.state f key = .ok σ' ∧ w' = { w with state := σ' } := by
  simp only [Policies.step, bind_eq_ok_iff, pure_eq_ok_iff] at hok
  obtain ⟨σ', hdel, rfl⟩ := hok
  exact ⟨σ', hdel, rfl⟩

/-- An activation proposes the record with the key replaced, if the old key is recorded. -/
theorem step_actfinkey (hread : host.disengaged = [])
    (hok : w.step host (.actfinkey ctx f key) = .ok w') :
    ∃ fin id row, w.state.finalizers[f]? = some fin ∧
      (∃ binary, toBinary host key = .ok binary ∧
        findByFinKey host w.state.finkeys (host.sha256 binary) = some (id, row)) ∧
      row.finalizerName = f ∧ ∃ activated,
      activated = { w with
        state.finalizers := w.state.finalizers.insert f
          { fin with activeKeyId := id, activeKeyBinary := row.finalizerKeyBinary } } ∧
      w' = (replacement w.state.recorded fin.activeKeyId id row.finalizerKeyBinary).elim
        activated activated.proposed := by
  simp only [Policies.step, bind_eq_ok_iff, pure_eq_ok_iff] at hok
  obtain ⟨⟨σ', policy⟩, hact, rfl⟩ := hok
  obtain ⟨fin, id, row, hfin, hfind, hown, lastpropfins, rfl, hproposed⟩ :=
    actfinkey_ok hread hact
  refine ⟨fin, id, row, hfin, hfind, hown, _, rfl, ?_⟩
  split at hproposed
  · next hnone =>
    obtain ⟨rfl, rfl⟩ := hproposed
    rw [hnone, Option.elim_none, Option.toList_none, List.append_nil]
  · next proposed hreplaced =>
    obtain ⟨rfl, rfl⟩ := Prod.mk.inj hproposed
    rw [hreplaced]
    rfl

/-- A switch proposes the elected finalizers while nothing is recorded. -/
theorem step_switchtosvnn (hread : host.disengaged = [])
    (hok : w.step host (.switchtosvnn ctx) = .ok w') :
    ∃ size ≤ 65535, w.state.recorded = [] ∧ w' = w.proposed
      (collectFinalizers w.state.finalizers size (prototalvote w.state.producers) []) := by
  simp only [Policies.step, bind_eq_ok_iff, pure_eq_ok_iff] at hok
  obtain ⟨⟨σ', policy⟩, hswitch, rfl⟩ := hok
  obtain ⟨size, hsize, lastpropfins, rfl, hrecorded, hproposed, -⟩ :=
    switchtosvnn_ok hread hswitch
  obtain ⟨rfl, rfl⟩ := Prod.mk.inj hproposed
  exact ⟨size, hsize, hrecorded, rfl⟩

/-- A schedule update that changes anything proposes the elected finalizers. -/
theorem step_updateElectedProducers {blockTime : UInt32} (hread : host.disengaged = [])
    (hok : w.step host (.updateElectedProducers blockTime) = .ok w') :
    w' = w ∨ ∃ global,
      collectFinalizers w.state.finalizers 21 (prototalvote w.state.producers) [] ≠ [] ∧
      w' = Policies.proposed { w with state.global := global }
        (collectFinalizers w.state.finalizers 21 (prototalvote w.state.producers) []) := by
  simp only [Policies.step, bind_eq_ok_iff, pure_eq_ok_iff] at hok
  obtain ⟨⟨σ', proposed, policy⟩, hupdate, rfl⟩ := hok
  rcases updateElectedProducers_ok hread hupdate with
    ⟨rfl, rfl⟩ | ⟨global, lastpropfins, rfl, hsome, hproposed⟩
  · exact .inl (by rw [Option.toList_none, List.append_nil])
  · obtain ⟨rfl, rfl⟩ := Prod.mk.inj hproposed
    exact .inr ⟨global, hsome, rfl⟩

/-- Proposing a list with one entry of each owner keeps the invariant. -/
theorem PolicyInv.proposed (howners : OwnersLaw owner w.state)
    (hrecord : RecordLaw owner w.state.finkeyidgen w.state.lastpropfins w.policies)
    (hl : OnePerOwner owner w.state.finkeyidgen l) (hempty : l = [] → w.state.recorded = []) :
    PolicyInv (w.proposed l) :=
  ⟨owner, ⟨howners.stored, howners.active⟩, hrecord.propose hl hempty⟩

/-- The assignment that a registration adds to. -/
theorem RecordLaw.register (h : RecordLaw owner finkeyidgen lastpropfins policies)
    (hgen : finkeyidgen ≠ some 18446744073709551615) :
    RecordLaw (Function.update owner (getNextFinalizerKeyId finkeyidgen) f)
      (some (getNextFinalizerKeyId finkeyidgen)) lastpropfins policies := by
  have hold (e : FinalizerAuthInfo) (he : e ∈ lastpropfins.getD []) :
      Function.update owner (getNextFinalizerKeyId finkeyidgen) f e.keyId = owner e.keyId := by
    refine Function.update_of_ne ?_ _ _
    exact UInt64.ne_of_lt ((h.owners.given e he).next hgen)
  refine ⟨⟨?_, ?_, h.owners.length_le⟩, h.sorted, h.last, h.quorum⟩
  · intro e he
    exact (h.owners.given e he).mono hgen
  · rw [List.map_congr_left hold]
    exact h.owners.nodup

theorem PolicyInv.regfinkey {ctx : Context} (h : PolicyInv w)
    (hgen : w.state.finkeyidgen ≠ some 18446744073709551615)
    (hok : w.step host (.regfinkey ctx f key pop) = .ok w') : PolicyInv w' := by
  obtain ⟨owner, howners, hrecord⟩ := h
  obtain ⟨σ', hreg, rfl⟩ := step_regfinkey hok
  obtain ⟨binary, -, -, rfl⟩ := regfinkey_spec hreg
  refine ⟨_, ?_, hrecord.register (f := f) hgen⟩
  have hold {id : UInt64} (hid : Given w.state.finkeyidgen id) :
      Function.update owner (getNextFinalizerKeyId w.state.finkeyidgen) f id = owner id :=
    Function.update_of_ne (UInt64.ne_of_lt (hid.next hgen)) _ _
  constructor
  · refine OrdMap.forall_insert ⟨given_next, Function.update_self _ _ _⟩ fun id row _ hrow => ?_
    obtain ⟨hgiven, hown⟩ := howners.stored id row hrow
    exact ⟨hgiven.mono hgen, (hold hgiven).trans hown⟩
  · refine OrdMap.forall_insert ?_ fun f' fin _ hfin => ?_
    · rw [registered]
      -- a first key becomes the active one, a further one does not
      cases hfin : w.state.finalizers[f]? with
      | none => exact ⟨given_next, Function.update_self _ _ _⟩
      | some fin =>
        obtain ⟨hgiven, hown⟩ := howners.active f fin hfin
        exact ⟨hgiven.mono hgen, (hold hgiven).trans hown⟩
    · obtain ⟨hgiven, hown⟩ := howners.active f' fin hfin
      exact ⟨hgiven.mono hgen, (hold hgiven).trans hown⟩

theorem PolicyInv.actfinkey {ctx : Context} (hread : host.disengaged = []) (h : PolicyInv w)
    (hok : w.step host (.actfinkey ctx f key) = .ok w') : PolicyInv w' := by
  obtain ⟨owner, howners, hrecord⟩ := h
  obtain ⟨fin, id, row, hfin, ⟨_, -, hfind⟩, hown, activated, rfl, rfl⟩ :=
    step_actfinkey hread hok
  obtain ⟨hgiven, hid⟩ := howners.stored id row (findByFinKey_eq_some hfind)
  have hsame : owner id = owner fin.activeKeyId := by
    rw [hid, hown, (howners.active f fin hfin).2]
  have hactivated : OwnersLaw owner { w.state with
      finalizers := w.state.finalizers.insert f
        { fin with activeKeyId := id, activeKeyBinary := row.finalizerKeyBinary } } :=
    ⟨howners.stored,
      OrdMap.forall_insert ⟨hgiven, hid.trans hown⟩ fun f' fin' _ => howners.active f' fin'⟩
  cases hreplaced : replacement w.state.recorded fin.activeKeyId id row.finalizerKeyBinary with
  | none => exact ⟨owner, hactivated, hrecord⟩
  | some proposed =>
    refine .proposed hactivated hrecord (hrecord.owners.replace hgiven hsame hreplaced) ?_
    -- a list with a replaced entry is not empty
    intro hnil
    obtain ⟨entry, hentry, -, rfl⟩ := replacement_eq_some hreplaced
    change w.state.recorded = []
    simpa using hnil

theorem PolicyInv.delfinkey {ctx : Context} (h : PolicyInv w)
    (hok : w.step host (.delfinkey ctx f key) = .ok w') : PolicyInv w' := by
  obtain ⟨owner, howners, hrecord⟩ := h
  obtain ⟨σ', hdel, rfl⟩ := step_delfinkey hok
  obtain ⟨fin, id, row, hfin, -, hrow, hown, -, rfl⟩ := delfinkey_spec hdel
  refine ⟨owner, ⟨?_, ?_⟩, hrecord⟩
  · exact OrdMap.forall_erase fun id' row' _ => howners.stored id' row'
  · exact forall_finalizers_delfinkey (fun _ => howners.active f fin hfin)
      fun f' fin' _ => howners.active f' fin'

/-- **Every step keeps the invariant.** -/
theorem PolicyInv.step (hread : host.disengaged = []) {e : PolicyEvent} (h : PolicyInv w)
    (hguard : w.Guard e) (hok : w.step host e = .ok w') : PolicyInv w' := by
  cases e with
  | regfinkey ctx f key pop => exact h.regfinkey hguard hok
  | actfinkey ctx f key => exact h.actfinkey hread hok
  | delfinkey ctx f key => exact h.delfinkey hok
  | switchtosvnn ctx =>
    obtain ⟨owner, howners, hrecord⟩ := h
    obtain ⟨size, hsize, hrecorded, rfl⟩ := step_switchtosvnn hread hok
    exact .proposed howners hrecord (howners.collect hsize) fun _ => hrecorded
  | updateElectedProducers blockTime =>
    rcases step_updateElectedProducers hread hok with rfl | ⟨global, hsome, rfl⟩
    · exact h
    · obtain ⟨owner, howners, hrecord⟩ := h
      have hglobal : OwnersLaw owner { w.state with global } := ⟨howners.stored, howners.active⟩
      exact .proposed hglobal hrecord (howners.collect (by norm_num)) fun hnil =>
        absurd hnil hsome
  | producers producers =>
    obtain rfl := pure_eq_ok_iff.mp hok
    exact ⟨h.choose, ⟨h.choose_spec.1.stored, h.choose_spec.1.active⟩, h.choose_spec.2⟩

/-- A policy is passed on together with a record that looks different. -/
theorem shown_propose_ne (h : (propose l lastpropfins).2 ≠ none) :
    ((propose l lastpropfins).1.getD []).map FinalizerAuthInfo.shown ≠
      (lastpropfins.getD []).map FinalizerAuthInfo.shown := by
  rw [propose] at h ⊢
  split_ifs at h ⊢ with hsame
  · exact absurd rfl h
  · exact hsame

/-- A step writes the record and passes a policy on by proposing a list, or does neither. -/
theorem Policies.step_record (hread : host.disengaged = []) {e : PolicyEvent}
    (hok : w.step host e = .ok w') :
    (w'.state.lastpropfins = w.state.lastpropfins ∧ w'.policies = w.policies) ∨
      ∃ l, w'.state.lastpropfins = (propose l w.state.lastpropfins).1 ∧
        w'.policies = w.policies ++ (propose l w.state.lastpropfins).2.toList := by
  cases e with
  | regfinkey ctx f key pop =>
    obtain ⟨σ', hreg, rfl⟩ := step_regfinkey hok
    obtain ⟨binary, -, -, rfl⟩ := regfinkey_spec hreg
    exact .inl ⟨rfl, rfl⟩
  | actfinkey ctx f key =>
    obtain ⟨fin, id, row, -, -, -, activated, rfl, rfl⟩ := step_actfinkey hread hok
    cases replacement w.state.recorded fin.activeKeyId id row.finalizerKeyBinary with
    | none => exact .inl ⟨rfl, rfl⟩
    | some proposed => exact .inr ⟨proposed, rfl, rfl⟩
  | delfinkey ctx f key =>
    obtain ⟨σ', hdel, rfl⟩ := step_delfinkey hok
    obtain ⟨fin, id, row, -, -, -, -, -, rfl⟩ := delfinkey_spec hdel
    exact .inl ⟨rfl, rfl⟩
  | switchtosvnn ctx =>
    obtain ⟨size, -, -, rfl⟩ := step_switchtosvnn hread hok
    exact .inr ⟨_, rfl, rfl⟩
  | updateElectedProducers blockTime =>
    rcases step_updateElectedProducers hread hok with rfl | ⟨global, -, rfl⟩
    · exact .inl ⟨rfl, rfl⟩
    · exact .inr ⟨_, rfl, rfl⟩
  | producers producers =>
    obtain rfl := pure_eq_ok_iff.mp hok
    exact .inl ⟨rfl, rfl⟩

/-- **The recorded finalizer policy is exact.** From empty key tables without a record, in every
run in which the ids do not start over and the producers change at will: the list is strictly
ordered by key id, so that the search of `actfinkey` finds the key that was active exactly when
it is listed; its entries are the finalizers of the policy passed on last; every policy has a
threshold of two thirds and fits; and one is passed on only with a list that looks different. -/
theorem policy_recorded (hread : host.disengaged = []) (hkeys : σ.finkeys = ∅)
    (hfinalizers : σ.finalizers = ∅) (hnone : σ.lastpropfins = none) {tr : List PolicyEvent}
    (hrun : Run (Policies.step host) Policies.Guard { state := σ } tr w) :
    w.state.recorded.Pairwise (fun a b => a.keyId < b.keyId) ∧
      (∀ id, (∃ e, w.state.recorded[lowerBound w.state.recorded id]? = some e ∧ e.keyId = id) ↔
        ∃ e ∈ w.state.recorded, e.keyId = id) ∧
      w.policies.getLast?.map FinalizerPolicy.finalizers =
        w.state.lastpropfins.map (List.map FinalizerAuthInfo.finAuthority) ∧
      (∀ p ∈ w.policies, p.Quorum) ∧
      ∀ e w', w.step host e = .ok w' → w'.policies ≠ w.policies →
        w'.state.recorded.map FinalizerAuthInfo.shown ≠
          w.state.recorded.map FinalizerAuthInfo.shown := by
  have hstart : PolicyInv { state := σ } := by
    refine ⟨fun _ => ⟨0⟩, ⟨?_, ?_⟩, ⟨⟨?_, ?_, ?_⟩, ?_, ?_, ?_⟩⟩
    · intro id row hrow
      simp [hkeys] at hrow
    · intro f fin hfin
      simp [hfinalizers] at hfin
    all_goals simp [hnone]
  obtain ⟨owner, -, hrecord⟩ :=
    hrun.state_invariant hstart fun _ _ _ hI hg hs => hI.step hread hg hs
  refine ⟨hrecord.sorted, fun id => SortedBy.findIdx_finds_iff hrecord.sorted, hrecord.last,
    hrecord.quorum, ?_⟩
  intro e w' hok hne
  rcases Policies.step_record hread hok with ⟨-, hsame⟩ | ⟨l, hrecord', hpolicies⟩
  · exact absurd hsame hne
  · rw [State.recorded, hrecord', State.recorded]
    refine shown_propose_ne ?_
    intro hnone
    rw [hpolicies, hnone] at hne
    exact hne (List.append_nil _)

/-! ### A list with an id twice -/

/-- A key that has just been stored is found. -/
theorem findByFinKey_insert {finkeys : Table UInt64 FinKey} (id : UInt64) (row : FinKey)
    (hnone : findByFinKey host finkeys (host.sha256 row.finalizerKeyBinary) = none) :
    findByFinKey host (finkeys.insert id row) (host.sha256 row.finalizerKeyBinary) =
      some (id, row) := by
  have hmem : (id, row) ∈ (finkeys.insert id row).toList := OrdMap.mem_toList.mpr (by simp)
  cases hfind : findByFinKey host (finkeys.insert id row)
      (host.sha256 row.finalizerKeyBinary) with
  | none =>
    have hmiss := List.find?_eq_none.mp hfind (id, row) hmem
    simp at hmiss
  | some e =>
    have hstored := findByFinKey_eq_some hfind
    have hhash := List.find?_some hfind
    rw [OrdMap.getElem?_insert] at hstored
    split_ifs at hstored with hid
    · rw [← hid, Option.some.inj hstored]
    · -- any other row of that hash would have been found before
      exact absurd (of_decide_eq_true hhash) (findByFinKey_eq_none hnone hstored)

/-- A key that is registered and deleted again leaves nothing but its id. -/
theorem Policies.run_registerAndDelete (policies : List FinalizerPolicy) {n : ℕ}
    {producer : Producer}
    (hproducer : σ.producers[f]? = some producer) (hfin : σ.finalizers[f]? = none)
    (hfind : findByFinKey lengthHost σ.finkeys (lengthHost.sha256 (List.replicate n 0)) = none)
    (hnew : getNextFinalizerKeyId σ.finkeyidgen ∉ σ.finkeys) :
    Run (Policies.step lengthHost) (fun _ _ => True) ⟨σ, policies⟩
      ([.regfinkey systemContext f (lengthKey n) "SIG_BLS"] ++
        [.delfinkey systemContext f (lengthKey n)])
      ⟨{ σ with finkeyidgen := some (getNextFinalizerKeyId σ.finkeyidgen) }, policies⟩ := by
  have hreg := regfinkey_lengthHost producer hproducer hfind hnew
  have hrow : registered σ.finalizers f (getNextFinalizerKeyId σ.finkeyidgen)
      (List.replicate n 0) = ⟨getNextFinalizerKeyId σ.finkeyidgen, List.replicate n 0, 1⟩ := by
    rw [registered, hfin]
  rw [hrow] at hreg
  have hstored := findByFinKey_insert (getNextFinalizerKeyId σ.finkeyidgen)
    ⟨f, lengthKey n, List.replicate n 0⟩ hfind
  refine .snoc (.single trivial (by rw [Policies.step, hreg]; rfl)) trivial ?_
  rw [Policies.step, delfinkey_lengthHost
    ⟨getNextFinalizerKeyId σ.finkeyidgen, List.replicate n 0, 1⟩
    ⟨f, lengthKey n, List.replicate n 0⟩ (by simp) rfl rfl hstored]
  simp only [OrdMap.erase_insert]
  rw [OrdMap.erase_of_not_mem (OrdMap.not_mem_iff.mp hnew), OrdMap.erase_of_not_mem hfin]
  rfl

/-- Two producers with votes. -/
def aliceAndBob : Table Name Producer :=
  ((∅ : Table Name Producer).insert registrant
    { totalVotes := 1, producerKey := [], producerAuthority := none }).insert (.ofString "bob")
    { totalVotes := 1, producerKey := [], producerAuthority := none }

/-- The two register a key each, bob first, and are elected; then bob deletes his. -/
def deletedKey : List PolicyEvent :=
  [.producers aliceAndBob,
    .regfinkey systemContext (.ofString "bob") (lengthKey 1) "SIG_BLS",
    .regfinkey systemContext registrant (lengthKey 2) "SIG_BLS",
    .updateElectedProducers 0,
    .delfinkey systemContext (.ofString "bob") (lengthKey 1)]

/-- The policy of the two is passed on, and still recorded when bob's key is gone. -/
theorem policy_recorded_deletedKey :
    ∃ w, Run (Policies.step lengthHost) Policies.Guard { state := { global := some {} } }
        deletedKey w ∧
      w.policies.map (fun p => (p.threshold, p.finalizers.length)) = [(2, 2)] ∧
      (∀ p ∈ w.policies, p.Quorum) ∧
      w.state.recorded.Pairwise fun a b => a.keyId < b.keyId := by
  obtain ⟨w, hw, hpolicies⟩ := returns_iff.mp (show returns
    (deletedKey.foldlM (Run.checked (Policies.step lengthHost) Policies.Guard .deref)
      { state := { global := some {} } })
      (fun w => w.policies.map (fun p => (p.threshold, p.finalizers.length)) = [(2, 2)]) = true by
    decide +kernel)
  have hrun := Run.of_checked hw
  obtain ⟨hsorted, -, -, hquorum, -⟩ := policy_recorded rfl rfl rfl rfl hrun
  exact ⟨w, hrun, of_decide_eq_true hpolicies, hquorum, hsorted⟩

/-- What `deletedKey` leads to. -/
@[irreducible]
def afterDeletion : Policies :=
  match deletedKey.foldlM (Policies.step lengthHost) { state := { global := some {} } } with
  | .ok w => w
  | .error _ => { state := {} }

/-- The same, once the id `id` has been given out. -/
def afterDeletionAt (id : UInt64) : Policies :=
  { afterDeletion with state.finkeyidgen := some id }

/-- Alice registers and activates another key. -/
def secondKey : List PolicyEvent :=
  [.regfinkey systemContext registrant (lengthKey 3) "SIG_BLS",
    .actfinkey systemContext registrant (lengthKey 3)]

theorem run_deletedKey :
    Run (Policies.step lengthHost) (fun _ _ => True) { state := { global := some {} } } deletedKey
      (afterDeletionAt 1) := by
  obtain ⟨w, hw, hgen⟩ := returns_iff.mp (show returns
    (deletedKey.foldlM (Policies.step lengthHost) { state := { global := some {} } })
      (fun w => w.state.finkeyidgen = some 1) = true by decide +kernel)
  have heq : afterDeletion = w := by
    rw [afterDeletion, hw]
  have hat : afterDeletionAt 1 = w := by
    rw [afterDeletionAt, heq, ← of_decide_eq_true hgen]
  rw [hat]
  exact Run.of_foldlM (fun _ _ _ => trivial) hw

/-- Bob is still a producer, and has no key left. -/
theorem afterDeletion_bob : afterDeletion.state.producers[Name.ofString "bob"]?.isSome = true ∧
    afterDeletion.state.finalizers[Name.ofString "bob"]?.isNone = true := by
  decide +kernel

/-- Alice's key is the only one. -/
theorem afterDeletion_finkeys :
    afterDeletion.state.finkeys.toList.map (fun e => (e.1, e.2.finalizerKeyBinary)) =
      [(1, [0, 0])] := by
  decide +kernel

/-- Bob uses ids up. -/
theorem run_idsUsedUp (n : ℕ) (hpos : 1 ≤ n) (hn : n < 2 ^ 64) :
    ∃ tr, Run (Policies.step lengthHost) (fun _ _ => True) (afterDeletionAt 1) tr
      (afterDeletionAt (UInt64.ofNat n)) := by
  obtain ⟨hproducer, hfin⟩ := afterDeletion_bob
  obtain ⟨producer, hproducer⟩ := Option.isSome_iff_exists.mp hproducer
  have hkeys (e : UInt64 × FinKey) (he : e ∈ afterDeletion.state.finkeys.toList) :
      e.1 = 1 ∧ e.2.finalizerKeyBinary = [0, 0] := by
    have hmem := List.mem_map_of_mem (f := fun e : UInt64 × FinKey =>
      (e.1, e.2.finalizerKeyBinary)) he
    rw [afterDeletion_finkeys, List.mem_singleton] at hmem
    exact Prod.mk.inj hmem
  have hfind : findByFinKey lengthHost afterDeletion.state.finkeys
      (lengthHost.sha256 (List.replicate 1 0)) = none := by
    refine List.find?_eq_none.mpr ?_
    intro e he
    rw [(hkeys e he).2]
    decide
  induction n, hpos using Nat.le_induction with
  | base => exact ⟨[], .init⟩
  | succ n hpos ih =>
    obtain ⟨tr, htr⟩ := ih (by omega)
    have hnext : getNextFinalizerKeyId (some (UInt64.ofNat n)) = UInt64.ofNat (n + 1) :=
      (UInt64.ofNat_add n 1).symm
    -- the ids in between are not the one of Alice's key
    have hnew : UInt64.ofNat (n + 1) ∉ afterDeletion.state.finkeys := by
      intro hmem
      obtain ⟨row, hrow⟩ := OrdMap.mem_iff_exists.mp hmem
      have hone := congrArg UInt64.toNat
        (hkeys (UInt64.ofNat (n + 1), row) (OrdMap.mem_toList.mpr hrow)).1
      rw [UInt64.toNat_ofNat', Nat.mod_eq_of_lt hn] at hone
      have : n + 1 = 1 := hone
      omega
    have hmore := Policies.run_registerAndDelete afterDeletion.policies
      (σ := (afterDeletionAt (UInt64.ofNat n)).state) (f := .ofString "bob") (n := 1)
      hproducer (Option.isNone_iff_eq_none.mp hfin) hfind (hnext ▸ hnew)
    rw [← hnext]
    exact ⟨_, htr.trans hmore⟩

/-- **The ids start over.** Bob's key 0 stays recorded when he deletes it. After `2 ^ 64`
registrations alice is given the id 0 for her second key, which replaces her first one. -/
theorem policy_repeats_id :
    ∃ tr w, Run (Policies.step lengthHost) (fun _ _ => True) { state := { global := some {} } } tr
        w ∧ w.state.recorded.map FinalizerAuthInfo.keyId = [0, 0] ∧
      ¬ w.state.recorded.Pairwise fun a b => a.keyId < b.keyId := by
  obtain ⟨tr, htr⟩ := run_idsUsedUp 18446744073709551615 (by norm_num) (by norm_num)
  obtain ⟨w, hw, hids⟩ := returns_iff.mp (show returns
    (secondKey.foldlM (Policies.step lengthHost)
      (afterDeletionAt (UInt64.ofNat 18446744073709551615)))
      (fun w => w.state.recorded.map FinalizerAuthInfo.keyId = [0, 0]) = true by decide +kernel)
  have hids := of_decide_eq_true hids
  refine ⟨_, w, (run_deletedKey.trans htr).trans (Run.of_foldlM (fun _ _ _ => trivial) hw), hids,
    ?_⟩
  intro hsorted
  have hpair := List.pairwise_map.mpr hsorted
  rw [hids] at hpair
  exact absurd hpair (by decide)

end Twig.System
