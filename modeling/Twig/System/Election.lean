import Twig.System.Policy
import Twig.System.Schedule

/-!
# The election of producers

Whom `update_elected_producers` elects, for every table of producers with votes that are not
negative and every table of finalizers. Its loop walks the index `prototalvote` and stops at the
first row without votes or inactive, which is no different from skipping such rows: an active
producer with votes has a negative key in that index, and every other row's key is at least zero
(`takeWhile_electable`).

* `electorate` — all who can be elected, in the order of their votes and then of their names;
* `elected_top21` — the schedule and the finalizers that are proposed are those of its first 21.
-/

namespace Twig.System

open Fallible

variable {host : Host} {σ : State} {producers : Table Name Producer}
  {finalizers : Table Name Finalizer}

/-! ### The order of the index -/

/-- The votes of all producers are at least zero. -/
def VotesNonneg (producers : Table Name Producer) : Prop :=
  ∀ (owner : Name) (row : Producer), producers[owner]? = some row → 0 ≤ row.totalVotes

instance : Decidable (VotesNonneg producers) :=
  decidable_of_iff (∀ e ∈ producers.toList, 0 ≤ e.2.totalVotes)
    ⟨fun h owner row hrow => h (owner, row) (OrdMap.mem_toList.mpr hrow),
      fun h e he => h e.1 e.2 (OrdMap.mem_toList.mp he)⟩

/-- Rows are listed in the order of their owners. -/
theorem pairwise_owner_toList (producers : Table Name Producer) :
    producers.toList.Pairwise fun a b => a.1.value < b.1.value := by
  refine (Std.ExtTreeMap.ordered_keys_toList (t := producers)).imp fun {a b} hlt => ?_
  have hvalues : compare a.1.value b.1.value = .lt := hlt
  exact Std.compare_eq_lt.mp hvalues

/-- The index is in the order of its keys, and then of the owners. -/
theorem pairwise_prototalvote (producers : Table Name Producer) :
    (prototalvote producers).Pairwise fun a b =>
      a.2.byVotes ≤ b.2.byVotes ∧ (b.2.byVotes ≤ a.2.byVotes → a.1.value < b.1.value) := by
  have htotal : Std.Total fun a b : Name × Producer => a.2.byVotes ≤ b.2.byVotes :=
    ⟨fun a b => le_total _ _⟩
  have htrans : IsTrans (Name × Producer) fun a b => a.2.byVotes ≤ b.2.byVotes :=
    ⟨fun a b c => le_trans⟩
  exact SortedBy.pairwise_insertionSort_stable (pairwise_owner_toList producers)

theorem mem_prototalvote {e : Name × Producer} :
    e ∈ prototalvote producers ↔ producers[e.1]? = some e.2 := by
  rw [prototalvote, List.mem_insertionSort, OrdMap.mem_toList]

theorem byVotes_of_electable {row : Producer} (h : electable row = true) :
    row.byVotes = -row.totalVotes := by
  rw [Producer.byVotes, if_pos (electable_iff.mp h).2]

/-- Among votes that are not negative, the electable producers are those with a negative key. -/
theorem electable_iff_byVotes {row : Producer} (h : 0 ≤ row.totalVotes) :
    electable row = true ↔ row.byVotes < 0 := by
  rw [electable_iff, Producer.byVotes]
  split_ifs with hactive
  · rw [neg_lt_zero]
    exact and_iff_left hactive
  · exact iff_of_false (fun hboth => hactive hboth.2) (not_lt.mpr h)

/-- **The loop stops after all electable producers.** -/
theorem takeWhile_electable (hvotes : VotesNonneg producers) :
    ((prototalvote producers).takeWhile fun e => electable e.2) =
      (prototalvote producers).filter fun e => electable e.2 := by
  refine SortedBy.takeWhile_eq_filter ?_
  refine (pairwise_prototalvote producers).imp_of_mem fun {a b} ha hb hab helectable => ?_
  have hva := hvotes a.1 a.2 (mem_prototalvote.mp ha)
  have hvb := hvotes b.1 b.2 (mem_prototalvote.mp hb)
  rw [electable_iff_byVotes hvb] at helectable
  exact (electable_iff_byVotes hva).mpr (hab.1.trans_lt helectable)

/-! ### The electorate -/

/-- The producer can be elected: it has votes, is active, and its finalizer has an active key. -/
def candidate (finalizers : Table Name Finalizer) (e : Name × Producer) :
    Option (Name × Producer × Finalizer) :=
  if electable e.2 then withKey finalizers e else none

/-- More votes come first, and among equal votes the smaller name. -/
def RanksBefore (a b : Name × Producer × Finalizer) : Prop :=
  b.2.1.totalVotes < a.2.1.totalVotes ∨
    a.2.1.totalVotes = b.2.1.totalVotes ∧ a.1.value ≤ b.1.value

instance : DecidableRel RanksBefore := fun a b =>
  inferInstanceAs (Decidable (b.2.1.totalVotes < a.2.1.totalVotes ∨
    a.2.1.totalVotes = b.2.1.totalVotes ∧ a.1.value ≤ b.1.value))

/-- **Everyone who can be elected**, by votes and then by name. -/
def electorate (σ : State) : List (Name × Producer × Finalizer) :=
  (σ.producers.toList.filterMap (candidate σ.finalizers)).insertionSort RanksBefore

theorem withKey_eq_some_iff {e : Name × Producer} {c : Name × Producer × Finalizer} :
    withKey finalizers e = some c ↔ c.1 = e.1 ∧ c.2.1 = e.2 ∧ finalizers[e.1]? = some c.2.2 ∧
      c.2.2.activeKeyBinary.isEmpty = false := by
  obtain ⟨owner, row, finalizer⟩ := c
  rw [withKey]
  cases hfin : finalizers[e.1]? with
  | none => simp
  | some f =>
    simp only
    split_ifs with hempty
    · refine iff_of_false (by simp) ?_
      rintro ⟨-, -, heq, hkey⟩
      rw [← Option.some.inj heq, hempty] at hkey
      exact absurd hkey (by simp)
    · simp only [Option.some.injEq, Prod.mk.injEq]
      constructor
      · rintro ⟨rfl, rfl, rfl⟩
        exact ⟨rfl, rfl, rfl, by simpa using hempty⟩
      · rintro ⟨rfl, rfl, rfl, -⟩
        exact ⟨rfl, rfl, rfl⟩

/-- Who is in the electorate. -/
theorem mem_electorate_iff {owner : Name} {row : Producer} {finalizer : Finalizer} :
    (owner, row, finalizer) ∈ electorate σ ↔
      σ.producers[owner]? = some row ∧ row.isActive = true ∧ 0 < row.totalVotes ∧
        σ.finalizers[owner]? = some finalizer ∧ finalizer.activeKeyBinary.isEmpty = false := by
  simp only [electorate, List.mem_insertionSort, List.mem_filterMap, candidate,
    Option.ite_none_right_eq_some, electable_iff, withKey_eq_some_iff, OrdMap.mem_toList]
  constructor
  · rintro ⟨e, hrow, ⟨hvotes, hactive⟩, rfl, rfl, hfin, hkey⟩
    exact ⟨hrow, hactive, hvotes, hfin, hkey⟩
  · rintro ⟨hrow, hactive, hvotes, hfin, hkey⟩
    exact ⟨(owner, row), hrow, ⟨hvotes, hactive⟩, rfl, rfl, hfin, hkey⟩

/-- The votes of two electable rows, and their owners, are in the order of the index. -/
theorem ranksBefore_of_index {a b : Name × Producer} {c d : Name × Producer × Finalizer}
    (hab : a.2.byVotes ≤ b.2.byVotes ∧ (b.2.byVotes ≤ a.2.byVotes → a.1.value < b.1.value))
    (hc : candidate finalizers a = some c) (hd : candidate finalizers b = some d) :
    RanksBefore c d := by
  simp only [candidate, Option.ite_none_right_eq_some, withKey_eq_some_iff] at hc hd
  obtain ⟨ha, hcowner, hcrow, -⟩ := hc
  obtain ⟨hb, hdowner, hdrow, -⟩ := hd
  rw [byVotes_of_electable ha, byVotes_of_electable hb, neg_le_neg_iff, neg_le_neg_iff] at hab
  rw [RanksBefore, hcowner, hdowner, hcrow, hdrow]
  rcases lt_or_eq_of_le hab.1 with hlt | heq
  · exact .inl hlt
  · exact .inr ⟨heq.symm, UInt64.le_of_lt (hab.2 heq.ge)⟩

instance : Std.Total RanksBefore where
  total a b := by
    rcases lt_trichotomy a.2.1.totalVotes b.2.1.totalVotes with hlt | heq | hgt
    · exact .inr (.inl hlt)
    · rcases UInt64.le_total a.1.value b.1.value with hle | hge
      · exact .inl (.inr ⟨heq, hle⟩)
      · exact .inr (.inr ⟨heq.symm, hge⟩)
    · exact .inl (.inl hgt)

instance : IsTrans (Name × Producer × Finalizer) RanksBefore where
  trans a b c hab hbc := by
    rcases hab with hab | ⟨hab, hle⟩
    · rcases hbc with hbc | ⟨hbc, -⟩
      · exact .inl (hbc.trans hab)
      · exact .inl (hbc ▸ hab)
    · rcases hbc with hbc | ⟨hbc, hle'⟩
      · exact .inl (hab ▸ hbc)
      · exact .inr ⟨hab.trans hbc, UInt64.le_trans hle hle'⟩

/-- Nobody ranks with somebody else. -/
theorem owner_eq_of_ranksBefore {a b : Name × Producer × Finalizer} (hab : RanksBefore a b)
    (hba : RanksBefore b a) : a.1 = b.1 := by
  rcases hab with hab | ⟨heq, hle⟩
  · rcases hba with hba | ⟨hba, -⟩
    · exact absurd hab hba.not_gt
    · exact absurd hba hab.ne
  · rcases hba with hba | ⟨-, hge⟩
    · exact absurd heq hba.ne
    · have hvalue := UInt64.le_antisymm hle hge
      cases a with | mk owner rest =>
      cases b with | mk owner' rest' =>
      cases owner
      cases owner'
      exact congrArg Name.mk hvalue

/-- **The loop finds the electorate**, and takes its first 21. -/
theorem electProducers_eq_electorate (hvotes : VotesNonneg σ.producers) :
    electProducers σ.finalizers (prototalvote σ.producers) [] = (electorate σ).take 21 := by
  have hindex : ((prototalvote σ.producers).filterMap (candidate σ.finalizers)).Pairwise
      RanksBefore := by
    rw [List.pairwise_filterMap]
    exact (pairwise_prototalvote σ.producers).imp fun hab c hc d hd =>
      ranksBefore_of_index hab hc hd
  have hperm : ((prototalvote σ.producers).filterMap (candidate σ.finalizers)).Perm
      (electorate σ) :=
    ((List.perm_insertionSort _ _).filterMap _).trans (List.perm_insertionSort _ _).symm
  -- two lists of the same elements in the order of the same ranks
  have heq : (prototalvote σ.producers).filterMap (candidate σ.finalizers) = electorate σ := by
    refine List.Perm.eq_of_pairwise (fun a b ha hb hab hba => ?_) hindex
      (List.pairwise_insertionSort _ _) hperm
    have howner := owner_eq_of_ranksBefore hab hba
    obtain ⟨owner, row, finalizer⟩ := a
    obtain ⟨owner', row', finalizer'⟩ := b
    obtain rfl : owner = owner' := howner
    obtain ⟨hrow, -, -, hfin, -⟩ := mem_electorate_iff.mp (hperm.mem_iff.mp ha)
    obtain ⟨hrow', -, -, hfin', -⟩ := mem_electorate_iff.mp hb
    rw [Option.some.inj (hrow.symm.trans hrow'), Option.some.inj (hfin.symm.trans hfin')]
  rw [electProducers_eq _ [] (Nat.zero_le 21), List.nil_append, takeWhile_electable hvotes,
    List.filterMap_filter, ← heq]
  rfl

/-- Nobody is in the electorate twice. -/
theorem nodup_owner_electorate (σ : State) : ((electorate σ).map fun e => e.1.value).Nodup := by
  have hlisted : (σ.producers.toList.filterMap (candidate σ.finalizers)).Pairwise
      fun c d => c.1.value ≠ d.1.value := by
    rw [List.pairwise_filterMap]
    refine (pairwise_owner_toList σ.producers).imp fun {a b} hlt c hc d hd => ?_
    simp only [candidate, Option.ite_none_right_eq_some, withKey_eq_some_iff] at hc hd
    rw [hc.2.1, hd.2.1]
    exact UInt64.ne_of_lt hlt
  have hperm := (List.perm_insertionSort RanksBefore
    (σ.producers.toList.filterMap (candidate σ.finalizers))).map fun e => e.1.value
  exact hperm.nodup_iff.mpr (List.pairwise_map.mpr hlisted)

/-! ### The update -/

/-- The producer, as it is proposed. -/
def toAuthority (e : Name × Producer × Finalizer) : ProducerAuthority :=
  { producerName := e.1, authority := e.2.1.getProducerAuthority }

/-- **Top 21.** For every table of producers with votes that are not negative, and every table of
finalizers: the schedule update does nothing exactly when the first 21 of the electorate are none
at all, or fewer than the last schedule had. Otherwise it proposes exactly these, in the order of
their names, none of them twice, with the authorities of their rows; and the finalizers that it
hands on are theirs, one for each of them. -/
theorem elected_top21 {global : Global} (hglobal : σ.global = some global)
    (hvotes : VotesNonneg σ.producers) (host : Host) (blockTime : UInt32) :
    (updateElectedProducers host σ blockTime = .ok (σ, none, none) ↔
      (electorate σ).take 21 = [] ∨
        ((electorate σ).take 21).length < global.lastProducerScheduleSize.toNat) ∧
    (¬ ((electorate σ).take 21 = [] ∨
        ((electorate σ).take 21).length < global.lastProducerScheduleSize.toNat) →
      ∃ σ' proposed policy,
        updateElectedProducers host σ blockTime = .ok (σ', some proposed, policy) ∧
        proposed.Pairwise (fun a b => a.producerName.value < b.producerName.value) ∧
        proposed.Perm (((electorate σ).take 21).map toAuthority) ∧
        ∃ cached, setProposedFinalizers host
            (((electorate σ).take 21).map fun e => .ofFinalizer e.1 e.2.2) none σ.lastpropfins =
          (σ'.lastpropfins, cached, policy)) := by
  have hdistinct : ((((electorate σ).take 21).map toAuthority).map
      fun a => a.producerName.value).Nodup := by
    rw [List.map_map]
    exact (nodup_owner_electorate σ).sublist ((List.take_sublist 21 _).map _)
  simp only [updateElectedProducers, hglobal, singletonGet, ok_bind,
    electProducers_eq_electorate hvotes, List.length_eq_zero_iff]
  by_cases hearly : (electorate σ).take 21 = [] ∨
      ((electorate σ).take 21).length < global.lastProducerScheduleSize.toNat
  · rw [if_pos hearly]
    exact ⟨iff_of_true rfl hearly, fun hlate => absurd hearly hlate⟩
  · rw [if_neg hearly]
    refine ⟨iff_of_false (fun hnone => ?_) hearly, fun _ => ?_⟩
    · exact absurd (congrArg (fun r => r.2.1) (Except.ok.inj hnone)) (Option.some_ne_none _)
    · exact ⟨_, _, _, rfl, SortedBy.pairwise_lt_insertionSort hdistinct,
        List.perm_insertionSort _ _, _, rfl⟩

/-- Three producers with votes, the last of which has no finalizer key. -/
def carolUnkeyed : State where
  global := some {}
  producers := votedProducers [.ofString "alice", .ofString "bob", .ofString "carol"]
  finalizers := keyedFinalizers [.ofString "alice", .ofString "bob"]

/-- Two of these three are elected. -/
theorem elected_top21_carolUnkeyed :
    ∃ σ' proposed policy,
      updateElectedProducers plainHost carolUnkeyed 0 = .ok (σ', some proposed, policy) ∧
      proposed.length = 2 ∧
      proposed.Pairwise (fun a b => a.producerName.value < b.producerName.value) := by
  obtain ⟨σ', proposed, policy, hok, hsorted, hperm, -⟩ :=
    (elected_top21 (σ := carolUnkeyed) rfl (by decide +kernel) plainHost 0).2 (by decide +kernel)
  have htwo : (((electorate carolUnkeyed).take 21).map toAuthority).length = 2 := by
    decide +kernel
  exact ⟨σ', proposed, policy, hok, hperm.length_eq.trans htwo, hsorted⟩

end Twig.System
