import Twig.System.Policy

/-!
# The public keys of a policy

Whether a finalizer policy can name a key twice. `regfinkey` refuses a key that is registered;
but the recorded policy keeps the entry of a key whose registration has been deleted since, and
then another finalizer may register and activate that key.

* `keys_distinct` — no policy names a key twice in the runs in which an activation puts no key
  into the record that another entry of it has, and this is exactly when a step keeps it so;
* `policy_names_key_twice` — a deleted key that another finalizer registers and activates.
-/

namespace Twig.System

open Std Fallible

/-! ### The law -/

/-- The public keys of a list of finalizers. -/
def publicKeys (l : List FinalizerAuthInfo) : List Bytes :=
  l.map fun e => e.finAuthority.publicKey

/-- No public key is named twice. -/
def FinalizerPolicy.Distinct (p : FinalizerPolicy) : Prop :=
  (p.finalizers.map FinalizerAuthority.publicKey).Nodup

/-- An activation puts no key into the record that another entry of it has. -/
def Policies.Fresh (host : Host) (w : Policies) : PolicyEvent → Prop
  | .actfinkey _ finalizerName finalizerKey =>
    ∀ binary ∈ (toBinary host finalizerKey).toOption,
      ∀ e ∈ findByFinKey host w.state.finkeys (host.sha256 binary),
        ∀ fin ∈ w.state.finalizers[finalizerName]?,
          (w.state.recorded[lowerBound w.state.recorded fin.activeKeyId]?).map
              FinalizerAuthInfo.keyId = some fin.activeKeyId →
            e.2.finalizerKeyBinary ∉ publicKeys
              (w.state.recorded.eraseIdx (lowerBound w.state.recorded fin.activeKeyId))
  | _ => True

instance (host : Host) (w : Policies) : ∀ e : PolicyEvent, Decidable (w.Fresh host e)
  | .actfinkey _ _ _ => by
    unfold Policies.Fresh
    infer_instance
  | .regfinkey _ _ _ _ | .delfinkey _ _ _ | .switchtosvnn _ | .updateElectedProducers _
  | .producers _ => .isTrue trivial

/-- What the key tables say of the registered keys. -/
structure KeysLaw (σ : State) : Prop where
  distinct : ∀ (id id' : UInt64) (row row' : FinKey), σ.finkeys[id]? = some row →
    σ.finkeys[id']? = some row' → row.finalizerKeyBinary = row'.finalizerKeyBinary → id = id'
  active : ∀ (f : Name) (fin : Finalizer), σ.finalizers[f]? = some fin →
    ∃ row : FinKey, σ.finkeys[fin.activeKeyId]? = some row ∧ row.finalizerName = f ∧
      row.finalizerKeyBinary = fin.activeKeyBinary

/-- **The invariant**: next to the key tables, the record and the policies name no key twice. -/
structure KeysInv (w : Policies) : Prop where
  keys : KeysLaw w.state
  recorded : (publicKeys w.state.recorded).Nodup
  policies : ∀ p ∈ w.policies, p.Distinct

variable {host : Host} {ctx : Context} {σ σ' : State} {w w' : Policies} {f : Name}
  {key pop : String} {l : List FinalizerAuthInfo}

theorem nodup_publicKeys_sort : (publicKeys (sortedByKeyId l)).Nodup ↔ (publicKeys l).Nodup :=
  ((List.perm_insertionSort _ l).map _).nodup_iff

/-- What is proposed decides: the record that was there names no key twice, so a list that does
looks different and is passed on. -/
theorem distinct_propose_iff {lastpropfins : Option (List FinalizerAuthInfo)}
    (h : (publicKeys (lastpropfins.getD [])).Nodup) :
    (∀ p ∈ (propose l lastpropfins).2, p.Distinct) ↔ (publicKeys l).Nodup := by
  rw [propose, ← nodup_publicKeys_sort (l := l)]
  split_ifs with hsame
  · -- lists that look the same have the same keys
    have hkeys : publicKeys (sortedByKeyId l) = publicKeys (lastpropfins.getD []) := by
      have hsnd := congrArg (List.map Prod.snd) hsame
      rw [List.map_map, List.map_map] at hsnd
      exact hsnd
    simp [hkeys, h]
  · simp only [Option.mem_def, Option.some.injEq, forall_eq', FinalizerPolicy.Distinct, policyOf,
      List.map_map]
    exact Iff.rfl

/-- What is recorded then is what was, or the list. -/
theorem nodup_recorded {lastpropfins : Option (List FinalizerAuthInfo)}
    (h : (publicKeys (lastpropfins.getD [])).Nodup) (hl : (publicKeys l).Nodup) :
    (publicKeys ((propose l lastpropfins).1.getD [])).Nodup := by
  rw [propose]
  split_ifs
  · exact h
  · exact nodup_publicKeys_sort.mpr hl

/-! ### Proposed lists -/

/-- What is collected by votes names no key twice. -/
theorem KeysLaw.collect (h : KeysLaw σ) {size : ℕ} :
    (publicKeys (collectFinalizers σ.finalizers size (prototalvote σ.producers) [])).Nodup := by
  obtain ⟨elected, heq, hsub, -, hmem⟩ := collectFinalizers_eq σ.finalizers
    (prototalvote σ.producers) [] (Nat.zero_le size)
  have hnodup : elected.Nodup := (nodup_prototalvote.sublist hsub).of_map Prod.fst
  rw [heq, List.nil_append, publicKeys, List.map_map]
  refine List.Nodup.map_on ?_ hnodup
  rintro ⟨f, fin⟩ he ⟨f', fin'⟩ he' hkeys
  obtain ⟨row, hrow, hown, hbinary⟩ := h.active f fin (hmem _ he).1
  obtain ⟨row', hrow', hown', hbinary'⟩ := h.active f' fin' (hmem _ he').1
  -- equal keys are registered once, and then by one finalizer
  have hsame : fin.activeKeyBinary = fin'.activeKeyBinary := hkeys
  have hid := h.distinct _ _ row row' hrow hrow' (by rw [hbinary, hbinary', hsame])
  rw [hid, hrow'] at hrow
  obtain rfl := Option.some.inj hrow
  obtain rfl : f = f' := hown.symm.trans hown'
  exact congrArg (Prod.mk f) (Option.some.inj ((hmem _ he).1.symm.trans (hmem _ he').1))

/-- A replaced entry decides by its key. -/
theorem nodup_replacement_iff {activeKeyId id : UInt64} {binary : Bytes}
    {l' : List FinalizerAuthInfo} (h : (publicKeys l).Nodup)
    (hl' : replacement l activeKeyId id binary = some l') :
    (publicKeys l').Nodup ↔ binary ∉ publicKeys (l.eraseIdx (lowerBound l activeKeyId)) := by
  obtain ⟨entry, hentry, -, rfl⟩ := replacement_eq_some hl'
  have hlt : lowerBound l activeKeyId < l.length := (List.getElem?_eq_some_iff.mp hentry).1
  have herase : (publicKeys (l.eraseIdx (lowerBound l activeKeyId))).Nodup :=
    h.sublist ((List.eraseIdx_sublist l _).map _)
  have hperm := (List.set_perm_cons_eraseIdx hlt
    { keyId := id, finAuthority := { entry.finAuthority with publicKey := binary } }).map
      fun e : FinalizerAuthInfo => e.finAuthority.publicKey
  rw [publicKeys, hperm.nodup_iff, List.map_cons, List.nodup_cons]
  exact and_iff_left herase

/-! ### Steps -/

theorem KeysLaw.regfinkey (h : KeysLaw σ) (hok : regfinkey host ctx σ f key pop = .ok σ') :
    KeysLaw σ' := by
  obtain ⟨binary, hfind, hid, rfl⟩ := regfinkey_spec hok
  generalize getNextFinalizerKeyId σ.finkeyidgen = id at hid ⊢
  -- a stored row keeps its place next to the new one
  have hstays (id' : UInt64) (row : FinKey) (hrow : σ.finkeys[id']? = some row) :
      (σ.finkeys.insert id ⟨f, key, binary⟩)[id']? = some row := by
    rw [OrdMap.getElem?_insert, if_neg, hrow]
    rintro rfl
    exact hid (OrdMap.mem_iff_exists.mpr ⟨row, hrow⟩)
  refine ⟨distinct_insert h.distinct hfind, OrdMap.forall_insert ?_ fun f' fin _ hfin => ?_⟩
  · rw [registered]
    cases hfin : σ.finalizers[f]? with
    | none => exact ⟨⟨f, key, binary⟩, by simp, rfl, rfl⟩
    | some fin =>
      obtain ⟨row, hrow, hown, hactive⟩ := h.active f fin hfin
      exact ⟨row, hstays _ row hrow, hown, hactive⟩
  · obtain ⟨row, hrow, hown, hactive⟩ := h.active f' fin hfin
    exact ⟨row, hstays _ row hrow, hown, hactive⟩

/-- A deleted key is not the active one of a finalizer that stays. -/
theorem KeysLaw.delfinkey (h : KeysLaw σ) (hok : delfinkey host ctx σ f key = .ok σ') :
    KeysLaw σ' := by
  obtain ⟨fin, id, row, hfin, -, hrow, hown, hlast, rfl⟩ := delfinkey_spec hok
  refine ⟨distinct_erase h.distinct, forall_finalizers_delfinkey (fun hcount => ?_) ?_⟩
  · -- the row of `f` stays only when another of its keys is active
    obtain ⟨row', hrow', hown', hactive⟩ := h.active f fin hfin
    refine ⟨row', ?_, hown', hactive⟩
    rw [OrdMap.getElem?_erase, if_neg fun hid => hcount (hlast hid.symm), hrow']
  · intro f' fin' hne hfin'
    obtain ⟨row', hrow', hown', hactive⟩ := h.active f' fin' hfin'
    refine ⟨row', ?_, hown', hactive⟩
    rw [OrdMap.getElem?_erase, if_neg, hrow']
    intro hid
    rw [hid, hrow] at hrow'
    obtain rfl := Option.some.inj hrow'
    exact hne (hown'.symm.trans hown)

/-- An activation makes a key of the finalizer's own the active one. -/
theorem KeysLaw.activate (h : KeysLaw σ) (fin : Finalizer) {id : UInt64} {row : FinKey}
    (hrow : σ.finkeys[id]? = some row) (hown : row.finalizerName = f) :
    KeysLaw { σ with
      finalizers := σ.finalizers.insert f
        { fin with activeKeyId := id, activeKeyBinary := row.finalizerKeyBinary } } :=
  ⟨h.distinct, OrdMap.forall_insert ⟨row, hrow, hown, rfl⟩ fun f' fin' _ => h.active f' fin'⟩

/-- **Every step keeps the law of the registered keys.** -/
theorem KeysLaw.step (hread : host.disengaged = []) {e : PolicyEvent} (h : KeysLaw w.state)
    (hok : w.step host e = .ok w') : KeysLaw w'.state := by
  cases e with
  | regfinkey ctx f key pop =>
    obtain ⟨σ', hreg, rfl⟩ := step_regfinkey hok
    exact h.regfinkey hreg
  | actfinkey ctx f key =>
    obtain ⟨fin, id, row, -, ⟨binary, -, hfind⟩, hown, activated, rfl, rfl⟩ :=
      step_actfinkey hread hok
    have hactivated := h.activate fin (findByFinKey_eq_some hfind) hown
    cases replacement w.state.recorded fin.activeKeyId id row.finalizerKeyBinary with
    | none => exact hactivated
    | some proposed => exact ⟨hactivated.distinct, hactivated.active⟩
  | delfinkey ctx f key =>
    obtain ⟨σ', hdel, rfl⟩ := step_delfinkey hok
    exact h.delfinkey hdel
  | switchtosvnn ctx =>
    obtain ⟨size, -, -, rfl⟩ := step_switchtosvnn hread hok
    exact ⟨h.distinct, h.active⟩
  | updateElectedProducers blockTime =>
    rcases step_updateElectedProducers hread hok with rfl | ⟨global, -, rfl⟩
    · exact h
    · exact ⟨h.distinct, h.active⟩
  | producers producers =>
    obtain rfl := pure_eq_ok_iff.mp hok
    exact ⟨h.distinct, h.active⟩

/-- Where a list is proposed, it decides what policies there are. -/
theorem KeysInv.propose_iff (h : KeysInv w)
    (hpassed : w'.policies = w.policies ++ (propose l w.state.lastpropfins).2.toList) :
    (∀ p ∈ w'.policies, p.Distinct) ↔ (publicKeys l).Nodup := by
  rw [hpassed, ← distinct_propose_iff h.recorded]
  constructor
  · intro hall p hp
    exact hall p (List.mem_append_right _ (Option.mem_toList.mpr hp))
  · intro hnew p hp
    rcases List.mem_append.mp hp with hp | hp
    · exact h.policies p hp
    · exact hnew p (Option.mem_toList.mp hp)

/-- A step that passes on no policy with a key twice records none either. -/
theorem KeysInv.step (hread : host.disengaged = []) {e : PolicyEvent} (h : KeysInv w)
    (hok : w.step host e = .ok w') (hpolicies : ∀ p ∈ w'.policies, p.Distinct) : KeysInv w' := by
  refine ⟨h.keys.step hread hok, ?_, hpolicies⟩
  rcases Policies.step_record hread hok with ⟨hsame, -⟩ | ⟨l, hrecord, hpassed⟩
  · rw [State.recorded, hsame]
    exact h.recorded
  · rw [State.recorded, hrecord]
    exact nodup_recorded h.recorded ((h.propose_iff hpassed).mp hpolicies)

/-- An activation passes a key on twice exactly when another entry of the record has it. -/
theorem KeysInv.actfinkey_iff (hread : host.disengaged = []) (h : KeysInv w)
    (hok : w.step host (.actfinkey ctx f key) = .ok w') :
    (∀ p ∈ w'.policies, p.Distinct) ↔ w.Fresh host (.actfinkey ctx f key) := by
  obtain ⟨fin, id, row, hfin, ⟨binary, hbinary, hfind⟩, -, activated, rfl, rfl⟩ :=
    step_actfinkey hread hok
  -- what the condition says of the key and the finalizer at hand
  have hfresh : w.Fresh host (.actfinkey ctx f key) ↔
      ((w.state.recorded[lowerBound w.state.recorded fin.activeKeyId]?).map
          FinalizerAuthInfo.keyId = some fin.activeKeyId →
        row.finalizerKeyBinary ∉ publicKeys
          (w.state.recorded.eraseIdx (lowerBound w.state.recorded fin.activeKeyId))) := by
    simp [Policies.Fresh, hbinary, Except.toOption, hfind, hfin]
  rw [hfresh]
  cases hreplaced : replacement w.state.recorded fin.activeKeyId id row.finalizerKeyBinary with
  | none =>
    refine iff_of_true h.policies ?_
    intro hlisted
    obtain ⟨entry, hentry, hid⟩ := Option.map_eq_some_iff.mp hlisted
    rw [replacement, hentry] at hreplaced
    simp [hid] at hreplaced
  | some proposed =>
    obtain ⟨entry, hentry, hid, -⟩ := replacement_eq_some hreplaced
    rw [h.propose_iff rfl, nodup_replacement_iff h.recorded hreplaced, hentry]
    simp [hid]

/-- **A step passes on a key twice exactly when it does not meet the condition.** -/
theorem KeysInv.step_iff (hread : host.disengaged = []) {e : PolicyEvent} (h : KeysInv w)
    (hok : w.step host e = .ok w') : (∀ p ∈ w'.policies, p.Distinct) ↔ w.Fresh host e := by
  cases e with
  | actfinkey ctx f key => exact h.actfinkey_iff hread hok
  | regfinkey ctx f key pop =>
    obtain ⟨σ', -, rfl⟩ := step_regfinkey hok
    exact iff_of_true h.policies trivial
  | delfinkey ctx f key =>
    obtain ⟨σ', -, rfl⟩ := step_delfinkey hok
    exact iff_of_true h.policies trivial
  | switchtosvnn ctx =>
    obtain ⟨size, -, -, rfl⟩ := step_switchtosvnn hread hok
    exact iff_of_true ((h.propose_iff rfl).mpr h.keys.collect) trivial
  | updateElectedProducers blockTime =>
    rcases step_updateElectedProducers hread hok with rfl | ⟨global, -, rfl⟩
    · exact iff_of_true h.policies trivial
    · exact iff_of_true ((h.propose_iff rfl).mpr h.keys.collect) trivial
  | producers producers =>
    obtain rfl := pure_eq_ok_iff.mp hok
    exact iff_of_true h.policies trivial

/-- **When no policy names a key twice.** From empty key tables without a record, in every run
whose activations put no key into the record that another entry of it has. After such a run the
condition is exact: a step passes on a policy that names a key twice if and only if it does not
meet it. -/
theorem keys_distinct (hread : host.disengaged = []) (hkeys : σ.finkeys = ∅)
    (hfinalizers : σ.finalizers = ∅) (hnone : σ.lastpropfins = none) {tr : List PolicyEvent}
    (hrun : Run (Policies.step host) (Policies.Fresh host) { state := σ } tr w) :
    (∀ p ∈ w.policies, p.Distinct) ∧
      ∀ e w', w.step host e = .ok w' →
        ((∀ p ∈ w'.policies, p.Distinct) ↔ w.Fresh host e) := by
  have hstart : KeysInv { state := σ } := by
    refine ⟨⟨?_, ?_⟩, ?_, ?_⟩
    · intro id id' row row' hrow
      simp [hkeys] at hrow
    · intro f fin hfin
      simp [hfinalizers] at hfin
    all_goals simp [State.recorded, publicKeys, hnone]
  have h : KeysInv w := hrun.state_invariant (I := KeysInv) hstart
    fun _ _ _ hI hg hs => hI.step hread hs ((hI.step_iff hread hs).mpr hg)
  exact ⟨h.policies, fun e w' hok => h.step_iff hread hok⟩

/-! ### A key that is named twice -/

/-- Alice activates a second key, which nobody else has. -/
theorem keys_distinct_secondKey :
    ∃ w, Run (Policies.step lengthHost) (Policies.Fresh lengthHost)
        { state := { global := some {} } } (deletedKey ++ secondKey) w ∧
      w.policies.map (fun p => p.finalizers.map FinalizerAuthority.publicKey) =
        [[[0], [0, 0]], [[0], [0, 0, 0]]] ∧
      ∀ p ∈ w.policies, p.Distinct := by
  obtain ⟨w, hw, hkeys⟩ := returns_iff.mp (show returns
    ((deletedKey ++ secondKey).foldlM
      (Run.checked (Policies.step lengthHost) (Policies.Fresh lengthHost) .deref)
      { state := { global := some {} } })
      (fun w => w.policies.map (fun p => p.finalizers.map FinalizerAuthority.publicKey) =
        [[[0], [0, 0]], [[0], [0, 0, 0]]]) = true by decide +kernel)
  have hrun := Run.of_checked hw
  exact ⟨w, hrun, of_decide_eq_true hkeys, (keys_distinct rfl rfl rfl rfl hrun).1⟩

/-- Alice registers and activates the key that bob has deleted. -/
def deletedKeyAgain : List PolicyEvent :=
  [.regfinkey systemContext registrant (lengthKey 1) "SIG_BLS",
    .actfinkey systemContext registrant (lengthKey 1)]

/-- **A policy with a key twice**: bob's entry is still recorded when alice activates his key. -/
theorem policy_names_key_twice :
    ∃ w, Run (Policies.step lengthHost) (fun _ _ => True) { state := { global := some {} } }
        (deletedKey ++ deletedKeyAgain) w ∧
      ∃ p ∈ w.policies, p.finalizers.map FinalizerAuthority.publicKey = [[0], [0]] ∧
        ¬ p.Distinct := by
  obtain ⟨w, hw, hkeys⟩ := returns_iff.mp (show returns
    ((deletedKey ++ deletedKeyAgain).foldlM (Policies.step lengthHost)
      { state := { global := some {} } })
      (fun w => ∃ p ∈ w.policies,
        p.finalizers.map FinalizerAuthority.publicKey = [[0], [0]]) = true by decide +kernel)
  obtain ⟨p, hp, hkeys⟩ := of_decide_eq_true hkeys
  refine ⟨w, Run.of_foldlM (fun _ _ _ => trivial) hw, p, hp, hkeys, ?_⟩
  rw [FinalizerPolicy.Distinct, hkeys]
  decide

end Twig.System
