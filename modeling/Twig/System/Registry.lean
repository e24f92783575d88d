import Twig.System.Producers
import Twig.Lib.Exact
import Twig.Lib.Run

/-!
# The registry of finalizer keys

Three tables are kept together by `regfinkey`, `actfinkey` and `delfinkey`: the keys, the
finalizers with a count of their keys and their active one, and the last id that was given out.
`RegistryInv` says how they agree. `delfinkey` decides by the count whether a finalizer goes,
never by looking at the keys; the invariant shows that this is the same.

The count has 32 bits and the id 64. `registry_law` holds of the runs in which neither counter
starts over. Both can: `registry_overflow` is a run of `2 ^ 32` registrations after which a
finalizer has as many keys and a count of zero, `registry_id_reused` one that gives an id out
twice.
-/

namespace Twig.System

open Std Fallible

/-! ### Runs -/

/-- The state, with the ids given out so far. -/
structure Registry where
  state : State
  given : List UInt64 := []

inductive RegistryEvent
  | regfinkey (ctx : Context) (finalizerName : Name) (finalizerKey proofOfPossession : String)
  | actfinkey (ctx : Context) (finalizerName : Name) (finalizerKey : String)
  | delfinkey (ctx : Context) (finalizerName : Name) (finalizerKey : String)
  /-- Any change of the registered producers. -/
  | producers (producers : Table Name Producer)

def Registry.step (host : Host) (w : Registry) : RegistryEvent → Outcome Registry
  | .regfinkey ctx finalizerName finalizerKey proofOfPossession => do
    let state ← System.regfinkey host ctx w.state finalizerName finalizerKey proofOfPossession
    pure { state, given := w.given ++ [getNextFinalizerKeyId w.state.finkeyidgen] }
  | .actfinkey ctx finalizerName finalizerKey => do
    let (state, _) ← System.actfinkey host ctx w.state finalizerName finalizerKey
    pure { w with state }
  | .delfinkey ctx finalizerName finalizerKey => do
    let state ← System.delfinkey host ctx w.state finalizerName finalizerKey
    pure { w with state }
  | .producers producers => pure { w with state.producers := producers }

/-- The keys of a finalizer. -/
def keysOf (finkeys : Table UInt64 FinKey) (finalizerName : Name) : ℕ :=
  OrdMap.countOf (fun _ row => decide (row.finalizerName = finalizerName)) finkeys

/-- Neither counter starts over. -/
def Registry.Guard (w : Registry) : RegistryEvent → Prop
  | .regfinkey _ finalizerName _ _ =>
    w.state.finkeyidgen ≠ some 18446744073709551615 ∧
      ∀ fin : Finalizer, w.state.finalizers[finalizerName]? = some fin →
        fin.finalizerKeyCount ≠ 4294967295
  | _ => True

/-! ### What the actions do -/

variable {host : Host} {ctx : Context} {σ σ' : State} {f : Name} {key pop : String}

theorem findByFinKey_eq_some {finkeys : Table UInt64 FinKey} {hash : Checksum256}
    {e : UInt64 × FinKey} (h : findByFinKey host finkeys hash = some e) :
    finkeys[e.1]? = some e.2 :=
  OrdMap.mem_toList.mp (List.mem_of_find?_eq_some h)

/-- No key is stored under a hash that is not found. -/
theorem findByFinKey_eq_none {finkeys : Table UInt64 FinKey} {hash : Checksum256}
    (h : findByFinKey host finkeys hash = none) {id : UInt64} {row : FinKey}
    (hrow : finkeys[id]? = some row) : host.sha256 row.finalizerKeyBinary ≠ hash := by
  have hfind := List.find?_eq_none.mp h (id, row) (OrdMap.mem_toList.mpr hrow)
  simpa using hfind

/-- The row of a finalizer after a registration. -/
def registered (finalizers : Table Name Finalizer) (f : Name) (id : UInt64) (binary : Bytes) :
    Finalizer :=
  match finalizers[f]? with
  | none => { activeKeyId := id, activeKeyBinary := binary, finalizerKeyCount := 1 }
  | some row => { row with finalizerKeyCount := row.finalizerKeyCount + 1 }

/-- A registration stores a new key under the next id. -/
theorem regfinkey_spec (hok : regfinkey host ctx σ f key pop = .ok σ') :
    ∃ binary, findByFinKey host σ.finkeys (host.sha256 binary) = none ∧
      getNextFinalizerKeyId σ.finkeyidgen ∉ σ.finkeys ∧
      σ' = { σ with
        finkeys := σ.finkeys.insert (getNextFinalizerKeyId σ.finkeyidgen)
          { finalizerName := f, finalizerKey := key, finalizerKeyBinary := binary }
        finkeyidgen := some (getNextFinalizerKeyId σ.finkeyidgen)
        finalizers := σ.finalizers.insert f
          (registered σ.finalizers f (getNextFinalizerKeyId σ.finkeyidgen) binary) } := by
  simp only [regfinkey, bind_eq_ok_iff, Context.requireAuth_eq_ok_iff, check_eq_ok_iff,
    exists_const, Table.requireFind_eq_ok_iff, Table.emplace_eq_ok_iff, pure_eq_ok_iff,
    Option.isNone_iff_eq_none] at hok
  obtain ⟨-, -, -, -, binary, -, pop, -, hfind, -, finkeys, ⟨hid, rfl⟩, rfl⟩ := hok
  exact ⟨binary, hfind, hid, rfl⟩

theorem getFinalizerItr_eq_ok {finalizers : Table Name Finalizer} {fin : Finalizer}
    (hok : getFinalizerItr finalizers f = .ok fin) :
    finalizers[f]? = some fin ∧ 0 < fin.finalizerKeyCount := by
  simp only [getFinalizerItr, bind_eq_ok_iff, Table.requireFind_eq_ok_iff, check_eq_ok_iff,
    exists_const, pure_eq_ok_iff] at hok
  obtain ⟨fin', hfin, hpos, rfl⟩ := hok
  exact ⟨hfin, hpos⟩

/-- The key that is found is stored under the hash of the one that is asked for. -/
theorem findOwnKey_found {finkeys : Table UInt64 FinKey} {msg : String} {e : UInt64 × FinKey}
    (hok : findOwnKey host finkeys f key msg = .ok e) :
    (∃ binary, toBinary host key = .ok binary ∧
      findByFinKey host finkeys (host.sha256 binary) = some e) ∧ e.2.finalizerName = f := by
  simp only [findOwnKey, bind_eq_ok_iff] at hok
  obtain ⟨binary, hbinary, hok⟩ := hok
  split at hok
  · exact nomatch hok
  · next e' hfind =>
    simp only [bind_eq_ok_iff, check_eq_ok_iff, exists_const, pure_eq_ok_iff] at hok
    obtain ⟨hown, rfl⟩ := hok
    exact ⟨⟨binary, hbinary, hfind⟩, hown⟩

theorem findOwnKey_eq_ok {finkeys : Table UInt64 FinKey} {msg : String} {e : UInt64 × FinKey}
    (hok : findOwnKey host finkeys f key msg = .ok e) :
    finkeys[e.1]? = some e.2 ∧ e.2.finalizerName = f := by
  obtain ⟨⟨binary, -, hfind⟩, hown⟩ := findOwnKey_found hok
  exact ⟨findByFinKey_eq_some hfind, hown⟩

/-- An activation makes one of the finalizer's own keys the active one. -/
theorem actfinkey_spec {policy : Option FinalizerPolicy}
    (hok : actfinkey host ctx σ f key = .ok (σ', policy)) :
    ∃ fin id row, σ.finalizers[f]? = some fin ∧ σ.finkeys[id]? = some row ∧
      row.finalizerName = f ∧ σ'.finkeys = σ.finkeys ∧ σ'.finkeyidgen = σ.finkeyidgen ∧
      σ'.finalizers = σ.finalizers.insert f
        { fin with activeKeyId := id, activeKeyBinary := row.finalizerKeyBinary } := by
  simp only [actfinkey, bind_eq_ok_iff, check_eq_ok_iff, exists_const] at hok
  obtain ⟨-, -, fin, hfin, ⟨id, row⟩, hkey, -, hok⟩ := hok
  obtain ⟨hstored, hown⟩ := findOwnKey_eq_ok hkey
  refine ⟨fin, id, row, (getFinalizerItr_eq_ok hfin).1, hstored, hown, ?_⟩
  split at hok
  · obtain ⟨rfl, -⟩ := Prod.mk.inj (pure_eq_ok_iff.mp hok)
    exact ⟨rfl, rfl, rfl⟩
  · split at hok
    · obtain ⟨rfl, -⟩ := Prod.mk.inj (pure_eq_ok_iff.mp hok)
      exact ⟨rfl, rfl, rfl⟩
    · split at hok
      all_goals
        obtain ⟨rfl, -⟩ := Prod.mk.inj (pure_eq_ok_iff.mp hok)
        exact ⟨rfl, rfl, rfl⟩

/-- A deletion takes one of the finalizer's own keys away, the active one only as its last. -/
theorem delfinkey_spec (hok : delfinkey host ctx σ f key = .ok σ') :
    ∃ fin id row, σ.finalizers[f]? = some fin ∧ 0 < fin.finalizerKeyCount ∧
      σ.finkeys[id]? = some row ∧ row.finalizerName = f ∧
      (id = fin.activeKeyId → fin.finalizerKeyCount = 1) ∧
      σ' = { σ with
        finkeys := σ.finkeys.erase id
        finalizers :=
          if fin.finalizerKeyCount = 1 then σ.finalizers.erase f
          else σ.finalizers.insert f
            { fin with finalizerKeyCount := fin.finalizerKeyCount - 1 } } := by
  simp only [delfinkey, bind_eq_ok_iff, check_eq_ok_iff, exists_const, pure_eq_ok_iff] at hok
  obtain ⟨-, -, fin, hfin, ⟨id, row⟩, hkey, hlast, rfl⟩ := hok
  obtain ⟨hstored, hown⟩ := findOwnKey_eq_ok hkey
  obtain ⟨hfin, hpos⟩ := getFinalizerItr_eq_ok hfin
  exact ⟨fin, id, row, hfin, hpos, hstored, hown, hlast, rfl⟩

/-- What the finalizers keep when a key of `f` is deleted: its row goes with the last key. -/
theorem forall_finalizers_delfinkey {P : Name → Finalizer → Prop}
    {finalizers : Table Name Finalizer} {fin : Finalizer}
    (hown : fin.finalizerKeyCount ≠ 1 →
      P f { fin with finalizerKeyCount := fin.finalizerKeyCount - 1 })
    (hother : ∀ (f' : Name) (fin' : Finalizer), f' ≠ f → finalizers[f']? = some fin' → P f' fin')
    (f' : Name) (fin' : Finalizer)
    (hfin' : (if fin.finalizerKeyCount = 1 then finalizers.erase f
      else finalizers.insert f
        { fin with finalizerKeyCount := fin.finalizerKeyCount - 1 })[f']? = some fin') :
    P f' fin' := by
  split_ifs at hfin' with hone
  · exact OrdMap.forall_erase hother f' fin' hfin'
  · exact OrdMap.forall_insert (hown hone) hother f' fin' hfin'

/-- No two keys have one binary form after a new form has been stored. -/
theorem distinct_insert {finkeys : Table UInt64 FinKey} {id : UInt64} {row : FinKey}
    (h : ∀ (id id' : UInt64) (row row' : FinKey), finkeys[id]? = some row →
      finkeys[id']? = some row' → row.finalizerKeyBinary = row'.finalizerKeyBinary → id = id')
    (hnone : findByFinKey host finkeys (host.sha256 row.finalizerKeyBinary) = none)
    (id₁ id₂ : UInt64) (row₁ row₂ : FinKey) (h₁ : (finkeys.insert id row)[id₁]? = some row₁)
    (h₂ : (finkeys.insert id row)[id₂]? = some row₂)
    (heq : row₁.finalizerKeyBinary = row₂.finalizerKeyBinary) : id₁ = id₂ := by
  -- no stored key has the binary form of the new one
  have hnew (id' : UInt64) (row' : FinKey) (hrow' : finkeys[id']? = some row') :
      row'.finalizerKeyBinary ≠ row.finalizerKeyBinary := fun heq =>
    findByFinKey_eq_none hnone hrow' (by rw [heq])
  rw [OrdMap.getElem?_insert] at h₁ h₂
  split_ifs at h₁ h₂ with e₁ e₂ e₂
  · exact e₁.trans e₂.symm
  · obtain rfl := Option.some.inj h₁
    exact absurd heq.symm (hnew id₂ row₂ h₂)
  · obtain rfl := Option.some.inj h₂
    exact absurd heq (hnew id₁ row₁ h₁)
  · exact h id₁ id₂ row₁ row₂ h₁ h₂ heq

/-- No two keys have one binary form after one of them is gone. -/
theorem distinct_erase {finkeys : Table UInt64 FinKey} {id : UInt64}
    (h : ∀ (id id' : UInt64) (row row' : FinKey), finkeys[id]? = some row →
      finkeys[id']? = some row' → row.finalizerKeyBinary = row'.finalizerKeyBinary → id = id')
    (id₁ id₂ : UInt64) (row₁ row₂ : FinKey) (h₁ : (finkeys.erase id)[id₁]? = some row₁)
    (h₂ : (finkeys.erase id)[id₂]? = some row₂) :
    row₁.finalizerKeyBinary = row₂.finalizerKeyBinary → id₁ = id₂ := by
  rw [OrdMap.getElem?_erase] at h₁ h₂
  split_ifs at h₁ h₂
  exact h id₁ id₂ row₁ row₂ h₁ h₂

/-! ### The invariant -/

/-- The id has been given out. -/
def Given (finkeyidgen : Option UInt64) (id : UInt64) : Prop :=
  ∃ next, finkeyidgen = some next ∧ id ≤ next

/-- The next id is a new one, unless the counter starts over. -/
theorem Given.next {finkeyidgen : Option UInt64} {id : UInt64} (h : Given finkeyidgen id)
    (hgen : finkeyidgen ≠ some 18446744073709551615) :
    id < getNextFinalizerKeyId finkeyidgen := by
  obtain ⟨next, rfl, hle⟩ := h
  have hne : next.toNat ≠ 18446744073709551615 := by
    intro heq
    exact hgen (congrArg some (UInt64.toNat_inj.mp heq))
  have hlt := next.toNat_lt
  rw [UInt64.le_iff_toNat_le] at hle
  rw [getNextFinalizerKeyId, UInt64.lt_iff_toNat_lt, UInt64.toNat_add,
    Nat.mod_eq_of_lt (by simp only [UInt64.toNat_one]; omega), UInt64.toNat_one]
  omega

/-- A finalizer's row counts its keys, and its active key is one of them. -/
structure FinalizerLaw (finkeys : Table UInt64 FinKey) (f : Name) (fin : Finalizer) : Prop where
  counted : fin.finalizerKeyCount.toNat = keysOf finkeys f
  active : ∃ row : FinKey, finkeys[fin.activeKeyId]? = some row ∧ row.finalizerName = f ∧
    row.finalizerKeyBinary = fin.activeKeyBinary

/-- **The registry invariant.** -/
structure RegistryInv (w : Registry) : Prop where
  nodup : w.given.Nodup
  le : ∀ id ∈ w.given, ∃ next, w.state.finkeyidgen = some next ∧ id ≤ next
  stored : ∀ (id : UInt64) (row : FinKey), w.state.finkeys[id]? = some row → id ∈ w.given
  distinct : ∀ (id id' : UInt64) (row row' : FinKey), w.state.finkeys[id]? = some row →
    w.state.finkeys[id']? = some row' → row.finalizerKeyBinary = row'.finalizerKeyBinary →
    id = id'
  finalizers : ∀ (f : Name) (fin : Finalizer), w.state.finalizers[f]? = some fin →
    FinalizerLaw w.state.finkeys f fin
  absent : ∀ f : Name, w.state.finalizers[f]? = none → keysOf w.state.finkeys f = 0

variable {w w' : Registry}

/-- A finalizer's row has at least one key behind it. -/
theorem FinalizerLaw.keysOf_pos {finkeys : Table UInt64 FinKey} {fin : Finalizer}
    (h : FinalizerLaw finkeys f fin) : 0 < keysOf finkeys f := by
  obtain ⟨row, hrow, hown, -⟩ := h.active
  exact OrdMap.countOf_pos_iff.mpr ⟨_, row, hrow, decide_eq_true hown⟩

/-- The next id has not been given out, unless the counter starts over. -/
theorem RegistryInv.next_fresh (h : RegistryInv w)
    (hgen : w.state.finkeyidgen ≠ some 18446744073709551615) :
    getNextFinalizerKeyId w.state.finkeyidgen ∉ w.given ∧
      ∀ id ∈ w.given, id ≤ getNextFinalizerKeyId w.state.finkeyidgen := by
  have hlt (id : UInt64) (hid : id ∈ w.given) : id < getNextFinalizerKeyId w.state.finkeyidgen :=
    Given.next (h.le id hid) hgen
  exact ⟨fun hmem => UInt64.lt_irrefl _ (hlt _ hmem), fun id hid => UInt64.le_of_lt (hlt id hid)⟩

/-- A key that belongs to another finalizer changes nothing for a finalizer. -/
theorem FinalizerLaw.insert_other {finkeys : Table UInt64 FinKey} {fin : Finalizer}
    {id : UInt64} {row : FinKey} (h : FinalizerLaw finkeys f fin) (hnew : finkeys[id]? = none)
    (hother : row.finalizerName ≠ f) : FinalizerLaw (finkeys.insert id row) f fin := by
  obtain ⟨active, hactive, hown, hbinary⟩ := h.active
  refine ⟨?_, active, ?_, hown, hbinary⟩
  · rw [keysOf, OrdMap.countOf_insert hnew, if_neg (by simpa using hother), add_zero]
    exact h.counted
  · rw [OrdMap.getElem?_insert, if_neg, hactive]
    rintro rfl
    rw [hnew] at hactive
    exact nomatch hactive

/-- The row of the finalizer that registers a key. -/
theorem RegistryInv.registered (h : RegistryInv w) {id : UInt64} {binary : Bytes}
    (hnew : w.state.finkeys[id]? = none)
    (hcount : ∀ fin : Finalizer, w.state.finalizers[f]? = some fin →
      fin.finalizerKeyCount ≠ 4294967295) :
    FinalizerLaw (w.state.finkeys.insert id ⟨f, key, binary⟩) f
      (registered w.state.finalizers f id binary) := by
  have hkeys : keysOf (w.state.finkeys.insert id ⟨f, key, binary⟩) f =
      keysOf w.state.finkeys f + 1 := by
    rw [keysOf, OrdMap.countOf_insert hnew, if_pos (by simp)]
    rfl
  rw [System.registered]
  cases hf : w.state.finalizers[f]? with
  -- a first key is the active one, a further one leaves the active one as it is
  | none => exact ⟨by rw [hkeys, h.absent f hf]; rfl, ⟨f, key, binary⟩, by simp, rfl, rfl⟩
  | some fin =>
    obtain ⟨hcounted, active, hactive, hown, hbinary⟩ := h.finalizers f fin hf
    have hne : fin.finalizerKeyCount.toNat ≠ 4294967295 := fun heq =>
      hcount fin hf (UInt32.toNat_inj.mp heq)
    have hlt := fin.finalizerKeyCount.toNat_lt
    refine ⟨?_, active, ?_, hown, hbinary⟩
    · rw [hkeys, UInt32.toNat_add_one (by omega), hcounted]
    · simp only [OrdMap.getElem?_insert]
      rw [if_neg, hactive]
      intro heq
      rw [heq, hnew] at hactive
      exact nomatch hactive

/-- **A registration keeps the registry invariant.** -/
theorem RegistryInv.regfinkey (h : RegistryInv w)
    (hguard : w.Guard (.regfinkey ctx f key pop))
    (hok : w.step host (.regfinkey ctx f key pop) = .ok w') : RegistryInv w' := by
  obtain ⟨hgen, hcount⟩ := hguard
  simp only [Registry.step, bind_eq_ok_iff, pure_eq_ok_iff] at hok
  obtain ⟨σ', hreg, rfl⟩ := hok
  obtain ⟨binary, hfind, hid, rfl⟩ := regfinkey_spec hreg
  obtain ⟨hfresh, hle⟩ := h.next_fresh hgen
  generalize getNextFinalizerKeyId w.state.finkeyidgen = id at hfresh hle hid ⊢
  have hnew : w.state.finkeys[id]? = none := OrdMap.not_mem_iff.mp hid
  refine ⟨?_, ?_, ?_, ?_, ?_, ?_⟩
  · exact List.nodup_append.mpr ⟨h.nodup, List.nodup_singleton id, fun a ha b hb => by
      rw [List.mem_singleton.mp hb]
      rintro rfl
      exact hfresh ha⟩
  · intro id' hid'
    refine ⟨id, rfl, ?_⟩
    rcases List.mem_append.mp hid' with hid' | hid'
    · exact hle id' hid'
    · rw [List.mem_singleton.mp hid']
      exact UInt64.le_refl id
  · exact OrdMap.forall_insert (P := fun id _ => id ∈ w.given ++ [_]) (by simp)
      fun id' row _ hrow => List.mem_append_left _ (h.stored id' row hrow)
  · exact distinct_insert h.distinct hfind
  · exact OrdMap.forall_insert (h.registered hnew hcount) fun f' fin hne hfin =>
      (h.finalizers f' fin hfin).insert_other hnew hne.symm
  · intro f' hfin
    rw [OrdMap.getElem?_insert] at hfin
    split_ifs at hfin with heq
    rw [keysOf, OrdMap.countOf_insert hnew, if_neg (by simpa using Ne.symm heq), add_zero]
    exact h.absent f' hfin

/-- **An activation keeps the registry invariant.** -/
theorem RegistryInv.actfinkey (h : RegistryInv w)
    (hok : w.step host (.actfinkey ctx f key) = .ok w') : RegistryInv w' := by
  simp only [Registry.step, bind_eq_ok_iff, pure_eq_ok_iff] at hok
  obtain ⟨⟨σ', policy⟩, hact, rfl⟩ := hok
  obtain ⟨fin, id, row, hfin, hrow, hown, hkeys, hgen, hfinalizers⟩ := actfinkey_spec hact
  refine ⟨h.nodup, ?_, ?_, ?_, ?_, ?_⟩
  · intro id' hid'
    rw [hgen]
    exact h.le id' hid'
  · intro id' row' hrow'
    rw [hkeys] at hrow'
    exact h.stored id' row' hrow'
  · rw [hkeys]
    exact h.distinct
  · rw [hfinalizers, hkeys]
    -- the keys are the same, so the count still is
    exact OrdMap.forall_insert ⟨(h.finalizers f fin hfin).counted, row, hrow, hown, rfl⟩
      fun f' fin' _ => h.finalizers f' fin'
  · intro f' hfin'
    rw [hfinalizers, OrdMap.getElem?_insert] at hfin'
    rw [hkeys]
    split_ifs at hfin'
    exact h.absent f' hfin'

/-- The keys that are left when one of `f`'s is deleted. -/
theorem keysOf_erase {finkeys : Table UInt64 FinKey} {id : UInt64} {row : FinKey}
    (hrow : finkeys[id]? = some row) (hown : row.finalizerName = f) (f' : Name) :
    keysOf finkeys f' = keysOf (finkeys.erase id) f' + if f' = f then 1 else 0 := by
  rw [keysOf, OrdMap.countOf_erase hrow, keysOf, hown]
  rcases eq_or_ne f' f with rfl | hne
  · simp
  · simp [hne, hne.symm]

/-- A finalizer keeps to the law when a key is deleted that is not its active one. -/
theorem FinalizerLaw.erase {finkeys : Table UInt64 FinKey} {fin : Finalizer} {id : UInt64}
    {n : UInt32} (h : FinalizerLaw finkeys f fin) (hid : fin.activeKeyId ≠ id)
    (hn : n.toNat = keysOf (finkeys.erase id) f) :
    FinalizerLaw (finkeys.erase id) f { fin with finalizerKeyCount := n } := by
  obtain ⟨active, hactive, hown, hbinary⟩ := h.active
  exact ⟨hn, active, by rw [OrdMap.getElem?_erase, if_neg hid, hactive], hown, hbinary⟩

/-- Deleting a key of another finalizer changes nothing for a finalizer. -/
theorem FinalizerLaw.erase_other {finkeys : Table UInt64 FinKey} {fin : Finalizer} {id : UInt64}
    {row : FinKey} (h : FinalizerLaw finkeys f fin) (hrow : finkeys[id]? = some row)
    (hother : f ≠ row.finalizerName) : FinalizerLaw (finkeys.erase id) f fin := by
  have hkeys := keysOf_erase hrow rfl f
  rw [if_neg hother, add_zero] at hkeys
  refine h.erase ?_ (h.counted.trans hkeys)
  intro heq
  obtain ⟨active, hactive, hown, -⟩ := h.active
  rw [heq, hrow] at hactive
  rw [Option.some.inj hactive, hown] at hother
  exact hother rfl

/-- The last key of a finalizer is its active one. -/
theorem FinalizerLaw.active_of_last {finkeys : Table UInt64 FinKey} {fin : Finalizer}
    {id : UInt64} {row : FinKey} (h : FinalizerLaw finkeys f fin)
    (hone : fin.finalizerKeyCount = 1) (hrow : finkeys[id]? = some row)
    (hown : row.finalizerName = f) : fin.activeKeyId = id := by
  obtain ⟨active, hactive, hactiveOwn, -⟩ := h.active
  have hcounted := h.counted
  rw [hone] at hcounted
  exact OrdMap.eq_of_countOf_eq_one hcounted.symm hrow (decide_eq_true hown) hactive
    (decide_eq_true hactiveOwn)

/-- **A deletion keeps the registry invariant.** -/
theorem RegistryInv.delfinkey (h : RegistryInv w)
    (hok : w.step host (.delfinkey ctx f key) = .ok w') : RegistryInv w' := by
  simp only [Registry.step, bind_eq_ok_iff, pure_eq_ok_iff] at hok
  obtain ⟨σ', hdel, rfl⟩ := hok
  obtain ⟨fin, id, row, hfin, hpos, hrow, hown, hlast, rfl⟩ := delfinkey_spec hdel
  have hlaw := h.finalizers f fin hfin
  have hkeys := keysOf_erase hrow hown
  -- the finalizers that keep their row owe it to keys of their own
  have hkept (f' : Name) (fin' : Finalizer) (hne : f' ≠ f)
      (hfin' : w.state.finalizers[f']? = some fin') :
      FinalizerLaw (w.state.finkeys.erase id) f' fin' :=
    (h.finalizers f' fin' hfin').erase_other hrow (hown ▸ hne)
  refine ⟨h.nodup, h.le, ?_, distinct_erase h.distinct, ?_, ?_⟩
  · exact OrdMap.forall_erase fun id' row' _ => h.stored id' row'
  · refine forall_finalizers_delfinkey (fun hone => ?_) hkept
    have hsub := UInt32.toNat_sub_one hpos
    have hkeys' := hkeys f
    rw [← hlaw.counted, if_pos rfl] at hkeys'
    exact hlaw.erase (fun heq => hone (hlast heq.symm)) (by omega)
  · intro f' hfin'
    have hkeys' := hkeys f'
    split_ifs at hfin' with hone
    · rw [OrdMap.getElem?_erase] at hfin'
      split_ifs at hfin' hkeys' with heq
      · subst heq
        rw [← hlaw.counted, hone] at hkeys'
        exact (Nat.succ.inj hkeys').symm
      · rw [← h.absent f' hfin', hkeys', add_zero]
    · rw [OrdMap.getElem?_insert] at hfin'
      split_ifs at hfin' hkeys' with heq
      rw [← h.absent f' hfin', hkeys', add_zero]

/-- A deletion that leaves the active key leaves the finalizer. -/
theorem RegistryInv.mem_of_delfinkey (h : RegistryInv w)
    (hok : System.delfinkey host ctx w.state f key = .ok σ') {fin : Finalizer}
    (hfin : w.state.finalizers[f]? = some fin) (hactive : fin.activeKeyId ∈ σ'.finkeys) :
    f ∈ σ'.finalizers := by
  obtain ⟨fin', id, row, hfin', -, hrow, hown, -, rfl⟩ := delfinkey_spec hok
  obtain rfl : fin = fin' := Option.some.inj (hfin.symm.trans hfin')
  have hone : ¬ fin.finalizerKeyCount = 1 := by
    intro hone
    rw [(h.finalizers f fin hfin).active_of_last hone hrow hown] at hactive
    simp at hactive
  simp [hone]

/-- **Every step keeps the registry invariant.** -/
theorem RegistryInv.step {e : RegistryEvent} (h : RegistryInv w) (hguard : w.Guard e)
    (hok : w.step host e = .ok w') : RegistryInv w' := by
  cases e with
  | regfinkey ctx f key pop => exact h.regfinkey hguard hok
  | actfinkey ctx f key => exact h.actfinkey hok
  | delfinkey ctx f key => exact h.delfinkey hok
  | producers producers =>
    obtain rfl := pure_eq_ok_iff.mp hok
    exact ⟨h.nodup, h.le, h.stored, h.distinct, h.finalizers, h.absent⟩

/-! ### Registrations on a concrete host -/

/-- A host on which the length of a key is its binary form. -/
def lengthHost : Host where
  sha256 bytes := .ofFn fun i => (bytes.length / 256 ^ i.val).toUInt8
  decodeBlsPublicKeyToG1 s := .ok (List.replicate (s.toList.length - 7) 0)
  decodeBlsSignatureToG2 s := .ok (s.toList.map fun c => c.toNat.toUInt8)
  blsPopVerify _ _ := true
  setProposedProducers _ := 0

def lengthKey (n : ℕ) : String :=
  String.ofList (['P', 'U', 'B', '_', 'B', 'L', 'S'] ++ List.replicate n 'a')

theorem toList_lengthKey (n : ℕ) :
    (lengthKey n).toList = ['P', 'U', 'B', '_', 'B', 'L', 'S'] ++ List.replicate n 'a' :=
  String.toList_ofList

theorem toBinary_lengthKey (n : ℕ) :
    toBinary lengthHost (lengthKey n) = .ok (List.replicate n 0) := by
  have hhead : "PUB_BLS".toList = ['P', 'U', 'B', '_', 'B', 'L', 'S'] := by decide
  have hlen : (lengthKey n).toList.length - 7 = n := by
    rw [toList_lengthKey, List.length_append, List.length_replicate]
    exact Nat.add_sub_cancel_left 7 n
  have hdecode : lengthHost.decodeBlsPublicKeyToG1 (lengthKey n) =
      .ok (List.replicate ((lengthKey n).toList.length - 7) 0) := rfl
  rw [toBinary, check, if_pos, ok_bind, hdecode, hlen]
  rw [hhead, toList_lengthKey]
  exact List.isPrefixOf_iff_prefix.mpr (List.prefix_append _ _)

/-- Short keys of different lengths have different hashes. -/
theorem sha256_lengthHost_inj {m n : ℕ} (hm : m < 2 ^ 32) (hn : n < 2 ^ 32)
    (h : lengthHost.sha256 (List.replicate m 0) = lengthHost.sha256 (List.replicate n 0)) :
    m = n := by
  have hbyte (i : ℕ) (hi : i < 32) : m / 256 ^ i % 256 = n / 256 ^ i % 256 := by
    have hi' := congrArg (fun v : Checksum256 => v[i].toNat) h
    simpa [lengthHost] using hi'
  have h0 := hbyte 0 (by norm_num)
  have h1 := hbyte 1 (by norm_num)
  have h2 := hbyte 2 (by norm_num)
  have h3 := hbyte 3 (by norm_num)
  norm_num at h0 h1 h2 h3
  omega

/-- A registration on this host, of a key that is not stored yet. -/
theorem regfinkey_lengthHost {n : ℕ} (producer : Producer)
    (hproducer : σ.producers[f]? = some producer)
    (hfind : findByFinKey lengthHost σ.finkeys (lengthHost.sha256 (List.replicate n 0)) = none)
    (hnew : getNextFinalizerKeyId σ.finkeyidgen ∉ σ.finkeys) :
    regfinkey lengthHost systemContext σ f (lengthKey n) "SIG_BLS" = .ok { σ with
      finkeys := σ.finkeys.insert (getNextFinalizerKeyId σ.finkeyidgen)
        ⟨f, lengthKey n, List.replicate n 0⟩
      finkeyidgen := some (getNextFinalizerKeyId σ.finkeyidgen)
      finalizers := σ.finalizers.insert f (registered σ.finalizers f
        (getNextFinalizerKeyId σ.finkeyidgen) (List.replicate n 0)) } := by
  simp only [regfinkey, bind_eq_ok_iff, Context.requireAuth_eq_ok_iff, check_eq_ok_iff,
    exists_const, Table.requireFind_eq_ok_iff, Table.emplace_eq_ok_iff, pure_eq_ok_iff,
    Option.isNone_iff_eq_none]
  exact ⟨rfl, producer, hproducer, by decide, List.replicate n 0, toBinary_lengthKey n, _, rfl,
    hfind, rfl, _, ⟨hnew, rfl⟩, rfl⟩

/-- The deletion of the only key of a finalizer. -/
theorem delfinkey_lengthHost {n : ℕ} (fin : Finalizer) (row : FinKey)
    (hfin : σ.finalizers[f]? = some fin) (hcount : fin.finalizerKeyCount = 1)
    (hown : row.finalizerName = f)
    (hfind : findByFinKey lengthHost σ.finkeys (lengthHost.sha256 (List.replicate n 0)) =
      some (fin.activeKeyId, row)) :
    delfinkey lengthHost systemContext σ f (lengthKey n) = .ok { σ with
      finkeys := σ.finkeys.erase fin.activeKeyId
      finalizers := σ.finalizers.erase f } := by
  have hkey (msg : String) : findOwnKey lengthHost σ.finkeys f (lengthKey n) msg =
      .ok (fin.activeKeyId, row) := by
    rw [findOwnKey, toBinary_lengthKey, ok_bind, hfind]
    simp only [check, hown, if_true]
    rfl
  have hitr : getFinalizerItr σ.finalizers f = .ok fin := by
    rw [getFinalizerItr, Table.requireFind_eq_ok_iff.mpr hfin, ok_bind, hcount]
    rfl
  simp only [delfinkey, bind_eq_ok_iff, Context.requireAuth_eq_ok_iff, check_eq_ok_iff,
    exists_const, pure_eq_ok_iff]
  exact ⟨rfl, fin, hitr, (fin.activeKeyId, row), hkey _, fun _ => hcount, by simp [hcount]⟩

/-- The account that registers the keys. -/
def registrant : Name := .ofString "alice"

/-- Key tables that are empty, and one registered producer. -/
def oneProducer : State where
  producers := (∅ : Table Name Producer).insert registrant
    { producerKey := [], producerAuthority := none }

/-- The registration of the `n`-th key. -/
def registration (n : ℕ) : RegistryEvent :=
  .regfinkey systemContext registrant (lengthKey n) "SIG_BLS"

/-- After `n` registrations: the keys are numbered from zero, and counted with 32 bits. -/
structure Registered (n : ℕ) (σ : State) : Prop where
  producer : ∃ row : Producer, σ.producers[registrant]? = some row
  keys : ∀ (id : UInt64) (row : FinKey), σ.finkeys[id]? = some row →
    id.toNat < n ∧ row.finalizerKeyBinary = List.replicate id.toNat 0
  next : (getNextFinalizerKeyId σ.finkeyidgen).toNat = n
  count : keysOf σ.finkeys registrant = n
  fresh : n = 0 → σ.finalizers[registrant]? = none
  counted : 0 < n → ∃ fin : Finalizer, σ.finalizers[registrant]? = some fin ∧
    fin.finalizerKeyCount.toNat = n % 2 ^ 32

theorem registered_oneProducer : Registered 0 oneProducer where
  producer := ⟨{ producerKey := [], producerAuthority := none }, by simp [oneProducer]⟩
  keys id row h := by simp [oneProducer] at h
  next := rfl
  count := by simp [keysOf, oneProducer]
  fresh _ := by simp [oneProducer]
  counted h := absurd h (lt_irrefl 0)

/-- One more registration goes through. -/
theorem Registered.succ {n : ℕ} (h : Registered n σ) (hn : n < 2 ^ 32) :
    ∃ σ', regfinkey lengthHost systemContext σ registrant (lengthKey n) "SIG_BLS" = .ok σ' ∧
      Registered (n + 1) σ' := by
  obtain ⟨producer, hproducer⟩ := h.producer
  have hfind : findByFinKey lengthHost σ.finkeys
      (lengthHost.sha256 (List.replicate n 0)) = none := by
    refine List.find?_eq_none.mpr fun e he => ?_
    obtain ⟨hlt, hbinary⟩ := h.keys e.1 e.2 (OrdMap.mem_toList.mp he)
    rw [decide_eq_true_eq, hbinary]
    intro heq
    have := sha256_lengthHost_inj (hlt.trans hn) hn heq
    omega
  have hnew : getNextFinalizerKeyId σ.finkeyidgen ∉ σ.finkeys := by
    intro hmem
    obtain ⟨row, hrow⟩ := OrdMap.mem_iff_exists.mp hmem
    have hlt := (h.keys _ row hrow).1
    rw [h.next] at hlt
    exact lt_irrefl n hlt
  have hok := regfinkey_lengthHost producer hproducer hfind hnew
  refine ⟨_, hok, ⟨producer, hproducer⟩, ?_, ?_, ?_, ?_, ?_⟩
  · refine OrdMap.forall_insert ?_ fun id row _ hrow => ?_
    · rw [h.next]
      exact ⟨n.lt_succ_self, rfl⟩
    · obtain ⟨hlt, hbinary⟩ := h.keys id row hrow
      exact ⟨hlt.trans n.lt_succ_self, hbinary⟩
  · rw [getNextFinalizerKeyId, UInt64.toNat_add, h.next]
    exact Nat.mod_eq_of_lt (by simp only [UInt64.toNat_one]; omega)
  · rw [keysOf, OrdMap.countOf_insert (OrdMap.not_mem_iff.mp hnew), if_pos (by simp), ← keysOf,
      h.count]
  · simp
  · intro _
    rw [registered]
    refine ⟨_, by rw [OrdMap.getElem?_insert, if_pos rfl], ?_⟩
    rcases Nat.eq_zero_or_pos n with rfl | hpos
    · rw [h.fresh rfl]
      rfl
    · obtain ⟨fin, hfin, hcount⟩ := h.counted hpos
      rw [hfin]
      simp only [UInt32.toNat_add, hcount]
      exact Nat.mod_add_mod _ _ _

/-! ### The law -/

theorem registryInv_start {σ : State} (hkeys : σ.finkeys = ∅) (hfinalizers : σ.finalizers = ∅) :
    RegistryInv { state := σ } where
  nodup := List.nodup_nil
  le := by simp
  stored id row h := by simp [hkeys] at h
  distinct id id' row row' h := by simp [hkeys] at h
  finalizers f fin h := by simp [hfinalizers] at h
  absent f _ := by simp [keysOf, hkeys]

/-- A finalizer is listed exactly when it has a key. -/
theorem RegistryInv.mem_finalizers_iff (h : RegistryInv w) (f : Name) :
    f ∈ w.state.finalizers ↔
      ∃ (id : UInt64) (row : FinKey), w.state.finkeys[id]? = some row ∧ row.finalizerName = f := by
  have hpos : 0 < keysOf w.state.finkeys f ↔
      ∃ (id : UInt64) (row : FinKey), w.state.finkeys[id]? = some row ∧ row.finalizerName = f := by
    rw [keysOf, OrdMap.countOf_pos_iff]
    simp only [decide_eq_true_eq]
  rw [← hpos]
  cases hf : w.state.finalizers[f]? with
  | none => simp [OrdMap.not_mem_iff.mpr hf, h.absent f hf]
  | some fin =>
    exact iff_of_true (OrdMap.mem_iff_exists.mpr ⟨fin, hf⟩) (h.finalizers f fin hf).keysOf_pos

/-- **The registry of finalizer keys.** From empty key tables, in every run in which neither
counter starts over: no id is given out twice or exceeds the last one, no two stored keys have
the same binary form, a finalizer is listed exactly when it has keys, its row counts them and
its active key is one of them, and a deletion that leaves the active key leaves the finalizer. -/
theorem registry_law {σ : State} (hkeys : σ.finkeys = ∅) (hfinalizers : σ.finalizers = ∅)
    {tr : List RegistryEvent}
    (hrun : Run (Registry.step host) Registry.Guard { state := σ } tr w) :
    w.given.Nodup ∧
      (∀ id ∈ w.given, ∃ next, w.state.finkeyidgen = some next ∧ id ≤ next) ∧
      (∀ (id : UInt64) (row : FinKey), w.state.finkeys[id]? = some row → id ∈ w.given) ∧
      (∀ (id id' : UInt64) (row row' : FinKey), w.state.finkeys[id]? = some row →
        w.state.finkeys[id']? = some row' → row.finalizerKeyBinary = row'.finalizerKeyBinary →
        id = id') ∧
      (∀ f : Name, f ∈ w.state.finalizers ↔
        ∃ (id : UInt64) (row : FinKey), w.state.finkeys[id]? = some row ∧
          row.finalizerName = f) ∧
      (∀ (f : Name) (fin : Finalizer), w.state.finalizers[f]? = some fin →
        fin.finalizerKeyCount.toNat = keysOf w.state.finkeys f ∧
        ∃ row : FinKey, w.state.finkeys[fin.activeKeyId]? = some row ∧ row.finalizerName = f ∧
          row.finalizerKeyBinary = fin.activeKeyBinary) ∧
      ∀ ctx f key σ', delfinkey host ctx w.state f key = .ok σ' →
        ∀ fin : Finalizer, w.state.finalizers[f]? = some fin → fin.activeKeyId ∈ σ'.finkeys →
          f ∈ σ'.finalizers := by
  have h : RegistryInv w := hrun.state_invariant (registryInv_start hkeys hfinalizers)
    fun _ _ _ hI hg hs => hI.step hg hs
  exact ⟨h.nodup, h.le, h.stored, h.distinct, h.mem_finalizers_iff,
    fun f fin hfin => ⟨(h.finalizers f fin hfin).counted, (h.finalizers f fin hfin).active⟩,
    fun ctx f key σ' hok fin hfin hactive => h.mem_of_delfinkey hok hfin hactive⟩

/-- One registration. -/
theorem registry_law_registration :
    ∃ w, Run (Registry.step lengthHost) Registry.Guard { state := oneProducer } [registration 0] w ∧
      registrant ∈ w.state.finalizers ∧ ∃ (id : UInt64) (row : FinKey),
        w.state.finkeys[id]? = some row ∧ row.finalizerName = registrant := by
  obtain ⟨σ', hok, hreg⟩ := registered_oneProducer.succ (by norm_num)
  have hrun : Run (Registry.step lengthHost) Registry.Guard { state := oneProducer }
      [registration 0] { state := σ', given := [0] } := by
    refine .single ⟨by simp [oneProducer], fun fin h => by simp [oneProducer] at h⟩ ?_
    rw [registration, Registry.step, hok]
    rfl
  obtain ⟨-, -, -, -, hlisted, -⟩ := registry_law rfl rfl hrun
  obtain ⟨fin, hfin, -⟩ := hreg.counted one_pos
  have hmem : registrant ∈ σ'.finalizers := OrdMap.mem_iff_exists.mpr ⟨fin, hfin⟩
  exact ⟨_, hrun, hmem, (hlisted registrant).mp hmem⟩

/-- **The count starts over.** After `2 ^ 32` registrations by one finalizer its row counts no
key at all. -/
theorem registry_overflow :
    ∃ tr w fin, Run (Registry.step lengthHost) (fun _ _ => True) { state := oneProducer } tr w ∧
      w.state.finalizers[registrant]? = some fin ∧ fin.finalizerKeyCount.toNat = 0 ∧
      keysOf w.state.finkeys registrant = 2 ^ 32 := by
  have hrun (n : ℕ) (hn : n ≤ 2 ^ 32) : ∃ w,
      Run (Registry.step lengthHost) (fun _ _ => True) { state := oneProducer }
        ((List.range n).map registration) w ∧ Registered n w.state := by
    induction n with
    | zero => exact ⟨_, .init, registered_oneProducer⟩
    | succ n ih =>
      obtain ⟨w, hw, hreg⟩ := ih (by omega)
      obtain ⟨σ', hok, hreg'⟩ := hreg.succ (by omega)
      refine ⟨{ state := σ', given := w.given ++ [getNextFinalizerKeyId w.state.finkeyidgen] }, ?_,
        hreg'⟩
      rw [List.range_succ, List.map_append]
      refine .snoc hw trivial ?_
      rw [registration, Registry.step, hok]
      rfl
  obtain ⟨w, hw, hreg⟩ := hrun (2 ^ 32) le_rfl
  obtain ⟨fin, hfin, hcount⟩ := hreg.counted (by norm_num)
  exact ⟨_, w, fin, hw, hfin, hcount.trans (Nat.mod_self _), hreg.count⟩

/-! ### A run that gives an id out twice -/

/-- The tables of `oneProducer`, once `n` ids have been given out and their keys deleted. -/
def idsGiven (n : ℕ) : State :=
  { oneProducer with finkeyidgen := if n = 0 then none else some (UInt64.ofNat (n - 1)) }

/-- The same, with one key registered under an id. -/
def oneKey (id : UInt64) : State :=
  { oneProducer with
    finkeys := (∅ : Table UInt64 FinKey).insert id ⟨registrant, lengthKey 0, []⟩
    finkeyidgen := some id
    finalizers := (∅ : Table Name Finalizer).insert registrant
      { activeKeyId := id, activeKeyBinary := [], finalizerKeyCount := 1 } }

theorem nextId_idsGiven (n : ℕ) :
    getNextFinalizerKeyId (idsGiven n).finkeyidgen = UInt64.ofNat n := by
  cases n with
  | zero => rfl
  | succ n =>
    have hgen : (idsGiven (n + 1)).finkeyidgen = some (UInt64.ofNat n) := rfl
    rw [hgen, getNextFinalizerKeyId, UInt64.ofNat_add]
    rfl

theorem regfinkey_idsGiven (n : ℕ) :
    regfinkey lengthHost systemContext (idsGiven n) registrant (lengthKey 0) "SIG_BLS" =
      .ok (oneKey (UInt64.ofNat n)) := by
  have hempty : (∅ : Table UInt64 FinKey).toList = [] := ExtTreeMap.toList_eq_nil_iff.mpr rfl
  rw [regfinkey_lengthHost { producerKey := [], producerAuthority := none },
    nextId_idsGiven]
  · simp [registered, idsGiven, oneProducer, oneKey]
  · simp [idsGiven, oneProducer]
  · rw [findByFinKey, idsGiven, oneProducer, hempty]
    rfl
  · exact ExtTreeMap.not_mem_empty

theorem delfinkey_oneKey (n : ℕ) :
    delfinkey lengthHost systemContext (oneKey (UInt64.ofNat n)) registrant (lengthKey 0) =
      .ok (idsGiven (n + 1)) := by
  rw [delfinkey_lengthHost ⟨UInt64.ofNat n, [], 1⟩ ⟨registrant, lengthKey 0, []⟩]
  · simp only [oneKey, OrdMap.erase_insert]
    rw [OrdMap.erase_of_not_mem (by simp), OrdMap.erase_of_not_mem (by simp)]
    rfl
  · simp [oneKey]
  · rfl
  · rfl
  · rw [findByFinKey, oneKey, OrdMap.toList_insert_empty, List.find?_cons_of_pos (by simp)]

/-- A key that is registered and deleted again leaves nothing but its id. -/
theorem run_registerAndDelete (n : ℕ) (given : List UInt64) :
    Run (Registry.step lengthHost) (fun _ _ => True) ⟨idsGiven n, given⟩
      ([registration 0] ++ [.delfinkey systemContext registrant (lengthKey 0)])
      ⟨idsGiven (n + 1), given ++ [UInt64.ofNat n]⟩ := by
  have hregister : Run (Registry.step lengthHost) (fun _ _ => True) ⟨idsGiven n, given⟩
      [registration 0] ⟨oneKey (UInt64.ofNat n), given ++ [UInt64.ofNat n]⟩ := by
    refine .single trivial ?_
    rw [registration, Registry.step, regfinkey_idsGiven, nextId_idsGiven]
    rfl
  refine hregister.trans (.single trivial ?_)
  rw [Registry.step, delfinkey_oneKey]
  rfl

/-- The id given out after `2 ^ 64` others is the first one. -/
theorem not_nodup_ids {n : ℕ} (hn : 2 ^ 64 < n) : ¬ ((List.range n).map UInt64.ofNat).Nodup := by
  intro hnodup
  have hpos : 0 < n := (Nat.zero_le _).trans_lt hn
  have heq : UInt64.ofNat 0 = UInt64.ofNat (2 ^ 64) := UInt64.toNat_inj.mp (by simp)
  have hzero := List.inj_on_of_nodup_map hnodup (List.mem_range.mpr hpos) (List.mem_range.mpr hn)
    heq
  exact absurd hzero (by norm_num)

/-- **The ids start over.** After `2 ^ 64` registrations, each deleted at once, the next one is
given the first id again. -/
theorem registry_id_reused :
    ∃ tr w, Run (Registry.step lengthHost) (fun _ _ => True) { state := oneProducer } tr w ∧
      ¬ w.given.Nodup := by
  have hrun (n : ℕ) : ∃ tr, Run (Registry.step lengthHost) (fun _ _ => True)
      { state := oneProducer } tr ⟨idsGiven n, (List.range n).map UInt64.ofNat⟩ := by
    induction n with
    | zero => exact ⟨[], .init⟩
    | succ n ih =>
      obtain ⟨tr, htr⟩ := ih
      have hmore := run_registerAndDelete n ((List.range n).map UInt64.ofNat)
      rw [List.range_succ, List.map_append]
      exact ⟨_, htr.trans hmore⟩
  obtain ⟨n, hn⟩ := exists_gt (2 ^ 64 : ℕ)
  obtain ⟨tr, htr⟩ := hrun n
  exact ⟨tr, _, htr, not_nodup_ids hn⟩

end Twig.System
