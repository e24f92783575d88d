import Twig.Token.Ledger

/-!
# Registering and removing symbols

`setsupplies` registers symbols with a cap and no supply, `rmvsupply` removes symbols without
supply; neither changes how much of anything is supplied. The caps it accepts are positive,
legal asset amounts of valid symbols, because it builds a checked asset of each.
-/

namespace Twig.Token

open Std Fallible

variable {sup sup' : Supplies} {e : Symbol × Int64}

theorem setsuppliesOne_eq_ok_iff {k : Symbol} {cap : Int64} :
    setsuppliesOne sup (k, cap) = .ok sup' ↔
      k ∉ sup.maxSupply ∧ (⟨cap, k⟩ : Asset).isValid = true ∧ 0 < cap ∧
        (⟨sup.supply.insertIfNew k 0, sup.maxSupply.insertIfNew k cap⟩ : Supplies) = sup' := by
  simp only [setsuppliesOne, Asset.make_eq_ok_iff, bind_eq_ok_iff, check_eq_ok_iff, exists_const,
    pure_eq_ok_iff]
  constructor
  · rintro ⟨hnew, a, ⟨-, -, rfl⟩, hvalid, hpos, hr⟩
    exact ⟨hnew, hvalid, hpos, hr⟩
  · rintro ⟨hnew, hvalid, hpos, hr⟩
    have hparts := hvalid
    rw [Asset.isValid, Bool.and_eq_true] at hparts
    exact ⟨hnew, _, ⟨hparts.1, hparts.2, rfl⟩, hvalid, hpos, hr⟩

theorem rmvsupplyOne_eq_ok_iff :
    rmvsupplyOne sup e = .ok sup' ↔
      e.1 ∈ sup.maxSupply ∧ sup.supply[e.1]? = some 0 ∧
        (⟨sup.supply.erase e.1, sup.maxSupply.erase e.1⟩ : Supplies) = sup' := by
  simp only [rmvsupplyOne, bind_eq_ok_iff, check_eq_ok_iff, exists_const, deref_eq_ok_iff,
    pure_eq_ok_iff]
  constructor
  · rintro ⟨hmem, v, hv, rfl, hr⟩
    exact ⟨hmem, hv, hr⟩
  · rintro ⟨hmem, hv, hr⟩
    exact ⟨hmem, 0, hv, rfl, hr⟩

/-- Inserting a missing key. -/
theorem insertIfNew_of_not_mem {m : FungiblePairs} {k : Symbol} {v : Int64} (h : k ∉ m) :
    m.insertIfNew k v = m.insert k v := by
  refine ExtTreeMap.ext_getElem? ?_
  intro s
  rw [ExtTreeMap.getElem?_insertIfNew, ExtTreeMap.getElem?_insert]
  by_cases hs : compare k s = .eq
  · rw [if_pos hs, if_pos ⟨hs, h⟩]
  · rw [if_neg hs, if_neg fun hc => hs hc.1]

/-- Registering a symbol keeps the record well formed and every supply as it is. -/
theorem Supplies.WF.setsuppliesOne (h : sup.WF) (hok : setsuppliesOne sup e = .ok sup') :
    sup'.WF ∧ bal sup'.supply = bal sup.supply := by
  obtain ⟨k, cap⟩ := e
  obtain ⟨hnew, hvalid, hpos, rfl⟩ := setsuppliesOne_eq_ok_iff.mp hok
  rw [Int64.toInt_pos_iff] at hpos
  obtain ⟨⟨-, hcap⟩, hsym⟩ := Asset.isValid_iff.mp hvalid
  have hnew' : k ∉ sup.supply := fun hk => hnew ((h.keys k).mp hk)
  rw [insertIfNew_of_not_mem hnew, insertIfNew_of_not_mem hnew']
  refine ⟨⟨?_, ?_, ?_⟩, ?_⟩
  · intro s
    rw [ExtTreeMap.mem_insert, ExtTreeMap.mem_insert, h.keys s]
  · intro s v m hv hm
    rw [OrdMap.getElem?_insert] at hv hm
    by_cases hs : s = k
    · rw [if_pos hs, Option.some.injEq] at hv hm
      rw [← hv, ← hm, Int64.toInt_zero]
      exact ⟨le_rfl, hpos⟩
    · rw [if_neg hs] at hv hm
      exact h.capped s v m hv hm
  · exact OrdMap.forall_insert ⟨hcap, hsym⟩ fun s m _ => h.legal s m
  · funext s
    rw [bal_insert]
    by_cases hs : s = k
    · rw [if_pos hs, hs, bal_of_none (OrdMap.not_mem_iff.mp hnew'), Int64.toInt_zero]
    · rw [if_neg hs]

/-- Removing a symbol keeps the record well formed and every supply as it is. -/
theorem Supplies.WF.rmvsupplyOne (h : sup.WF) (hok : rmvsupplyOne sup e = .ok sup') :
    sup'.WF ∧ bal sup'.supply = bal sup.supply := by
  obtain ⟨hmem, hzero, rfl⟩ := rmvsupplyOne_eq_ok_iff.mp hok
  refine ⟨⟨?_, ?_, ?_⟩, ?_⟩
  · intro s
    rw [ExtTreeMap.mem_erase, ExtTreeMap.mem_erase, h.keys s]
  · intro s v m hv hm
    rw [OrdMap.getElem?_erase] at hv hm
    by_cases hs : s = e.1
    · simp [hs] at hv
    · rw [if_neg hs] at hv hm
      exact h.capped s v m hv hm
  · exact OrdMap.forall_erase fun s m _ => h.legal s m
  · funext s
    rw [bal_erase]
    by_cases hs : s = e.1
    · rw [if_pos hs, hs, bal_of_some hzero, Int64.toInt_zero]
    · rw [if_neg hs]

/-- A loop of registrations or removals keeps the record well formed and every supply as it
is. -/
theorem Supplies.WF.foldlM {f : Supplies → Symbol × Int64 → Outcome Supplies}
    (hf : ∀ sup e sup', sup.WF → f sup e = .ok sup' →
      sup'.WF ∧ bal sup'.supply = bal sup.supply)
    (h : sup.WF) {l : List (Symbol × Int64)} (hok : l.foldlM f sup = .ok sup') :
    sup'.WF ∧ bal sup'.supply = bal sup.supply := by
  refine foldlM_invariant
    (fun _ (acc : Supplies) => acc.WF ∧ bal acc.supply = bal sup.supply)
    (fun e _ acc acc' hI hs => ?_) ⟨h, rfl⟩ hok
  obtain ⟨hwf, hbal⟩ := hf acc e acc' hI.1 hs
  exact ⟨hwf, hbal.trans hI.2⟩

/-- A new supplies record with the supplies of the old one keeps the invariant. -/
theorem Inv.set_supplies {o : Symbol → ℤ} {σ : State} (h : Inv o σ) (hwf : sup.WF)
    (hbal : bal sup.supply = bal σ.sup.supply) : Inv o { σ with supplies := some sup } where
  supplies := hwf
  holdings := h.holdings
  conserved s := by
    have hc := h.conserved s
    change total σ s = bal sup.supply s + o s
    rw [hbal]
    exact hc

section Actions

variable {ctx : Context} {o : Symbol → ℤ} {σ σ' : State} {maxSupply : FungiblePairs}

theorem setsupplies_spec (h : Inv o σ) (hok : setsupplies ctx σ maxSupply = .ok σ') :
    Inv o σ' ∧ σ'.supplies.isSome ∧ σ'.accounts = σ.accounts := by
  simp only [setsupplies, bind_eq_ok_iff, Context.requireAuth_eq_ok_iff, exists_const,
    singletonGet_eq_ok_iff, pure_eq_ok_iff] at hok
  obtain ⟨-, sup, hsup, sup', hloop, rfl⟩ := hok
  have hsup' : σ.sup = sup := State.sup_of_some hsup
  obtain ⟨hwf, hbal⟩ := Supplies.WF.foldlM (fun _ _ _ hw hs => hw.setsuppliesOne hs)
    (hsup' ▸ h.supplies) hloop
  exact ⟨h.set_supplies hwf (by rw [hbal, hsup']), rfl, rfl⟩

theorem rmvsupply_spec (h : Inv o σ) (hok : rmvsupply ctx σ maxSupply = .ok σ') :
    Inv o σ' ∧ σ'.supplies.isSome ∧ σ'.accounts = σ.accounts := by
  simp only [rmvsupply, bind_eq_ok_iff, Context.requireAuth_eq_ok_iff, exists_const,
    singletonGet_eq_ok_iff, pure_eq_ok_iff] at hok
  obtain ⟨-, sup, hsup, sup', hloop, rfl⟩ := hok
  have hsup' : σ.sup = sup := State.sup_of_some hsup
  obtain ⟨hwf, hbal⟩ := Supplies.WF.foldlM (fun _ _ _ hw hs => hw.rmvsupplyOne hs)
    (hsup' ▸ h.supplies) hloop
  exact ⟨h.set_supplies hwf (by rw [hbal, hsup']), rfl, rfl⟩

/-- `setsupplies` changes no registered cap. -/
theorem setsupplies_keeps (hok : setsupplies ctx σ maxSupply = .ok σ') {s : Symbol} {m : Int64}
    (hm : σ.sup.maxSupply[s]? = some m) : σ'.sup.maxSupply[s]? = some m := by
  simp only [setsupplies, bind_eq_ok_iff, singletonGet_eq_ok_iff, pure_eq_ok_iff] at hok
  obtain ⟨-, -, sup, hsup, sup', hloop, rfl⟩ := hok
  refine foldlM_invariant (fun _ (acc : Supplies) => acc.maxSupply[s]? = some m)
    (fun e _ acc acc' hI hs => ?_) (by simpa [State.sup, hsup] using hm) hloop
  obtain ⟨k, cap⟩ := e
  obtain ⟨hnew, -, -, rfl⟩ := setsuppliesOne_eq_ok_iff.mp hs
  have hne : s ≠ k := by
    rintro rfl
    exact hnew (OrdMap.mem_iff_exists.mpr ⟨m, hI⟩)
  rw [insertIfNew_of_not_mem hnew, OrdMap.getElem?_insert, if_neg hne]
  exact hI

/-- `rmvsupply` changes no cap but those it names. -/
theorem rmvsupply_keeps (hok : rmvsupply ctx σ maxSupply = .ok σ') {s : Symbol}
    (hs : s ∉ maxSupply) : σ'.sup.maxSupply[s]? = σ.sup.maxSupply[s]? := by
  simp only [rmvsupply, bind_eq_ok_iff, singletonGet_eq_ok_iff, pure_eq_ok_iff] at hok
  obtain ⟨-, -, sup, hsup, sup', hloop, rfl⟩ := hok
  have hend := foldlM_invariant (fun (l : List (Symbol × Int64)) (acc : Supplies) =>
      (∀ e ∈ l, e.1 ≠ s) ∧ acc.maxSupply[s]? = sup.maxSupply[s]?)
    (fun e l acc acc' hI hone => ?_) ⟨fun e he heq => ?_, rfl⟩ hloop
  · rw [State.sup, State.sup, hsup]
    exact hend.2
  · obtain ⟨-, -, rfl⟩ := rmvsupplyOne_eq_ok_iff.mp hone
    refine ⟨fun d hd => hI.1 d (List.mem_cons_of_mem _ hd), ?_⟩
    rw [OrdMap.getElem?_erase, if_neg (hI.1 e List.mem_cons_self).symm]
    exact hI.2
  · subst heq
    exact hs (OrdMap.mem_iff_exists.mpr ⟨e.2, OrdMap.mem_toList.mp he⟩)

/-- `rmvsupply` dereferences no missing entry: every capped symbol has a supply. -/
theorem rmvsupply_neverFails (h : σ.sup.WF) :
    NeverFails Fault.deref (rmvsupply ctx σ maxSupply) := by
  refine Context.neverFails_requireAuth.bind fun _ _ =>
    neverFails_singletonGet.bind ?_
  intro sup hsup
  rw [singletonGet_eq_ok_iff] at hsup
  rw [State.sup_of_some hsup] at h
  refine NeverFails.bind (neverFails_foldlM (fun _ (acc : Supplies) => acc.WF)
    (fun e l acc hI => ?_) (fun _ _ _ _ hI hs => (hI.rmvsupplyOne hs).1) h)
    fun _ _ => neverFails_pure
  refine neverFails_check.bind ?_
  intro _ hmem
  rw [check_eq_ok_iff] at hmem
  have hsupply := ExtTreeMap.mem_iff_isSome_getElem?.mp ((hI.keys e.1).mpr hmem)
  exact (neverFails_deref hsupply).bind fun _ _ =>
    neverFails_check.bind fun _ _ => neverFails_pure

end Actions

end Twig.Token
