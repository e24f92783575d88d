import Twig.Token.Conservation

/-!
# Issuing up to the cap

How much of a cap `issue` gives out. It refuses what takes a supply above its cap, as its message
says, but also what takes a supply to the cap: the comparison is strict, so the last unit of a
cap stays in the contract (`issue_full_cap_rejected`), and one such entry takes the whole call
down. Amounts that leave every supply below its cap are all issued (`issue_below_cap_iff`).
-/

namespace Twig.Token

open Std Fallible

variable {ctx : Context} {o : Symbol → ℤ} {σ σ' : State} {owner : Name} {tokens : FungiblePairs}
  {memo : String}

/-- **These amounts have been issued to the owner**, and nothing else has changed. -/
structure Issued (σ σ' : State) (owner : Name) (amount : Symbol → ℤ) : Prop where
  supplied : ∀ s, supplyOf σ' s = supplyOf σ s + amount s
  credited : balanceOf σ' = Book.credit (balanceOf σ) owner amount
  others : ∀ a, a ≠ owner → σ'.accounts[a]? = σ.accounts[a]?
  caps : σ'.sup.maxSupply = σ.sup.maxSupply
  settings : σ'.config = σ.config ∧ σ'.fungibles = σ.fungibles ∧ σ'.drops = σ.drops

/-- `issue` writes the owner's row and the supplies, and no other table. -/
theorem issue_frame (hok : issue ctx σ owner tokens memo = .ok σ') :
    ∃ row sup, σ' = { σ with accounts := σ.accounts.insert owner row, supplies := some sup } := by
  simp only [issue, bind_eq_ok_iff, pure_eq_ok_iff] at hok
  obtain ⟨-, -, sup, -, acc, -, rfl⟩ := hok
  exact ⟨_, _, rfl⟩

/-- Every issue that does not wrap around gives out exactly its tokens. -/
theorem issued_of_issue (h : Inv o σ) (ho : AtMostOne o) (hfit : IssueFits σ tokens)
    (hok : issue ctx σ owner tokens memo = .ok σ') : Issued σ σ' owner (bal tokens) := by
  obtain ⟨-, hsupply, hbook, supply, hsup⟩ := issue_spec h ho hfit hok
  obtain ⟨row, sup, hframe⟩ := issue_frame hok
  refine ⟨hsupply, hbook, ?_, ?_, ?_⟩
  · intro a ha
    rw [hframe]
    exact OrdMap.getElem?_insert.trans (if_neg ha)
  · rw [State.sup_of_some hsup]
  · rw [hframe]
    exact ⟨rfl, rfl, rfl⟩

/-- The symbols of the call are registered, and its amounts strictly positive and within what
their caps have left. -/
def WithinCap (σ : State) (tokens : FungiblePairs) : Prop :=
  ∀ (s : Symbol) (a : Int64), tokens[s]? = some a →
    ∃ m, σ.sup.maxSupply[s]? = some m ∧ 0 < a.toInt ∧ supplyOf σ s + a.toInt ≤ m.toInt

/-- Within the caps the sums of the cap check are exact. -/
theorem WithinCap.fits (h : Inv o σ) (hcap : WithinCap σ tokens) : IssueFits σ tokens := by
  intro s a hs
  obtain ⟨m, hm, -, hle⟩ := hcap s a hs
  have hlegal := (h.supplies.legal s m hm).1
  omega

/-- Within the caps, `issue` returns exactly when it reaches none of them. -/
theorem issue_ok_iff_of_withinCap (h : LedgerInv o σ) (hauth : ctx.hasAuth ctx.self)
    (hcap : WithinCap σ tokens) (owner : Name) (memo : String) :
    (∃ σ', issue ctx σ owner tokens memo = .ok σ') ↔
      ∀ (s : Symbol) (a m : Int64), tokens[s]? = some a → σ.sup.maxSupply[s]? = some m →
        supplyOf σ s + a.toInt ≠ m.toInt := by
  obtain ⟨sup, hsup⟩ := Option.isSome_iff_exists.mp h.recorded
  have hsup' : σ.sup = sup := State.sup_of_some hsup
  have hwf : sup.WF := hsup' ▸ h.supplies
  have hfits := hcap.fits h.toInv
  -- the check of one entry, in exact arithmetic
  have hexact {s : Symbol} {a v : Int64} (hs : tokens[s]? = some a)
      (hv : sup.supply[s]? = some v) : (v + a).toInt = supplyOf σ s + a.toInt := by
    have hsum : supplyOf σ s = v.toInt := by rw [supplyOf, hsup', bal_of_some hv]
    have hfit := hfits s a hs
    have h0 := hwf.bal_bounds s
    obtain ⟨-, -, hpos, -⟩ := hcap s a hs
    rw [bal_of_some hv] at h0
    rw [hsum] at hfit ⊢
    exact Int64.toInt_add_of_mem (by omega) (by omega)
  rw [issue_ok_iff hauth hsup]
  constructor
  · intro haccepted s a m hs hm
    obtain ⟨v, m', hv, hm', hlt, -⟩ := haccepted s a hs
    rw [hsup', hm', Option.some.injEq] at hm
    rw [Int64.lt_iff_toInt_lt, hexact hs hv, hm] at hlt
    exact hlt.ne
  · intro hbelow s a hs
    obtain ⟨m, hm, hpos, hle⟩ := hcap s a hs
    have hne := hbelow s a m hs hm
    rw [hsup'] at hm
    obtain ⟨v, hv⟩ := OrdMap.mem_iff_exists.mp
      ((hwf.keys s).mpr (OrdMap.mem_iff_exists.mpr ⟨m, hm⟩))
    refine ⟨v, m, hv, hm, ?_, Int64.toInt_pos_iff.mpr hpos⟩
    rw [Int64.lt_iff_toInt_lt, hexact hs hv]
    exact hle.lt_of_ne hne

/-- **All but the last unit of a cap can be issued.** In every ledger that ledger actions with
legal issue amounts reach, the contract can issue any amounts within the caps, exactly as they
are, if and only if none of them takes its supply to its cap. -/
theorem issue_below_cap_iff {tr : List (Context × Call)} (hrun : Run step LegalGuard fresh tr σ)
    (hauth : ctx.hasAuth ctx.self) (hcap : WithinCap σ tokens) :
    (∃ σ', issue ctx σ owner tokens memo = .ok σ' ∧ Issued σ σ' owner (bal tokens)) ↔
      ∀ (s : Symbol) (a m : Int64), tokens[s]? = some a → σ.sup.maxSupply[s]? = some m →
        supplyOf σ s + a.toInt ≠ m.toInt := by
  have h := ledgerInv_of_legal_run hrun
  rw [← issue_ok_iff_of_withinCap h hauth hcap owner memo]
  constructor
  · rintro ⟨σ', hok, -⟩
    exact ⟨σ', hok⟩
  · rintro ⟨σ', hok⟩
    exact ⟨σ', hok, issued_of_issue h.toInv atMostOne_zero (hcap.fits h.toInv) hok⟩

/-- A cap of 100 units. -/
def capOnly : List (Context × Call) := [tokenCall (.setsupplies (coreTokens 100))]

theorem run_capOnly (h : capOnly.foldlM step fresh = .ok σ) :
    Run step LegalGuard fresh capOnly σ := by
  refine Run.of_foldlM (fun s c hc => ?_) h
  rw [List.mem_singleton.mp hc]
  exact ⟨rfl, trivial⟩

theorem exists_capOnly : ∃ σ, Run step LegalGuard fresh capOnly σ ∧
    supplyOf σ coreSymbol = 0 ∧ σ.sup.supply[coreSymbol]? = some 0 ∧
      σ.sup.maxSupply[coreSymbol]? = some 100 := by
  obtain ⟨σ, hσ, hcap⟩ := returns_iff.mp (show returns (capOnly.foldlM step fresh) (fun σ =>
    supplyOf σ coreSymbol = 0 ∧ σ.sup.supply[coreSymbol]? = some 0 ∧
      σ.sup.maxSupply[coreSymbol]? = some 100) = true by decide)
  exact ⟨σ, run_capOnly hσ, of_decide_eq_true hcap⟩

theorem withinCap_coreTokens {a m : Int64} (hm : σ.sup.maxSupply[coreSymbol]? = some m)
    (hpos : 0 < a.toInt) (hle : supplyOf σ coreSymbol + a.toInt ≤ m.toInt) :
    WithinCap σ (coreTokens a) := by
  intro s b hs
  obtain ⟨rfl, rfl⟩ := eq_of_coreTokens hs
  exact ⟨m, hm, hpos, hle⟩

theorem issue_below_cap_iff_ninetyNine :
    ∃ σ σ', Run step LegalGuard fresh capOnly σ ∧ WithinCap σ (coreTokens 99) ∧
      issue (.permissive (.ofString "eosio.token")) σ (.ofString "alice") (coreTokens 99) "" =
        .ok σ' ∧ Issued σ σ' (.ofString "alice") (bal (coreTokens 99)) := by
  obtain ⟨σ, hrun, hsupply, -, hm⟩ := exists_capOnly
  have hcap : WithinCap σ (coreTokens 99) :=
    withinCap_coreTokens hm (by decide) (by rw [hsupply]; decide)
  have hauth : (Context.permissive (.ofString "eosio.token")).hasAuth (.ofString "eosio.token") =
    true := rfl
  obtain ⟨σ', hok, hissued⟩ := (issue_below_cap_iff hrun hauth hcap).mpr fun s a m hs hm' => by
    obtain ⟨rfl, rfl⟩ := eq_of_coreTokens hs
    rw [hm, Option.some.injEq] at hm'
    rw [hsupply, ← hm']
    decide
  exact ⟨σ, σ', hrun, hcap, hok, hissued⟩

/-- With nothing of a cap of 100 units issued, `issue` refuses to issue the 100. -/
theorem issue_full_cap_rejected :
    ∃ σ, Run step LegalGuard fresh capOnly σ ∧ WithinCap σ (coreTokens 100) ∧
      issue (.permissive (.ofString "eosio.token")) σ (.ofString "alice") (coreTokens 100) "" =
        .error (.check "cannot issue above fungible max supply: TWIG") := by
  obtain ⟨σ, hrun, hsupply, hv, hm⟩ := exists_capOnly
  obtain ⟨sup, hsup⟩ := Option.isSome_iff_exists.mp (ledgerInv_of_legal_run hrun).recorded
  have hcap : WithinCap σ (coreTokens 100) :=
    withinCap_coreTokens hm (by decide) (by rw [hsupply]; decide)
  rw [State.sup_of_some hsup] at hv hm
  exact ⟨σ, hrun, hcap, issue_coreTokens_rejected rfl hsup hv hm (by decide)⟩

end Twig.Token
