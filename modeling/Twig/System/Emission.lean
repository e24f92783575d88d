import Twig.System.Chunk

/-!
# The emission schedule

Runs of lucky hits over the token ledger. A hit draws a chunk, whose inline actions all run or
take the hit back, or opens a new epoch; between hits the ledger may do anything that neither
issues the core token nor removes its registration.

Twenty epochs of 60750 chunks issue `1215000 * (M / 1215000)` units under a cap of `M`, the
epochs being numbered from 1 and issuing while the number is below 21. Together with an initial
supply `s₀` that is below `M` exactly when `s₀ < M % 1215000`, and `issue` insists on staying
strictly below:

* `emission_fits` — under that condition no issue of a chunk is rejected, as long as the 32-bit
  epoch counter does not start over;
* `emission_exceeds` — otherwise, once a chunk issues 400 units or more, the run of hits alone
  comes to a chunk whose issue is rejected.
-/

namespace Twig.System

open Std Fallible Token

/-! ### Runs of hits -/

/-- The lucky number and the token ledger. -/
structure Emission where
  luck : ALuckyNumber
  ledger : Token.State

inductive EmissionEvent
  /-- A lucky block. -/
  | hit (ctx : Context) (producer : Name)
  /-- An action of the token contract. -/
  | ledger (ctx : Context) (call : Token.Call)

/-- What `onchunk` sends after a hit has set the lucky number. -/
def chunkActions (ctx : Context) (luck : ALuckyNumber) (ledger : Token.State) :
    Outcome (List Token.Inline) :=
  onchunk (ctx.inlineBy systemAccount systemAccount) { aluckynumber := some luck } ledger

/-- A hit, or an action of the token contract. A failing inline action fails the whole hit. -/
def Emission.step (w : Emission) : EmissionEvent → Outcome Emission
  | .hit ctx producer =>
    match luckyHit producer w.luck with
    | (luck, .onchunk) => do
      let actions ← chunkActions ctx luck w.ledger
      let ledger ← runToken ctx w.ledger actions
      pure { luck, ledger }
    | (luck, _) => pure { w with luck }
  | .ledger ctx call => do
    let ledger ← Token.step w.ledger (ctx, call)
    pure { w with ledger }

/-- The call neither issues the core token nor removes its registration. -/
def sparesCore : Token.Call → Prop
  | .issue _ tokens _ => coreSymbol ∉ tokens
  | .rmvsupply maxSupply => coreSymbol ∉ maxSupply
  | _ => True

/-- The epoch counter does not start over, and the ledger actions leave the core token's
issuance to the hits. -/
def Emission.Guard (w : Emission) : EmissionEvent → Prop
  | .hit _ _ => w.luck.chunksRemaining = 0 → w.luck.epoch.toNat + 1 < 2 ^ 32
  | .ledger _ call => call.isLedger ∧ call.Legal ∧ sparesCore call

/-- The chunks still to be issued up to the twentieth epoch. -/
def remaining (a : ALuckyNumber) : ℕ :=
  if a.epoch < 21 then (20 - a.epoch.toNat) * 60750 + a.chunksRemaining.toNat else 0

/-- **The emission invariant** under a cap `m`: what is supplied and what the remaining chunks
will issue stay within a budget. -/
structure EmissionInv (m : Int64) (budget : ℤ) (w : Emission) : Prop where
  ledger : LedgerInv (fun _ => 0) w.ledger
  cap : w.ledger.sup.maxSupply[coreSymbol]? = some m
  budgeted : supplyOf w.ledger coreSymbol + m.toInt / 1215000 * remaining w.luck ≤ budget

variable {m : Int64} {budget : ℤ} {w w' : Emission} {ctx : Context} {producer : Name}

/-- Drawing a chunk uses one of the remaining ones up, if the epoch still issues. -/
theorem remaining_chunk {a : ALuckyNumber} (producer : Name) (h : 0 < a.chunksRemaining) :
    remaining a = remaining (luckyHit producer a).1 + if a.epoch < 21 then 1 else 0 := by
  have hsub := UInt32.toNat_sub_one h
  simp only [luckyHit_of_pos h, remaining]
  split_ifs with hepoch
  · omega
  · rfl

/-- A new epoch leaves the remaining chunks as they are. -/
theorem remaining_epoch {a : ALuckyNumber} (producer : Name) (h : a.chunksRemaining = 0)
    (hepoch : a.epoch.toNat + 1 < 2 ^ 32) :
    remaining (luckyHit producer a).1 = remaining a := by
  have hadd := UInt32.toNat_add_one hepoch
  have h21 : (21 : UInt32).toNat = 21 := rfl
  have h0 : (0 : UInt32).toNat = 0 := rfl
  simp only [luckyHit_of_zero h, remaining, UInt32.lt_iff_toNat_lt, hadd, h21, h, h0,
    toNat_luckyNumberChunks]
  split_ifs <;> omega

theorem step_hit_of_zero (h : w.luck.chunksRemaining = 0) :
    w.step (.hit ctx producer) = .ok { w with luck := (luckyHit producer w.luck).1 } := by
  rw [Emission.step, luckyHit_of_zero h]
  rfl

theorem step_hit_of_pos (h : 0 < w.luck.chunksRemaining) :
    w.step (.hit ctx producer) = .ok w' ↔
      ∃ actions, chunkActions ctx (luckyHit producer w.luck).1 w.ledger = .ok actions ∧
        ∃ τ, runToken ctx w.ledger actions = .ok τ ∧
          { luck := (luckyHit producer w.luck).1, ledger := τ } = w' := by
  simp only [Emission.step, luckyHit_of_pos h, bind_eq_ok_iff, pure_eq_ok_iff]

/-- What a hit that draws a chunk does: the supply grows by the share of the chunk. -/
theorem chunk_spec {luck : ALuckyNumber} {actions : List Token.Inline} {τ τ' : Token.State}
    (h : LedgerInv (fun _ => 0) τ) (hcap : τ.sup.maxSupply[coreSymbol]? = some m)
    (hok : chunkActions ctx luck τ = .ok actions) (hrun : runToken ctx τ actions = .ok τ') :
    LedgerInv (fun _ => 0) τ' ∧ τ'.sup.maxSupply[coreSymbol]? = some m ∧
      chunksAccount ∈ τ'.accounts ∧
      supplyOf τ' coreSymbol = supplyOf τ coreSymbol +
        if luck.epoch < 21 then m.toInt / 1215000 else 0 := by
  -- the issue comes first, and the transfers leave the supplies alone
  rw [← List.take_append_drop (issueCount luck) actions, runToken_append] at hrun
  obtain ⟨τ₁, hissue, htransfers⟩ := hrun
  obtain ⟨total, hinv, hrow, hmax, hsupply, hdrop, -, -⟩ := onchunk_spec h rfl hok hissue
  rw [hdrop] at htransfers
  obtain ⟨hinv', hsup, hrow'⟩ := runToken_transfers_spec atMostOne_zero hinv.toInv hrow htransfers
  have hsup' : τ'.sup = τ₁.sup := by rw [State.sup, State.sup, hsup]
  refine ⟨⟨hinv', hsup ▸ hinv.recorded⟩, ?_, hrow', ?_⟩
  · rw [hsup', hmax]
    exact hcap
  · rw [supplyOf, hsup', ← supplyOf, hsupply, chunkIssued, bal_of_some hcap]

/-- **A hit keeps the emission invariant.** -/
theorem EmissionInv.hit (h : EmissionInv m budget w) (hguard : w.Guard (.hit ctx producer))
    (hok : w.step (.hit ctx producer) = .ok w') : EmissionInv m budget w' := by
  have hbudget := h.budgeted
  rcases UInt32.eq_zero_or_pos w.luck.chunksRemaining with hzero | hpos
  · rw [step_hit_of_zero hzero] at hok
    obtain rfl := Except.ok.inj hok
    refine ⟨h.ledger, h.cap, ?_⟩
    rwa [remaining_epoch producer hzero (hguard hzero)]
  · obtain ⟨actions, hactions, τ, hrun, rfl⟩ := (step_hit_of_pos hpos).mp hok
    obtain ⟨hledger, hcap, -, hsupply⟩ := chunk_spec h.ledger h.cap hactions hrun
    refine ⟨hledger, hcap, ?_⟩
    have hepoch : (luckyHit producer w.luck).1.epoch = w.luck.epoch := by
      rw [luckyHit_of_pos hpos]
    -- the share that is issued was budgeted for as one of the remaining chunks
    rw [remaining_chunk producer hpos] at hbudget
    rw [hsupply, hepoch]
    refine (Eq.le ?_).trans hbudget
    split_ifs <;> push_cast <;> ring

/-- A ledger action that spares the core token keeps its cap and issues none of it. -/
theorem sparesCore_spec {τ τ' : Token.State} {call : Token.Call} (h : LedgerInv (fun _ => 0) τ)
    (hledger : call.isLedger) (hlegal : call.Legal) (hspares : sparesCore call)
    (hcap : τ.sup.maxSupply[coreSymbol]? = some m) (hok : Token.step τ (ctx, call) = .ok τ') :
    LedgerInv (fun _ => 0) τ' ∧ τ'.sup.maxSupply[coreSymbol]? = some m ∧
      supplyOf τ' coreSymbol ≤ supplyOf τ coreSymbol := by
  have h' := h.step atMostOne_zero hledger (h.fits_of_legal hlegal) hok
  refine ⟨h', ?_⟩
  -- three actions leave the supplies alone, and two the accounts
  have hsame (hsup : τ'.supplies = τ.supplies) : τ'.sup.maxSupply[coreSymbol]? = some m ∧
      supplyOf τ' coreSymbol ≤ supplyOf τ coreSymbol := by
    rw [supplyOf, supplyOf, State.sup, hsup]
    exact ⟨hcap, le_rfl⟩
  have hheld (hacc : τ'.accounts = τ.accounts) :
      supplyOf τ' coreSymbol ≤ supplyOf τ coreSymbol := by
    have hsupply := h.conserved coreSymbol
    have hsupply' := h'.conserved coreSymbol
    rw [total, hacc, ← total] at hsupply'
    omega
  cases call with
  | setsupplies maxSupply =>
    obtain ⟨-, -, hacc⟩ := setsupplies_spec h.toInv hok
    exact ⟨setsupplies_keeps hok hcap, hheld hacc⟩
  | rmvsupply maxSupply =>
    obtain ⟨-, -, hacc⟩ := rmvsupply_spec h.toInv hok
    exact ⟨(rmvsupply_keeps hok hspares).trans hcap, hheld hacc⟩
  | issue owner tokens memo =>
    have hissue : issue ctx τ owner tokens memo = .ok τ' := hok
    obtain ⟨-, hsupply, -, supply, hsup⟩ :=
      issue_spec h.toInv atMostOne_zero (h.fits_of_legal hlegal) hissue
    rw [hsupply, bal_of_none (OrdMap.not_mem_iff.mp hspares), State.sup, hsup]
    exact ⟨hcap, (add_zero _).le⟩
  | retire owner tokens memo =>
    have hretire : retire ctx τ owner tokens memo = .ok τ' := hok
    obtain ⟨-, hsupply, -, supply, hsup⟩ := retire_spec h.toInv hretire
    have hpos : Positive tokens := fun s a hs => pos_of_retire hretire hs
    have hnn := hpos.bal_nonneg coreSymbol
    rw [hsupply, State.sup, hsup]
    exact ⟨hcap, by omega⟩
  | transfer sender receiver tokens memo =>
    exact hsame (transfer_spec h.toInv atMostOne_zero hok).2.1
  | openAccount owner => exact hsame (openAccount_spec h.toInv hok).2.1
  | closeAccount owner => exact hsame (closeAccount_spec h.toInv hok).2.1
  | _ => exact absurd hledger (by simp [Call.isLedger])

/-- **Every step keeps the emission invariant.** -/
theorem EmissionInv.step {e : EmissionEvent} (h : EmissionInv m budget w) (hguard : w.Guard e)
    (hok : w.step e = .ok w') : EmissionInv m budget w' := by
  cases e with
  | hit ctx producer => exact h.hit hguard hok
  | ledger ctx call =>
    obtain ⟨hledger, hlegal, hspares⟩ := hguard
    simp only [Emission.step, bind_eq_ok_iff, pure_eq_ok_iff] at hok
    obtain ⟨τ, hτ, rfl⟩ := hok
    obtain ⟨hinv, hcap, hle⟩ := sparesCore_spec h.ledger hledger hlegal hspares h.cap hτ
    exact ⟨hinv, hcap, (add_le_add_left hle _).trans h.budgeted⟩

/-! ### When the schedule fits -/

/-- The start: the lucky number of `init` over some ledger. -/
def Emission.start (τ : Token.State) : Emission :=
  { luck := { producer := systemAccount }, ledger := τ }

theorem remaining_start (τ : Token.State) : remaining (Emission.start τ).luck = 1215000 := by
  have h1 : (1 : UInt32).toNat = 1 := rfl
  rw [remaining, Emission.start, if_pos (show (1 : UInt32) < 21 by decide),
    toNat_luckyNumberChunks, h1]

theorem emissionInv_start {τ : Token.State} (h : LedgerInv (fun _ => 0) τ)
    (hcap : τ.sup.maxSupply[coreSymbol]? = some m) :
    EmissionInv m (supplyOf τ coreSymbol + m.toInt / 1215000 * 1215000) (Emission.start τ) where
  ledger := h
  cap := hcap
  budgeted := by rw [remaining_start]; rfl

/-- A hit draws a chunk whose issue fails the maximal-supply check. -/
def ChunkRejected (ctx : Context) (producer : Name) (w : Emission) : Prop :=
  ∃ luck actions, luckyHit producer w.luck = (luck, .onchunk) ∧
    chunkActions ctx luck w.ledger = .ok actions ∧
    runToken ctx w.ledger (actions.take (issueCount luck)) =
      .error (.check "cannot issue above fungible max supply: TWIG")

/-- The issue of a chunk is one call of `issue`, for the share of the cap. -/
theorem runToken_take_issue {luck : ALuckyNumber} {τ : Token.State}
    {actions : List Token.Inline} (hcap : τ.sup.maxSupply[coreSymbol]? = some m)
    (hepoch : luck.epoch < 21) (hok : chunkActions ctx luck τ = .ok actions) :
    runToken ctx τ (actions.take (issueCount luck)) =
      issue (ctx.inlineBy tokenAccount tokenAccount) τ chunksAccount
        (coreTokens (scaleBy m luckyNumberChunkWeight))
        "A chunk has been found! Distributing rewards..." := by
  simp only [chunkActions, onchunk, bind_eq_ok_iff, singletonGet_eq_ok_iff, Option.some.injEq,
    exists_eq_left', if_pos hepoch, deref_eq_ok_iff, pure_eq_ok_iff] at hok
  obtain ⟨-, -, row, -, sup, hsup, cap, hcap', rfl⟩ := hok
  obtain rfl : cap = m := by simpa [State.sup, hsup, hcap'] using hcap
  simp only [issueCount, if_pos hepoch, List.take_succ_cons, List.take_zero, runToken,
    List.foldlM_cons, List.foldlM_nil, bind_pure]
  rfl

/-- The sum in the cap check of a chunk's issue is exact. -/
theorem toInt_supply_add_share {τ : Token.State} (h : LedgerInv (fun _ => 0) τ)
    (hcap : τ.sup.maxSupply[coreSymbol]? = some m) :
    ∃ sup v, τ.supplies = some sup ∧ sup.supply[coreSymbol]? = some v ∧
      sup.maxSupply[coreSymbol]? = some m ∧
      (scaleBy m luckyNumberChunkWeight).toInt = m.toInt / 1215000 ∧
      (v + scaleBy m luckyNumberChunkWeight).toInt =
        supplyOf τ coreSymbol + m.toInt / 1215000 := by
  obtain ⟨sup, hsup⟩ := Option.isSome_iff_exists.mp h.recorded
  have hsup' : τ.sup = sup := Token.State.sup_of_some hsup
  obtain ⟨hnn, hlegal, hshare⟩ := toInt_chunkShare h hcap
  have hbounds := h.supplies.bal_bounds coreSymbol
  obtain ⟨v, hv⟩ := OrdMap.mem_iff_exists.mp
    ((h.supplies.keys coreSymbol).mpr (OrdMap.mem_iff_exists.mpr ⟨m, hcap⟩))
  rw [bal_of_some hv] at hbounds
  rw [supplyOf, bal_of_some hv]
  rw [hsup'] at hcap hv
  refine ⟨sup, v, hsup, hv, hcap, hshare, ?_⟩
  rw [Int64.toInt_add_of_mem] <;> rw [hshare] <;> omega

/-- The issue of a chunk goes through below the cap. -/
theorem issue_ok_of_lt {luck : ALuckyNumber} {τ : Token.State} {actions : List Token.Inline}
    (h : LedgerInv (fun _ => 0) τ) (hcap : τ.sup.maxSupply[coreSymbol]? = some m)
    (hepoch : luck.epoch < 21) (hok : chunkActions ctx luck τ = .ok actions)
    (hm : 1215000 ≤ m.toInt)
    (hlt : supplyOf τ coreSymbol + m.toInt / 1215000 < m.toInt) :
    ∃ τ₁, runToken ctx τ (actions.take (issueCount luck)) = .ok τ₁ := by
  obtain ⟨sup, v, hsup, hv, hcap', hshare, hsum⟩ := toInt_supply_add_share h hcap
  rw [runToken_take_issue hcap hepoch hok]
  refine issue_coreTokens_ok rfl hsup hv hcap' ?_ ?_
  · rw [Int64.lt_iff_toInt_lt, hsum]
    exact hlt
  · rw [Int64.toInt_pos_iff, hshare]
    omega

/-- The issue of a chunk is rejected when it would reach the cap. -/
theorem issue_rejected_of_le {luck : ALuckyNumber} {τ : Token.State}
    {actions : List Token.Inline} (h : LedgerInv (fun _ => 0) τ)
    (hcap : τ.sup.maxSupply[coreSymbol]? = some m) (hepoch : luck.epoch < 21)
    (hok : chunkActions ctx luck τ = .ok actions)
    (hle : m.toInt ≤ supplyOf τ coreSymbol + m.toInt / 1215000) :
    runToken ctx τ (actions.take (issueCount luck)) =
      .error (.check "cannot issue above fungible max supply: TWIG") := by
  obtain ⟨sup, v, hsup, hv, hcap', -, hsum⟩ := toInt_supply_add_share h hcap
  rw [runToken_take_issue hcap hepoch hok]
  refine issue_coreTokens_rejected rfl hsup hv hcap' ?_
  rw [Int64.lt_iff_toInt_lt, hsum]
  omega

/-- A budget below the cap lets every chunk be issued. -/
theorem EmissionInv.issue_ok (h : EmissionInv m budget w) (hm : 1215000 ≤ m.toInt)
    (hbudget : budget < m.toInt) {actions : List Token.Inline}
    (hpos : 0 < w.luck.chunksRemaining)
    (hok : chunkActions ctx (luckyHit producer w.luck).1 w.ledger = .ok actions) :
    ∃ τ, runToken ctx w.ledger (actions.take (issueCount (luckyHit producer w.luck).1)) =
      .ok τ := by
  have hkept : (luckyHit producer w.luck).1.epoch = w.luck.epoch := by
    rw [luckyHit_of_pos hpos]
  by_cases hepoch : w.luck.epoch < 21
  · refine issue_ok_of_lt h.ledger h.cap (hkept ▸ hepoch) hok hm ?_
    have hused := remaining_chunk producer hpos
    rw [if_pos hepoch] at hused
    have hbudgeted := h.budgeted
    have hone : m.toInt / 1215000 * 1 ≤ m.toInt / 1215000 * (remaining w.luck : ℤ) :=
      mul_le_mul_of_nonneg_left (by omega) (by omega)
    omega
  · exact ⟨w.ledger, by rw [issueCount, hkept, if_neg hepoch]; rfl⟩

/-- **The emission schedule fits under the cap** when the initial supply is below the cap's
remainder modulo `1215000`: whatever lucky hits and ledger actions came before, the issue of
the next chunk goes through. -/
theorem emission_fits {tr₀ : List (Context × Token.Call)} {τ : Token.State}
    (hledger : Run Token.step LegalGuard fresh tr₀ τ)
    (hcap : τ.sup.maxSupply[coreSymbol]? = some m) (hm : 1215000 ≤ m.toInt)
    (hsupply : supplyOf τ coreSymbol < m.toInt % 1215000) {tr : List EmissionEvent}
    (hrun : Run Emission.step Emission.Guard (Emission.start τ) tr w)
    {luck : ALuckyNumber} {actions : List Token.Inline}
    (hhit : luckyHit producer w.luck = (luck, .onchunk))
    (hok : chunkActions ctx luck w.ledger = .ok actions) :
    ∃ τ₁, runToken ctx w.ledger (actions.take (issueCount luck)) = .ok τ₁ := by
  have hinv := hrun.state_invariant
    (emissionInv_start (ledgerInv_of_legal_run hledger) hcap) fun _ _ _ hI hg hs => hI.step hg hs
  have hpos := chunksRemaining_pos_of_onchunk (congrArg Prod.snd hhit)
  obtain rfl : (luckyHit producer w.luck).1 = luck := by rw [hhit]
  exact hinv.issue_ok hm (by omega) hpos hok

/-! ### When it does not -/

/-- The remaining chunks would take the supply to its cap, or beyond. -/
structure Overcommitted (m : Int64) (w : Emission) : Prop where
  ledger : LedgerInv (fun _ => 0) w.ledger
  cap : w.ledger.sup.maxSupply[coreSymbol]? = some m
  row : chunksAccount ∈ w.ledger.accounts
  short : m.toInt ≤ supplyOf w.ledger coreSymbol + m.toInt / 1215000 * remaining w.luck

/-- The hits to come up to the end of the twentieth epoch. -/
def hitsLeft (a : ALuckyNumber) : ℕ := 2 * remaining a + if a.chunksRemaining = 0 then 1 else 0

theorem Overcommitted.epoch_lt (h : Overcommitted m w) :
    w.luck.epoch < 21 ∧ 0 < remaining w.luck := by
  obtain ⟨sup, v, hsup, hv, hcap, -, -⟩ := toInt_supply_add_share h.ledger h.cap
  have hsup' : w.ledger.sup = sup := Token.State.sup_of_some hsup
  have hlt := ((hsup' ▸ h.ledger.supplies).capped coreSymbol v m hv hcap).2
  have hsupply : supplyOf w.ledger coreSymbol = v.toInt := by
    rw [supplyOf, hsup', bal_of_some hv]
  have hpos : remaining w.luck ≠ 0 := by
    intro hzero
    have hshort := h.short
    rw [hzero] at hshort
    push_cast at hshort
    omega
  refine ⟨?_, Nat.pos_of_ne_zero hpos⟩
  by_contra hepoch
  exact hpos (if_neg hepoch)

/-- The next hit goes through, to an overcommitted state that is closer to the end. -/
def Advances (ctx : Context) (producer : Name) (m : Int64) (w : Emission) : Prop :=
  ∃ w', w.Guard (.hit ctx producer) ∧ w.step (.hit ctx producer) = .ok w' ∧
    Overcommitted m w' ∧ hitsLeft w'.luck < hitsLeft w.luck

/-- A new epoch leaves as many chunks to issue as before. -/
theorem Overcommitted.advances_of_zero (h : Overcommitted m w)
    (hzero : w.luck.chunksRemaining = 0) : Advances ctx producer m w := by
  have hlt : w.luck.epoch.toNat < 21 := UInt32.lt_iff_toNat_lt.mp h.epoch_lt.1
  have hwrap : w.luck.epoch.toNat + 1 < 2 ^ 32 := by omega
  have hkept := remaining_epoch producer hzero hwrap
  have hchunks : (luckyHit producer w.luck).1.chunksRemaining ≠ 0 := by
    rw [luckyHit_of_zero hzero]
    exact show luckyNumberChunks ≠ 0 by decide
  refine ⟨_, fun _ => hwrap, step_hit_of_zero hzero,
    ⟨h.ledger, h.cap, h.row, by rw [hkept]; exact h.short⟩, ?_⟩
  rw [hitsLeft, hitsLeft, hkept, if_pos hzero, if_neg hchunks]
  omega

/-- A chunk whose issue and transfers have all gone through. -/
theorem Overcommitted.advances_of_pos (h : Overcommitted m w)
    (hpos : 0 < w.luck.chunksRemaining) {actions : List Token.Inline} {τ : Token.State}
    (hactions : chunkActions ctx (luckyHit producer w.luck).1 w.ledger = .ok actions)
    (hrun : runToken ctx w.ledger actions = .ok τ) : Advances ctx producer m w := by
  have hkept : (luckyHit producer w.luck).1.epoch = w.luck.epoch := by
    rw [luckyHit_of_pos hpos]
  obtain ⟨hledger, hcap, hrow, hsupply⟩ := chunk_spec h.ledger h.cap hactions hrun
  have hused := remaining_chunk producer hpos
  rw [if_pos h.epoch_lt.1] at hused
  rw [hkept, if_pos h.epoch_lt.1] at hsupply
  refine ⟨_, fun hzero => absurd hpos (by rw [hzero]; decide),
    (step_hit_of_pos hpos).mpr ⟨_, hactions, τ, hrun, rfl⟩, ⟨hledger, hcap, hrow, ?_⟩, ?_⟩
  · have hshort := h.short
    rw [hused] at hshort
    push_cast at hshort
    rw [hsupply]
    refine hshort.trans (Eq.le ?_)
    ring
  · change hitsLeft (luckyHit producer w.luck).1 < hitsLeft w.luck
    rw [hitsLeft, hitsLeft, hused]
    split_ifs <;> omega

/-- From an overcommitted state the next hit has its chunk rejected, or goes through and leads
closer to one that has. -/
theorem Overcommitted.hit (h : Overcommitted m w) (hm : 486000000 ≤ m.toInt)
    (hexist : ∀ r ∈ [bankAccount, boardAccount, worldAccount], ctx.isAccount r) :
    ChunkRejected ctx producer w ∨ Advances ctx producer m w := by
  rcases UInt32.eq_zero_or_pos w.luck.chunksRemaining with hzero | hpos
  · exact .inr (h.advances_of_zero hzero)
  have hkept : (luckyHit producer w.luck).1.epoch = w.luck.epoch := by
    rw [luckyHit_of_pos hpos]
  have hepoch := hkept ▸ h.epoch_lt.1
  obtain ⟨row, hrow⟩ := OrdMap.mem_iff_exists.mp h.row
  obtain ⟨sup, v, hsup, hv, hcap, -, -⟩ := toInt_supply_add_share h.ledger h.cap
  have hactions : chunkActions ctx (luckyHit producer w.luck).1 w.ledger = _ :=
    onchunk_eq_of_lt rfl rfl hepoch hrow hsup hcap
  rcases lt_or_ge (supplyOf w.ledger coreSymbol + m.toInt / 1215000) m.toInt with hfits | hover
  · -- the issue goes through, and 400 units are enough for the transfers
    obtain ⟨τ₁, hissue⟩ := issue_ok_of_lt h.ledger h.cap hepoch hactions (by omega) hfits
    have hnn := h.ledger.balanceOf_nonneg chunksAccount coreSymbol
    have htotal : 400 ≤ balanceOf w.ledger chunksAccount coreSymbol +
        chunkIssued (luckyHit producer w.luck).1 w.ledger := by
      rw [chunkIssued, if_pos hepoch, bal_of_some h.cap]
      omega
    have hexist' : ∀ r ∈ [bankAccount, boardAccount, worldAccount],
        (ctx.inlineBy systemAccount systemAccount).isAccount r := hexist
    obtain ⟨τ₂, htransfers⟩ :=
      (transfers_iff_of_ledgerInv h.ledger rfl hexist' hactions hissue).mpr htotal
    have hrun := runToken_append.mpr ⟨τ₁, hissue, htransfers⟩
    rw [List.take_append_drop] at hrun
    exact .inr (h.advances_of_pos hpos hactions hrun)
  · exact .inl ⟨_, _, Prod.ext rfl (by rw [luckyHit_of_pos hpos]), hactions,
      issue_rejected_of_le h.ledger h.cap hepoch hactions hover⟩

/-- From an overcommitted state the hits alone lead to a chunk whose issue is rejected. -/
theorem Overcommitted.rejected (h : Overcommitted m w) (hm : 486000000 ≤ m.toInt)
    (hexist : ∀ r ∈ [bankAccount, boardAccount, worldAccount], ctx.isAccount r) :
    ∃ n w', Run Emission.step Emission.Guard w (List.replicate n (.hit ctx producer)) w' ∧
      ChunkRejected ctx producer w' := by
  induction hn : hitsLeft w.luck using Nat.strong_induction_on generalizing w with
  | _ n ih =>
    rcases h.hit hm hexist with hrejected | ⟨w₁, hg, hs, h₁, hlt⟩
    · exact ⟨0, w, .init, hrejected⟩
    · obtain ⟨k, w', hrun, hrejected⟩ := ih _ (hn ▸ hlt) h₁ rfl
      exact ⟨k + 1, w', (Run.single hg hs).trans hrun, hrejected⟩

/-- **The emission schedule does not fit** otherwise: with an initial supply from the cap's
remainder on, and chunks of 400 units or more, hits alone come to a chunk whose issue is
rejected. -/
theorem emission_exceeds {tr₀ : List (Context × Token.Call)} {τ : Token.State}
    (hledger : Run Token.step LegalGuard fresh tr₀ τ)
    (hcap : τ.sup.maxSupply[coreSymbol]? = some m) (hm : 486000000 ≤ m.toInt)
    (hsupply : m.toInt % 1215000 ≤ supplyOf τ coreSymbol) (hrow : chunksAccount ∈ τ.accounts)
    (hexist : ∀ r ∈ [bankAccount, boardAccount, worldAccount], ctx.isAccount r) :
    ∃ n w, Run Emission.step Emission.Guard (Emission.start τ)
      (List.replicate n (.hit ctx producer)) w ∧ ChunkRejected ctx producer w := by
  have hstart : Overcommitted m (Emission.start τ) := by
    refine ⟨ledgerInv_of_legal_run hledger, hcap, hrow, ?_⟩
    rw [remaining_start, Emission.start]
    push_cast
    omega
  exact hstart.rejected hm hexist

/-- With a cap of 1215001 units and none supplied, the first chunk is issued. -/
theorem emission_fits_first :
    ∃ τ, Run Token.step LegalGuard fresh (capAndOpen 1215001) τ ∧
      ∃ luck actions τ₁, luckyHit systemAccount (Emission.start τ).luck = (luck, .onchunk) ∧
        chunkActions systemContext luck τ = .ok actions ∧
        runToken systemContext τ (actions.take (issueCount luck)) = .ok τ₁ := by
  obtain ⟨τ, hτ, hfirst⟩ := returns_iff.mp (show returns
    ((capAndOpen 1215001).foldlM Token.step fresh) (fun τ =>
      τ.sup.maxSupply[coreSymbol]? = some 1215001 ∧ supplyOf τ coreSymbol = 0 ∧
      returns (chunkActions systemContext (luckyHit systemAccount (Emission.start τ).luck).1 τ)
        fun _ => true) = true
    by decide +kernel)
  obtain ⟨hcap, hsupply, hfirst⟩ := of_decide_eq_true hfirst
  obtain ⟨actions, hok, -⟩ := returns_iff.mp hfirst
  have hrun := run_capAndOpen hτ
  have hhit : luckyHit systemAccount (Emission.start τ).luck =
      ((luckyHit systemAccount (Emission.start τ).luck).1, .onchunk) := rfl
  obtain ⟨τ₁, hissue⟩ :=
    emission_fits hrun hcap (by decide) (by rw [hsupply]; decide) .init hhit hok
  exact ⟨τ, hrun, _, actions, τ₁, hhit, hok, hissue⟩

/-- With a cap of 486000000 units and none supplied, hits alone come to a rejected chunk. -/
theorem emission_rejected :
    ∃ τ, Run Token.step LegalGuard fresh (capAndOpen 486000000) τ ∧
      τ.sup.maxSupply[coreSymbol]? = some 486000000 ∧ supplyOf τ coreSymbol = 0 ∧
      ∃ n w, Run Emission.step Emission.Guard (Emission.start τ)
        (List.replicate n (.hit systemContext systemAccount)) w ∧
        ChunkRejected systemContext systemAccount w := by
  obtain ⟨τ, hτ, hstart⟩ := returns_iff.mp (show returns
    ((capAndOpen 486000000).foldlM Token.step fresh) (fun τ =>
      τ.sup.maxSupply[coreSymbol]? = some 486000000 ∧ supplyOf τ coreSymbol = 0 ∧
        chunksAccount ∈ τ.accounts) = true
    by decide +kernel)
  obtain ⟨hcap, hsupply, hrow⟩ := of_decide_eq_true hstart
  have hrun := run_capAndOpen hτ
  exact ⟨τ, hrun, hcap, hsupply,
    emission_exceeds hrun hcap (by decide) (by rw [hsupply]; decide) hrow fun _ _ => rfl⟩

end Twig.System
