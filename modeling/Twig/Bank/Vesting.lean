import Twig.Bank.Rewards

/-!
# Vesting

Nothing deposited is lost, paid twice or paid early. In epoch `e` a producer's row holds what
was deposited for it in `e` (`vested`) and in `e - 1` (`unvestingTotal`), and the bank has sent
it all of its deposits up to `e - 2` and what the row records as `unvested` (`RowLaw`).

The exact amounts come from the log of deposits (`deposited`); that no 64-bit sum wraps follows
from the bound on all deposits together.
-/

namespace Twig.Bank

open Std Fallible Twig.System

/-! ### The log of deposits -/

/-- What was deposited for `p` in the epochs chosen by `during`. -/
def deposited (p : Name) (during : ℕ → Bool) (l : List Deposit) : ℤ :=
  (l.map fun d => if d.producer = p ∧ during d.epoch then d.amount.toInt else 0).sum

/-- All deposits together. -/
def totalDeposited (l : List Deposit) : ℤ := (l.map fun d => d.amount.toInt).sum

variable {p : Name} {during during' : ℕ → Bool} {l : List Deposit} {d : Deposit}

@[simp]
theorem deposited_snoc : deposited p during (l ++ [d]) =
    deposited p during l + if d.producer = p ∧ during d.epoch then d.amount.toInt else 0 := by
  simp [deposited]

theorem totalDeposited_snoc : totalDeposited (l ++ [d]) = totalDeposited l + d.amount.toInt := by
  simp [totalDeposited]

theorem deposited_congr (h : ∀ d ∈ l, during d.epoch = during' d.epoch) :
    deposited p during l = deposited p during' l := by
  rw [deposited, deposited]
  congr 1
  exact List.map_congr_left fun d hd => by rw [h d hd]

theorem deposited_eq_zero (h : ∀ d ∈ l, d.producer = p → during d.epoch = false) :
    deposited p during l = 0 := by
  refine List.sum_eq_zero ?_
  intro x hx
  obtain ⟨d, hd, rfl⟩ := List.mem_map.mp hx
  refine if_neg ?_
  intro hp
  rw [h d hd hp.1] at hp
  exact Bool.noConfusion hp.2

/-- Deposits of two disjoint periods add up. -/
theorem deposited_or (h : ∀ e, during e = true → during' e = false) :
    deposited p (fun e => during e || during' e) l =
      deposited p during l + deposited p during' l := by
  rw [deposited, deposited, deposited, ← List.sum_map_add]
  congr 1
  refine List.map_congr_left ?_
  intro d _
  cases hd : during d.epoch with
  | false => simp
  | true => simp [h d.epoch hd]

theorem deposited_nonneg (h : ∀ d ∈ l, 0 < d.amount.toInt) : 0 ≤ deposited p during l := by
  refine List.sum_nonneg ?_
  intro x hx
  obtain ⟨d, hd, rfl⟩ := List.mem_map.mp hx
  split_ifs
  · exact (h d hd).le
  · exact le_rfl

theorem deposited_le_total (h : ∀ d ∈ l, 0 < d.amount.toInt) :
    deposited p during l ≤ totalDeposited l := by
  refine List.sum_le_sum ?_
  intro d hd
  split_ifs
  · exact le_rfl
  · exact (h d hd).le

/-! ### The law -/

/-- What a row records, in exact amounts. -/
structure RowLaw (w : World) (p : Name) (row : Vesting) : Prop where
  current : row.epoch = w.luck.epoch
  vested : row.vested.amount.toInt = deposited p (· == w.epoch) w.deposits
  total : row.unvestingTotal.amount.toInt = deposited p (· + 1 == w.epoch) w.deposits
  nonneg : 0 ≤ row.unvested.amount.toInt
  le : row.unvested.amount.toInt ≤ row.unvestingTotal.amount.toInt
  sent : sentTo p w.sends =
    deposited p (· + 2 ≤ w.epoch) w.deposits + row.unvested.amount.toInt

/-- **The vesting invariant.** -/
structure VestingInv (w : World) : Prop where
  counter : w.luck.epoch.toNat = w.epoch % 2 ^ 32
  rows : ∀ (p : Name) (row : Vesting), w.vesting[p]? = some row → RowLaw w p row
  absent : ∀ p : Name, w.vesting[p]? = none →
    (∀ d ∈ w.deposits, d.producer ≠ p) ∧ sentTo p w.sends = 0
  past : ∀ d ∈ w.deposits, d.epoch ≤ w.epoch
  positive : ∀ d ∈ w.deposits, 0 < d.amount.toInt
  bounded : totalDeposited w.deposits ≤ 2 ^ 62 - 1

/-- Deposits are positive, and stay within the legal asset amounts together. -/
def World.Guard (w : World) : Event → Prop
  | .deposit _ _ amount =>
    0 < amount.toInt ∧ totalDeposited w.deposits + amount.toInt ≤ 2 ^ 62 - 1
  | _ => True

theorem vestingInv_start : VestingInv {} where
  counter := rfl
  rows p row h := by simp at h
  absent p _ := ⟨by simp, rfl⟩
  past := by simp
  positive := by simp
  bounded := by decide

variable {w w' : World} {ctx : Context} {producer : Name} {row : Vesting}

/-- The amounts of a row are legal asset amounts. -/
theorem VestingInv.row_le (h : VestingInv w) (hlaw : RowLaw w p row) :
    0 ≤ row.vested.amount.toInt ∧ 0 ≤ row.unvestingTotal.amount.toInt ∧
      row.unvestingTotal.amount.toInt ≤ 2 ^ 62 - 1 := by
  rw [hlaw.vested, hlaw.total]
  exact ⟨deposited_nonneg h.positive, deposited_nonneg h.positive,
    (deposited_le_total h.positive).trans h.bounded⟩

/-- Drawing a chunk concerns no row. -/
theorem VestingInv.hit_of_pos (h : VestingInv w) (hpos : 0 < w.luck.chunksRemaining)
    (hok : w.step (.hit ctx producer) = .ok w') : VestingInv w' := by
  rw [step_hit_of_pos hpos] at hok
  obtain rfl := Except.ok.inj hok
  have hepoch : (luckyHit producer w.luck).1.epoch = w.luck.epoch := by
    rw [luckyHit_of_pos hpos]
  refine ⟨by rw [hepoch]; exact h.counter, ?_, h.absent, h.past, h.positive, h.bounded⟩
  intro p row hp
  obtain ⟨hcurrent, hvested, htotal, hnonneg, hle, hsent⟩ := h.rows p row hp
  exact ⟨by rw [hepoch]; exact hcurrent, hvested, htotal, hnonneg, hle, hsent⟩

/-- What the end of epoch `e` pays out completes the deposits up to `e - 1`. -/
theorem deposited_succ (l : List Deposit) (e : ℕ) :
    deposited p (· + 2 ≤ e + 1) l =
      deposited p (· + 2 ≤ e) l + deposited p (· + 1 == e) l := by
  rw [← deposited_or fun x hx => by simp only [decide_eq_true_eq] at hx; simp; omega]
  refine deposited_congr ?_
  intro d _
  rw [Bool.eq_iff_iff]
  simp only [Bool.or_eq_true, decide_eq_true_eq, beq_iff_eq]
  omega

/-- A row at the end of an epoch. -/
theorem RowLaw.finish {row' : Vesting} {vesting : Table Name Vesting}
    {sends sent : List Token.Inline} (h : VestingInv w) (hlaw : RowLaw w p row)
    (hfinish : finishRow bankAccount (w.luck.epoch + 1) p row = .ok (row', sent))
    (hsent : sentTo p sends = sentTo p sent) {luck : ALuckyNumber}
    (hepoch : luck.epoch = w.luck.epoch + 1) :
    RowLaw { w with luck, vesting, epoch := w.epoch + 1, sends := w.sends ++ sends } p row' := by
  obtain ⟨htotal, hpaid, hvested, hcurrent, hsum⟩ := finishRow_of_due (by rw [hlaw.current]) hfinish
  obtain ⟨hvested0, htotal0, hmax⟩ := h.row_le hlaw
  have hnonneg := hlaw.nonneg
  have hle := hlaw.le
  have hdiff := Int64.toInt_sub_of_mem (a := row.unvestingTotal.amount)
    (b := row.unvested.amount) (by omega) (by omega)
  refine ⟨by rw [hcurrent, hepoch], ?_, ?_, by rw [hpaid]; rfl, ?_, ?_⟩
  · rw [hvested]
    refine (deposited_eq_zero ?_).symm
    intro d hd _
    have hpast := h.past d hd
    simp only [beq_eq_false_iff_ne]
    omega
  · -- what the old epoch deposited is what the new one vests
    rw [htotal, hlaw.vested]
    exact deposited_congr fun d _ => by rw [Bool.eq_iff_iff]; simp
  · rw [hpaid, htotal]
    exact hvested0
  · rw [sentTo_append, hlaw.sent, hsent, hsum, hdiff, max_eq_right (by omega), deposited_succ,
      ← hlaw.total, hpaid, Int64.toInt_zero]
    ring

/-- A new epoch pays out the deposits of the epoch before the last and moves every row on. -/
theorem VestingInv.hit_of_zero (h : VestingInv w) (hzero : w.luck.chunksRemaining = 0)
    (hok : w.step (.hit ctx producer) = .ok w') : VestingInv w' := by
  obtain ⟨vesting, sends, honepoch, rfl⟩ := (step_hit_of_zero hzero).mp hok
  have hepoch : (luckyHit producer w.luck).1.epoch = w.luck.epoch + 1 := by
    rw [luckyHit_of_zero hzero]
  obtain ⟨-, habsent, hpresent⟩ := onepoch_spec honepoch
  refine ⟨?_, ?_, ?_, fun d hd => (h.past d hd).trans (Nat.le_succ _), h.positive, h.bounded⟩
  · -- the contract's counter wraps around, the epoch of the history does not
    have hcounter := h.counter
    rw [hepoch, UInt32.toNat_add, hcounter]
    exact Nat.mod_add_mod _ _ _
  · intro p row' hp'
    cases hp : w.vesting[p]? with
    | none => exact absurd ((habsent p hp).1.symm.trans hp') (by simp)
    | some row =>
      obtain ⟨row'', sent, hfinish, hvesting, hsent⟩ := hpresent p row hp
      obtain rfl : row'' = row' := Option.some.inj (hvesting.symm.trans hp')
      exact (h.rows p row hp).finish h hfinish hsent hepoch
  · intro p hp'
    cases hp : w.vesting[p]? with
    | none =>
      obtain ⟨hnone, hsent⟩ := h.absent p hp
      refine ⟨hnone, ?_⟩
      rw [sentTo_append, hsent, (habsent p hp).2, add_zero]
    | some row =>
      obtain ⟨row', sent, -, hvesting, -⟩ := hpresent p row hp
      exact absurd (hvesting.symm.trans hp') (by simp)

/-! ### Deposits -/

/-- A row that a deposit does not concern. -/
theorem RowLaw.of_other {vesting : Table Name Vesting} {sends : List Token.Inline}
    (h : RowLaw w p row) (hd : d.producer ≠ p) (hsends : sentTo p sends = 0) :
    RowLaw { w with vesting, deposits := w.deposits ++ [d], sends := w.sends ++ sends } p row := by
  obtain ⟨hcurrent, hvested, htotal, hnonneg, hle, hsent⟩ := h
  refine ⟨hcurrent, ?_, ?_, hnonneg, hle, ?_⟩
  · rw [deposited_snoc, if_neg fun hc => hd hc.1, add_zero, hvested]
  · rw [deposited_snoc, if_neg fun hc => hd hc.1, add_zero, htotal]
  · rw [sentTo_append, hsends, add_zero, deposited_snoc, if_neg fun hc => hd hc.1, add_zero, hsent]

/-- The row of a first deposit. -/
theorem RowLaw.first {vesting : Table Name Vesting} {zero : Asset} {amount : Int64}
    (hnone : (∀ d ∈ w.deposits, d.producer ≠ p) ∧ sentTo p w.sends = 0) (hzero : zero.amount = 0) :
    RowLaw { w with
        vesting, deposits := w.deposits ++ [⟨p, w.epoch, amount⟩], sends := w.sends ++ [] } p
      { vested := ⟨amount, coreSymbol⟩
        unvestingTotal := zero
        unvested := zero
        epoch := w.luck.epoch } := by
  have hpast (during : ℕ → Bool) : deposited p during w.deposits = 0 :=
    deposited_eq_zero fun d hd hp => absurd hp (hnone.1 d hd)
  refine ⟨rfl, ?_, ?_, by rw [hzero]; exact le_rfl, le_rfl, ?_⟩
  · rw [deposited_snoc, hpast, if_pos (by simp), zero_add]
  · rw [deposited_snoc, hpast, if_neg (by simp), add_zero, hzero]
    rfl
  · rw [sentTo_append, hnone.2, deposited_snoc, hpast, if_neg (by simp), hzero]
    rfl

/-- The row of a further deposit. -/
theorem RowLaw.further {vesting : Table Name Vesting} {sends : List Token.Inline}
    {row' : Vesting} {amount : Int64} (h : VestingInv w) (hlaw : RowLaw w p row)
    (hpos : 0 < amount.toInt)
    (hbound : totalDeposited w.deposits + amount.toInt ≤ 2 ^ 62 - 1)
    (hok : modifyRow bankAccount p w.luck ⟨amount, coreSymbol⟩ row = .ok (row', sends)) :
    RowLaw { w with
      vesting
      deposits := w.deposits ++ [⟨p, w.epoch, amount⟩]
      sends := w.sends ++ sends } p row' := by
  obtain ⟨hvested, htotal, hepoch, hpaid, hsum, -⟩ :=
    modifyRow_spec hlaw.nonneg (fun _ => hlaw.le) hok
  obtain ⟨hvested0, htotal0, hmax⟩ := h.row_le hlaw
  have hnonneg := hlaw.nonneg
  have hle := hlaw.le
  -- the bound on all deposits leaves room for this one in the row's own sum
  have hroom : deposited p (· == w.epoch) w.deposits ≤ _ := deposited_le_total h.positive
  rw [← hlaw.vested] at hroom
  refine ⟨hepoch.trans hlaw.current, ?_, ?_, ?_, ?_, ?_⟩
  · rw [hvested, Int64.toInt_add_of_mem (by simp only; omega) (by simp only; omega), deposited_snoc,
      if_pos (by simp), hlaw.vested]
  · rw [htotal, deposited_snoc, if_neg (by simp), add_zero, hlaw.total]
  · rw [hpaid]
    split_ifs
    · exact htotal0
    · exact hnonneg
  · rw [hpaid, htotal]
    split_ifs
    · exact le_rfl
    · exact hle
  · rw [sentTo_append, hsum, hlaw.sent, deposited_snoc, if_neg (by simp)]
    ring

/-- **A deposit keeps the vesting invariant.** -/
theorem VestingInv.deposit {share : Share} {amount : Int64} (h : VestingInv w)
    (hguard : w.Guard (.deposit ctx share amount))
    (hok : w.step (.deposit ctx share amount) = .ok w') : VestingInv w' := by
  obtain ⟨hpos, hbound⟩ := hguard
  obtain ⟨-, vesting, sends, hdeposit, rfl⟩ := step_deposit.mp hok
  generalize share.beneficiary w.luck = q at hdeposit ⊢
  -- the row of the producer that is paid, and what the others see of it
  have hrow : (∀ row, vesting[q]? = some row → RowLaw { w with
        vesting
        deposits := w.deposits ++ [⟨q, w.epoch, amount⟩]
        sends := w.sends ++ sends } q row) ∧ vesting[q]? ≠ none ∧
      ∀ p, p ≠ q → vesting[p]? = w.vesting[p]? ∧ sentTo p sends = 0 := by
    cases hq : w.vesting[q]? with
    | none =>
      obtain ⟨zero, hzero, rfl, rfl⟩ := depositFor_of_none hq hdeposit
      refine ⟨?_, by simp, fun p hp => ⟨by simp [hp], rfl⟩⟩
      intro row hp
      obtain rfl := by simpa using hp
      exact RowLaw.first (h.absent q hq) hzero
    | some row =>
      obtain ⟨row', hmodify, rfl⟩ := depositFor_of_some hq hdeposit
      have hlaw := h.rows q row hq
      obtain ⟨-, -, -, -, -, hother⟩ := modifyRow_spec hlaw.nonneg (fun _ => hlaw.le) hmodify
      refine ⟨?_, by simp, fun p hp => ⟨by simp [hp], hother p hp⟩⟩
      intro row'' hp
      obtain rfl := by simpa using hp
      exact RowLaw.further h hlaw hpos hbound hmodify
  obtain ⟨hself, hsome, hother⟩ := hrow
  refine ⟨h.counter, ?_, ?_, ?_, ?_, ?_⟩
  · intro p row hp
    rcases eq_or_ne p q with rfl | hne
    · exact hself row hp
    · obtain ⟨hsame, hsent⟩ := hother p hne
      exact (h.rows p row (hsame ▸ hp)).of_other hne.symm hsent
  · intro p hp
    have hne : p ≠ q := by
      rintro rfl
      exact hsome hp
    obtain ⟨hsame, hsent⟩ := hother p hne
    obtain ⟨hnone, hzero⟩ := h.absent p (hsame ▸ hp)
    refine ⟨?_, by rw [sentTo_append, hzero, hsent]; rfl⟩
    intro d hd
    rcases List.mem_append.mp hd with hd | hd
    · exact hnone d hd
    · rw [List.mem_singleton.mp hd]
      exact hne.symm
  · intro d hd
    rcases List.mem_append.mp hd with hd | hd
    · exact h.past d hd
    · rw [List.mem_singleton.mp hd]
  · intro d hd
    rcases List.mem_append.mp hd with hd | hd
    · exact h.positive d hd
    · rwa [List.mem_singleton.mp hd]
  · rw [totalDeposited_snoc]
    exact hbound

/-- A repeated `onepoch` sends nothing and leaves every row as it is. -/
theorem VestingInv.onepoch_eq {epoch : UInt32} (h : VestingInv w)
    (hok : w.step (.onepoch ctx epoch) = .ok w') :
    w'.vesting = w.vesting ∧ ∀ p, sentTo p w'.sends = sentTo p w.sends := by
  obtain ⟨vesting, sends, honepoch, rfl⟩ := step_onepoch.mp hok
  obtain ⟨hsame, hsent⟩ := onepoch_of_current (fun p row hp => (h.rows p row hp).current) honepoch
  exact ⟨hsame, fun p => by rw [sentTo_append, hsent, add_zero]⟩

/-- **Every step keeps the vesting invariant.** -/
theorem VestingInv.step {e : Event} (h : VestingInv w) (hguard : w.Guard e)
    (hok : w.step e = .ok w') : VestingInv w' := by
  cases e with
  | hit ctx producer =>
    rcases UInt32.eq_zero_or_pos w.luck.chunksRemaining with hzero | hpos
    · exact h.hit_of_zero hzero hok
    · exact h.hit_of_pos hpos hok
  | deposit ctx share amount => exact h.deposit hguard hok
  | onepoch ctx epoch =>
    obtain ⟨hsame, hsent⟩ := h.onepoch_eq hok
    obtain ⟨vesting, sends, -, rfl⟩ := step_onepoch.mp hok
    simp only at hsame
    subst hsame
    refine ⟨h.counter, ?_, ?_, h.past, h.positive, h.bounded⟩
    · intro p row hp
      obtain ⟨hcurrent, hvested, htotal, hnonneg, hle, hpaid⟩ := h.rows p row hp
      exact ⟨hcurrent, hvested, htotal, hnonneg, hle, (hsent p).trans hpaid⟩
    · intro p hp
      obtain ⟨hnone, hzero⟩ := h.absent p hp
      exact ⟨hnone, (hsent p).trans hzero⟩

/-- **Vesting loses nothing, duplicates nothing and pays nothing early.** In every run of
hits, positive deposits and calls of `onepoch` whose deposits stay within the legal amounts:
each row is of the current epoch, records the deposits of this epoch and of the last, and what
its producer has been sent is what was deposited before and what is recorded as paid. Producers
without a row have neither deposits nor payments, and a repeated `onepoch` pays nothing. -/
theorem vesting_law {tr : List Event} (hrun : Run World.step World.Guard {} tr w) :
    w.luck.epoch.toNat = w.epoch % 2 ^ 32 ∧
      (∀ (p : Name) (row : Vesting), w.vesting[p]? = some row → RowLaw w p row) ∧
      (∀ p : Name, w.vesting[p]? = none →
        (∀ d ∈ w.deposits, d.producer ≠ p) ∧ sentTo p w.sends = 0) ∧
      ∀ ctx epoch w', w.step (.onepoch ctx epoch) = .ok w' →
        w'.vesting = w.vesting ∧ ∀ p, sentTo p w'.sends = sentTo p w.sends := by
  have h : VestingInv w :=
    hrun.state_invariant vestingInv_start fun _ _ _ hI hg hs => hI.step hg hs
  exact ⟨h.counter, h.rows, h.absent, fun _ _ _ hok => h.onepoch_eq hok⟩

/-- The world after a first hit. -/
def firstHit : World := { luck := { producer := systemAccount, chunksRemaining := 60749 } }

theorem step_firstHit : World.step {} (.hit systemContext systemAccount) = .ok firstHit :=
  (step_hit_of_pos (by decide)).trans rfl

/-- The first chunk, and a deposit for the team. -/
theorem vesting_law_first :
    ∃ w row, Run World.step World.Guard {}
        [.hit systemContext systemAccount, .deposit systemContext .team 9] w ∧
      w.vesting[teamAccount]? = some row ∧ row.vested.amount = 9 ∧ RowLaw w teamAccount row := by
  obtain ⟨w, hdeposit, hrow⟩ := returns_iff.mp (show returns
    (firstHit.step (.deposit systemContext .team 9)) (fun w =>
        w.vesting[teamAccount]?.map (·.vested.amount) = some 9) = true by decide +kernel)
  obtain ⟨row, hrow, hvested⟩ := Option.map_eq_some_iff.mp (of_decide_eq_true hrow)
  have hrun : Run World.step World.Guard {}
      [.hit systemContext systemAccount, .deposit systemContext .team 9] w :=
    .snoc (.single trivial step_firstHit) ⟨by decide, by decide⟩ hdeposit
  obtain ⟨-, hrows, -⟩ := vesting_law hrun
  exact ⟨w, row, hrun, hrow, hvested, hrows teamAccount row hrow⟩

end Twig.Bank
