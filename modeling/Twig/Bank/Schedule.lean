import Twig.Bank.Vesting

/-!
# The vesting schedule

Whether the bank pays out an epoch's reward no faster than the next epoch passes. It does so
only when no payout is made on the way: the first deposit of an epoch for a producer that has
something to vest pays all of it (`modifyRow_spec`), after one chunk out of 60750.

* `linear_vesting` — a run keeps to the schedule as long as every deposit is made where it
  cannot pay (`World.Meets`), and the first step that is not leaves the schedule;
* `vesting_not_linear` — a run that leaves it.
-/

namespace Twig.Bank

open Std Fallible Twig.System

/-- **Linear vesting**: of what is vesting, no larger part has been sent than has passed of the
epoch. -/
def LinearVesting (w : World) : Prop :=
  ∀ (p : Name) (row : Vesting), w.vesting[p]? = some row →
    row.unvested.amount.toInt * 60750 ≤
      row.unvestingTotal.amount.toInt * (60750 - w.luck.chunksRemaining.toNat)

/-- A deposit is made for a producer that has nothing to vest, or before the first chunk of an
epoch or after its last one. A chunk is drawn while no total has wrapped around. -/
def World.Meets (w : World) : Event → Prop
  | .deposit _ share _ => ∀ row : Vesting, w.vesting[share.beneficiary w.luck]? = some row →
    row.unvestingTotal.amount.toInt ≤ 0 ∨ w.luck.chunksRemaining = 0 ∨
      w.luck.chunksRemaining = luckyNumberChunks
  | .hit _ _ => 0 < w.luck.chunksRemaining →
    ∀ (p : Name) (row : Vesting), w.vesting[p]? = some row → 0 ≤ row.unvestingTotal.amount.toInt
  | .onepoch _ _ => True

/-- What holds of the rows in every run. -/
structure ScheduleInv (w : World) : Prop where
  chunks : w.luck.chunksRemaining.toNat ≤ 60750
  current : ∀ (p : Name) (row : Vesting), w.vesting[p]? = some row → row.epoch = w.luck.epoch
  nonneg : ∀ (p : Name) (row : Vesting), w.vesting[p]? = some row →
    0 ≤ row.unvested.amount.toInt
  le : ∀ (p : Name) (row : Vesting), w.vesting[p]? = some row →
    0 < row.unvestingTotal.amount.toInt →
      row.unvested.amount.toInt ≤ row.unvestingTotal.amount.toInt

theorem scheduleInv_start : ScheduleInv {} where
  chunks := toNat_luckyNumberChunks.le
  current p row h := by simp at h
  nonneg p row h := by simp at h
  le p row h := by simp at h

theorem linearVesting_start : LinearVesting {} := fun p row h => by simp at h

variable {w w' : World} {ctx : Context} {producer : Name}

/-- Drawing a chunk. -/
theorem ScheduleInv.hit_of_pos (h : ScheduleInv w) (hlinear : LinearVesting w)
    (hpos : 0 < w.luck.chunksRemaining) (hok : w.step (.hit ctx producer) = .ok w') :
    ScheduleInv w' ∧ (LinearVesting w' ↔ w.Meets (.hit ctx producer)) := by
  rw [step_hit_of_pos hpos] at hok
  obtain rfl := Except.ok.inj hok
  have hsub := UInt32.toNat_sub_one hpos
  have hchunks := h.chunks
  rw [luckyHit_of_pos hpos]
  -- the elapsed part grows by one, which lifts the bound if the total is not negative
  refine ⟨⟨by simp only; omega, h.current, h.nonneg, h.le⟩, ?_, ?_⟩
  · intro hlinear' _ p row hp
    have hrow := hlinear' p row hp
    have hpaid := h.nonneg p row hp
    simp only at hrow
    by_contra hneg
    nlinarith
  · intro hmeets p row hp
    have hrow := hlinear p row hp
    have htotal := hmeets hpos p row hp
    simp only
    nlinarith

/-- A new epoch starts every row over. -/
theorem ScheduleInv.hit_of_zero (h : ScheduleInv w) (hzero : w.luck.chunksRemaining = 0)
    (hok : w.step (.hit ctx producer) = .ok w') :
    ScheduleInv w' ∧ (LinearVesting w' ↔ w.Meets (.hit ctx producer)) := by
  obtain ⟨vesting, sends, honepoch, rfl⟩ := (step_hit_of_zero hzero).mp hok
  obtain ⟨-, habsent, hpresent⟩ := onepoch_spec honepoch
  rw [luckyHit_of_zero hzero]
  have hrow (p : Name) (row' : Vesting) (hp' : vesting[p]? = some row') :
      row'.unvested.amount = 0 ∧ row'.epoch = w.luck.epoch + 1 := by
    cases hp : w.vesting[p]? with
    | none => exact absurd ((habsent p hp).1.symm.trans hp') (by simp)
    | some row =>
      obtain ⟨row'', sent, hfinish, hvesting, -⟩ := hpresent p row hp
      obtain rfl : row'' = row' := Option.some.inj (hvesting.symm.trans hp')
      obtain ⟨-, hpaid, -, hcurrent, -⟩ := finishRow_of_due (by rw [h.current p row hp]) hfinish
      exact ⟨hpaid, hcurrent⟩
  refine ⟨⟨toNat_luckyNumberChunks.le, fun p row hp => (hrow p row hp).2, fun p row hp => ?_,
    fun p row hp htotal => ?_⟩, iff_of_true (fun p row hp => ?_) fun hpos => ?_⟩
  · rw [(hrow p row hp).1]
    rfl
  · rw [(hrow p row hp).1]
    exact htotal.le
  · rw [(hrow p row hp).1]
    simp [toNat_luckyNumberChunks]
  · rw [hzero] at hpos
    exact absurd hpos (by decide)

/-- A deposit keeps a row to the schedule exactly when it pays nothing out of it, or the epoch
is over. -/
theorem schedule_modifyRow_iff {a : ALuckyNumber} {q : Asset} {row row' : Vesting}
    {sends : List Token.Inline} (hchunks : a.chunksRemaining.toNat ≤ 60750)
    (hpaid : 0 ≤ row.unvested.amount.toInt)
    (hle : 0 < row.unvestingTotal.amount.toInt →
      row.unvested.amount.toInt ≤ row.unvestingTotal.amount.toInt)
    (hrow : row.unvested.amount.toInt * 60750 ≤
      row.unvestingTotal.amount.toInt * (60750 - a.chunksRemaining.toNat))
    (hok : modifyRow bankAccount producer a q row = .ok (row', sends)) :
    row'.unvested.amount.toInt * 60750 ≤
        row'.unvestingTotal.amount.toInt * (60750 - a.chunksRemaining.toNat) ↔
      row.unvestingTotal.amount.toInt ≤ 0 ∨ a.chunksRemaining = 0 ∨
        a.chunksRemaining = luckyNumberChunks := by
  obtain ⟨-, htotal, -, hpaid', -⟩ := modifyRow_spec hpaid hle hok
  have h0 : a.chunksRemaining = 0 ↔ a.chunksRemaining.toNat = 0 := UInt32.toNat_inj.symm
  have hN : a.chunksRemaining = luckyNumberChunks ↔ a.chunksRemaining.toNat = 60750 := by
    rw [← UInt32.toNat_inj, toNat_luckyNumberChunks]
  rw [htotal, hpaid', h0, hN]
  split_ifs with hdue
  · -- everything is paid out, which the schedule allows at the end of the epoch only
    obtain ⟨hpos, hlt⟩ := hdue
    constructor
    · intro hlinear
      by_contra hnot
      have hc : (1 : ℤ) ≤ a.chunksRemaining.toNat := by omega
      nlinarith
    · rintro (hneg | hzero | hfull)
      · omega
      · rw [hzero]
        norm_num
      · omega
  · refine iff_of_true hrow ?_
    rw [PayoutDue] at hdue
    omega

/-- What holds of every row and of a new one holds of every row afterwards. -/
theorem forall_insert {P : Vesting → Prop} {vesting : Table Name Vesting} {q : Name}
    {row : Vesting} (hrow : P row)
    (h : ∀ (p : Name) (row : Vesting), vesting[p]? = some row → P row) :
    ∀ (p : Name) (row' : Vesting), (vesting.insert q row)[p]? = some row' → P row' :=
  OrdMap.forall_insert (P := fun _ row => P row) hrow fun p row _ => h p row

/-- A deposit. -/
theorem ScheduleInv.deposit {share : Share} {amount : Int64} (h : ScheduleInv w)
    (hlinear : LinearVesting w) (hok : w.step (.deposit ctx share amount) = .ok w') :
    ScheduleInv w' ∧ (LinearVesting w' ↔ w.Meets (.deposit ctx share amount)) := by
  obtain ⟨-, vesting, sends, hdeposit, rfl⟩ := step_deposit.mp hok
  rw [World.Meets]
  generalize share.beneficiary w.luck = q at hdeposit ⊢
  cases hq : w.vesting[q]? with
  | none =>
    obtain ⟨zero, hzero, -, rfl⟩ := depositFor_of_none hq hdeposit
    have hzero' : zero.amount.toInt = 0 := by rw [hzero]; rfl
    refine ⟨⟨h.chunks, forall_insert rfl h.current, forall_insert hzero'.ge h.nonneg,
      forall_insert (fun _ => le_rfl) h.le⟩, iff_of_true ?_ (by simp)⟩
    exact forall_insert (by simp [hzero']) hlinear
  | some row =>
    obtain ⟨row', hmodify, rfl⟩ := depositFor_of_some hq hdeposit
    have hpaid := h.nonneg q row hq
    have hle := h.le q row hq
    obtain ⟨-, htotal, hepoch, hpaid', -⟩ := modifyRow_spec hpaid hle hmodify
    have hiff := schedule_modifyRow_iff h.chunks hpaid hle (hlinear q row hq) hmodify
    have hnonneg : 0 ≤ row'.unvested.amount.toInt := by
      rw [hpaid']
      split_ifs with hdue
      · exact hdue.1.le
      · exact hpaid
    have hle' (hpos : 0 < row'.unvestingTotal.amount.toInt) :
        row'.unvested.amount.toInt ≤ row'.unvestingTotal.amount.toInt := by
      rw [htotal] at hpos ⊢
      rw [hpaid']
      split_ifs
      · exact le_rfl
      · exact hle hpos
    refine ⟨⟨h.chunks, forall_insert (hepoch.trans (h.current q row hq)) h.current,
      forall_insert hnonneg h.nonneg, forall_insert hle' h.le⟩, ?_, fun hmeets =>
      forall_insert (hiff.mpr (hmeets row rfl)) hlinear⟩
    intro hlinear' row'' hrow''
    obtain rfl := Option.some.inj hrow''
    exact hiff.mp (hlinear' q row' (by simp))

/-- **One step on the schedule**: it stays there exactly when it meets the condition. -/
theorem ScheduleInv.step {e : Event} (h : ScheduleInv w) (hlinear : LinearVesting w)
    (hok : w.step e = .ok w') : ScheduleInv w' ∧ (LinearVesting w' ↔ w.Meets e) := by
  cases e with
  | hit ctx producer =>
    rcases UInt32.eq_zero_or_pos w.luck.chunksRemaining with hzero | hpos
    · exact h.hit_of_zero hzero hok
    · exact h.hit_of_pos hlinear hpos hok
  | deposit ctx share amount => exact h.deposit hlinear hok
  | onepoch ctx epoch =>
    obtain ⟨vesting, sends, honepoch, rfl⟩ := step_onepoch.mp hok
    obtain ⟨rfl, -⟩ := onepoch_of_current h.current honepoch
    exact ⟨⟨h.chunks, h.current, h.nonneg, h.le⟩, iff_of_true hlinear trivial⟩

/-- **Linear vesting** holds in every run whose steps meet the condition, and such a run goes on
with linear vesting after any one step exactly when that step meets it too. -/
theorem linear_vesting {tr : List Event} (hrun : Run World.step World.Meets {} tr w) :
    LinearVesting w ∧ ∀ e w', w.step e = .ok w' → (LinearVesting w' ↔ w.Meets e) := by
  obtain ⟨h, hlinear⟩ := hrun.state_invariant (I := fun w => ScheduleInv w ∧ LinearVesting w)
    ⟨scheduleInv_start, linearVesting_start⟩ fun w e w' hI hmeets hs => by
      obtain ⟨h', hiff⟩ := hI.1.step hI.2 hs
      exact ⟨h', hiff.mpr hmeets⟩
  exact ⟨hlinear, fun e w' hs => (h.step hlinear hs).2⟩

/-- The first chunk, and a deposit for the team, which finds no row. -/
theorem linear_vesting_first :
    ∃ w, Run World.step World.Meets {}
        [.hit systemContext systemAccount, .deposit systemContext .team 9] w ∧
      LinearVesting w := by
  obtain ⟨w, hdeposit, -⟩ := returns_iff.mp (show returns
    (World.step firstHit (.deposit systemContext .team 9)) (fun _ => true) = true
    by decide +kernel)
  have hrun : Run World.step World.Meets {}
      [.hit systemContext systemAccount, .deposit systemContext .team 9] w :=
    .snoc (.single (fun _ p row h => by simp at h) step_firstHit)
      (fun row h => by simp [firstHit] at h) hdeposit
  exact ⟨w, hrun, (linear_vesting hrun).1⟩

/-! ### A run that leaves the schedule -/

/-- The hits that draw all remaining chunks of an epoch. -/
theorem run_hits (n : ℕ) : ∀ w : World, w.luck.chunksRemaining.toNat = n →
    w.luck.blocksSince = 0 → w.luck.producer = producer →
    Run World.step World.Guard w (List.replicate n (.hit ctx producer))
      { w with luck.chunksRemaining := 0 } := by
  induction n with
  | zero =>
    intro w hn _ _
    have hzero : w.luck.chunksRemaining = 0 := UInt32.toNat_inj.mp hn
    rw [← hzero]
    exact .init
  | succ n ih =>
    intro w hn hblocks hproducer
    have hpos : 0 < w.luck.chunksRemaining :=
      UInt32.lt_iff_toNat_lt.mpr (by rw [hn]; exact n.succ_pos)
    have hsub := UInt32.toNat_sub_one hpos
    have hstep : w.step (.hit ctx producer) =
        .ok { w with luck.chunksRemaining := w.luck.chunksRemaining - 1 } := by
      rw [step_hit_of_pos hpos, luckyHit_of_pos hpos, ← hblocks, ← hproducer]
    exact (Run.single trivial hstep).trans (ih _ (by simp only; omega) hblocks hproducer)

/-- The team is paid all of its 1000 units with the first deposit of the second epoch. -/
theorem vesting_not_linear :
    ∃ tr w, Run World.step World.Guard {} tr w ∧ ¬ LinearVesting w := by
  obtain ⟨w₁, h₁, hlast⟩ := returns_iff.mp (show returns
    (firstHit.step (.deposit systemContext .team 1000)) (fun w₁ =>
      w₁.luck = firstHit.luck ∧ totalDeposited w₁.deposits = 1000 ∧
      returns (World.step { w₁ with luck.chunksRemaining := 0 } (.hit systemContext systemAccount))
        fun w₂ => returns (w₂.step (.hit systemContext systemAccount)) fun w₃ =>
          totalDeposited w₃.deposits = 1000 ∧
          returns (w₃.step (.deposit systemContext .team 1)) fun w₄ =>
            w₄.luck.chunksRemaining = 60749 ∧ w₄.vesting[teamAccount]?.map
              (fun row => (row.unvested.amount, row.unvestingTotal.amount)) =
                some (1000, 1000)) = true
    by decide +kernel)
  obtain ⟨hluck, htotal, hlast⟩ := of_decide_eq_true hlast
  obtain ⟨w₂, h₂, hlast⟩ := returns_iff.mp hlast
  obtain ⟨w₃, h₃, hlast⟩ := returns_iff.mp hlast
  obtain ⟨htotal', hlast⟩ := of_decide_eq_true hlast
  obtain ⟨w₄, h₄, hlast⟩ := returns_iff.mp hlast
  obtain ⟨hchunks, hrow⟩ := of_decide_eq_true hlast
  obtain ⟨row, hrow, hamounts⟩ := Option.map_eq_some_iff.mp hrow
  obtain ⟨hpaid, htotal⟩ := Prod.mk.inj hamounts
  have hfirst : Run World.step World.Guard {} [.hit systemContext systemAccount] firstHit :=
    .single trivial step_firstHit
  have hdeposited : Run World.step World.Guard firstHit [.deposit systemContext .team 1000] w₁ :=
    .single ⟨by decide, by decide⟩ h₁
  have hdrawn : Run World.step World.Guard w₁
      (List.replicate 60749 (.hit systemContext systemAccount)) _ :=
    run_hits 60749 w₁ (by rw [hluck]; rfl) (by rw [hluck]; rfl) (by rw [hluck]; rfl)
  have hepoch : Run World.step World.Guard { w₁ with luck.chunksRemaining := 0 }
      [.hit systemContext systemAccount] w₂ := .single trivial h₂
  have hchunk : Run World.step World.Guard w₂ [.hit systemContext systemAccount] w₃ :=
    .single trivial h₃
  have hpayout : Run World.step World.Guard w₃ [.deposit systemContext .team 1] w₄ :=
    .single ⟨by decide, by rw [htotal']; decide⟩ h₄
  refine ⟨_, w₄, ((((hfirst.trans hdeposited).trans hdrawn).trans hepoch).trans hchunk).trans
    hpayout, ?_⟩
  intro hlinear
  have hlin := hlinear teamAccount row hrow
  rw [hpaid, htotal, hchunks] at hlin
  exact absurd hlin (by decide)

end Twig.Bank
