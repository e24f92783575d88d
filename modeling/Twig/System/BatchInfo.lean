import Twig.System.BlockInfo

/-!
# The arithmetic of the block-info reader

What `get_latest_block_batch_info` answers, for every content of the table it opens and all of its
arguments. The start of the batch is computed in wrapping 32-bit arithmetic with a remainder; a
version of the reader in which every subtraction and every remainder is checked
(`latestBatchChecked`) gives the same answers, so nothing wraps around and nothing is divided by
zero.

* `Batch` — the conditions under which there is an answer;
* `Fails` — the first of them that fails, with the error that is reported;
* `latest_batch_arithmetic` — the reader finds what there is, or reports that error.
-/

namespace Twig.System

open Std Fallible

/-! ### Checked arithmetic -/

/-- A difference, if it is not negative. -/
def checkedSub (a b : UInt32) : Option UInt32 := if b ≤ a then some (a - b) else none

/-- A remainder, if there is one. -/
def checkedMod (a b : UInt32) : Option UInt32 := if b = 0 then none else some (a % b)

/-- The end of the reader, from the start of the batch on. -/
def batchFrom (t : Table UInt32 BlockInfo) (startHeight endHeight : UInt32) (latest : BlockInfo) :
    LatestBlockBatchInfoResult :=
  if startHeight = endHeight then
    { result := some ⟨startHeight, latest.blockTimestamp, endHeight, latest.blockTimestamp⟩ }
  else
    match t[startHeight]? with
    | none => { errorCode := .insufficientData }
    | some start =>
      if start.version ≠ 0 then { errorCode := .unsupportedVersion }
      else { result := some ⟨startHeight, start.blockTimestamp, endHeight, latest.blockTimestamp⟩ }

/-- The reader with checked arithmetic: `none` where a difference or a remainder would not be
there. -/
def latestBatchChecked (t : Table UInt32 BlockInfo) (offset batchSize : UInt32) :
    Option LatestBlockBatchInfoResult :=
  if batchSize = 0 then some { errorCode := .invalidInput }
  else
    match t.toList.getLast? with
    | none => some { errorCode := .insufficientData }
    | some (endHeight, latest) =>
      if latest.version ≠ 0 then some { errorCode := .unsupportedVersion }
      else if endHeight < offset then some { errorCode := .insufficientData }
      else do
        let passed ← checkedSub endHeight offset
        let rest ← checkedMod passed batchSize
        let startHeight ← checkedSub endHeight rest
        pure (batchFrom t startHeight endHeight latest)

/-! ### The start of a batch -/

section Start

variable {h offset batchSize s : UInt32}

/-- The height at which the batch of `h` starts. -/
def batchStart (h offset batchSize : UInt32) : ℕ :=
  h.toNat - (h.toNat - offset.toNat) % batchSize.toNat

theorem rest_le (hle : offset ≤ h) : (h - offset) % batchSize ≤ h := by
  have hmod := Nat.mod_le (h.toNat - offset.toNat) batchSize.toNat
  rw [UInt32.le_iff_toNat_le, UInt32.toNat_mod, UInt32.toNat_sub_of_le _ _ hle]
  exact hmod.trans (Nat.sub_le _ _)

theorem toNat_batchStart (hle : offset ≤ h) :
    (h - (h - offset) % batchSize).toNat = batchStart h offset batchSize := by
  rw [UInt32.toNat_sub_of_le _ _ (rest_le hle), UInt32.toNat_mod, UInt32.toNat_sub_of_le _ _ hle]
  rfl

/-- A batch starts at a whole number of batches from the offset, and less than a batch before its
end. -/
theorem batchStart_spec (hsize : batchSize ≠ 0) (hle : offset ≤ h)
    (hs : s.toNat = batchStart h offset batchSize) :
    offset ≤ s ∧ s ≤ h ∧ batchSize.toNat ∣ s.toNat - offset.toNat ∧
      h.toNat - s.toNat < batchSize.toNat := by
  have hpos : 0 < batchSize.toNat :=
    Nat.pos_of_ne_zero fun h0 => hsize (UInt32.toNat_inj.mp h0)
  have hdiv := Nat.div_add_mod (h.toNat - offset.toNat) batchSize.toNat
  have hlt := Nat.mod_lt (h.toNat - offset.toNat) hpos
  rw [batchStart] at hs
  rw [UInt32.le_iff_toNat_le] at hle ⊢
  rw [UInt32.le_iff_toNat_le]
  refine ⟨by omega, by omega, ⟨(h.toNat - offset.toNat) / batchSize.toNat, by omega⟩, by omega⟩

end Start

/-! ### Answers -/

section Answers

variable {t : Table UInt32 BlockInfo} {offset batchSize h s : UInt32} {latest start : BlockInfo}

/-- The row at the greatest height of the table. -/
structure Greatest (t : Table UInt32 BlockInfo) (h : UInt32) (latest : BlockInfo) : Prop where
  row : t[h]? = some latest
  greatest : ∀ k ∈ t, k ≤ h

theorem greatest_iff : Greatest t h latest ↔ t.toList.getLast? = some (h, latest) := by
  rw [OrdMap.getLast?_toList_eq_some_iff]
  exact ⟨fun hg => ⟨hg.row, hg.greatest⟩, fun ⟨hrow, hle⟩ => ⟨hrow, hle⟩⟩

/-- **There is an answer**: the batch from `s` to `h`, the greatest height, has both its rows. -/
structure Batch (t : Table UInt32 BlockInfo) (offset batchSize h s : UInt32)
    (latest start : BlockInfo) : Prop where
  size : batchSize ≠ 0
  last : Greatest t h latest
  version : latest.version = 0
  begun : offset ≤ h
  height : s.toNat = batchStart h offset batchSize
  row : t[s]? = some start
  startVersion : start.version = 0

/-- **There is none**: the first condition that fails, and the error that is reported. -/
inductive Fails (t : Table UInt32 BlockInfo) (offset batchSize : UInt32) : ErrorCode → Prop
  | size (hsize : batchSize = 0) : Fails t offset batchSize .invalidInput
  | empty (hsize : batchSize ≠ 0) (hempty : t = ∅) : Fails t offset batchSize .insufficientData
  | version {h : UInt32} {latest : BlockInfo} (hsize : batchSize ≠ 0) (hlatest : Greatest t h latest)
      (hversion : latest.version ≠ 0) : Fails t offset batchSize .unsupportedVersion
  | notBegun {h : UInt32} {latest : BlockInfo} (hsize : batchSize ≠ 0)
      (hlatest : Greatest t h latest) (hversion : latest.version = 0) (hlt : h < offset) :
      Fails t offset batchSize .insufficientData
  | missing {h s : UInt32} {latest : BlockInfo} (hsize : batchSize ≠ 0)
      (hlatest : Greatest t h latest) (hversion : latest.version = 0) (hle : offset ≤ h)
      (hs : s.toNat = batchStart h offset batchSize) (hmissing : t[s]? = none) :
      Fails t offset batchSize .insufficientData
  | startVersion {h s : UInt32} {latest start : BlockInfo} (hsize : batchSize ≠ 0)
      (hlatest : Greatest t h latest) (hversion : latest.version = 0) (hle : offset ≤ h)
      (hs : s.toNat = batchStart h offset batchSize) (hrow : t[s]? = some start)
      (hstart : start.version ≠ 0) : Fails t offset batchSize .unsupportedVersion

/-- The reader up to the start of the batch. -/
theorem latestBlockBatchInfo_eq_batchFrom (hsize : batchSize ≠ 0) (hlatest : Greatest t h latest)
    (hversion : latest.version = 0) (hle : offset ≤ h) :
    latestBlockBatchInfo t offset batchSize =
      batchFrom t (h - (h - offset) % batchSize) h latest := by
  have hnot : ¬ h < offset := UInt32.not_lt.mpr hle
  rw [latestBlockBatchInfo, if_neg hsize, greatest_iff.mp hlatest]
  simp only [hversion, ne_eq, not_true_eq_false, if_false, if_neg hnot]
  rfl

/-- The rows decide how the reader ends; the shortcut for a batch of one block agrees with them. -/
theorem batchFrom_cases (hsize : batchSize ≠ 0) (hlatest : Greatest t h latest)
    (hversion : latest.version = 0) (hle : offset ≤ h)
    (hs : s.toNat = batchStart h offset batchSize) :
    (∃ start, Batch t offset batchSize h s latest start ∧ batchFrom t s h latest =
      { result := some ⟨s, start.blockTimestamp, h, latest.blockTimestamp⟩ }) ∨
    ∃ code, Fails t offset batchSize code ∧ batchFrom t s h latest = { errorCode := code } := by
  rw [batchFrom]
  split_ifs with heq
  · subst heq
    exact .inl ⟨latest, ⟨hsize, hlatest, hversion, hle, hs, hlatest.row, hversion⟩, rfl⟩
  · cases hrow : t[s]? with
    | none => exact .inr ⟨_, .missing hsize hlatest hversion hle hs hrow, rfl⟩
    | some start =>
      by_cases hstart : start.version = 0
      · refine .inl ⟨start, ⟨hsize, hlatest, hversion, hle, hs, hrow, hstart⟩, ?_⟩
        exact if_neg (not_not.mpr hstart)
      · refine .inr ⟨_, .startVersion hsize hlatest hversion hle hs hrow hstart, ?_⟩
        exact if_pos hstart

/-- **The reader's answer**: what there is, or the first condition that fails. -/
theorem latestBlockBatchInfo_cases (t : Table UInt32 BlockInfo) (offset batchSize : UInt32) :
    (∃ h s latest start, Batch t offset batchSize h s latest start ∧
      latestBlockBatchInfo t offset batchSize =
        { result := some ⟨s, start.blockTimestamp, h, latest.blockTimestamp⟩ }) ∨
    ∃ code, Fails t offset batchSize code ∧
      latestBlockBatchInfo t offset batchSize = { errorCode := code } := by
  by_cases hsize : batchSize = 0
  · exact .inr ⟨_, .size hsize, by rw [latestBlockBatchInfo, if_pos hsize]⟩
  cases hlast : t.toList.getLast? with
  | none =>
    have hempty : t = ∅ := ExtTreeMap.toList_eq_nil_iff.mp (List.getLast?_eq_none_iff.mp hlast)
    exact .inr ⟨_, .empty hsize hempty, latestBlockBatchInfo_empty hempty hsize⟩
  | some e =>
    obtain ⟨h, latest⟩ := e
    have hlatest : Greatest t h latest := greatest_iff.mpr hlast
    by_cases hversion : latest.version = 0
    · by_cases hlt : h < offset
      · refine .inr ⟨_, .notBegun hsize hlatest hversion hlt, ?_⟩
        rw [latestBlockBatchInfo, if_neg hsize, hlast]
        simp only [hversion, ne_eq, not_true_eq_false, if_false, if_pos hlt]
      · have hle : offset ≤ h := UInt32.not_lt.mp hlt
        rw [latestBlockBatchInfo_eq_batchFrom hsize hlatest hversion hle]
        rcases batchFrom_cases hsize hlatest hversion hle (toNat_batchStart hle) with
          ⟨start, hbatch, heq⟩ | hfails
        · exact .inl ⟨h, _, latest, start, hbatch, heq⟩
        · exact .inr hfails
    · refine .inr ⟨_, .version hsize hlatest hversion, ?_⟩
      rw [latestBlockBatchInfo, if_neg hsize, hlast]
      exact if_pos hversion

/-- Where there is an answer, the reader gives it. -/
theorem Batch.found (hb : Batch t offset batchSize h s latest start) :
    latestBlockBatchInfo t offset batchSize =
      { result := some ⟨s, start.blockTimestamp, h, latest.blockTimestamp⟩ } := by
  have hs : h - (h - offset) % batchSize = s :=
    UInt32.toNat_inj.mp (by rw [toNat_batchStart hb.begun, hb.height])
  rw [latestBlockBatchInfo_eq_batchFrom hb.size hb.last hb.version hb.begun, hs, batchFrom]
  split_ifs with heq
  · subst heq
    have hsame := hb.row.symm.trans hb.last.row
    rw [Option.some.inj hsame]
  · rw [hb.row]
    exact if_neg (not_not.mpr hb.startVersion)

/-- **No difference or remainder is missing.** -/
theorem latestBatchChecked_eq (t : Table UInt32 BlockInfo) (offset batchSize : UInt32) :
    latestBatchChecked t offset batchSize = some (latestBlockBatchInfo t offset batchSize) := by
  rw [latestBatchChecked]
  by_cases hsize : batchSize = 0
  · rw [if_pos hsize, latestBlockBatchInfo, if_pos hsize]
  rw [if_neg hsize]
  cases hlast : t.toList.getLast? with
  | none => rw [latestBlockBatchInfo, if_neg hsize, hlast]
  | some e =>
    obtain ⟨h, latest⟩ := e
    have hlatest : Greatest t h latest := greatest_iff.mpr hlast
    by_cases hversion : latest.version = 0
    · by_cases hlt : h < offset
      · rw [latestBlockBatchInfo, if_neg hsize, hlast]
        simp only [hversion, ne_eq, not_true_eq_false, if_false, if_pos hlt]
      · have hle : offset ≤ h := UInt32.not_lt.mp hlt
        rw [latestBlockBatchInfo_eq_batchFrom hsize hlatest hversion hle]
        simp only [hversion, ne_eq, not_true_eq_false, if_false, if_neg hlt, checkedSub, checkedMod,
          if_pos hle, if_neg hsize, if_pos (rest_le hle), Option.bind_eq_bind, Option.bind_some]
        rfl
    · rw [latestBlockBatchInfo, if_neg hsize, hlast]
      simp only [ne_eq, hversion, not_false_eq_true, if_true]

end Answers

/-- **Batch arithmetic.** For every content of the table that the reader opens, every offset and
every size of batches: no subtraction underflows and nothing is divided by zero; there is a result
exactly when there is a batch, and it is that batch, with the times of its two rows; and otherwise
there is no result, and the error is that of the first condition that fails. -/
theorem latest_batch_arithmetic (σ : State) (offset batchSize : UInt32) :
    latestBatchChecked (σ.blockinfo 0) offset batchSize =
        some (getLatestBlockBatchInfo σ offset batchSize) ∧
      ((getLatestBlockBatchInfo σ offset batchSize).result.isSome ↔
        ∃ h s latest start, Batch (σ.blockinfo 0) offset batchSize h s latest start) ∧
      (∀ info, (getLatestBlockBatchInfo σ offset batchSize).result = some info →
        (getLatestBlockBatchInfo σ offset batchSize).errorCode = .noError ∧
        ∃ h s latest start, Batch (σ.blockinfo 0) offset batchSize h s latest start ∧
          info = ⟨s, start.blockTimestamp, h, latest.blockTimestamp⟩ ∧
          offset ≤ s ∧ s ≤ h ∧ batchSize.toNat ∣ s.toNat - offset.toNat ∧
          h.toNat - s.toNat < batchSize.toNat) ∧
      ((getLatestBlockBatchInfo σ offset batchSize).result = none →
        Fails (σ.blockinfo 0) offset batchSize
          (getLatestBlockBatchInfo σ offset batchSize).errorCode) := by
  simp only [getLatestBlockBatchInfo]
  refine ⟨latestBatchChecked_eq _ _ _, ?_⟩
  rcases latestBlockBatchInfo_cases (σ.blockinfo 0) offset batchSize with
    ⟨h, s, latest, start, hbatch, heq⟩ | ⟨code, hfails, heq⟩
  · rw [heq]
    refine ⟨iff_of_true rfl ⟨h, s, latest, start, hbatch⟩, fun info hinfo => ?_,
      fun hnone => absurd hnone (by simp)⟩
    obtain rfl := Option.some.inj hinfo
    obtain ⟨hoffset, hle, hdvd, hlt⟩ := batchStart_spec hbatch.size hbatch.begun hbatch.height
    exact ⟨rfl, h, s, latest, start, hbatch, rfl, hoffset, hle, hdvd, hlt⟩
  · refine ⟨?_, ?_, ?_⟩
    · constructor
      · intro hsome
        rw [heq] at hsome
        exact absurd hsome (by simp)
      · rintro ⟨h, s, latest, start, hbatch⟩
        rw [hbatch.found]
        rfl
    · intro info hinfo
      rw [heq] at hinfo
      exact absurd hinfo (by simp)
    · intro _
      rw [heq]
      exact hfails

end Twig.System
