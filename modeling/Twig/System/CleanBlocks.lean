import Twig.System.Native
import Twig.System.Window

/-!
# Cleaning the recorded blocks

`cleanblocks` against the table in which `onblock` records blocks, over runs of both. The action
empties the table in scope 0, its loop does end (`cleanLoop_size`), and `add_to_blockinfo_table`
writes to the scope of the contract.

* `recorded_iff` — the writer's table is empty as long as no block of a height above 0 has been
  recorded, and never again, whatever has been cleaned;
* `cleanblocks_cleans_iff` — so that is when `cleanblocks` cleans.
-/

namespace Twig.System

open Std Fallible

/-! ### Runs -/

/-- A block recorded by `onblock`, or a `cleanblocks`. -/
inductive BlockinfoEvent
  | record (previousBlockId : Checksum256) (timestamp : UInt32)
  | cleanblocks (ctx : Context)

/-- What an event does to the tables of a contract, by scope. -/
def BlockinfoEvent.step (account : Name) (blockinfo : UInt64 → Table UInt32 BlockInfo) :
    BlockinfoEvent → Outcome (UInt64 → Table UInt32 BlockInfo)
  | .record previousBlockId timestamp => do
    let rows ← addToBlockinfoTable (blockinfo account.value) previousBlockId timestamp
    pure (Function.update blockinfo account.value rows)
  | .cleanblocks ctx => System.cleanblocks ctx blockinfo

/-- An action of the contract on this account. -/
def BlockinfoEvent.On (account : Name) : BlockinfoEvent → Prop
  | .record _ _ => True
  | .cleanblocks ctx => ctx.self = account

variable {account : Name} {blockinfo blockinfo' : UInt64 → Table UInt32 BlockInfo}
  {tr : List BlockinfoEvent}

/-- What `cleanblocks` leaves. -/
theorem cleanblocks_eq_ok_iff {ctx : Context} : cleanblocks ctx blockinfo = .ok blockinfo' ↔
    ctx.hasAuth ctx.self ∧ Function.update blockinfo 0 ∅ = blockinfo' := by
  rw [cleanblocks, Context.requireAuth, check_bind_eq_ok_iff, cleanLoop_size rfl, pure_eq_ok_iff]

/-! ### The writer's table -/

/-- A row of height 0 is pruned by the call that has stored it. -/
theorem addToBlockinfoTable_zero {t t' : Table UInt32 BlockInfo} {previous : Checksum256}
    {timestamp : UInt32} (hheight : blockHeightFromId previous + 1 = 0)
    (hok : addToBlockinfoTable t previous timestamp = .ok t') : t' = t := by
  have hfresh : (0 : UInt32) ∉ t := by
    simp only [addToBlockinfoTable, hheight, bind_eq_ok_iff, Table.emplace_eq_ok_iff] at hok
    obtain ⟨-, ⟨hfresh, -⟩, -⟩ := hok
    exact hfresh
  rw [addToBlockinfoTable_eq hheight hfresh] at hok
  obtain ⟨stored, hstored⟩ :
    ∃ stored, t.insert 0 { blockTimestamp := timeOfSlot timestamp } = stored := ⟨_, rfl⟩
  rw [hstored] at hok
  obtain rfl := Except.ok.inj hok
  have hzero (e : UInt32 × BlockInfo) (he : e ∈ prunable stored 0) : e.1 = 0 :=
    UInt32.toNat_inj.mp (Nat.le_zero.mp (of_mem_prunable he).1)
  -- nothing stands in front of a height of 0, so its row is among those to prune
  have hpruned : (0 : UInt32) ∈ (prunable stored 0).map Prod.fst := by
    cases hrows : prunable stored 0 with
    | nil =>
      rw [prunable, List.take_eq_nil_iff, or_iff_right (by decide)] at hrows
      have hmem : (0 : UInt32) ∈ stored := by simp [← hstored]
      exact absurd (OrdMap.lt_of_takeWhile_eq_nil hrows hmem) (by decide)
    | cons e l =>
      rw [← hzero e (hrows ▸ List.mem_cons_self)]
      exact List.mem_map.mpr ⟨e, List.mem_cons_self, rfl⟩
  refine ExtTreeMap.ext_getElem? ?_
  intro k
  rw [pruned, OrdMap.getElem?_foldl_erase]
  rcases eq_or_ne k 0 with rfl | hk
  · rw [if_pos hpruned, OrdMap.not_mem_iff.mp hfresh]
  · rw [if_neg, ← hstored, OrdMap.getElem?_insert, if_neg hk]
    intro hmem
    obtain ⟨e, he, heq⟩ := List.mem_map.mp hmem
    exact hk (heq ▸ hzero e he)

/-- No block of a height above 0 is recorded by the events. -/
def NoneRecorded (tr : List BlockinfoEvent) : Prop :=
  ∀ previous timestamp, .record previous timestamp ∈ tr → blockHeightFromId previous + 1 = 0

/-- **What is recorded stays recorded.** A contract on an account has an empty table of recorded
blocks only until it has recorded one. -/
theorem recorded_iff (haccount : account.value ≠ 0)
    {blockinfo₀ : UInt64 → Table UInt32 BlockInfo} (hempty : blockinfo₀ account.value = ∅)
    (hrun : Run (BlockinfoEvent.step account) (fun _ e => e.On account) blockinfo₀ tr blockinfo) :
    blockinfo account.value = ∅ ↔ NoneRecorded tr := by
  refine hrun.invariant (I := fun tr blockinfo => blockinfo account.value = ∅ ↔ NoneRecorded tr)
    (iff_of_true hempty fun _ _ hmem => absurd hmem List.not_mem_nil) ?_
  intro tr blockinfo e blockinfo' _ hI _ hs
  have hsnoc : NoneRecorded (tr ++ [e]) ↔ NoneRecorded tr ∧ NoneRecorded [e] := by
    simp only [NoneRecorded, List.mem_append, or_imp, forall_and]
  rw [hsnoc, ← hI]
  cases e with
  | record previous timestamp =>
    have hlast : NoneRecorded [.record previous timestamp] ↔
        blockHeightFromId previous + 1 = 0 := by
      simp [NoneRecorded]
    simp only [BlockinfoEvent.step, bind_eq_ok_iff, pure_eq_ok_iff] at hs
    obtain ⟨rows, hrows, rfl⟩ := hs
    rw [Function.update_self, hlast]
    by_cases hheight : blockHeightFromId previous + 1 = 0
    · rw [addToBlockinfoTable_zero hheight hrows, and_iff_left hheight]
    · refine iff_of_false (fun hnone => ?_) fun h => hheight h.2
      have hnewest := addToBlockinfoTable_newest hheight hrows
      rw [hnone] at hnewest
      exact absurd hnewest (by simp)
  | cleanblocks ctx =>
    obtain ⟨-, rfl⟩ := cleanblocks_eq_ok_iff.mp hs
    rw [Function.update_of_ne haccount, and_iff_left (by simp [NoneRecorded])]

/-! ### Cleaning -/

/-- **When `cleanblocks` cleans.** After every run of recorded blocks and of `cleanblocks`, from
empty tables: an authorised `cleanblocks` returns, with its loop at the end of the table, and the
table into which blocks are recorded has no rows then if and only if no block of a height above 0
has been recorded at all, or the contract is on the account with the empty name. -/
theorem cleanblocks_cleans_iff {blockinfo₀ : UInt64 → Table UInt32 BlockInfo}
    (hempty : ∀ scope, blockinfo₀ scope = ∅)
    (hrun : Run (BlockinfoEvent.step account) (fun _ e => e.On account) blockinfo₀ tr blockinfo)
    {ctx : Context} (hself : ctx.self = account) (hauth : ctx.hasAuth account) :
    ∃ rounds blockinfo', (cleanLoop rounds (blockinfo 0)).2 = none ∧
      cleanblocks ctx blockinfo = .ok blockinfo' ∧
      blockinfo' 0 = (cleanLoop rounds (blockinfo 0)).1 ∧
      (blockinfo' account.value = ∅ ↔ account.value = 0 ∨ NoneRecorded tr) := by
  refine ⟨(blockinfo 0).size, _, ?_, cleanblocks_eq_ok_iff.mpr ⟨hself ▸ hauth, rfl⟩, ?_, ?_⟩
  · rw [cleanLoop_size rfl]
  · rw [cleanLoop_size rfl, Function.update_self]
  · by_cases haccount : account.value = 0
    · rw [haccount, Function.update_self]
      exact iff_of_true rfl (.inl rfl)
    · rw [Function.update_of_ne haccount, recorded_iff haccount (hempty _) hrun,
        or_iff_right haccount]

/-- One block, at height 2. -/
def oneRecord : List BlockinfoEvent := [.record (headerAt 1 1).previous 1]

theorem oneRecord_run :
    ∃ blockinfo, Run (BlockinfoEvent.step systemAccount) (fun _ e => e.On systemAccount)
      (fun _ => ∅) oneRecord blockinfo := by
  obtain ⟨blockinfo, hok, -⟩ := returns_iff.mp (show returns
    (oneRecord.foldlM (BlockinfoEvent.step systemAccount) fun _ => ∅) (fun _ => true) = true
      by decide +kernel)
  refine ⟨blockinfo, Run.of_foldlM (fun _ e he => ?_) hok⟩
  obtain rfl := List.mem_singleton.mp he
  trivial

theorem cleanblocks_cleans_iff_oneRecord :
    ∃ blockinfo blockinfo',
      Run (BlockinfoEvent.step systemAccount) (fun _ e => e.On systemAccount) (fun _ => ∅)
        oneRecord blockinfo ∧
      cleanblocks systemContext blockinfo = .ok blockinfo' ∧
      (blockinfo' systemAccount.value = ∅ ↔ NoneRecorded oneRecord) := by
  obtain ⟨blockinfo, hrun⟩ := oneRecord_run
  have hself : systemContext.self = systemAccount := rfl
  obtain ⟨-, blockinfo', -, hok, -, hclean⟩ :=
    cleanblocks_cleans_iff (fun _ => rfl) hrun hself rfl
  exact ⟨blockinfo, blockinfo', hrun, hok, hclean.trans (or_iff_right (by decide))⟩

/-- The recorded block is still there after `cleanblocks`. -/
theorem cleanblocks_missed :
    ∃ blockinfo blockinfo',
      Run (BlockinfoEvent.step systemAccount) (fun _ e => e.On systemAccount) (fun _ => ∅)
        oneRecord blockinfo ∧
      cleanblocks systemContext blockinfo = .ok blockinfo' ∧
      blockinfo' systemAccount.value ≠ ∅ := by
  obtain ⟨blockinfo, hrun⟩ := oneRecord_run
  refine ⟨blockinfo, _, hrun, cleanblocks_eq_ok_iff.mpr ⟨rfl, rfl⟩, ?_⟩
  rw [Function.update_of_ne (by decide), Ne, recorded_iff (by decide) rfl hrun]
  intro hnone
  exact absurd (hnone _ _ List.mem_cons_self) (by decide +kernel)

end Twig.System
