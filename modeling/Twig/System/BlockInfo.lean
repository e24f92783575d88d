import Twig.System.Schedule

/-!
# The block-info reader

`get_latest_block_batch_info`, which other code asks for the batch of blocks that the chain is
in. It looks the two ends of the batch up in the `blockinfo` table.

`onblock` keeps that table in the scope of the contract, the reader opens the one in scope 0.
No account has the empty name, so the reader finds an empty table after any number of blocks:

* `addToBlockinfoTable_newest` — what the writer has just recorded is in its table;
* `latest_batch_insufficient` — and still the reader reports insufficient data;
* `latest_batch_missed` — one block, recorded and not found.
-/

namespace Twig.System

open Std Fallible

/-! ### The reader -/

inductive ErrorCode
  | noError
  | invalidInput
  | unsupportedVersion
  | insufficientData
deriving DecidableEq, Repr

structure BlockBatchInfo where
  batchStartHeight : UInt32
  batchStartTimestamp : TimePoint
  batchCurrentEndHeight : UInt32
  batchCurrentEndTimestamp : TimePoint
deriving DecidableEq, Repr

structure LatestBlockBatchInfoResult where
  result : Option BlockBatchInfo := none
  errorCode : ErrorCode := .noError
deriving DecidableEq, Repr

/-- `get_latest_block_batch_info`, on the table it opens. -/
def latestBlockBatchInfo (blockinfo : Table UInt32 BlockInfo)
    (batchStartHeightOffset batchSize : UInt32) : LatestBlockBatchInfoResult :=
  if batchSize = 0 then { errorCode := .invalidInput }
  else
    match blockinfo.toList.getLast? with
    | none => { errorCode := .insufficientData }
    | some (endHeight, latest) =>
      if latest.version ≠ 0 then { errorCode := .unsupportedVersion }
      else if endHeight < batchStartHeightOffset then { errorCode := .insufficientData }
      else
        let startHeight := endHeight - (endHeight - batchStartHeightOffset) % batchSize
        -- the batch has a single block so far
        if startHeight = endHeight then
          { result := some {
              batchStartHeight := startHeight
              batchStartTimestamp := latest.blockTimestamp
              batchCurrentEndHeight := endHeight
              batchCurrentEndTimestamp := latest.blockTimestamp } }
        else
          match blockinfo[startHeight]? with
          | none => { errorCode := .insufficientData }
          | some start =>
            if start.version ≠ 0 then { errorCode := .unsupportedVersion }
            else
              { result := some {
                  batchStartHeight := startHeight
                  batchStartTimestamp := start.blockTimestamp
                  batchCurrentEndHeight := endHeight
                  batchCurrentEndTimestamp := latest.blockTimestamp } }

/-- `get_latest_block_batch_info`: the table is the one in scope 0. -/
def getLatestBlockBatchInfo (σ : State) (batchStartHeightOffset batchSize : UInt32) :
    LatestBlockBatchInfoResult :=
  latestBlockBatchInfo (σ.blockinfo 0) batchStartHeightOffset batchSize

/-- An empty table is answered with an error. -/
theorem latestBlockBatchInfo_empty {blockinfo : Table UInt32 BlockInfo} {offset batchSize : UInt32}
    (hempty : blockinfo = ∅) (hsize : batchSize ≠ 0) :
    latestBlockBatchInfo blockinfo offset batchSize = { errorCode := .insufficientData } := by
  have hlist : blockinfo.toList = [] := ExtTreeMap.toList_eq_nil_iff.mpr hempty
  rw [latestBlockBatchInfo, if_neg hsize, hlist]
  rfl

/-! ### The writer -/

/-- Pruning keeps every row above the limit. -/
theorem getElem?_prune {blockinfo : Table UInt32 BlockInfo} {limit height : UInt32}
    (h : limit < height) (old : List (UInt32 × BlockInfo)) (hold : ∀ e ∈ old, e.1 ≤ limit) :
    (old.foldl (fun t e => t.erase e.1) blockinfo)[height]? = blockinfo[height]? := by
  rw [OrdMap.getElem?_foldl_erase, if_neg]
  intro hmem
  obtain ⟨e, he, rfl⟩ := List.mem_map.mp hmem
  exact UInt32.not_le.mpr h (hold e he)

theorem toNat_rollingWindowSize : rollingWindowSize.toNat = 10 := rfl

/-- The last height that has left the rolling window. -/
theorem toNat_lastPrunable {height : UInt32} :
    (max height rollingWindowSize - rollingWindowSize).toNat = height.toNat - 10 := by
  have hmax : max height rollingWindowSize =
      if height ≤ rollingWindowSize then rollingWindowSize else height := rfl
  rw [hmax]
  split_ifs with hle
  · rw [UInt32.le_iff_toNat_le, toNat_rollingWindowSize] at hle
    rw [UInt32.sub_self, UInt32.toNat_zero, Nat.sub_eq_zero_of_le hle]
  · rw [UInt32.le_iff_toNat_le, toNat_rollingWindowSize] at hle
    rw [UInt32.toNat_sub_of_le _ _
      (UInt32.le_iff_toNat_le.mpr (by rw [toNat_rollingWindowSize]; omega)),
      toNat_rollingWindowSize]

/-- The rolling window ends below the newest block. -/
theorem lastPrunable_lt {height : UInt32} (h : height ≠ 0) :
    max height rollingWindowSize - rollingWindowSize < height := by
  have hpos : 0 < height.toNat := Nat.pos_of_ne_zero fun h0 => h (UInt32.toNat_inj.mp h0)
  rw [UInt32.lt_iff_toNat_lt, toNat_lastPrunable]
  omega

/-- **The writer records the block**: its row survives the pruning that follows. -/
theorem addToBlockinfoTable_newest {blockinfo blockinfo' : Table UInt32 BlockInfo}
    {previous : Checksum256} {timestamp : UInt32}
    (hheight : blockHeightFromId previous + 1 ≠ 0)
    (hok : addToBlockinfoTable blockinfo previous timestamp = .ok blockinfo') :
    blockinfo'[blockHeightFromId previous + 1]? =
      some { blockTimestamp := timeOfSlot timestamp } := by
  simp only [addToBlockinfoTable, bind_eq_ok_iff, Table.emplace_eq_ok_iff, pure_eq_ok_iff] at hok
  obtain ⟨stored, ⟨-, rfl⟩, rfl⟩ := hok
  rw [getElem?_prune (lastPrunable_lt hheight), OrdMap.getElem?_insert, if_pos rfl]
  intro e he
  simpa using List.mem_takeWhile_imp (List.mem_of_mem_take he)

/-! ### The reader after the writer -/

variable {hashes : Hashes} {host : Host} {w w' : Blocks} {self : Name}

/-- A block of the contract on `self`, or a change of a table. -/
def BlockEvent.On (self : Name) : BlockEvent → Prop
  | .onblock ctx _ => ctx.self = self
  | _ => True

/-- What the schedule update leaves alone. -/
theorem onblockSchedule_blockinfo {global : Global} {σ σ' : State} {slot : UInt32}
    {proposed : Option (List ProducerAuthority)} {policy : Option FinalizerPolicy}
    (hok : onblockSchedule host global σ slot = .ok (σ', proposed, policy)) :
    σ'.blockinfo = σ.blockinfo := by
  rw [onblockSchedule] at hok
  split_ifs at hok
  · simp only [updateElectedProducers, bind_eq_ok_iff] at hok
    obtain ⟨stored, -, hok⟩ := hok
    split at hok
    all_goals
      obtain ⟨rfl, -⟩ := pure_eq_ok_iff.mp hok
      rfl
  · obtain ⟨rfl, -⟩ := pure_eq_ok_iff.mp hok
    rfl

/-- A block writes no other scope than the contract's. -/
theorem onblock_blockinfo {ctx : Context} {σ : State} {header : BlockHeader} {res : BlockResult}
    (hok : onblock hashes host ctx σ header = .ok res) {scope : UInt64}
    (hscope : scope ≠ ctx.self.value) : res.state.blockinfo scope = σ.blockinfo scope := by
  simp only [onblock, bind_eq_ok_iff, pure_eq_ok_iff] at hok
  obtain ⟨-, -, global, -, a, -, blockinfo, -, ⟨σ₁, proposed, policy⟩, hupdate, rfl⟩ := hok
  rw [onblockSchedule_blockinfo hupdate]
  exact Function.update_of_ne hscope _ _

/-- Scope 0 stays empty. -/
theorem Blocks.scopeZero_step (hself : self.value ≠ 0) {e : BlockEvent} (he : e.On self)
    (hempty : w.state.blockinfo 0 = ∅) (hok : w.step hashes host e = .ok w') :
    w'.state.blockinfo 0 = ∅ := by
  cases e with
  | onblock ctx header =>
    simp only [Blocks.step, bind_eq_ok_iff, pure_eq_ok_iff] at hok
    obtain ⟨res, hres, rfl⟩ := hok
    have hctx : ctx.self = self := he
    rw [onblock_blockinfo hres (by rw [hctx]; exact hself.symm)]
    exact hempty
  | producers producers =>
    obtain rfl := pure_eq_ok_iff.mp hok
    exact hempty
  | finalizers finalizers =>
    obtain rfl := pure_eq_ok_iff.mp hok
    exact hempty

/-- **The reader misses every block.** Whatever blocks the contract has recorded, from tables
that were empty at first: the reader reports insufficient data for every offset and every size
of batches. -/
theorem latest_batch_insufficient (hself : self.value ≠ 0) {σ : State}
    (hempty : ∀ scope, σ.blockinfo scope = ∅) {tr : List BlockEvent}
    (hrun : Run (Blocks.step hashes host) (fun _ e => e.On self) { state := σ } tr w)
    {offset batchSize : UInt32} (hsize : batchSize ≠ 0) :
    getLatestBlockBatchInfo w.state offset batchSize = { errorCode := .insufficientData } := by
  have hzero : w.state.blockinfo 0 = ∅ :=
    hrun.state_invariant (I := fun w : Blocks => w.state.blockinfo 0 = ∅) (hempty 0)
      fun _ _ _ hI he hs => Blocks.scopeZero_step hself he hI hs
  rw [getLatestBlockBatchInfo]
  exact latestBlockBatchInfo_empty hzero hsize

/-- One block, at height 2. -/
def oneBlock : List BlockEvent := [.onblock systemContext (headerAt 1 1)]

/-- The run of `oneBlock`; the block is in the table of the contract. -/
theorem oneBlock_run :
    ∃ w, Run (Blocks.step zeroHashes plainHost) (fun _ e => e.On systemAccount)
        { state := { global := some {}, aluckynumber := some {} } } oneBlock w ∧
      (latestBlockBatchInfo (w.state.blockinfo systemAccount.value) 2 1).result = some {
        batchStartHeight := 2
        batchStartTimestamp := timeOfSlot 1
        batchCurrentEndHeight := 2
        batchCurrentEndTimestamp := timeOfSlot 1 } := by
  obtain ⟨w, hw, hfound⟩ := returns_iff.mp (show returns
    (oneBlock.foldlM (Blocks.step zeroHashes plainHost)
      { state := { global := some {}, aluckynumber := some {} } })
    (fun w => (latestBlockBatchInfo (w.state.blockinfo systemAccount.value) 2 1).result =
      some ⟨2, timeOfSlot 1, 2, timeOfSlot 1⟩) = true by decide +kernel)
  refine ⟨w, Run.of_foldlM ?_ hw, of_decide_eq_true hfound⟩
  intro w e he
  obtain rfl := List.mem_singleton.mp he
  rfl

theorem latest_batch_insufficient_oneBlock :
    ∃ w, Run (Blocks.step zeroHashes plainHost) (fun _ e => e.On systemAccount)
        { state := { global := some {}, aluckynumber := some {} } } oneBlock w ∧
      getLatestBlockBatchInfo w.state 2 1 = { errorCode := .insufficientData } := by
  obtain ⟨w, hrun, -⟩ := oneBlock_run
  exact ⟨w, hrun, latest_batch_insufficient (by decide) (fun _ => rfl) hrun (by decide)⟩

/-- The block is recorded, and the reader does not find it. -/
theorem latest_batch_missed :
    ∃ w, Run (Blocks.step zeroHashes plainHost) (fun _ e => e.On systemAccount)
        { state := { global := some {}, aluckynumber := some {} } } oneBlock w ∧
      (latestBlockBatchInfo (w.state.blockinfo systemAccount.value) 2 1).result = some {
        batchStartHeight := 2
        batchStartTimestamp := timeOfSlot 1
        batchCurrentEndHeight := 2
        batchCurrentEndTimestamp := timeOfSlot 1 } ∧
      (getLatestBlockBatchInfo w.state 2 1).result = none ∧
      (getLatestBlockBatchInfo w.state 2 1).errorCode ≠ .noError := by
  obtain ⟨w, hrun, hfound⟩ := oneBlock_run
  have hzero : w.state.blockinfo 0 = ∅ :=
    hrun.state_invariant (I := fun w : Blocks => w.state.blockinfo 0 = ∅) rfl
      fun _ _ _ hI he hs => Blocks.scopeZero_step (by decide) he hI hs
  have hmissed : getLatestBlockBatchInfo w.state 2 1 = { errorCode := .insufficientData } :=
    latestBlockBatchInfo_empty hzero (by decide)
  refine ⟨w, hrun, hfound, ?_, ?_⟩
  · rw [hmissed]
  · rw [hmissed]
    decide

end Twig.System
