import Twig.System.Schedule
import Twig.Bank.Basic
import Twig.Lib.Exact
import Twig.Lib.Run

/-!
# The bookkeeping of the lucky number

What the `aluckynumber` singleton counts over a run of blocks: the blocks, the blocks since the
last lucky one, and the chunks and epochs, a lucky block either taking a chunk or opening an
epoch. The milestones of a run are its `onchunk` and `onepoch` actions; the counters determine
all of them (`chronicle`).

* `onblockLuck_eq` — what one block does to the singleton, and what it sends;
* `LuckLaw` — how the singleton, the log of the blocks and the milestones belong together;
* `luck_law` — the bookkeeping is right after every run;
* `rngcall_sends_onchunk` — a row of `rngcalls` that names `onchunk` sends more of them.
-/

namespace Twig.System

open Std Fallible

/-! ### Chronicles -/

/-- The milestones up to an epoch that has some chunks remaining: all chunks of an epoch, then
the next epoch, and at the end the chunks of the current one. -/
def chronicle (epoch remaining : ℕ) : List Inline :=
  (List.range' 2 (epoch - 1)).flatMap
      (fun e => List.replicate luckyNumberChunks.toNat .onchunk ++ [.onepoch (UInt32.ofNat e)]) ++
    List.replicate (luckyNumberChunks.toNat - remaining) .onchunk

/-- A chunk. -/
theorem chronicle_onchunk {epoch remaining : ℕ} (h : remaining < luckyNumberChunks.toNat) :
    chronicle epoch (remaining + 1) ++ [.onchunk] = chronicle epoch remaining := by
  have hcount : luckyNumberChunks.toNat - remaining =
      luckyNumberChunks.toNat - (remaining + 1) + 1 := by omega
  rw [chronicle, chronicle, hcount, List.replicate_succ', List.append_assoc]

/-- An epoch, when no chunk is left. -/
theorem chronicle_onepoch {epoch : ℕ} (h : 1 ≤ epoch) :
    chronicle epoch 0 ++ [.onepoch (UInt32.ofNat (epoch + 1))] =
      chronicle (epoch + 1) luckyNumberChunks.toNat := by
  have hnext : 2 + (epoch - 1) = epoch + 1 := by omega
  have hepochs : epoch + 1 - 1 = epoch - 1 + 1 := by omega
  rw [chronicle, chronicle, hepochs, List.range'_1_concat, hnext, List.flatMap_append,
    List.flatMap_singleton, Nat.sub_self, Nat.sub_zero, List.replicate_zero, List.append_nil,
    List.append_assoc]

/-! ### Milestones -/

/-- The action is `onchunk` of the system contract on `self`. -/
def Inline.isOnchunk (self : Name) : Inline → Bool
  | .onchunk => true
  | .onepoch _ => false
  | .rngcall contract action _ => contract = self ∧ action = .ofString "onchunk"

/-- The action is `onepoch` of the bank. -/
def Inline.isOnepoch : Inline → Bool
  | .onchunk => false
  | .onepoch _ => true
  | .rngcall contract action _ => contract = bankAccount ∧ action = .ofString "onepoch"

def milestones (self : Name) (sends : List Inline) : List Inline :=
  sends.filter fun i => i.isOnchunk self || i.isOnepoch

variable {self : Name} {sends sends' : List Inline}

theorem milestones_append :
    milestones self (sends ++ sends') = milestones self sends ++ milestones self sends' :=
  List.filter_append sends sends'

/-- The milestones tell how many chunks there are. -/
theorem countP_isOnchunk :
    sends.countP (Inline.isOnchunk self) =
      (milestones self sends).countP (Inline.isOnchunk self) := by
  rw [milestones, List.countP_filter]
  refine List.countP_congr fun i _ => ?_
  cases i.isOnchunk self <;> simp

/-- The milestones tell which epochs there are. -/
theorem filter_isOnepoch :
    sends.filter Inline.isOnepoch = (milestones self sends).filter Inline.isOnepoch := by
  rw [milestones, List.filter_filter]
  refine List.filter_congr fun i _ => ?_
  cases i.isOnepoch <;> simp

theorem countP_chronicle {epoch remaining : ℕ} :
    (chronicle epoch remaining).countP (Inline.isOnchunk self) =
      (epoch - 1) * luckyNumberChunks.toNat + (luckyNumberChunks.toNat - remaining) := by
  have hchunks (n : ℕ) : (List.replicate n Inline.onchunk).countP (Inline.isOnchunk self) = n := by
    exact List.countP_replicate.trans (if_pos rfl)
  have hepoch (e : ℕ) : (List.replicate luckyNumberChunks.toNat Inline.onchunk ++
      [Inline.onepoch (UInt32.ofNat e)]).countP (Inline.isOnchunk self) =
        luckyNumberChunks.toNat := by
    rw [List.countP_append, hchunks]
    exact Nat.add_zero _
  rw [chronicle, List.countP_append, hchunks, List.countP_flatMap]
  congr 1
  simp only [Function.comp_def, hepoch]
  rw [List.map_const', List.sum_replicate, List.length_range', smul_eq_mul]

theorem filter_chronicle {epoch remaining : ℕ} :
    (chronicle epoch remaining).filter Inline.isOnepoch =
      (List.range' 2 (epoch - 1)).map fun e => .onepoch (UInt32.ofNat e) := by
  have hchunks (n : ℕ) : (List.replicate n Inline.onchunk).filter Inline.isOnepoch = [] := by
    rw [List.filter_replicate]
    exact if_neg Bool.false_ne_true
  rw [chronicle, List.filter_append, hchunks, List.append_nil, List.filter_flatMap,
    List.map_eq_flatMap]
  refine List.flatMap_congr fun e _ => ?_
  rw [List.filter_append, hchunks]
  rfl

/-! ### One block -/

/-- The roll of a block. -/
def luckRoll (hashes : Hashes) (a : ALuckyNumber) (header : BlockHeader) : UInt32 :=
  let rp := RandomnessProvider.make a.seed (a.totalBlocks + 1)
  let (_, rp) := rp.getBlend hashes header.previous header.producer.value
  (rp.getRand (a.odds * 16)).1

def isHit (hashes : Hashes) (a : ALuckyNumber) (header : BlockHeader) : Bool :=
  luckRoll hashes a header < 16

/-- The action is the call of an active row of `rngcalls`. -/
def Inline.CalledBy (rngcalls : Table UInt64 RngCall) (i : Inline) : Prop :=
  ∃ (index : UInt64) (row : RngCall) (blend : Checksum256), rngcalls[index]? = some row ∧
    row.active ≠ 0 ∧ i = .rngcall row.contract row.action blend

variable {hashes : Hashes} {host : Host} {rngcalls : Table UInt64 RngCall} {a : ALuckyNumber}
  {header : BlockHeader}

theorem processRngCalls_called {rp : RandomnessProvider} :
    ∀ i ∈ (processRngCalls hashes rngcalls a rp).2, i.CalledBy rngcalls := by
  have hloop (l : List (UInt64 × RngCall)) (hl : ∀ e ∈ l, rngcalls[e.1]? = some e.2) :
      ∀ acc : RandomnessProvider × List Inline, (∀ i ∈ acc.2, i.CalledBy rngcalls) →
        ∀ i ∈ (l.foldl (fun (acc : RandomnessProvider × List Inline) (e : UInt64 × RngCall) =>
          if e.2.active ≠ 0 then
            ((acc.1.getBlend hashes a.seed e.2.contract.value).2, acc.2 ++
              [.rngcall e.2.contract e.2.action
                (acc.1.getBlend hashes a.seed e.2.contract.value).1])
          else acc) acc).2, i.CalledBy rngcalls := by
    induction l with
    | nil => exact fun acc hacc => hacc
    | cons e l ih =>
      intro acc hacc
      rw [List.foldl_cons]
      refine ih (fun e he => hl e (List.mem_cons_of_mem _ he)) _ ?_
      split_ifs with hactive
      · intro i hi
        rcases List.mem_append.mp hi with hi | hi
        · exact hacc i hi
        · exact ⟨e.1, e.2, _, hl _ List.mem_cons_self, hactive, List.mem_singleton.mp hi⟩
      · exact hacc
  exact hloop _ (fun e he => OrdMap.mem_toList.mp he) (rp, []) (fun i hi => nomatch hi)

/-- **What one block does to the lucky number.** A hit is booked by `luckyHit`, which sends a
milestone; whatever else is sent are calls of `rngcalls`. -/
theorem onblockLuck_eq (hashes : Hashes) (rngcalls : Table UInt64 RngCall) (a : ALuckyNumber)
    (header : BlockHeader) : ∃ seed calls, (∀ i ∈ calls, i.CalledBy rngcalls) ∧
    onblockLuck hashes rngcalls a header =
      if isHit hashes a header then
        ((luckyHit header.producer { a with seed, totalBlocks := a.totalBlocks + 1 }).1,
          (luckyHit header.producer { a with seed, totalBlocks := a.totalBlocks + 1 }).2 :: calls)
      else
        ({ a with seed, totalBlocks := a.totalBlocks + 1, blocksSince := a.blocksSince + 1 },
          calls) := by
  cases hblend : (RandomnessProvider.make a.seed (a.totalBlocks + 1)).getBlend hashes
    header.previous header.producer.value with
  | mk seed rp =>
    cases hrand : rp.getRand (a.odds * 16) with
    | mk roll rp' =>
      have hhit : isHit hashes a header = decide (roll < 16) := by
        simp only [isHit, luckRoll, hblend, hrand]
      simp only [onblockLuck, hblend, onALuckyBlock, hrand, hhit, decide_eq_true_eq]
      split_ifs with hge hlt hlt
      · exact absurd hlt (UInt32.not_lt.mpr hge)
      · exact ⟨seed, _, processRngCalls_called, rfl⟩
      · exact ⟨seed, _, processRngCalls_called, rfl⟩
      · exact absurd (UInt32.not_le.mp hge) hlt

/-! ### Runs -/

/-- The state, with a log of the blocks, each with its producer and whether it was lucky, and of
the actions sent. -/
structure Luck where
  state : State
  blocks : List (Name × Bool) := []
  sends : List Inline := []

inductive LuckEvent
  | onblock (hashes : Hashes) (host : Host) (ctx : Context) (header : BlockHeader)
  | feedthebeast (hashes : Hashes) (seed : Checksum256)
  /-- Any change of the other tables. -/
  | others (σ : State)

def Luck.step (w : Luck) : LuckEvent → Outcome Luck
  | .onblock hashes host ctx header => do
    let res ← System.onblock hashes host ctx w.state header
    pure {
      state := res.state
      blocks := w.blocks ++
        [(header.producer, w.state.aluckynumber.any fun a => isHit hashes a header)]
      sends := w.sends ++ res.sends }
  | .feedthebeast hashes seed => do
    let state ← System.feedthebeast hashes w.state seed
    pure { w with state }
  | .others σ => pure { w with state := { σ with aluckynumber := w.state.aluckynumber } }

/-- The row calls neither `onchunk` of the system contract on `self` nor `onepoch` of the bank. -/
def RngCall.Foreign (self : Name) (row : RngCall) : Prop :=
  row.active ≠ 0 → ¬ (row.contract = self ∧ row.action = .ofString "onchunk") ∧
    ¬ (row.contract = bankAccount ∧ row.action = .ofString "onepoch")

/-- The blocks are those of the contract on `self`, and what they call with random values are
other actions than the milestones. -/
def Luck.Guard (self : Name) (w : Luck) : LuckEvent → Prop
  | .onblock _ _ ctx _ => ctx.self = self ∧
    ∀ (index : UInt64) (row : RngCall), w.state.rngcalls[index]? = some row → row.Foreign self
  | _ => True

/-- The number of blocks since the last lucky one. -/
def sinceHit (blocks : List (Name × Bool)) : ℕ :=
  (blocks.reverse.takeWhile fun b => !b.2).length

/-- The producer of the last lucky block. -/
def lastHit (blocks : List (Name × Bool)) : Name :=
  ((blocks.filter fun b => b.2).getLast?.map Prod.fst).getD systemAccount

variable {blocks : List (Name × Bool)} {producer : Name} {calls : List Inline}

theorem sinceHit_le_length : sinceHit blocks ≤ blocks.length := by
  have h : (blocks.reverse.takeWhile fun b => !b.2).Sublist blocks.reverse :=
    List.takeWhile_sublist _
  exact h.length_le.trans_eq List.length_reverse

theorem sinceHit_miss : sinceHit (blocks ++ [(producer, false)]) = sinceHit blocks + 1 := by
  rw [sinceHit, List.reverse_concat, List.takeWhile_cons]
  rfl

theorem sinceHit_hit : sinceHit (blocks ++ [(producer, true)]) = 0 := by
  rw [sinceHit, List.reverse_concat, List.takeWhile_cons]
  rfl

theorem lastHit_miss : lastHit (blocks ++ [(producer, false)]) = lastHit blocks := by
  simp [lastHit]

theorem lastHit_hit : lastHit (blocks ++ [(producer, true)]) = producer := by
  simp [lastHit]

/-- Calls of rows that name other actions are no milestones. -/
theorem milestones_called
    (hforeign : ∀ (index : UInt64) (row : RngCall), rngcalls[index]? = some row → row.Foreign self)
    (hcalls : ∀ i ∈ calls, i.CalledBy rngcalls) : milestones self calls = [] := by
  rw [milestones, List.filter_eq_nil_iff]
  intro i hi
  obtain ⟨index, row, blend, hrow, hactive, rfl⟩ := hcalls i hi
  obtain ⟨honchunk, honepoch⟩ := hforeign index row hrow hactive
  simp [Inline.isOnchunk, Inline.isOnepoch, honchunk, honepoch]

/-! ### The invariant -/

/-- **How the lucky number and the log belong together.** -/
structure LuckLaw (contract : Name) (a : ALuckyNumber) (blocks : List (Name × Bool))
    (sends : List Inline) : Prop where
  total : a.totalBlocks.toNat = blocks.length
  since : a.blocksSince.toNat = sinceHit blocks
  producer : a.producer = lastHit blocks
  epoch_pos : 1 ≤ a.epoch.toNat
  remaining_le : a.chunksRemaining.toNat ≤ luckyNumberChunks.toNat
  /-- There have been as many lucky blocks as chunks and epochs. -/
  hits_le : (a.epoch.toNat - 1) * (luckyNumberChunks.toNat + 1) +
    (luckyNumberChunks.toNat - a.chunksRemaining.toNat) ≤ blocks.length
  sent : milestones contract sends = chronicle a.epoch.toNat a.chunksRemaining.toNat

variable {seed : Checksum256}

theorem LuckLaw.toNat_totalBlocks (h : LuckLaw self a blocks sends)
    (hfew : blocks.length + 1 < 2 ^ 32) : (a.totalBlocks + 1).toNat = blocks.length + 1 := by
  rw [UInt64.toNat_add, h.total]
  exact Nat.mod_eq_of_lt (show blocks.length + 1 < 2 ^ 64 by omega)

/-- A block that is not lucky. -/
theorem LuckLaw.miss (h : LuckLaw self a blocks sends) (hfew : blocks.length + 1 < 2 ^ 32)
    (hcalls : milestones self calls = []) :
    LuckLaw self { a with seed, totalBlocks := a.totalBlocks + 1, blocksSince := a.blocksSince + 1 }
      (blocks ++ [(producer, false)]) (sends ++ calls) := by
  constructor
  · rw [List.length_append]
    exact h.toNat_totalBlocks hfew
  · have hle : sinceHit blocks ≤ blocks.length := sinceHit_le_length
    rw [sinceHit_miss, ← h.since, UInt32.toNat_add_one (by rw [h.since]; omega)]
  · rw [lastHit_miss]
    exact h.producer
  · exact h.epoch_pos
  · exact h.remaining_le
  · rw [List.length_append]
    exact h.hits_le.trans (Nat.le_add_right _ _)
  · rw [milestones_append, hcalls, List.append_nil]
    exact h.sent

/-- A lucky block that takes a chunk. -/
theorem LuckLaw.chunk (h : LuckLaw self a blocks sends) (hfew : blocks.length + 1 < 2 ^ 32)
    (hcalls : milestones self calls = []) (hpos : 0 < a.chunksRemaining) :
    LuckLaw self
      { a with
        seed, producer, totalBlocks := a.totalBlocks + 1, blocksSince := 0
        chunksRemaining := a.chunksRemaining - 1 }
      (blocks ++ [(producer, true)]) (sends ++ .onchunk :: calls) := by
  have hsub := UInt32.toNat_sub_one hpos
  have hle := h.remaining_le
  constructor
  · rw [List.length_append]
    exact h.toNat_totalBlocks hfew
  · exact sinceHit_hit.symm
  · exact lastHit_hit.symm
  · exact h.epoch_pos
  · dsimp only
    omega
  · have hhits := h.hits_le
    rw [List.length_append, List.length_singleton]
    dsimp only
    omega
  · rw [List.append_cons, milestones_append, hcalls, List.append_nil, milestones_append,
      h.sent, ← hsub]
    exact chronicle_onchunk (by omega)

/-- All chunks of an epoch and its end are one more lucky block than its chunks. -/
theorem hits_onepoch {e c n : ℕ} (hpos : 1 ≤ e) (h : (e - 1) * (c + 1) + (c - 0) ≤ n) :
    (e + 1 - 1) * (c + 1) + (c - c) ≤ n + 1 := by
  obtain ⟨k, rfl⟩ := Nat.exists_eq_add_of_le' hpos
  rw [Nat.add_sub_cancel] at h
  rw [Nat.add_sub_cancel, Nat.succ_mul]
  omega

/-- A lucky block that opens an epoch. -/
theorem LuckLaw.epoch (h : LuckLaw self a blocks sends) (hfew : blocks.length + 1 < 2 ^ 32)
    (hcalls : milestones self calls = []) (hzero : a.chunksRemaining = 0) :
    LuckLaw self
      { a with
        seed, producer, totalBlocks := a.totalBlocks + 1, blocksSince := 0
        chunksRemaining := luckyNumberChunks, epoch := a.epoch + 1 }
      (blocks ++ [(producer, true)]) (sends ++ .onepoch (a.epoch + 1) :: calls) := by
  have hpos := h.epoch_pos
  have hremaining : a.chunksRemaining.toNat = 0 := congrArg UInt32.toNat hzero
  have hhits := h.hits_le
  rw [hremaining] at hhits
  have hmul : a.epoch.toNat - 1 ≤ (a.epoch.toNat - 1) * (luckyNumberChunks.toNat + 1) :=
    Nat.le_mul_of_pos_right _ (Nat.succ_pos _)
  have hepoch : (a.epoch + 1).toNat = a.epoch.toNat + 1 := by
    refine UInt32.toNat_add_one ?_
    have hchunks : 0 < luckyNumberChunks.toNat := by decide
    omega
  constructor
  · rw [List.length_append]
    exact h.toNat_totalBlocks hfew
  · exact sinceHit_hit.symm
  · exact lastHit_hit.symm
  · rw [hepoch]
    omega
  · exact Nat.le_refl _
  · rw [List.length_append, List.length_singleton, hepoch]
    exact hits_onepoch hpos hhits
  · rw [List.append_cons, milestones_append, hcalls, List.append_nil, milestones_append,
      h.sent, hremaining, hepoch, ← chronicle_onepoch hpos, ← hepoch, UInt32.ofNat_toNat]
    rfl

theorem LuckLaw.start (hstart : a = { producer := systemAccount }) : LuckLaw self a [] [] := by
  rw [hstart]
  exact ⟨rfl, rfl, rfl, by decide, by decide, by decide, rfl⟩

variable {w w' : Luck} {ctx : Context} {σ : State}

/-- What a block does to the lucky number, and what it sends. -/
theorem onblock_luck {res : BlockResult} (hok : onblock hashes host ctx σ header = .ok res) :
    ∃ a, σ.aluckynumber = some a ∧
      res.state.aluckynumber = some (onblockLuck hashes σ.rngcalls a header).1 ∧
      res.sends = (onblockLuck hashes σ.rngcalls a header).2 := by
  simp only [onblock, bind_eq_ok_iff, singletonGet_eq_ok_iff, pure_eq_ok_iff] at hok
  obtain ⟨-, -, global, -, a, ha, blockinfo, -, ⟨σ₁, proposed, policy⟩, -, rfl⟩ := hok
  exact ⟨a, ha, rfl, rfl⟩

/-- **Every block keeps the books.** -/
theorem LuckLaw.onblock {res : BlockResult} (hlaw : LuckLaw self a blocks sends)
    (ha : σ.aluckynumber = some a) (hfew : blocks.length + 1 < 2 ^ 32)
    (hforeign : ∀ (index : UInt64) (row : RngCall), σ.rngcalls[index]? = some row →
      row.Foreign self)
    (hok : System.onblock hashes host ctx σ header = .ok res) :
    ∃ a', res.state.aluckynumber = some a' ∧
      LuckLaw self a' (blocks ++ [(header.producer, isHit hashes a header)])
        (sends ++ res.sends) := by
  obtain ⟨b, hb, ha', hsends⟩ := onblock_luck hok
  obtain rfl : a = b := Option.some.inj (ha.symm.trans hb)
  obtain ⟨seed, calls, hcalls, heq⟩ :=
    onblockLuck_eq hashes σ.rngcalls a header
  have hnone := milestones_called hforeign hcalls
  refine ⟨_, ha', ?_⟩
  rw [hsends, heq]
  cases hhit : isHit hashes a header with
  | false => exact hlaw.miss hfew hnone
  | true =>
    rw [if_pos rfl]
    rcases UInt32.eq_zero_or_pos a.chunksRemaining with hzero | hpos
    · rw [luckyHit_of_zero (a := { a with seed, totalBlocks := a.totalBlocks + 1 }) hzero]
      exact hlaw.epoch hfew hnone hzero
    · rw [luckyHit_of_pos (a := { a with seed, totalBlocks := a.totalBlocks + 1 }) hpos]
      exact hlaw.chunk hfew hnone hpos

/-- An epoch is announced by the number that the block stores. -/
theorem epoch_eq_of_onepoch {res : BlockResult} {epoch : UInt32}
    (hok : System.onblock hashes host ctx σ header = .ok res) (hsent : .onepoch epoch ∈ res.sends) :
    ∃ a, res.state.aluckynumber = some a ∧ a.epoch = epoch := by
  obtain ⟨a, -, ha', hsends⟩ := onblock_luck hok
  obtain ⟨seed, calls, hcalls, heq⟩ :=
    onblockLuck_eq hashes σ.rngcalls a header
  refine ⟨_, ha', ?_⟩
  rw [hsends, heq] at hsent
  rw [heq]
  have hcalled : Inline.onepoch epoch ∉ calls := by
    intro hmem
    obtain ⟨index, row, blend, -, -, hcall⟩ := hcalls _ hmem
    exact nomatch hcall
  split_ifs at hsent ⊢
  · rcases UInt32.eq_zero_or_pos a.chunksRemaining with hzero | hpos
    · rw [luckyHit_of_zero (a := { a with seed, totalBlocks := a.totalBlocks + 1 }) hzero]
        at hsent ⊢
      rcases List.mem_cons.mp hsent with hepoch | hmem
      · exact (Inline.onepoch.inj hepoch).symm
      · exact absurd hmem hcalled
    · rw [luckyHit_of_pos (a := { a with seed, totalBlocks := a.totalBlocks + 1 }) hpos] at hsent
      rcases List.mem_cons.mp hsent with hepoch | hmem
      · exact nomatch hepoch
      · exact absurd hmem hcalled
  · exact absurd hsent hcalled

/-! ### The bookkeeping -/

/-- Between two blocks the lucky number is only seeded. -/
theorem LuckLaw.reseed (h : LuckLaw self a blocks sends) :
    LuckLaw self { a with seed } blocks sends :=
  ⟨h.total, h.since, h.producer, h.epoch_pos, h.remaining_le, h.hits_le, h.sent⟩

/-- **Every step keeps the books.** -/
theorem LuckLaw.step {e : LuckEvent} (hlaw : LuckLaw self a w.blocks w.sends)
    (ha : w.state.aluckynumber = some a) (hg : w.Guard self e) (hok : w.step e = .ok w')
    (hfew : w'.blocks.length < 2 ^ 32) :
    ∃ a', w'.state.aluckynumber = some a' ∧ LuckLaw self a' w'.blocks w'.sends := by
  cases e with
  | onblock hashes host ctx header =>
    simp only [Luck.step, bind_eq_ok_iff, pure_eq_ok_iff] at hok
    obtain ⟨res, hres, rfl⟩ := hok
    rw [List.length_append, List.length_singleton] at hfew
    obtain ⟨a', ha', hlaw'⟩ := hlaw.onblock ha hfew hg.2 hres
    refine ⟨a', ha', ?_⟩
    rw [ha]
    exact hlaw'
  | feedthebeast hashes seed =>
    simp only [Luck.step, System.feedthebeast, ha, singletonGet, ok_bind, bind_eq_ok_iff,
      pure_eq_ok_iff] at hok
    obtain ⟨state, rfl, rfl⟩ := hok
    exact ⟨_, rfl, hlaw.reseed⟩
  | others σ =>
    obtain rfl := pure_eq_ok_iff.mp hok
    exact ⟨a, ha, hlaw⟩

/-- A step takes no block back. -/
theorem Luck.length_blocks_step {e : LuckEvent} (hok : w.step e = .ok w') :
    w.blocks.length ≤ w'.blocks.length := by
  cases e with
  | onblock hashes host ctx header =>
    simp only [Luck.step, bind_eq_ok_iff, pure_eq_ok_iff] at hok
    obtain ⟨res, -, rfl⟩ := hok
    rw [List.length_append]
    exact Nat.le_add_right _ _
  | feedthebeast hashes seed =>
    simp only [Luck.step, bind_eq_ok_iff, pure_eq_ok_iff] at hok
    obtain ⟨state, -, rfl⟩ := hok
    exact Nat.le_refl _
  | others σ =>
    obtain rfl := pure_eq_ok_iff.mp hok
    exact Nat.le_refl _

/-- **The bookkeeping of the lucky number.** From the state after `init`, in every run of fewer
than `2 ^ 32` blocks, whatever their rolls, in which no row of `rngcalls` names a milestone: the
singleton has the number of blocks, the number since the last lucky one and the producer of that
one; it tells how many chunks and which epochs have been sent, and in which order; and an
`onepoch` that a block sends passes the bank's check of its argument. -/
theorem luck_law {σ₀ : State} (hinit : init ctx σ₀ false = .ok σ) {tr : List LuckEvent}
    (hrun : Run Luck.step (Luck.Guard self) { state := σ } tr w)
    (hfew : w.blocks.length < 2 ^ 32) :
    ∃ a, w.state.aluckynumber = some a ∧ a.totalBlocks.toNat = w.blocks.length ∧
      a.blocksSince.toNat = sinceHit w.blocks ∧ a.producer = lastHit w.blocks ∧
      1 ≤ a.epoch.toNat ∧ a.chunksRemaining.toNat ≤ luckyNumberChunks.toNat ∧
      w.sends.countP (Inline.isOnchunk self) = (a.epoch.toNat - 1) * luckyNumberChunks.toNat +
        (luckyNumberChunks.toNat - a.chunksRemaining.toNat) ∧
      w.sends.filter Inline.isOnepoch =
        (List.range' 2 (a.epoch.toNat - 1)).map (fun e => .onepoch (UInt32.ofNat e)) ∧
      milestones self w.sends = chronicle a.epoch.toNat a.chunksRemaining.toNat ∧
      ∀ hashes host ctx header res, onblock hashes host ctx w.state header = .ok res →
        ∀ epoch, .onepoch epoch ∈ res.sends →
          ∀ (bank : Context) (vesting : Table Name Bank.Vesting), bank.hasAuth bank.self →
            Bank.onepoch bank res.state.aluckynumber vesting epoch =
              OrdMap.updateAll (Bank.finishRow bank.self epoch) vesting := by
  have hstart : σ.aluckynumber = some { producer := systemAccount } := by rw [init_ok hinit]
  have hlaw : w.blocks.length < 2 ^ 32 → ∃ a, w.state.aluckynumber = some a ∧
      LuckLaw self a w.blocks w.sends := by
    refine hrun.state_invariant (I := fun w : Luck => w.blocks.length < 2 ^ 32 →
      ∃ a, w.state.aluckynumber = some a ∧ LuckLaw self a w.blocks w.sends) ?_ ?_
    · exact fun _ => ⟨_, hstart, .start rfl⟩
    · intro w e w' hI hg hok hfew
      obtain ⟨a, ha, hlaw⟩ := hI ((Luck.length_blocks_step hok).trans_lt hfew)
      exact hlaw.step ha hg hok hfew
  obtain ⟨a, ha, hlaw⟩ := hlaw hfew
  refine ⟨a, ha, hlaw.total, hlaw.since, hlaw.producer, hlaw.epoch_pos, hlaw.remaining_le, ?_, ?_,
    hlaw.sent, ?_⟩
  · rw [countP_isOnchunk, hlaw.sent, countP_chronicle]
  · have hfilter : w.sends.filter Inline.isOnepoch =
        (milestones self w.sends).filter Inline.isOnepoch := filter_isOnepoch
    rw [hfilter, hlaw.sent, filter_chronicle]
  · intro hashes host ctx header res hok epoch hsent bank vesting hauth
    obtain ⟨a', ha', rfl⟩ := epoch_eq_of_onepoch hok hsent
    simp only [Bank.onepoch, Context.requireAuth, check, hauth, ha', singletonGet, if_true, ok_bind]

/-- Hash functions under which the first block is lucky. -/
def luckyHashes : Hashes where
  sha256 _ := Vector.replicate 32 17
  sha512 _ := Vector.replicate 64 17

/-- One lucky block: a chunk is taken from the first epoch. -/
theorem luck_law_firstBlock :
    ∃ σ w a, init systemContext {} false = .ok σ ∧
      Run Luck.step (Luck.Guard systemAccount) { state := σ }
        [.onblock luckyHashes plainHost systemContext (headerAt 1 1)] w ∧
      w.sends = [.onchunk] ∧ w.state.aluckynumber = some a ∧ a.totalBlocks.toNat = 1 ∧
      a.blocksSince.toNat = 0 ∧ a.producer = .ofString "alice" ∧
      1 = (a.epoch.toNat - 1) * luckyNumberChunks.toNat +
        (luckyNumberChunks.toNat - a.chunksRemaining.toNat) := by
  obtain ⟨σ, hinit, hstep⟩ := returns_iff.mp (show returns (init systemContext {} false) (fun σ =>
    returns (Luck.step { state := σ } (.onblock luckyHashes plainHost systemContext (headerAt 1 1)))
      fun w => σ.rngcalls.isEmpty && decide (w.sends = [.onchunk]) &&
        decide (w.blocks = [(.ofString "alice", true)])) = true by decide +kernel)
  obtain ⟨w, hw, htest⟩ := returns_iff.mp hstep
  simp only [Bool.and_eq_true, decide_eq_true_eq] at htest
  obtain ⟨⟨hempty, hsends⟩, hblocks⟩ := htest
  have hrun : Run Luck.step (Luck.Guard systemAccount) { state := σ }
      [.onblock luckyHashes plainHost systemContext (headerAt 1 1)] w := by
    refine .single ⟨rfl, ?_⟩ hw
    intro index row hrow
    rw [ExtTreeMap.isEmpty_iff.mp hempty] at hrow
    exact nomatch hrow
  obtain ⟨a, ha, htotal, hsince, hproducer, -, -, hchunks, -⟩ :=
    luck_law hinit hrun (by rw [hblocks]; decide)
  rw [hblocks] at htotal hsince hproducer
  rw [hsends] at hchunks
  exact ⟨σ, w, a, hinit, hrun, hsends, ha, htotal, hsince, hproducer, hchunks⟩

/-- A row of `rngcalls` that calls `onchunk`. -/
def onchunkCalled : State where
  rngcalls := (∅ : Table UInt64 RngCall).insert 0
    { contract := systemAccount, action := .ofString "onchunk", active := 1 }

/-- **Random calls of `onchunk`**: the first block is not lucky, no chunk has been taken, and
`onchunk` is sent. -/
theorem rngcall_sends_onchunk :
    ∃ σ w a, init systemContext onchunkCalled false = .ok σ ∧
      Run Luck.step (fun _ _ => True) { state := σ }
        [.onblock zeroHashes plainHost systemContext (headerAt 1 1)] w ∧
      w.blocks.length = 1 ∧ w.state.aluckynumber = some a ∧
      w.sends.countP (Inline.isOnchunk systemAccount) = 1 ∧
      (a.epoch.toNat - 1) * luckyNumberChunks.toNat +
        (luckyNumberChunks.toNat - a.chunksRemaining.toNat) = 0 := by
  obtain ⟨σ, hinit, hstep⟩ := returns_iff.mp (show
    returns (init systemContext onchunkCalled false) (fun σ =>
      returns
          (Luck.step { state := σ } (.onblock zeroHashes plainHost systemContext (headerAt 1 1)))
        fun w => decide (w.blocks.length = 1) &&
          decide (w.sends.countP (Inline.isOnchunk systemAccount) = 1) &&
            w.state.aluckynumber.any fun a => a.epoch = 1 ∧ a.chunksRemaining = luckyNumberChunks) =
      true by decide +kernel)
  obtain ⟨w, hw, htest⟩ := returns_iff.mp hstep
  simp only [Bool.and_eq_true, decide_eq_true_eq, Option.any_eq_true] at htest
  obtain ⟨⟨hblocks, hsent⟩, a, ha, hepoch, hremaining⟩ := htest
  refine ⟨σ, w, a, hinit, .single trivial hw, hblocks, ha, hsent, ?_⟩
  rw [hepoch, hremaining, Nat.sub_self]
  rfl

end Twig.System
