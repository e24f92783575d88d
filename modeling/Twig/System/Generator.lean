import Twig.System.Randomness

/-!
# The safety of the randomness provider

`RandomnessProvider` once more, with everything that can go wrong in it as an error of its own
(`Misstep`): an index past the end of an array, a modulus of zero, the halving loop after five
rounds, and a `cycle` outside of its range. The array and the counters are indices and moduli of
each other, and the one thing that keeps them in bounds is the range of `cycle`.

* `round_eq` — a round of `get_uint64` makes no misstep, and counts `cycle` up;
* `getUint64_eq` and its companions — the functions are those of `Twig.System.Randomness`;
* `generator_safe` — no calls, in any number and order, make a misstep.
-/

namespace Twig.System

open Fallible

/-- What a function of the provider could do wrong. -/
inductive Misstep
  | outOfBounds
  | zeroModulus
  | endless
  | cycleOutOfRange
deriving DecidableEq, Repr

namespace Generator

open RandomnessProvider

/-! ### Steps that are checked -/

section Steps

variable {n : ℕ}

/-- `bytes[i]`, read. -/
def readAt (bytes : Vector UInt8 n) (i : ℕ) : Except Misstep UInt8 :=
  if i < n then .ok (byteAt bytes i) else .error .outOfBounds

/-- `bytes[i]`, written. -/
def writeAt (bytes : Vector UInt8 n) (i : ℕ) (byte : UInt8) : Except Misstep (Vector UInt8 n) :=
  if i < n then .ok (bytes.setIfInBounds i byte) else .error .outOfBounds

/-- `a % m`. -/
def modulo (a m : UInt64) : Except Misstep UInt64 :=
  if m = 0 then .error .zeroModulus else .ok (a % m)

/-- `cycle`, written. -/
def setCycle (rp : RandomnessProvider) (cycle : UInt64) : Except Misstep RandomnessProvider :=
  if 1 ≤ cycle ∧ cycle ≤ 296 then .ok { rp with cycle } else .error .cycleOutOfRange

/-- The halving loop, which is to end within a number of rounds. -/
def halve : ℕ → UInt64 → Except Misstep UInt64
  | 0, shuffle => if 32 ≤ shuffle then .error .endless else .ok shuffle
  | rounds + 1, shuffle =>
    if 32 ≤ shuffle then halve rounds ((shuffle >>> 1) &&& 255) else .ok shuffle

theorem readAt_eq {bytes : Vector UInt8 n} {i : ℕ} (h : i < n) :
    readAt bytes i = .ok (byteAt bytes i) :=
  if_pos h

theorem writeAt_eq {bytes : Vector UInt8 n} {i : ℕ} {byte : UInt8} (h : i < n) :
    writeAt bytes i byte = .ok (bytes.setIfInBounds i byte) :=
  if_pos h

theorem modulo_eq {a m : UInt64} (h : m ≠ 0) : modulo a m = .ok (a % m) :=
  if_neg h

theorem toNat_mod_32_lt (a : UInt64) : (a % 32).toNat < 32 := by
  rw [UInt64.toNat_mod]
  exact Nat.mod_lt _ (by decide)

/-- Where the loop has ended in time, it has ended with what it halves to. -/
theorem halve_eq_of_lt {rounds : ℕ} {shuffle : UInt64}
    (h : (RandomnessProvider.halve rounds shuffle).toNat < 32) :
    halve rounds shuffle = .ok (RandomnessProvider.halve rounds shuffle) := by
  induction rounds generalizing shuffle with
  | zero =>
    rw [RandomnessProvider.halve] at h ⊢
    rw [halve, if_neg]
    exact UInt64.not_le.mpr (UInt64.lt_iff_toNat_lt.mpr h)
  | succ rounds ih =>
    rw [RandomnessProvider.halve] at h ⊢
    rw [halve]
    split_ifs at h ⊢ with hge
    · exact ih h
    · rfl

/-- Five rounds are enough. -/
theorem halve_eq (shuffle : UInt64) :
    halve 5 shuffle = .ok (RandomnessProvider.halve 5 shuffle) :=
  halve_eq_of_lt (halve_lt shuffle)

end Steps

/-! ### The functions of the provider -/

/-- A round of `get_uint64`, on the state, `value` and `shuffle`. -/
def round (acc : RandomnessProvider × UInt64 × UInt64) :
    Except Misstep (RandomnessProvider × UInt64 × UInt64) := do
  let (rp, value, shuffle) := acc
  let high ← readAt rp.seedBytes shuffle.toNat
  let low ← readAt rp.seedBytes (← modulo rp.salt 32).toNat
  let salt := (((rp.salt <<< 12) ||| (high.toUInt64 <<< 8)) ||| low.toUInt64) &&& u64Max
  let seedBytes ← writeAt rp.seedBytes (← modulo (salt &&& 65535) 32).toNat
    (← modulo salt 255).toUInt8
  let shuffle ← halve 5 (← modulo salt (9001 * rp.cycle))
  let high ← readAt seedBytes (← modulo salt 32).toNat
  let low ← readAt seedBytes shuffle.toNat
  let value := (((value <<< 16) ||| (high.toUInt64 <<< 8)) ||| low.toUInt64) &&& u64Max
  let rp ← setCycle { rp with seedBytes, salt } (rp.cycle + 1)
  pure (rp, value, shuffle)

/-- The rounds of `get_uint64`. -/
def rounds : ℕ → RandomnessProvider × UInt64 × UInt64 →
    Except Misstep (RandomnessProvider × UInt64 × UInt64)
  | 0, acc => pure acc
  | n + 1, acc => do
    let acc ← round acc
    rounds n acc

/-- What `get_uint64` begins with. -/
def bringBack (rp : RandomnessProvider) : Except Misstep RandomnessProvider :=
  if 283 < rp.cycle then do
    let salt ← modulo rp.salt 88
    setCycle rp (salt + 1)
  else pure rp

def getUint64 (rp : RandomnessProvider) : Except Misstep (UInt64 × RandomnessProvider) := do
  let rp ← bringBack rp
  let (rp, value, _) ← rounds 13 (rp, u32Max, 0)
  pure (value, rp)

/-- `get_rand`. -/
def getRand (rp : RandomnessProvider) (maxValue : UInt32) :
    Except Misstep (UInt32 × RandomnessProvider) := do
  let (roll, rp) ← getUint64 rp
  if 65535 ≤ maxValue then
    let roll ← modulo roll maxValue.toUInt64
    pure (roll.toUInt32, rp)
  else
    let roll ← modulo roll 1000000
    pure (.ofInt (Rat.truncate (roll.toNat * (maxValue.toNat / 1000000 : ℚ))), rp)

/-- `get_seed`. -/
def getSeed (hashes : Hashes) (rp : RandomnessProvider) (pepper : UInt64 := u32Max) :
    Except Misstep (Checksum256 × RandomnessProvider) := do
  let pepper := if 1000 < pepper then pepper else u32Max
  let seedBytes ← writeAt rp.seedBytes (← modulo pepper 32).toNat (← modulo pepper 256).toUInt8
  let (roll, rp) ← getRand { rp with seedBytes } pepper.toUInt32
  let mixer := roll.toUInt64
  let seedBytes ← writeAt rp.seedBytes (← modulo mixer 32).toNat (← modulo mixer 256).toUInt8
  let newSeed := hashes.sha256 seedBytes.toList
  pure (newSeed, { rp with seedBytes := newSeed })

/-- The first loop of `blend` after `n` rounds: the seed and the bytes of the state in turn. -/
def interleave (raw32 seedBytes : Vector UInt8 32) (raw64 : Vector UInt8 64) (n : ℕ) :
    Except Misstep (Vector UInt8 64) :=
  (List.range n).foldlM (fun raw64 i => do
    let raw64 ← writeAt raw64 (i * 2) (← readAt raw32 i)
    writeAt raw64 (i * 2 + 1) (← readAt seedBytes i)) raw64

/-- The second loop of `blend` after `n` rounds: `raw32` and the bytes of the state. -/
def pick (raw64 : Vector UInt8 64) (raw32 seedBytes : Vector UInt8 32) (n : ℕ) :
    Except Misstep (Vector UInt8 32 × Vector UInt8 32) :=
  (List.range n).foldlM (fun acc i => do
    let raw32 ← writeAt acc.1 i (← readAt raw64 (i * 3 / 2 + 4))
    let seedBytes ← writeAt acc.2 i (← readAt raw64 (i * 2))
    pure (raw32, seedBytes)) (raw32, seedBytes)

/-- `blend`. -/
def blend (hashes : Hashes) (rp : RandomnessProvider) (seed : Checksum256)
    (_pepper : UInt64 := u32Max) : Except Misstep RandomnessProvider := do
  let raw64 ← interleave seed rp.seedBytes rp.raw64 32
  let raw64 := hashes.sha512 raw64.toList
  let (raw32, seedBytes) ← pick raw64 seed rp.seedBytes 32
  pure { rp with raw64, raw32, seedBytes }

def getBlend (hashes : Hashes) (rp : RandomnessProvider) (seed : Checksum256)
    (pepper : UInt64 := u32Max) : Except Misstep (Checksum256 × RandomnessProvider) := do
  let rp ← blend hashes rp seed pepper
  pure (hashes.sha256 rp.raw32.toList, rp)

def regen (rp : RandomnessProvider) (seed : Checksum256) (pepper : UInt64 := u32Max) :
    Except Misstep RandomnessProvider :=
  setCycle { rp with seedBytes := seed, salt := max pepper u32Max } 1

/-! ### No misstep in `get_uint64` -/

/-- `cycle` is in its range, with room for `n` more rounds. -/
structure Room (n : ℕ) (rp : RandomnessProvider) : Prop where
  lower : 1 ≤ rp.cycle.toNat
  upper : rp.cycle.toNat + n ≤ 296

section Rounds

variable {rp : RandomnessProvider} {n : ℕ}

theorem setCycle_eq {cycle : UInt64} (hlower : 1 ≤ cycle.toNat) (hupper : cycle.toNat ≤ 296) :
    setCycle rp cycle = .ok { rp with cycle } :=
  if_pos ⟨UInt64.le_iff_toNat_le.mpr hlower, UInt64.le_iff_toNat_le.mpr hupper⟩

theorem Room.toNat_succ (h : Room (n + 1) rp) : (rp.cycle + 1).toNat = rp.cycle.toNat + 1 := by
  have hupper := h.upper
  exact UInt64.toNat_add_one (by omega)

/-- What leaves `cycle` as it is leaves the room. -/
theorem Room.of_cycle_eq {rp' : RandomnessProvider} (h : Room n rp) (heq : rp'.cycle = rp.cycle) :
    Room n rp' :=
  ⟨heq ▸ h.lower, heq ▸ h.upper⟩

/-- The modulus that takes part in the mixing. -/
theorem Room.modulus_ne_zero (h : Room n rp) : 9001 * rp.cycle ≠ 0 := by
  have hlower := h.lower
  have hupper := h.upper
  have hexact : (9001 * rp.cycle).toNat = 9001 * rp.cycle.toNat := by
    rw [UInt64.toNat_mul]
    exact Nat.mod_eq_of_lt (by show 9001 * rp.cycle.toNat < 2 ^ 64; omega)
  intro hzero
  rw [hzero, UInt64.toNat_zero] at hexact
  omega

/-- **A round makes no misstep.** It uses up room for one, and leaves an index behind. -/
theorem round_eq (value : UInt64) {shuffle : UInt64} (h : Room (n + 1) rp)
    (hshuffle : shuffle.toNat < 32) :
    round (rp, value, shuffle) = .ok (mixRound (rp, value, shuffle)) ∧
      Room n (mixRound (rp, value, shuffle)).1 ∧
      (mixRound (rp, value, shuffle)).2.2.toNat < 32 := by
  have hsucc := h.toNat_succ
  have hlower := h.lower
  have hupper := h.upper
  have hcycle (rp' : RandomnessProvider) :
      setCycle rp' (rp.cycle + 1) = .ok { rp' with cycle := rp.cycle + 1 } :=
    setCycle_eq (by omega) (by omega)
  refine ⟨?_, ⟨?_, ?_⟩, halve_lt _⟩
  · rw [round]
    dsimp only
    rw [readAt_eq hshuffle, ok_bind, modulo_eq (by decide), ok_bind,
      readAt_eq (toNat_mod_32_lt _), ok_bind, modulo_eq (by decide), ok_bind,
      modulo_eq (by decide), ok_bind, writeAt_eq (toNat_mod_32_lt _), ok_bind,
      modulo_eq h.modulus_ne_zero, ok_bind, halve_eq, ok_bind, modulo_eq (by decide), ok_bind,
      readAt_eq (toNat_mod_32_lt _), ok_bind, readAt_eq (halve_lt _), ok_bind, hcycle]
    rfl
  · show 1 ≤ (rp.cycle + 1).toNat
    omega
  · show (rp.cycle + 1).toNat + n ≤ 296
    omega

theorem rounds_eq : ∀ {n : ℕ} {rp : RandomnessProvider} (value : UInt64) {shuffle : UInt64},
    Room n rp → shuffle.toNat < 32 →
      rounds n (rp, value, shuffle) = .ok (mixRound^[n] (rp, value, shuffle)) ∧
        Room 0 (mixRound^[n] (rp, value, shuffle)).1 := by
  intro n
  induction n with
  | zero => exact fun _ _ h _ => ⟨rfl, h⟩
  | succ n ih =>
    intro rp value shuffle h hshuffle
    obtain ⟨hround, hroom, hindex⟩ := round_eq value h hshuffle
    obtain ⟨hrest, hend⟩ := ih _ hroom hindex
    rw [rounds, hround, Function.iterate_succ_apply]
    exact ⟨hrest, hend⟩

/-- What `get_uint64` begins with leaves room for thirteen rounds. -/
theorem bringBack_eq (h : Room 0 rp) : ∃ rp', bringBack rp = .ok rp' ∧ Room 13 rp' ∧
    rp' = if 283 < rp.cycle then { rp with cycle := rp.salt % 88 + 1 } else rp := by
  have hlower := h.lower
  rw [bringBack]
  split_ifs with hfar
  · have hlt : (rp.salt % 88).toNat < 88 := by
      rw [UInt64.toNat_mod]
      exact Nat.mod_lt _ (by decide)
    have hcycle : (rp.salt % 88 + 1).toNat = (rp.salt % 88).toNat + 1 :=
      UInt64.toNat_add_one (by omega)
    rw [modulo_eq (by decide), ok_bind, setCycle_eq (by omega) (by omega)]
    refine ⟨_, rfl, ⟨?_, ?_⟩, rfl⟩
    · show 1 ≤ (rp.salt % 88 + 1).toNat
      omega
    · show (rp.salt % 88 + 1).toNat + 13 ≤ 296
      omega
  · rw [UInt64.not_lt, UInt64.le_iff_toNat_le] at hfar
    exact ⟨rp, rfl, ⟨hlower, Nat.add_le_add_right hfar 13⟩, rfl⟩

theorem getUint64_eq (h : Room 0 rp) :
    getUint64 rp = .ok rp.getUint64 ∧ Room 0 rp.getUint64.2 := by
  obtain ⟨rp', hback, hroom, heq⟩ := bringBack_eq h
  obtain ⟨hrounds, hend⟩ := rounds_eq u32Max hroom (by decide : (0 : UInt64).toNat < 32)
  rw [getUint64, hback, ok_bind, hrounds, ok_bind, RandomnessProvider.getUint64, ← heq]
  exact ⟨rfl, hend⟩

end Rounds

/-! ### No misstep in the other functions -/

section Functions

variable {hashes : Hashes} {rp : RandomnessProvider}

theorem getRand_eq (h : Room 0 rp) (maxValue : UInt32) :
    getRand rp maxValue = .ok (rp.getRand maxValue) ∧ Room 0 (rp.getRand maxValue).2 := by
  obtain ⟨hok, hroom⟩ := getUint64_eq h
  rw [getRand, hok, ok_bind, RandomnessProvider.getRand]
  dsimp only
  split_ifs with hlarge
  · have hne : maxValue.toUInt64 ≠ 0 := by
      intro hzero
      have hnat : maxValue.toUInt64.toNat = 0 := by rw [hzero, UInt64.toNat_zero]
      rw [UInt32.toNat_toUInt64] at hnat
      rw [UInt32.le_iff_toNat_le, hnat] at hlarge
      exact absurd hlarge (by decide)
    rw [modulo_eq hne]
    exact ⟨rfl, hroom⟩
  · rw [modulo_eq (by decide)]
    exact ⟨rfl, hroom⟩

theorem getSeed_eq (hashes : Hashes) (h : Room 0 rp) (pepper : UInt64) :
    getSeed hashes rp pepper = .ok (rp.getSeed hashes pepper) ∧
      Room 0 (rp.getSeed hashes pepper).2 := by
  rw [getSeed, RandomnessProvider.getSeed]
  obtain ⟨pepper', hpepper⟩ :
    ∃ pepper', (if 1000 < pepper then pepper else u32Max) = pepper' := ⟨_, rfl⟩
  simp only [hpepper]
  have hstart : Room 0 { rp with
      seedBytes := rp.seedBytes.setIfInBounds (pepper' % 32).toNat (pepper' % 256).toUInt8 } :=
    h.of_cycle_eq rfl
  obtain ⟨hok, hroom⟩ := getRand_eq hstart pepper'.toUInt32
  rw [modulo_eq (by decide), ok_bind, modulo_eq (by decide), ok_bind,
    writeAt_eq (toNat_mod_32_lt _), ok_bind, hok, ok_bind, modulo_eq (by decide), ok_bind,
    modulo_eq (by decide), ok_bind, writeAt_eq (toNat_mod_32_lt _)]
  exact ⟨rfl, hroom.of_cycle_eq rfl⟩

theorem regen_eq (rp : RandomnessProvider) (seed : Checksum256) (pepper : UInt64) :
    regen rp seed pepper = .ok (rp.regen seed pepper) ∧ Room 0 (rp.regen seed pepper) :=
  ⟨rfl, ⟨Nat.le_refl 1, by show (1 : UInt64).toNat + 0 ≤ 296; decide⟩⟩

theorem room_make (seed : Checksum256) (pepper : UInt64) : Room 0 (make seed pepper) :=
  ⟨Nat.le_refl 1, by show (1 : UInt64).toNat + 0 ≤ 296; decide⟩

theorem getElem_eq_byteAt {n : ℕ} {bytes : Vector UInt8 n} {i : ℕ} (h : i < n) :
    bytes[i] = byteAt bytes i := by
  simp [byteAt, Vector.getD, h]

/-- The first loop of `blend`, after `n` of its rounds. -/
theorem interleave_eq (raw32 seedBytes : Vector UInt8 32) (raw64 : Vector UInt8 64) {n : ℕ}
    (h : n ≤ 32) : interleave raw32 seedBytes raw64 n = .ok (.ofFn fun j => if j.val < n * 2
      then byteAt (if j.val % 2 = 0 then raw32 else seedBytes) (j.val / 2)
      else byteAt raw64 j.val) := by
  induction n with
  | zero =>
    refine congrArg Except.ok (Vector.ext fun j hj => ?_)
    rw [Vector.getElem_ofFn, if_neg (by omega), getElem_eq_byteAt]
  | succ n ih =>
    rw [interleave, List.range_succ, List.foldlM_append, ← interleave, ih (by omega), ok_bind,
      List.foldlM_cons, readAt_eq (by omega), ok_bind, writeAt_eq (by omega), ok_bind,
      readAt_eq (by omega), ok_bind, writeAt_eq (by omega)]
    refine congrArg Except.ok (Vector.ext fun j hj => ?_)
    rw [Vector.getElem_setIfInBounds, Vector.getElem_setIfInBounds, Vector.getElem_ofFn,
      Vector.getElem_ofFn]
    dsimp only
    rcases eq_or_ne (n * 2 + 1) j with rfl | hodd
    · have hhalf : (n * 2 + 1) / 2 = n := by omega
      rw [if_pos rfl, if_pos (by omega), if_neg (by omega), hhalf]
    · rw [if_neg hodd]
      rcases eq_or_ne (n * 2) j with rfl | heven
      · rw [if_pos rfl, if_pos (by omega), if_pos (by omega), Nat.mul_div_cancel n (by decide)]
      · rw [if_neg heven]
        exact if_congr (by omega) rfl rfl

/-- An array that is filled from the front, one entry further. -/
theorem setIfInBounds_filled (bytes : Vector UInt8 32) (f : ℕ → UInt8) (n : ℕ) :
    Vector.setIfInBounds
        (.ofFn fun j : Fin 32 => if j.val < n then f j.val else byteAt bytes j.val) n (f n) =
      .ofFn fun j => if j.val < n + 1 then f j.val else byteAt bytes j.val := by
  refine Vector.ext fun j hj => ?_
  rw [Vector.getElem_setIfInBounds, Vector.getElem_ofFn, Vector.getElem_ofFn]
  dsimp only
  rcases eq_or_ne n j with rfl | hne
  · rw [if_pos rfl, if_pos (Nat.lt_succ_self n)]
  · rw [if_neg hne]
    exact if_congr (by omega) rfl rfl

/-- The second loop of `blend`, after `n` of its rounds. -/
theorem pick_eq (raw64 : Vector UInt8 64) (raw32 seedBytes : Vector UInt8 32) {n : ℕ}
    (h : n ≤ 32) : pick raw64 raw32 seedBytes n = .ok
      (.ofFn fun j => if j.val < n then byteAt raw64 (j.val * 3 / 2 + 4) else byteAt raw32 j.val,
        .ofFn fun j => if j.val < n then byteAt raw64 (j.val * 2)
          else byteAt seedBytes j.val) := by
  induction n with
  | zero =>
    refine congrArg Except.ok (Prod.ext (Vector.ext fun j hj => ?_) (Vector.ext fun j hj => ?_))
    · rw [Vector.getElem_ofFn, if_neg (Nat.not_lt_zero j), getElem_eq_byteAt]
    · rw [Vector.getElem_ofFn, if_neg (Nat.not_lt_zero j), getElem_eq_byteAt]
  | succ n ih =>
    rw [pick, List.range_succ, List.foldlM_append, ← pick, ih (by omega), ok_bind,
      List.foldlM_cons, readAt_eq (by omega), ok_bind, writeAt_eq (by omega), ok_bind,
      readAt_eq (by omega), ok_bind, writeAt_eq (by omega)]
    refine congrArg Except.ok (Prod.ext ?_ ?_)
    · exact setIfInBounds_filled raw32 (fun j => byteAt raw64 (j * 3 / 2 + 4)) n
    · exact setIfInBounds_filled seedBytes (fun j => byteAt raw64 (j * 2)) n

/-- All 64 bytes are written, whatever they were. -/
theorem interleave_all (raw32 seedBytes : Vector UInt8 32) (raw64 : Vector UInt8 64) :
    interleave raw32 seedBytes raw64 32 = .ok (.ofFn fun j =>
      byteAt (if j.val % 2 = 0 then raw32 else seedBytes) (j.val / 2)) := by
  rw [interleave_eq _ _ _ (Nat.le_refl 32)]
  exact congrArg (fun f => Except.ok (Vector.ofFn f)) (funext fun j => if_pos j.isLt)

theorem blend_eq (rp : RandomnessProvider) (seed : Checksum256) (pepper : UInt64) :
    blend hashes rp seed pepper = .ok (rp.blend hashes seed pepper) := by
  have hpicked (raw64 : Vector UInt8 64) : pick raw64 seed rp.seedBytes 32 = .ok
      (.ofFn fun j => byteAt raw64 (j.val * 3 / 2 + 4),
        .ofFn fun j => byteAt raw64 (j.val * 2)) := by
    rw [pick_eq _ _ _ (Nat.le_refl 32)]
    refine congrArg Except.ok (Prod.ext ?_ ?_)
    · exact congrArg Vector.ofFn (funext fun j => if_pos j.isLt)
    · exact congrArg Vector.ofFn (funext fun j => if_pos j.isLt)
  rw [blend, interleave_all, ok_bind]
  dsimp only
  rw [hpicked]
  rfl

theorem cycle_blend (rp : RandomnessProvider) (seed : Checksum256) (pepper : UInt64) :
    (rp.blend hashes seed pepper).cycle = rp.cycle := by
  simp only [RandomnessProvider.blend]

theorem getBlend_eq (rp : RandomnessProvider) (seed : Checksum256) (pepper : UInt64) :
    getBlend hashes rp seed pepper = .ok (rp.getBlend hashes seed pepper) := by
  rw [getBlend, blend_eq]
  rfl

end Functions

/-! ### The range of `get_rand` -/

/-- **The range.** A roll is below its bound, and 0 where the bound is. -/
theorem getRand_range (rp : RandomnessProvider) (maxValue : UInt32) :
    (1 ≤ maxValue → (rp.getRand maxValue).1 < maxValue) ∧
      (maxValue = 0 → (rp.getRand maxValue).1 = 0) := by
  obtain ⟨roll, hroll⟩ : ∃ roll, rp.getUint64.1 = roll := ⟨_, rfl⟩
  rw [RandomnessProvider.getRand]
  dsimp only
  rw [hroll]
  split_ifs with hlarge
  · rw [UInt32.le_iff_toNat_le] at hlarge
    have hpos : 0 < maxValue.toNat := (by decide : 0 < (65535 : UInt32).toNat).trans_le hlarge
    have hmod : (roll % maxValue.toUInt64).toNat < maxValue.toNat := by
      rw [UInt64.toNat_mod, UInt32.toNat_toUInt64]
      exact Nat.mod_lt _ hpos
    refine ⟨fun _ => ?_, ?_⟩
    · rw [UInt32.lt_iff_toNat_lt, UInt64.toNat_toUInt32]
      exact (Nat.mod_le _ _).trans_lt hmod
    · rintro rfl
      exact absurd hpos (by decide)
  · have hmod : (roll % 1000000).toNat < 1000000 := by
      rw [UInt64.toNat_mod]
      exact Nat.mod_lt _ (by decide)
    have htruncate : Rat.truncate ((roll % 1000000).toNat * (maxValue.toNat / 1000000 : ℚ)) =
        ((roll % 1000000).toNat * maxValue.toNat / 1000000 : ℕ) := by
      have h := Rat.truncate_mul_div (Int.natCast_nonneg (roll % 1000000).toNat) maxValue.toNat
        1000000
      push_cast at h ⊢
      exact h
    have hbelow (hpos : 0 < maxValue.toNat) :
        (roll % 1000000).toNat * maxValue.toNat / 1000000 < maxValue.toNat := by
      rw [Nat.div_lt_iff_lt_mul (by decide), mul_comm]
      exact Nat.mul_lt_mul_of_pos_left hmod hpos
    rw [htruncate]
    refine ⟨fun hpos => ?_, ?_⟩
    · have hlt := hbelow (UInt32.le_iff_toNat_le.mp hpos)
      rw [UInt32.lt_iff_toNat_lt, UInt32.toNat_ofInt_natCast (hlt.trans maxValue.toNat_lt)]
      exact hlt
    · rintro rfl
      rw [UInt32.toNat_zero, Nat.mul_zero, Nat.zero_div]
      rfl

/-! ### Any calls -/

/-- A call of the provider. -/
inductive Call
  | regen (seed : Checksum256) (pepper : UInt64)
  | getSeed (pepper : UInt64)
  | blend (seed : Checksum256) (pepper : UInt64)
  | getBlend (seed : Checksum256) (pepper : UInt64)
  | getUint64
  | getRand (maxValue : UInt32)

/-- The provider after a call. -/
def step (hashes : Hashes) (rp : RandomnessProvider) : Call → Except Misstep RandomnessProvider
  | .regen seed pepper => regen rp seed pepper
  | .getSeed pepper => do
    let (_, rp) ← getSeed hashes rp pepper
    pure rp
  | .blend seed pepper => blend hashes rp seed pepper
  | .getBlend seed pepper => do
    let (_, rp) ← getBlend hashes rp seed pepper
    pure rp
  | .getUint64 => do
    let (_, rp) ← getUint64 rp
    pure rp
  | .getRand maxValue => do
    let (_, rp) ← getRand rp maxValue
    pure rp

/-- **A call makes no misstep**, and leaves `cycle` in its range. -/
theorem step_spec {hashes : Hashes} {rp : RandomnessProvider} (h : Room 0 rp) (c : Call) :
    ∃ rp', step hashes rp c = .ok rp' ∧ Room 0 rp' := by
  cases c with
  | regen seed pepper => exact ⟨_, regen_eq rp seed pepper⟩
  | getSeed pepper =>
    obtain ⟨hok, hroom⟩ := getSeed_eq hashes h pepper
    exact ⟨_, by rw [step, hok]; rfl, hroom⟩
  | blend seed pepper =>
    exact ⟨_, blend_eq rp seed pepper, h.of_cycle_eq (cycle_blend rp seed pepper)⟩
  | getBlend seed pepper =>
    refine ⟨rp.blend hashes seed pepper, ?_, h.of_cycle_eq (cycle_blend rp seed pepper)⟩
    rw [step, getBlend_eq]
    rfl
  | getUint64 =>
    obtain ⟨hok, hroom⟩ := getUint64_eq h
    exact ⟨_, by rw [step, hok]; rfl, hroom⟩
  | getRand maxValue =>
    obtain ⟨hok, hroom⟩ := getRand_eq h maxValue
    exact ⟨_, by rw [step, hok]; rfl, hroom⟩

theorem run_spec (hashes : Hashes) {rp : RandomnessProvider} (h : Room 0 rp)
    (calls : List Call) :
    ∃ rp', calls.foldlM (step hashes) rp = .ok rp' ∧ Room 0 rp' :=
  exists_foldlM (fun c _ _ hroom => step_spec hroom c) h

/-- **The provider is safe.** For every seed and pepper, and whatever the hash functions yield: no
sequence of calls reads or writes past the end of an array, takes a remainder by zero, leaves the
halving loop running after five rounds or writes to `cycle` a number outside of 1 to 296. After
it `cycle` is in that range, and `get_rand` returns a value below its bound, or 0 for a bound
of 0. -/
theorem generator_safe (hashes : Hashes) (seed : Checksum256) (pepper : UInt64)
    (calls : List Call) :
    ∃ rp, calls.foldlM (step hashes) (make seed pepper) = .ok rp ∧
      1 ≤ rp.cycle ∧ rp.cycle ≤ 296 ∧
      ∀ maxValue, ∃ roll rp', getRand rp maxValue = .ok (roll, rp') ∧
        (1 ≤ maxValue → roll < maxValue) ∧ (maxValue = 0 → roll = 0) := by
  obtain ⟨rp, hcalls, hroom⟩ := run_spec hashes (room_make seed pepper) calls
  have hlower : (1 : UInt64).toNat ≤ rp.cycle.toNat := hroom.lower
  have hupper : rp.cycle.toNat ≤ (296 : UInt64).toNat := hroom.upper
  refine ⟨rp, hcalls, UInt64.le_iff_toNat_le.mpr hlower, UInt64.le_iff_toNat_le.mpr hupper, ?_⟩
  intro maxValue
  obtain ⟨hok, -⟩ := getRand_eq hroom maxValue
  obtain ⟨hlt, hzero⟩ := getRand_range rp maxValue
  exact ⟨(rp.getRand maxValue).1, (rp.getRand maxValue).2, hok, hlt, hzero⟩

end Generator

end Twig.System
