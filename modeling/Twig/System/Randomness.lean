import Twig.System.Basic
import Twig.Lib.Exact

/-!
# The randomness provider

`RandomnessProvider`, a generator over 32 bytes of seed. The hash functions are parameters
(`Hashes`); the two arrays that the constructor leaves uninitialised are written by `blend`
before anything reads them, and start with zeros here.

The halving loop of `get_uint64` is bounded by a number of rounds: `halve_lt` shows that five
always suffice.
-/

namespace Twig.System

/-- The hash functions of the chain. -/
structure Hashes where
  sha256 : Bytes → Checksum256
  sha512 : Bytes → Checksum512

def u32Max : UInt64 := 4294967295
def u64Max : UInt64 := 18446744073709551615

structure RandomnessProvider where
  seedBytes : Vector UInt8 32
  raw32 : Vector UInt8 32 := Vector.replicate 32 0
  raw64 : Vector UInt8 64 := Vector.replicate 64 0
  salt : UInt64
  cycle : UInt64 := 1

namespace RandomnessProvider

/-- The constructor. -/
def make (seed : Checksum256) (pepper : UInt64 := u32Max) : RandomnessProvider where
  seedBytes := seed
  salt := max pepper u32Max

/-- `regen`: the arrays past the seed keep what they hold. -/
def regen (rp : RandomnessProvider) (seed : Checksum256) (pepper : UInt64 := u32Max) :
    RandomnessProvider :=
  { rp with seedBytes := seed, salt := max pepper u32Max, cycle := 1 }

/-- The byte at an index, zero past the end. -/
def byteAt {n : ℕ} (bytes : Vector UInt8 n) (i : ℕ) : UInt8 := bytes.getD i 0

/-- `while (shuffle >= 32) shuffle = (shuffle >> 1) & 255`, for at most `rounds` rounds. -/
def halve : ℕ → UInt64 → UInt64
  | 0, shuffle => shuffle
  | rounds + 1, shuffle =>
    if 32 ≤ shuffle then halve rounds ((shuffle >>> 1) &&& 255) else shuffle

/-- One round of `get_uint64`, on the state, `value` and `shuffle`. -/
def mixRound (acc : RandomnessProvider × UInt64 × UInt64) :
    RandomnessProvider × UInt64 × UInt64 :=
  let (rp, value, shuffle) := acc
  let salt := (((rp.salt <<< 12) ||| ((byteAt rp.seedBytes shuffle.toNat).toUInt64 <<< 8)) |||
    (byteAt rp.seedBytes (rp.salt % 32).toNat).toUInt64) &&& u64Max
  let seedBytes := rp.seedBytes.setIfInBounds ((salt &&& 65535) % 32).toNat (salt % 255).toUInt8
  let shuffle := halve 5 (salt % (9001 * rp.cycle))
  let value := (((value <<< 16) ||| ((byteAt seedBytes (salt % 32).toNat).toUInt64 <<< 8)) |||
    (byteAt seedBytes shuffle.toNat).toUInt64) &&& u64Max
  ({ rp with seedBytes, salt, cycle := rp.cycle + 1 }, value, shuffle)

def getUint64 (rp : RandomnessProvider) : UInt64 × RandomnessProvider :=
  -- the cycle is brought back before thirteen more rounds could pass 296
  let rp := if 283 < rp.cycle then { rp with cycle := rp.salt % 88 + 1 } else rp
  let (rp, value, _) := mixRound^[13] (rp, u32Max, 0)
  (value, rp)

/-- `get_rand`, its product of doubles read on fractions. -/
def getRand (rp : RandomnessProvider) (maxValue : UInt32) : UInt32 × RandomnessProvider :=
  let (roll, rp) := rp.getUint64
  if 65535 ≤ maxValue then ((roll % maxValue.toUInt64).toUInt32, rp)
  else
    (.ofInt (Rat.truncate ((roll % 1000000).toNat * (maxValue.toNat / 1000000 : ℚ))), rp)

/-- `get_seed`. -/
def getSeed (hashes : Hashes) (rp : RandomnessProvider) (pepper : UInt64 := u32Max) :
    Checksum256 × RandomnessProvider :=
  let pepper := if 1000 < pepper then pepper else u32Max
  let rp := { rp with
    seedBytes := rp.seedBytes.setIfInBounds (pepper % 32).toNat (pepper % 256).toUInt8 }
  let (roll, rp) := rp.getRand pepper.toUInt32
  let mixer := roll.toUInt64
  let seedBytes := rp.seedBytes.setIfInBounds (mixer % 32).toNat (mixer % 256).toUInt8
  let newSeed := hashes.sha256 seedBytes.toList
  (newSeed, { rp with seedBytes := newSeed })

/-- `blend`; its pepper is not read. -/
def blend (hashes : Hashes) (rp : RandomnessProvider) (seed : Checksum256)
    (_pepper : UInt64 := u32Max) : RandomnessProvider :=
  let mixed : Vector UInt8 64 := .ofFn fun i =>
    byteAt (if i.val % 2 = 0 then seed else rp.seedBytes) (i.val / 2)
  let raw64 := hashes.sha512 mixed.toList
  { rp with
    raw64
    raw32 := .ofFn fun i => byteAt raw64 (i.val * 3 / 2 + 4)
    seedBytes := .ofFn fun i => byteAt raw64 (i.val * 2) }

def getBlend (hashes : Hashes) (rp : RandomnessProvider) (seed : Checksum256)
    (pepper : UInt64 := u32Max) : Checksum256 × RandomnessProvider :=
  let rp := rp.blend hashes seed pepper
  (hashes.sha256 rp.raw32.toList, rp)

theorem toNat_shiftRight_and (shuffle : UInt64) :
    ((shuffle >>> 1) &&& 255).toNat = shuffle.toNat / 2 % 256 := by
  rw [UInt64.toNat_and_two_pow_sub_one (n := 8) rfl, UInt64.toNat_shiftRight_of_lt (by decide)]
  rfl

theorem halve_lt_of_lt {rounds : ℕ} {shuffle : UInt64} (h : shuffle.toNat < 32 * 2 ^ rounds) :
    (halve rounds shuffle).toNat < 32 := by
  induction rounds generalizing shuffle with
  | zero => simpa [halve] using h
  | succ rounds ih =>
    rw [halve]
    split_ifs with hge
    · refine ih ?_
      rw [toNat_shiftRight_and]
      rw [pow_succ] at h
      omega
    · have hlt := UInt64.not_le.mp hge
      exact UInt64.lt_iff_toNat_lt.mp hlt

/-- Five rounds bring any value below 32, an index into the seed. -/
theorem halve_lt (shuffle : UInt64) : (halve 5 shuffle).toNat < 32 := by
  rw [halve]
  split_ifs with hge
  · refine halve_lt_of_lt ?_
    rw [toNat_shiftRight_and]
    omega
  · exact UInt64.lt_iff_toNat_lt.mp (UInt64.not_le.mp hge)

end RandomnessProvider

end Twig.System
