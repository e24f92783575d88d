import Twig.System.Generator
import Twig.System.Schedule

/-!
# What a pepper does

The constructor of `RandomnessProvider` and `get_blend` take a pepper besides the seed, by which
`onblock` means to tell blocks and producers apart, and `process_rng_calls` contracts.

* `make_ne_iff` — the constructor raises a pepper to `u32_max` at least, and the peppers of
  `onblock` are numbers of blocks, far below that (`make_totalBlocks`);
* `getBlendFed_eq` — `blend` adjusts its pepper and then mixes without it;
* `pepper_never_matters` — so no two peppers are told apart by both.
-/

namespace Twig.System

open RandomnessProvider

/-! ### The constructor -/

/-- The salt that a pepper makes. -/
theorem max_u32Max_eq (pepper : UInt64) :
    max pepper u32Max = if pepper ≤ u32Max then u32Max else pepper := rfl

/-- **The constructor** tells two peppers apart exactly when one of them exceeds `u32_max`. -/
theorem make_ne_iff {seed : Checksum256} {p q : UInt64} :
    make seed p ≠ make seed q ↔ p ≠ q ∧ (u32Max < p ∨ u32Max < q) := by
  have hsalt : make seed p = make seed q ↔ max p u32Max = max q u32Max := by
    simp [make]
  rw [Ne, hsalt, max_u32Max_eq, max_u32Max_eq]
  split_ifs with hp hq hq
  · have hlow : ¬ (u32Max < p ∨ u32Max < q) := by
      rintro (h | h)
      · exact UInt64.not_lt.mpr hp h
      · exact UInt64.not_lt.mpr hq h
    exact iff_of_false (not_not.mpr rfl) fun h => hlow h.2
  · have hlt : u32Max < q := UInt64.not_le.mp hq
    refine iff_of_true (fun heq => hq (heq ▸ UInt64.le_refl _)) ⟨?_, .inr hlt⟩
    rintro rfl
    exact hq hp
  · have hlt : u32Max < p := UInt64.not_le.mp hp
    refine iff_of_true (fun heq => hp (heq ▸ UInt64.le_refl _)) ⟨?_, .inl hlt⟩
    rintro rfl
    exact hp hq
  · exact ⟨fun hne => ⟨hne, .inl (UInt64.not_le.mp hp)⟩, fun h => h.1⟩

/-- For the first `2 ^ 32 - 1` blocks `onblock` has a generator that knows the seed alone. -/
theorem make_totalBlocks {seed : Checksum256} {totalBlocks : UInt64}
    (h : totalBlocks.toNat + 1 < 2 ^ 32) : make seed (totalBlocks + 1) = make seed := by
  have hle : totalBlocks + 1 ≤ u32Max := by
    rw [UInt64.le_iff_toNat_le, UInt64.toNat_add_one (by omega)]
    exact Nat.le_of_lt_succ h
  by_contra hne
  obtain ⟨-, hhigh | hhigh⟩ := make_ne_iff.mp hne
  · exact UInt64.not_lt.mpr hle hhigh
  · exact absurd hhigh (by decide)

/-! ### The blending -/

section Blend

variable {hashes : Hashes} {rp : RandomnessProvider} {seed : Checksum256}

/-- The bytes that `blend` feeds to `sha512`. -/
def blendFed (rp : RandomnessProvider) (seed : Checksum256) (pepper : UInt64) : Vector UInt8 64 :=
  -- the adjusted pepper goes nowhere
  let _pepper := if 1000 < pepper then pepper else u32Max
  .ofFn fun i => byteAt (if i.val % 2 = 0 then seed else rp.seedBytes) (i.val / 2)

/-- `get_blend`, with what it feeds to the hash functions in front. -/
def getBlendFed (hashes : Hashes) (rp : RandomnessProvider) (seed : Checksum256)
    (pepper : UInt64) : List Bytes × Checksum256 × RandomnessProvider :=
  let mixed := blendFed rp seed pepper
  let rp := rp.blend hashes seed pepper
  ([mixed.toList, rp.raw32.toList], hashes.sha256 rp.raw32.toList, rp)

/-- What `get_blend` comes to, in terms of what it feeds. -/
theorem getBlendFed_snd (pepper : UInt64) :
    (getBlendFed hashes rp seed pepper).2 = rp.getBlend hashes seed pepper := rfl

/-- What is fed to `sha512` is what the first loop of `blend` leaves in the array. -/
theorem interleave_eq_blendFed (pepper : UInt64) :
    Generator.interleave seed rp.seedBytes rp.raw64 32 = .ok (blendFed rp seed pepper) :=
  Generator.interleave_all seed rp.seedBytes rp.raw64

/-- **The blending** does the same with any two peppers. -/
theorem getBlendFed_eq (p q : UInt64) :
    getBlendFed hashes rp seed p = getBlendFed hashes rp seed q := rfl

theorem onALuckyBlock_seed (producer : Name) (a : ALuckyNumber) :
    (onALuckyBlock producer a rp).1.seed = a.seed := by
  rw [onALuckyBlock]
  dsimp only
  split_ifs with hroll
  · rfl
  · rw [luckyHit]
    split_ifs with hchunks
    · rfl
    · rfl

/-- **The seed after a block** is blended from the seed before it and the previous block: neither
the number of blocks nor the producer has a part in it. -/
theorem onblockLuck_seed {rngcalls : Table UInt64 RngCall} {a : ALuckyNumber}
    {header : BlockHeader} (h : a.totalBlocks.toNat + 1 < 2 ^ 32) :
    (onblockLuck hashes rngcalls a header).1.seed =
      ((make a.seed).getBlend hashes header.previous).1 := by
  rw [onblockLuck, make_totalBlocks h]
  exact onALuckyBlock_seed header.producer _

end Blend

/-! ### Both together -/

/-- Two peppers matter: the constructor makes two states of them, and in any state `get_blend`
feeds other bytes to the hash functions or leaves another state. -/
def PeppersMatter (hashes : Hashes) (seed : Checksum256) (p q : UInt64) : Prop :=
  make seed p ≠ make seed q ∧ ∀ rp,
    (getBlendFed hashes rp seed p).1 ≠ (getBlendFed hashes rp seed q).1 ∨
      (getBlendFed hashes rp seed p).2.2 ≠ (getBlendFed hashes rp seed q).2.2

theorem not_peppersMatter {hashes : Hashes} {seed : Checksum256} {p q : UInt64} :
    ¬ PeppersMatter hashes seed p q := by
  rintro ⟨-, hblend⟩
  rcases hblend (make seed) with hfed | hstate
  · exact hfed (congrArg Prod.fst (getBlendFed_eq p q))
  · exact hstate (congrArg (fun r => r.2.2) (getBlendFed_eq p q))

/-- **No pepper matters.** For every seed and any two peppers, and whatever the hash functions
yield: the two do not matter. The constructor tells them apart if and only if they differ and one
of them exceeds `u32_max`; `get_blend` never does, in any state. -/
theorem pepper_never_matters (hashes : Hashes) (seed : Checksum256) (p q : UInt64) :
    ¬ PeppersMatter hashes seed p q ∧
      (make seed p ≠ make seed q ↔ p ≠ q ∧ (u32Max < p ∨ u32Max < q)) ∧
      ∀ rp, getBlendFed hashes rp seed p = getBlendFed hashes rp seed q :=
  ⟨not_peppersMatter, make_ne_iff, fun _ => getBlendFed_eq p q⟩

/-- The peppers of the first two blocks. -/
theorem pepper_lost :
    (1 : UInt64) ≠ 2 ∧ make (Vector.replicate 32 0) 1 = make (Vector.replicate 32 0) 2 ∧
      ¬ PeppersMatter zeroHashes (Vector.replicate 32 0) 1 2 := by
  refine ⟨by decide, ?_, not_peppersMatter⟩
  rw [make, make]
  rfl

end Twig.System
