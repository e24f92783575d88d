import Mathlib

/-!
# When machine arithmetic is exact

Addition and subtraction of machine integers wrap around. Inside the range the wrapped result is
the exact one. A sum of any length is exact when its end is: wrapped sums are congruent to exact
ones, and congruent integers inside the range are equal. Counters that step by one, up and down,
have their own lemmas.
-/

namespace Int64

theorem toInt_bounds (a : Int64) : -2 ^ 63 ≤ a.toInt ∧ a.toInt < 2 ^ 63 :=
  ⟨a.le_toInt, a.toInt_lt⟩

/-- A sum inside the range is exact. -/
theorem toInt_add_of_mem {a b : Int64} (hl : -2 ^ 63 ≤ a.toInt + b.toInt)
    (hu : a.toInt + b.toInt < 2 ^ 63) : (a + b).toInt = a.toInt + b.toInt := by
  rw [Int64.toInt_add, Int.bmod_eq_of_le_mul_two] <;> omega

/-- A difference inside the range is exact. -/
theorem toInt_sub_of_mem {a b : Int64} (hl : -2 ^ 63 ≤ a.toInt - b.toInt)
    (hu : a.toInt - b.toInt < 2 ^ 63) : (a - b).toInt = a.toInt - b.toInt := by
  rw [Int64.toInt_sub, Int.bmod_eq_of_le_mul_two] <;> omega

/-- A wrapped sum is congruent to the exact one. -/
theorem toInt_add_modEq (a b : Int64) : (a + b).toInt ≡ a.toInt + b.toInt [ZMOD 2 ^ 64] := by
  rw [Int64.toInt_add]
  exact Int.bmod_emod

/-- Congruent integers inside the range are equal. -/
theorem eq_of_modEq {x y : ℤ} (h : x ≡ y [ZMOD 2 ^ 64]) (hx : -2 ^ 63 ≤ x ∧ x < 2 ^ 63)
    (hy : -2 ^ 63 ≤ y ∧ y < 2 ^ 63) : x = y := by
  rw [Int.ModEq] at h
  omega

/-- An integer inside the range survives the conversion. -/
theorem toInt_ofInt_of_mem {n : ℤ} (hl : -2 ^ 63 ≤ n) (hu : n < 2 ^ 63) :
    (Int64.ofInt n).toInt = n := by
  rw [Int64.toInt_ofInt, Int.bmod_eq_of_le_mul_two] <;> simp only [Int64.size] <;> omega

theorem toInt_pos_iff {a : Int64} : 0 < a ↔ 0 < a.toInt := by
  rw [Int64.lt_iff_toInt_lt, Int64.toInt_zero]

theorem toInt_nonneg_iff {a : Int64} : 0 ≤ a ↔ 0 ≤ a.toInt := by
  rw [Int64.le_iff_toInt_le, Int64.toInt_zero]

end Int64

namespace UInt32

theorem eq_zero_or_pos (a : UInt32) : a = 0 ∨ 0 < a := by
  rcases Nat.eq_zero_or_pos a.toNat with h | h
  · exact .inl (UInt32.toNat_inj.mp h)
  · exact .inr (UInt32.lt_iff_toNat_lt.mpr h)

/-- Counting down. -/
theorem toNat_sub_one {a : UInt32} (h : 0 < a) : (a - 1).toNat + 1 = a.toNat := by
  have hpos : (1 : UInt32).toNat ≤ a.toNat := UInt32.lt_iff_toNat_lt.mp h
  rw [UInt32.toNat_sub_of_le _ _ (UInt32.le_iff_toNat_le.mpr hpos)]
  exact Nat.sub_add_cancel hpos

/-- Counting up. -/
theorem toNat_add_one {a : UInt32} (h : a.toNat + 1 < 2 ^ 32) : (a + 1).toNat = a.toNat + 1 := by
  rw [UInt32.toNat_add]
  exact Nat.mod_eq_of_lt h

/-- A shift that loses no bit is a multiplication. -/
theorem toNat_shiftLeft_of_lt {a i : UInt32} (hi : i.toNat < 32)
    (h : a.toNat * 2 ^ i.toNat < 2 ^ 32) : (a <<< i).toNat = a.toNat * 2 ^ i.toNat := by
  rw [UInt32.toNat_shiftLeft, Nat.mod_eq_of_lt hi, Nat.shiftLeft_eq, Nat.mod_eq_of_lt h]

/-- A number inside the range survives the conversion. -/
theorem toNat_ofInt_natCast {n : ℕ} (h : n < 2 ^ 32) : (UInt32.ofInt n).toNat = n := by
  rw [UInt32.ofInt, UInt32.toNat_ofNat']
  omega

end UInt32

namespace UInt64

/-- Counting up. -/
theorem toNat_add_one {a : UInt64} (h : a.toNat + 1 < 2 ^ 64) : (a + 1).toNat = a.toNat + 1 := by
  rw [UInt64.toNat_add]
  exact Nat.mod_eq_of_lt h

/-- A shift to the right is a division. -/
theorem toNat_shiftRight_of_lt {a i : UInt64} (hi : i.toNat < 64) :
    (a >>> i).toNat = a.toNat / 2 ^ i.toNat := by
  rw [UInt64.toNat_shiftRight, Nat.mod_eq_of_lt hi, Nat.shiftRight_eq_div_pow]

/-- A mask of the lowest bits leaves a remainder. -/
theorem toNat_and_two_pow_sub_one {a mask : UInt64} {n : ℕ} (hmask : mask.toNat = 2 ^ n - 1) :
    (a &&& mask).toNat = a.toNat % 2 ^ n := by
  rw [UInt64.toNat_and, hmask, Nat.and_two_pow_sub_one_eq_mod]

end UInt64

/-- Bits that do not overlap are added. -/
theorem Nat.mul_two_pow_or_of_lt {a b i : ℕ} (h : b < 2 ^ i) : a * 2 ^ i ||| b = a * 2 ^ i + b := by
  rw [Nat.mul_comm, Nat.two_pow_add_eq_or_of_lt h]
