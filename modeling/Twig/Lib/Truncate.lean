import Mathlib

/-!
# Conversion of fractions to integers

The conversion of a floating-point number to an integer drops the fraction, which rounds
towards zero. Here it is read on exact fractions: `Rat.truncate`. On a product of a
non-negative integer and a fraction it is integer division, and the truncated shares of a whole,
by weights that add up to one, lose less than a unit each (`Rat.sum_truncate_shares`).
-/

namespace Rat

/-- The integer part of a fraction, rounding towards zero. -/
def truncate (q : ℚ) : ℤ := q.num.tdiv q.den

theorem truncate_of_nonneg {q : ℚ} (h : 0 ≤ q) : truncate q = ⌊q⌋ := by
  rw [truncate, Int.tdiv_eq_ediv_of_nonneg (Rat.num_nonneg.mpr h)]
  exact (Rat.floor_def q).symm

/-- Truncating a non-negative multiple of a fraction is integer division. -/
theorem truncate_mul_div {a : ℤ} (ha : 0 ≤ a) (n d : ℕ) :
    truncate (a * (n / d : ℚ)) = a * n / d := by
  have hq : (a * (n / d : ℚ)) = ((a * n : ℤ) : ℚ) / (d : ℚ) := by
    push_cast
    rw [mul_div_assoc]
  have hnn : (0 : ℚ) ≤ a * (n / d : ℚ) :=
    mul_nonneg (Int.cast_nonneg ha) (div_nonneg n.cast_nonneg d.cast_nonneg)
  rw [truncate_of_nonneg hnn, hq]
  exact Rat.floor_intCast_div_natCast _ _

/-! ### Shares -/

section Shares

variable {a : ℤ} {w : ℚ} {ws : List ℚ}

theorem truncate_share_nonneg (ha : 0 ≤ a) (hw : 0 ≤ w) : 0 ≤ truncate (a * w) := by
  have hnn : (0 : ℚ) ≤ a * w := mul_nonneg (Int.cast_nonneg ha) hw
  rw [truncate_of_nonneg hnn]
  exact Int.floor_nonneg.mpr hnn

/-- A share by a weight of at most one is not more than the whole. -/
theorem truncate_share_le (ha : 0 ≤ a) (hw : 0 ≤ w) (hw1 : w ≤ 1) : truncate (a * w) ≤ a := by
  have hcast : (0 : ℚ) ≤ a := Int.cast_nonneg ha
  rw [truncate_of_nonneg (mul_nonneg hcast hw)]
  have hle : (⌊(a : ℚ) * w⌋ : ℚ) ≤ a := (Int.floor_le _).trans (mul_le_of_le_one_right hcast hw1)
  exact_mod_cast hle

/-- Truncated shares come to at most the exact ones, and to less than a unit less each. -/
theorem sum_truncate_bounds (ha : 0 ≤ a) (hws : ∀ w ∈ ws, 0 ≤ w) :
    ((ws.map fun w => truncate (a * w)).sum : ℚ) ≤ a * ws.sum ∧
      (ws ≠ [] → a * ws.sum < (ws.map fun w => truncate (a * w)).sum + ws.length) := by
  induction ws with
  | nil => simp
  | cons w ws ih =>
    obtain ⟨hw, hrest⟩ := List.forall_mem_cons.mp hws
    obtain ⟨hle, hlt⟩ := ih hrest
    have hnn : (0 : ℚ) ≤ a * w := mul_nonneg (Int.cast_nonneg ha) hw
    have hfloor : (truncate (a * w) : ℚ) ≤ a * w := by
      rw [truncate_of_nonneg hnn]
      exact Int.floor_le _
    have hloss : a * w < truncate (a * w) + 1 := by
      rw [truncate_of_nonneg hnn]
      exact Int.lt_floor_add_one _
    simp only [List.map_cons, List.sum_cons, List.length_cons]
    push_cast at hle ⊢
    refine ⟨by linarith, fun _ => ?_⟩
    cases ws with
    | nil =>
      simp only [List.map_nil, List.sum_nil, List.length_nil]
      push_cast
      linarith
    | cons v vs =>
      have := hlt (List.cons_ne_nil v vs)
      push_cast at this
      linarith

/-- **Truncated shares** by weights that add up to one come to at most the whole, and leave less
than a unit for each of them. -/
theorem sum_truncate_shares (ha : 0 ≤ a) (hws : ∀ w ∈ ws, 0 ≤ w) (hsum : ws.sum = 1) :
    (ws.map fun w => truncate (a * w)).sum ≤ a ∧
      a < (ws.map fun w => truncate (a * w)).sum + ws.length := by
  have hne : ws ≠ [] := by
    rintro rfl
    simp at hsum
  obtain ⟨hle, hlt⟩ := sum_truncate_bounds ha hws
  have hlt := hlt hne
  rw [hsum, mul_one] at hle hlt
  exact ⟨by exact_mod_cast hle, by exact_mod_cast hlt⟩

end Shares

theorem truncate_intCast (n : ℤ) : truncate n = n := by
  rw [truncate, Rat.num_intCast, Rat.den_intCast, Nat.cast_one, Int.tdiv_one]

end Rat
