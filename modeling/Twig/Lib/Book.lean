import Mathlib

/-!
# Books of account

A *book* says what each account holds of each asset, as exact amounts in a commutative group.
The three movements of a ledger (`credit`, `debit`, `move`) act on books.
-/

namespace Book

universe u v w

variable {α : Type u} {τ : Type v} {M : Type w} [DecidableEq α] [AddCommGroup M]

/-- Adds the amounts `x` to what `a` holds. -/
def credit (b : α → τ → M) (a : α) (x : τ → M) : α → τ → M :=
  Function.update b a (b a + x)

/-- Takes the amounts `x` from what `a` holds. -/
def debit (b : α → τ → M) (a : α) (x : τ → M) : α → τ → M := credit b a (-x)

/-- Moves the amounts `x` from one account to another. -/
def move (b : α → τ → M) (src dst : α) (x : τ → M) : α → τ → M :=
  credit (debit b src x) dst x

variable {b : α → τ → M} {a c : α} {x : τ → M} {t : τ}

theorem credit_apply : credit b a x c t = if c = a then b a t + x t else b c t := by
  by_cases h : c = a
  · subst h; simp [credit]
  · simp [credit, h]

theorem debit_apply : debit b a x c t = if c = a then b a t - x t else b c t := by
  rw [debit, credit_apply, Pi.neg_apply, sub_eq_add_neg]

/-- Between two different accounts a movement takes from the one and gives to the other. -/
theorem move_apply {src dst : α} (h : src ≠ dst) :
    move b src dst x c t =
      if c = src then b src t - x t else if c = dst then b dst t + x t else b c t := by
  rw [move, credit_apply, debit_apply, debit_apply, if_neg h.symm]
  by_cases hs : c = src
  · subst hs; rw [if_neg h, if_pos rfl, if_pos rfl]
  · rw [if_neg hs, if_neg hs]

/-- Two credits may be booked in either order. -/
theorem credit_comm {x y : τ → M} : credit (credit b a x) c y = credit (credit b c y) a x := by
  rcases eq_or_ne c a with rfl | hne
  · simp only [credit, Function.update_self, Function.update_idem, add_right_comm]
  · simp only [credit, Function.update_of_ne hne, Function.update_of_ne hne.symm]
    exact Function.update_comm hne.symm _ _ _

/-- **Movements commute**, whatever accounts they share. -/
theorem move_comm {src dst src' dst' : α} {x y : τ → M} :
    move (move b src dst x) src' dst' y = move (move b src' dst' y) src dst x := by
  calc move (move b src dst x) src' dst' y
      = credit (credit (credit (credit b src (-x)) dst x) src' (-y)) dst' y := rfl
    _ = credit (credit (credit (credit b src (-x)) src' (-y)) dst x) dst' y := by
      rw [credit_comm (b := credit b src (-x))]
    _ = credit (credit (credit (credit b src' (-y)) src (-x)) dst' y) dst x := by
      rw [credit_comm (b := b), credit_comm (c := dst')]
    _ = credit (credit (credit (credit b src' (-y)) dst' y) src (-x)) dst x := by
      rw [credit_comm (b := credit b src' (-y))]

end Book
