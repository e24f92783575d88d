import Twig.Lib.Wire

/-!
# Formats of varying width

Formats for values whose words differ in width, so that where one value ends is known only when it
has been read. What is written of a value is read back whatever follows it, which is what lets
formats be put one after the other.

* `Format` — writer, reader and the law of the two, for the values that fit;
* `Format.pair`, `Format.congr`, `Format.listOf`, `Format.bytesOf` — pairs, the transport along an
  equivalence, and lists and bytes behind their length.
-/

namespace Wire

open Fallible

universe u

/-- A format: what is written of a value that fits is read back, whatever follows. -/
structure Format (ε : Type u) (α : Type) where
  Fits : α → Prop
  write : α → List UInt8
  read : List UInt8 → Except ε (α × List UInt8)
  read_write : ∀ {a : α} {rest : List UInt8}, Fits a → read (write a ++ rest) = .ok (a, rest)

/-- Every value of a fixed width fits. -/
def Fixed.format {ε : Type u} {α : Type} (c : Fixed α) (e : ε) : Format ε α where
  Fits _ := True
  write := c.write
  read := c.read e
  read_write _ := Fixed.read_write

namespace Format

variable {ε : Type u} {α β : Type} {rest : List UInt8}

/-- One value after the other. -/
def pair (c : Format ε α) (d : Format ε β) : Format ε (α × β) where
  Fits p := c.Fits p.1 ∧ d.Fits p.2
  write p := c.write p.1 ++ d.write p.2
  read bs := do
    let (a, bs) ← c.read bs
    let (b, rest) ← d.read bs
    pure ((a, b), rest)
  read_write h := by
    simp only [List.append_assoc, c.read_write h.1, d.read_write h.2, ok_bind]
    rfl

/-- The same words for other values. -/
def congr (c : Format ε α) (φ : α ≃ β) : Format ε β where
  Fits b := c.Fits (φ.symm b)
  write b := c.write (φ.symm b)
  read bs := do
    let (a, rest) ← c.read bs
    pure (φ a, rest)
  read_write h := by
    simp only [c.read_write h, ok_bind, Equiv.apply_symm_apply]
    rfl

/-- So many values, one after the other. -/
def readMany (c : Format ε α) : ℕ → List UInt8 → Except ε (List α × List UInt8)
  | 0, bs => pure ([], bs)
  | n + 1, bs => do
    let (a, bs) ← c.read bs
    let (as, rest) ← c.readMany n bs
    pure (a :: as, rest)

theorem readMany_flatMap {c : Format ε α} {as : List α} (h : ∀ a ∈ as, c.Fits a) :
    c.readMany as.length (as.flatMap c.write ++ rest) = .ok (as, rest) := by
  induction as with
  | nil => rfl
  | cons a as ih =>
    have hrest := ih fun b hb => h b (List.mem_cons_of_mem a hb)
    simp only [List.length_cons, List.flatMap_cons, List.append_assoc, readMany,
      c.read_write (h a List.mem_cons_self), hrest, ok_bind]
    rfl

/-- A list behind its length. -/
def listOf (n : Format ε ℕ) (c : Format ε α) : Format ε (List α) where
  Fits as := n.Fits as.length ∧ ∀ a ∈ as, c.Fits a
  write as := n.write as.length ++ as.flatMap c.write
  read bs := do
    let (k, bs) ← n.read bs
    c.readMany k bs
  read_write h := by
    simp only [List.append_assoc, n.read_write h.1, ok_bind]
    exact readMany_flatMap h.2

/-- Bytes behind their length. -/
def bytesOf (n : Format ε ℕ) (e : ε) : Format ε (List UInt8) where
  Fits bs := n.Fits bs.length
  write bs := n.write bs.length ++ bs
  read bs := do
    let (k, bs) ← n.read bs
    take e k bs
  read_write h := by
    simp only [List.append_assoc, n.read_write h, ok_bind]
    exact take_eq_ok_iff.mpr ⟨rfl, rfl⟩

end Format

end Wire
