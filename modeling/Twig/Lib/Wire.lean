import Twig.Lib.Fallible

/-!
# Wire formats

Values written to and read off the front of a stream of bytes.

* `littleEndian`, `ofLittleEndian` — numbers of a fixed width;
* `Fixed` — formats of a fixed width, bijective between values and words of that width, with
  pairs and the transport along an equivalence;
* `varuint`, `readVaruint` — numbers written seven bits a byte, the high bit of a byte saying that
  another one follows;
* `Fixed.readMany_flatMap`, `readVaruint_varuint` — what is written is read back;
* `readVaruint_spec` — what any stream that is read as a number begins with.
-/

namespace Wire

open Fallible

universe u

variable {ε : Type u} {e : ε} {bs rest : List UInt8}

/-! ### Little-endian numbers -/

/-- The lowest bytes of a number, the lowest one first. -/
def littleEndian : ℕ → ℕ → List UInt8
  | 0, _ => []
  | width + 1, n => UInt8.ofNat n :: littleEndian width (n / 256)

def ofLittleEndian : List UInt8 → ℕ
  | [] => 0
  | b :: bs => b.toNat + 256 * ofLittleEndian bs

theorem length_littleEndian {width n : ℕ} : (littleEndian width n).length = width := by
  induction width generalizing n with
  | zero => rfl
  | succ width ih => rw [littleEndian, List.length_cons, ih]

/-- A number that fits is read back. -/
theorem ofLittleEndian_littleEndian {width n : ℕ} (h : n < 256 ^ width) :
    ofLittleEndian (littleEndian width n) = n := by
  induction width generalizing n with
  | zero =>
    rw [pow_zero] at h
    rw [littleEndian, ofLittleEndian]
    omega
  | succ width ih =>
    have hrest : n / 256 < 256 ^ width := by
      rw [pow_succ'] at h
      exact Nat.div_lt_of_lt_mul h
    rw [littleEndian, ofLittleEndian, ih hrest, UInt8.toNat_ofNat']
    exact Nat.mod_add_div n 256

theorem ofLittleEndian_lt (bs : List UInt8) : ofLittleEndian bs < 256 ^ bs.length := by
  induction bs with
  | nil => exact Nat.one_pos
  | cons b bs ih =>
    have hb : b.toNat < 256 := b.toNat_lt
    rw [ofLittleEndian, List.length_cons, pow_succ']
    omega

/-- A word is written back. -/
theorem littleEndian_ofLittleEndian (bs : List UInt8) :
    littleEndian bs.length (ofLittleEndian bs) = bs := by
  induction bs with
  | nil => rfl
  | cons b bs ih =>
    have hb : b.toNat < 256 := b.toNat_lt
    have hfirst : UInt8.ofNat (b.toNat + 256 * ofLittleEndian bs) = b := by
      refine UInt8.toNat_inj.mp ?_
      rw [UInt8.toNat_ofNat']
      omega
    have hrest : (b.toNat + 256 * ofLittleEndian bs) / 256 = ofLittleEndian bs := by omega
    rw [List.length_cons, littleEndian, ofLittleEndian, hfirst, hrest, ih]

/-! ### Formats of a fixed width -/

/-- Takes bytes off the front of a stream. -/
def take (e : ε) (width : ℕ) (bs : List UInt8) : Except ε (List UInt8 × List UInt8) :=
  if width ≤ bs.length then .ok (bs.splitAt width) else .error e

theorem take_eq_ok_iff {width : ℕ} {front : List UInt8} :
    take e width bs = .ok (front, rest) ↔ bs = front ++ rest ∧ front.length = width := by
  rw [take, List.splitAt_eq]
  constructor
  · intro h
    split_ifs at h with hle
    obtain ⟨rfl, rfl⟩ := Prod.mk.inj (Except.ok.inj h)
    exact ⟨(List.take_append_drop width bs).symm, List.length_take_of_le hle⟩
  · rintro ⟨rfl, rfl⟩
    rw [if_pos (by simp), List.take_left, List.drop_left]

/-- A format of a fixed width: the values are the words of that width. -/
structure Fixed (α : Type) where
  width : ℕ
  write : α → List UInt8
  ofWord : List UInt8 → α
  length_write : ∀ a, (write a).length = width
  ofWord_write : ∀ a, ofWord (write a) = a
  write_ofWord : ∀ bs, bs.length = width → write (ofWord bs) = bs

namespace Fixed

variable {α β : Type}

def read (c : Fixed α) (e : ε) (bs : List UInt8) : Except ε (α × List UInt8) := do
  let (front, rest) ← take e c.width bs
  pure (c.ofWord front, rest)

/-- **What is read is what stands in front.** -/
theorem read_eq_ok_iff {c : Fixed α} {a : α} :
    c.read e bs = .ok (a, rest) ↔ bs = c.write a ++ rest := by
  simp only [read, bind_eq_ok_iff, pure_eq_ok_iff, Prod.mk.injEq, Prod.exists, take_eq_ok_iff]
  constructor
  · rintro ⟨front, rest, ⟨rfl, hlength⟩, rfl, rfl⟩
    rw [c.write_ofWord _ hlength]
  · rintro rfl
    exact ⟨c.write a, rest, ⟨rfl, c.length_write a⟩, c.ofWord_write a, rfl⟩

@[simp]
theorem read_write {c : Fixed α} {a : α} : c.read e (c.write a ++ rest) = .ok (a, rest) :=
  read_eq_ok_iff.mpr rfl

/-- Numbers below `256 ^ width`. -/
def number (width : ℕ) : Fixed (Fin (256 ^ width)) where
  width := width
  write n := littleEndian width n
  ofWord bs := Fin.ofNat (256 ^ width) (ofLittleEndian bs)
  length_write _ := length_littleEndian
  ofWord_write n := by
    refine Fin.ext ?_
    rw [ofLittleEndian_littleEndian n.isLt]
    exact Nat.mod_eq_of_lt n.isLt
  write_ofWord bs h := by
    have hlt : ofLittleEndian bs < 256 ^ width := h ▸ ofLittleEndian_lt bs
    rw [Fin.val_ofNat, Nat.mod_eq_of_lt hlt, ← h]
    exact littleEndian_ofLittleEndian bs

/-- The same words for other values. -/
def congr (c : Fixed α) (φ : α ≃ β) : Fixed β where
  width := c.width
  write b := c.write (φ.symm b)
  ofWord bs := φ (c.ofWord bs)
  length_write b := c.length_write _
  ofWord_write b := by rw [c.ofWord_write, Equiv.apply_symm_apply]
  write_ofWord bs h := by rw [Equiv.symm_apply_apply, c.write_ofWord bs h]

/-- One value after the other. -/
def pair (c : Fixed α) (d : Fixed β) : Fixed (α × β) where
  width := c.width + d.width
  write p := c.write p.1 ++ d.write p.2
  ofWord bs := (c.ofWord (bs.take c.width), d.ofWord (bs.drop c.width))
  length_write p := by rw [List.length_append, c.length_write, d.length_write]
  ofWord_write p := by
    rw [List.take_left' (c.length_write _), List.drop_left' (c.length_write _), c.ofWord_write,
      d.ofWord_write]
  write_ofWord bs h := by
    have hfront : (bs.take c.width).length = c.width := List.length_take_of_le (by omega)
    have hback : (bs.drop c.width).length = d.width := by rw [List.length_drop]; omega
    rw [c.write_ofWord _ hfront, d.write_ofWord _ hback, List.take_append_drop]

/-- So many values, one after the other. -/
def readMany (c : Fixed α) (e : ε) : ℕ → List UInt8 → Except ε (List α × List UInt8)
  | 0, bs => pure ([], bs)
  | n + 1, bs => do
    let (a, bs) ← c.read e bs
    let (as, rest) ← c.readMany e n bs
    pure (a :: as, rest)

/-- **Many values are read back**, and nothing else is read as they are. -/
theorem readMany_eq_ok_iff {c : Fixed α} {n : ℕ} {as : List α} :
    c.readMany e n bs = .ok (as, rest) ↔ as.length = n ∧ bs = as.flatMap c.write ++ rest := by
  induction n generalizing bs as rest with
  | zero =>
    rw [readMany, pure_eq_ok_iff, Prod.mk.injEq, List.length_eq_zero_iff, eq_comm]
    refine and_congr_right ?_
    rintro rfl
    rfl
  | succ n ih =>
    simp only [readMany, bind_eq_ok_iff, pure_eq_ok_iff, Prod.mk.injEq, Prod.exists, ih,
      read_eq_ok_iff]
    constructor
    · rintro ⟨a, bs', rfl, as, rest, ⟨rfl, rfl⟩, rfl, rfl⟩
      exact ⟨rfl, by rw [List.flatMap_cons, List.append_assoc]⟩
    · rintro ⟨hlength, rfl⟩
      obtain ⟨a, as, rfl⟩ := List.exists_cons_of_length_eq_add_one hlength
      exact ⟨a, _, by rw [List.flatMap_cons, List.append_assoc], as, rest,
        ⟨Nat.succ.inj hlength, rfl⟩, rfl, rfl⟩

end Fixed

/-! ### Numbers of varying width -/

/-- Seven bits a byte, the lowest ones first, in at most `rounds + 1` bytes. -/
def varuint : ℕ → ℕ → List UInt8
  | 0, n => [UInt8.ofNat n]
  | rounds + 1, n =>
    if n < 128 then [UInt8.ofNat n]
    else UInt8.ofNat (n % 128 + 128) :: varuint rounds (n / 128)

/-- The number in front of a stream. The loop stops at a byte without the high bit, or when the
shift has reached `bound`. -/
def readVaruint (e : ε) (bound : ℕ) : ℕ → List UInt8 → Except ε (ℕ × List UInt8)
  | _, [] => .error e
  | shift, b :: bs =>
    if 128 ≤ b.toNat ∧ shift + 7 < bound then do
      let (n, rest) ← readVaruint e bound (shift + 7) bs
      pure (b.toNat % 128 * 2 ^ shift + n, rest)
    else pure (b.toNat % 128 * 2 ^ shift, bs)

/-- **A number is read back.** -/
theorem readVaruint_varuint {rounds n shift bound : ℕ} (hn : n < 128 ^ (rounds + 1))
    (hbound : shift + 7 * rounds < bound) :
    readVaruint e bound shift (varuint rounds n ++ rest) = .ok (n * 2 ^ shift, rest) := by
  induction rounds generalizing n shift with
  | zero =>
    rw [zero_add, pow_one] at hn
    have hbyte : (UInt8.ofNat n).toNat = n := by
      rw [UInt8.toNat_ofNat']
      omega
    rw [varuint, List.singleton_append, readVaruint, hbyte, if_neg (by omega), Nat.mod_eq_of_lt hn]
    rfl
  | succ rounds ih =>
    rw [varuint]
    split_ifs with hlast
    · have hbyte : (UInt8.ofNat n).toNat = n := by
        rw [UInt8.toNat_ofNat']
        omega
      rw [List.singleton_append, readVaruint, hbyte, if_neg (by omega), Nat.mod_eq_of_lt hlast]
      rfl
    · have hbyte : (UInt8.ofNat (n % 128 + 128)).toNat = n % 128 + 128 := by
        rw [UInt8.toNat_ofNat']
        omega
      have hrest : n / 128 < 128 ^ (rounds + 1) := by
        rw [pow_succ'] at hn
        exact Nat.div_lt_of_lt_mul hn
      have hvalue : (n % 128 + 128) % 128 * 2 ^ shift + n / 128 * 2 ^ (shift + 7) =
          n * 2 ^ shift := by
        rw [pow_add, Nat.add_mod_right, Nat.mod_mod]
        calc n % 128 * 2 ^ shift + n / 128 * (2 ^ shift * 2 ^ 7)
            = (n % 128 + 128 * (n / 128)) * 2 ^ shift := by ring
          _ = n * 2 ^ shift := by rw [Nat.mod_add_div]
      rw [List.cons_append, readVaruint, hbyte, if_pos (by omega), ih hrest (by omega), ok_bind]
      exact congrArg (fun v => Except.ok (v, rest)) hvalue

/-- **What is read as a number**: bytes with the high bit set, and a last one. -/
theorem readVaruint_spec {bound shift n : ℕ} (h : readVaruint e bound shift bs = .ok (n, rest)) :
    ∃ front last, bs = front ++ last :: rest ∧ (∀ b ∈ front, 128 ≤ b.toNat) ∧
      (front = [] → n = last.toNat % 128 * 2 ^ shift) := by
  induction bs generalizing shift n with
  | nil => simp [readVaruint] at h
  | cons b bs ih =>
    rw [readVaruint] at h
    split_ifs at h with hmore
    · simp only [bind_eq_ok_iff, pure_eq_ok_iff, Prod.mk.injEq, Prod.exists] at h
      obtain ⟨n', rest', hnext, -, rfl⟩ := h
      obtain ⟨front, last, hbs, hfront, -⟩ := ih hnext
      refine ⟨b :: front, last, by rw [hbs]; rfl, ?_,
        fun hnil => absurd hnil (List.cons_ne_nil b front)⟩
      intro b' hb'
      rcases List.mem_cons.mp hb' with rfl | hb'
      · exact hmore.1
      · exact hfront b' hb'
    · obtain ⟨rfl, rfl⟩ := Prod.mk.inj (pure_eq_ok_iff.mp h)
      exact ⟨[], b, rfl, by simp, fun _ => rfl⟩

end Wire
