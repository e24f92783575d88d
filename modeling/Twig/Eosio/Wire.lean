import Twig.Eosio.Chain
import Twig.Lib.Wire

/-!
# Packed values

How the development kit packs the values that actions carry: names, symbols and amounts as eight
bytes, an asset as its amount and its symbol, vectors and strings as their length and their
elements.

The loop that unpacks a length is written with a bound on its shift in some versions of the kit
and without one in others: the bound is a parameter here (`Unpacker`).
-/

namespace Twig

open Fallible

/-! ### Formats -/

/-- The 64-bit numbers are those below `256 ^ 8`. -/
def uint64Equiv : Fin (256 ^ 8) ≃ UInt64 where
  toFun n := UInt64.ofNat n
  invFun a := ⟨a.toNat, a.toNat_lt⟩
  left_inv n := Fin.ext (Nat.mod_eq_of_lt n.isLt)
  right_inv _ := UInt64.ofNat_toNat

def uint64Format : Wire.Fixed UInt64 := (Wire.Fixed.number 8).congr uint64Equiv

def int64Format : Wire.Fixed Int64 :=
  uint64Format.congr ⟨UInt64.toInt64, Int64.toUInt64, fun _ => rfl, fun _ => rfl⟩

def nameFormat : Wire.Fixed Name :=
  uint64Format.congr ⟨Name.mk, Name.value, fun _ => rfl, fun _ => rfl⟩

def symbolFormat : Wire.Fixed Symbol :=
  uint64Format.congr ⟨Symbol.mk, Symbol.raw, fun _ => rfl, fun _ => rfl⟩

def assetFormat : Wire.Fixed Asset :=
  (int64Format.pair symbolFormat).congr
    ⟨fun p => ⟨p.1, p.2⟩, fun a => (a.amount, a.symbol), fun _ => rfl, fun _ => rfl⟩

/-! ### Packing -/

/-- A length. -/
def packLength (n : ℕ) : Bytes := Wire.varuint 4 n

def packVector {α : Type} (c : Wire.Fixed α) (values : List α) : Bytes :=
  packLength values.length ++ values.flatMap c.write

/-- The bytes of a string. -/
def bytesOf (s : String) : Bytes := s.toList.flatMap String.utf8EncodeChar

/-- The text of the bytes of a string. Bytes that are no text stand outside the model. -/
def textOf (bytes : Bytes) : Outcome String :=
  deref (String.fromUTF8? bytes.toByteArray)

theorem textOf_bytesOf (s : String) : textOf (bytesOf s) = .ok s := by
  have hbytes : (bytesOf s).toByteArray = s.toByteArray := String.utf8Encode_toList
  rw [textOf, hbytes, String.fromUTF8?, dif_pos s.isValidUTF8]
  rfl

def packString (s : String) : Bytes := packLength (bytesOf s).length ++ bytesOf s

/-! ### Unpacking -/

/-- A version of the development kit. -/
structure Unpacker where
  /-- No further byte of a length is read when the shift has reached this. -/
  bound : ℕ := 32
  /-- The five bytes of a 32-bit length are read. -/
  bound_gt : 28 < bound := by decide

namespace Unpacker

variable (u : Unpacker)

def pastEnd : Fault := .check "datastream attempted to read past the end"

/-- A length, cut to 32 bits. -/
def readLength (bs : Bytes) : Outcome (ℕ × Bytes) := do
  let (n, rest) ← Wire.readVaruint pastEnd u.bound 0 bs
  pure (n % 2 ^ 32, rest)

def readVector {α : Type} (c : Wire.Fixed α) (bs : Bytes) : Outcome (List α × Bytes) := do
  let (n, rest) ← u.readLength bs
  c.readMany pastEnd n rest

def readString (bs : Bytes) : Outcome (Bytes × Bytes) := do
  let (n, rest) ← u.readLength bs
  Wire.take pastEnd n rest

variable {u} {rest : Bytes}

theorem readLength_packLength {n : ℕ} (h : n < 2 ^ 32) :
    u.readLength (packLength n ++ rest) = .ok (n, rest) := by
  have hbound := u.bound_gt
  rw [readLength, packLength, Wire.readVaruint_varuint (by omega) (by omega), ok_bind, pow_zero,
    mul_one]
  exact congrArg (fun n => Except.ok (n, rest)) (Nat.mod_eq_of_lt h)

/-- **A vector is read back.** -/
theorem readVector_packVector {α : Type} {c : Wire.Fixed α} {values : List α}
    (h : values.length < 2 ^ 32) :
    u.readVector c (packVector c values ++ rest) = .ok (values, rest) := by
  rw [packVector, List.append_assoc, readVector, readLength_packLength h, ok_bind]
  exact Wire.Fixed.readMany_eq_ok_iff.mpr ⟨rfl, rfl⟩

theorem readString_packString {s : String} (h : (bytesOf s).length < 2 ^ 32) :
    u.readString (packString s ++ rest) = .ok (bytesOf s, rest) := by
  rw [packString, List.append_assoc, readString, readLength_packLength h, ok_bind]
  exact Wire.take_eq_ok_iff.mpr ⟨rfl, rfl⟩

end Unpacker

end Twig
