import Mathlib

/-!
# Names, symbols and assets

The value types of the contract development kit that the contracts store and compare:

* `Name` — a 64-bit account or permission name, with the base-32 text encoding of `_n`
  literals (`Name.ofString`) and its inverse (`Name.toString`);
* `SymbolCode`, `Symbol` — a token's code and code-with-precision, with their validity test;
* `Asset` — a signed 64-bit amount of a symbol; valid inside `±(2 ^ 62 - 1)`.

* `Bytes`, `Checksum256`, `Checksum512` — packed values and hashes.

Names and symbols are ordered by their 64-bit value: that is the order of the tables and of
`std::map<symbol, ..>`.
-/

namespace Twig

open Std

/-! ### Bytes -/

/-- A packed value. -/
abbrev Bytes := List UInt8

abbrev Checksum256 := Vector UInt8 32

abbrev Checksum512 := Vector UInt8 64

/-! ### Names -/

/-- An account, action or permission name. -/
structure Name where
  /-- The packed 64-bit value. -/
  value : UInt64
deriving DecidableEq, Repr

namespace Name

instance : Ord Name := ⟨compareOn Name.value⟩

instance : TransOrd Name := inferInstanceAs (TransCmp (compareOn Name.value))

instance : LawfulEqOrd Name where
  eq_of_compare {a b} h := by
    have hv : a.value = b.value := compare_eq_iff_eq.mp h
    cases a; cases b; exact congrArg Name.mk hv

instance : Inhabited Name := ⟨⟨0⟩⟩

/-- The 5-bit value of a character of a name: `.`, `1`–`5`, `a`–`z`. -/
def charToValue (c : Char) : UInt64 :=
  if '1' ≤ c ∧ c ≤ '5' then (c.toNat - '1'.toNat + 1).toUInt64
  else if 'a' ≤ c ∧ c ≤ 'z' then (c.toNat - 'a'.toNat + 6).toUInt64
  else 0

/-- The name a string literal denotes: twelve characters of five bits, and four bits of a
thirteenth one. -/
def ofString (s : String) : Name :=
  let cs := s.toList
  let n := min cs.length 12
  let packed := (cs.take 12).foldl (fun (v : UInt64) c => (v <<< 5) ||| charToValue c) 0
  let shifted := packed <<< (4 + 5 * (12 - n)).toUInt64
  ⟨if cs.length = 13 then shifted ||| charToValue (cs.getD 12 '.') else shifted⟩

/-- The characters of a name, indexed by their value. -/
def charmap : List Char := ".12345abcdefghijklmnopqrstuvwxyz".toList

/-- The remaining characters of a name, `n` of thirteen of them still to come. -/
def charsFrom : Nat → UInt64 → List Char
  | 0, _ => []
  | n + 1, v =>
    if v = 0 then []
    else
      let indx := (v &&& 0xF800000000000000) >>> (if n = 0 then 60 else 59)
      charmap.getD indx.toNat '.' :: charsFrom n (v <<< 5)

/-- The text of a name. -/
def toString (n : Name) : String := String.ofList (charsFrom 13 n.value)

theorem length_charsFrom {n : ℕ} {v : UInt64} : (charsFrom n v).length ≤ n := by
  induction n generalizing v with
  | zero => exact Nat.le_refl 0
  | succ n ih =>
    rcases eq_or_ne v 0 with hend | hmore
    · rw [charsFrom, if_pos hend]
      exact Nat.zero_le _
    · rw [charsFrom, if_neg hmore]
      exact Nat.succ_le_succ ih

theorem utf8ByteSize_ofList_le (l : List Char) : (String.ofList l).utf8ByteSize ≤ 4 * l.length := by
  induction l with
  | nil => exact Nat.le_refl 0
  | cons c l ih =>
    have hc := c.utf8Size_le_four
    have hone : (String.ofList [c]).utf8ByteSize = c.utf8Size := String.utf8ByteSize_singleton
    rw [← List.singleton_append, String.ofList_append, String.utf8ByteSize_append, hone,
      List.length_append, List.length_singleton]
    omega

/-- The text of a name is short. -/
theorem utf8ByteSize_toString_le (n : Name) : n.toString.utf8ByteSize ≤ 52 := by
  have hlength : (charsFrom 13 n.value).length ≤ 13 := length_charsFrom
  have hbytes := utf8ByteSize_ofList_le (charsFrom 13 n.value)
  rw [toString]
  omega

/-- `suffix()`: the part after the last dot that a character follows, the whole name without
such a dot. The first loop goes over twelve characters and keeps the position of that dot, and
that of the last dot of all. -/
def suffix (n : Name) : Name :=
  let (afterLastDot, tmp) := [59, 54, 49, 44, 39, 34, 29, 24, 19, 14, 9, 4].foldl
    (fun (acc : UInt64 × UInt64) remainingBits =>
      if (n.value >>> remainingBits) &&& 0x1F = 0 then (acc.1, remainingBits)
      else (acc.2, acc.2)) (0, 0)
  let thirteenthCharacter := n.value &&& 0x0F
  let afterLastDot := if thirteenthCharacter ≠ 0 then tmp else afterLastDot
  if afterLastDot = 0 then n
  else
    let mask := (1 <<< afterLastDot) - 16
    let shift := 64 - afterLastDot
    ⟨((n.value &&& mask) <<< shift) + (thirteenthCharacter <<< (shift - 1))⟩

end Name

/-- A permission of an account. -/
structure PermissionLevel where
  actor : Name
  permission : Name
deriving DecidableEq, Repr

/-! ### Symbols -/

/-- The code of a token: up to seven capital letters, the first one in the lowest byte. -/
structure SymbolCode where
  raw : UInt64
deriving DecidableEq, Repr

namespace SymbolCode

/-- `n` further bytes are capital letters up to some point and zero from there on. -/
def validFrom : Nat → UInt64 → Bool
  | 0, _ => true
  | n + 1, sym =>
    let c := sym &&& 0xFF
    let rest := sym >>> 8
    (0x41 ≤ c && c ≤ 0x5A) && (if rest &&& 0xFF = 0 then rest = 0 else validFrom n rest)

/-- A code is one to seven capital letters. -/
def isValid (c : SymbolCode) : Bool := validFrom 7 c.raw

/-- The letters of a code, `n` of seven of them still to come. -/
def lettersFrom : Nat → UInt64 → List Char
  | 0, _ => []
  | n + 1, v => if v = 0 then [] else Char.ofNat (v &&& 0xFF).toNat :: lettersFrom n (v >>> 8)

def toString (c : SymbolCode) : String := String.ofList (lettersFrom 7 c.raw)

/-- The code a string literal denotes. -/
def ofString (s : String) : SymbolCode :=
  ⟨s.toList.foldr (fun c (v : UInt64) => (v <<< 8) ||| c.toNat.toUInt64) 0⟩

end SymbolCode

/-- A token symbol: a code in the upper seven bytes, a precision in the lowest one. -/
structure Symbol where
  raw : UInt64
deriving DecidableEq, Repr

namespace Symbol

instance : Ord Symbol := ⟨compareOn Symbol.raw⟩

instance : TransOrd Symbol := inferInstanceAs (TransCmp (compareOn Symbol.raw))

instance : LawfulEqOrd Symbol where
  eq_of_compare {a b} h := by
    have hv : a.raw = b.raw := compare_eq_iff_eq.mp h
    cases a; cases b; exact congrArg Symbol.mk hv

def code (s : Symbol) : SymbolCode := ⟨s.raw >>> 8⟩

def isValid (s : Symbol) : Bool := s.code.isValid

/-- `symbol(code, precision)`. -/
def make (code : SymbolCode) (precision : UInt8) : Symbol :=
  ⟨(code.raw <<< 8) ||| precision.toUInt64⟩

end Symbol

/-! ### Assets -/

/-- An amount of a token. -/
structure Asset where
  amount : Int64
  symbol : Symbol
deriving DecidableEq, Repr

namespace Asset

/-- The largest amount of a valid asset, `2 ^ 62 - 1`. -/
def maxAmount : Int64 := 4611686018427387903

def isAmountWithinRange (a : Asset) : Bool := -maxAmount ≤ a.amount ∧ a.amount ≤ maxAmount

def isValid (a : Asset) : Bool := a.isAmountWithinRange && a.symbol.isValid

@[simp]
theorem toInt_maxAmount : maxAmount.toInt = 2 ^ 62 - 1 := by decide

/-- A valid asset has a valid symbol and an amount within `±(2 ^ 62 - 1)`. -/
theorem isValid_iff {a : Asset} :
    a.isValid = true ↔
      (-(2 ^ 62 - 1) ≤ a.amount.toInt ∧ a.amount.toInt ≤ 2 ^ 62 - 1) ∧ a.symbol.isValid = true := by
  have hneg : (-maxAmount).toInt = -(2 ^ 62 - 1) := by decide
  simp only [isValid, isAmountWithinRange, Bool.and_eq_true, decide_eq_true_eq,
    Int64.le_iff_toInt_le, hneg, toInt_maxAmount]

end Asset

/-- The core token, `TWIG` with four decimals. -/
def coreSymbol : Symbol := .make (.ofString "TWIG") 4

example : coreSymbol.raw = 0x4749575404 ∧ coreSymbol.isValid = true := by decide

example : (Name.ofString "eosio.bank").toString = "eosio.bank" := by decide

example : (Name.ofString "eosio.bank").suffix = .ofString "bank" ∧
    (Name.ofString "bank").suffix = .ofString "bank" := by decide

end Twig
