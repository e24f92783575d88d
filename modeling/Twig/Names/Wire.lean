import Twig.Names.Basic
import Twig.Token.Wire

/-!
# The transfers of the name auctions on the wire

The name auction contract packs a single asset where the token contract unpacks a vector of them.
The bytes of the asset are taken for the length of the vector and what follows.

A vector of exactly that asset could only be read if the bytes were periodic: the asset, shifted
by the bytes of the length, would have to stand in its own place. The period would bring the
length byte of the memo to the front, where a byte of another kind is needed (`eq_of_overlap`).

* `Transfer.unpack_pack_ne` — a transfer with a short memo is never read as it was meant;
* `transfer_not_understood` — none of the transfers of this contract is;
* `bid_unpacked_empty` — a bid of 256 units is unpacked as an empty vector.
-/

namespace Twig.Names

open Std Fallible

/-- The arguments of a transfer, packed as `std::make_tuple` has them. -/
def Transfer.pack (t : Transfer) : Bytes :=
  nameFormat.write t.sender ++ (nameFormat.write t.receiver ++
    (assetFormat.write t.quantity ++ packString t.memo))

/-! ### Overlapping words -/

/-- Sixteen bytes and a low one, in which the sixteen bytes occur again behind bytes with the
high bit and one more: nothing is before that one. -/
theorem eq_of_overlap {word front rest tail : Bytes} {last low : UInt8}
    (hword : word.length = 16) (heq : word ++ low :: tail = front ++ last :: (word ++ rest))
    (hfront : ∀ b ∈ front, 128 ≤ b.toNat) (hlow : low.toNat < 128)
    (htail : ∀ b ∈ tail, b.toNat < 128) : front = [] ∧ last = low := by
  have hlength : (word ++ [low]).length = 17 := by rw [List.length_append, hword]; rfl
  have hleft {i : ℕ} (hi : i < 17) : (word ++ [low])[i]? = (word ++ low :: tail)[i]? := by
    rw [List.append_cons word low tail]
    exact (List.getElem?_append_left (by omega)).symm
  have hcut {i : ℕ} (hi : i < front.length) : (word ++ low :: tail)[i]? = front[i]? := by
    rw [heq, List.getElem?_append_left hi]
  have hlow16 : (word ++ [low])[16]? = some low := by
    rw [List.getElem?_append_right (by omega), hword]
    rfl
  -- the bytes in front have the high bit, the low one is none of them
  have hnotin {i : ℕ} (hi : i < front.length) : (word ++ low :: tail)[i]? ≠ some low := by
    rw [hcut hi]
    intro h
    exact absurd (hfront low (List.mem_of_getElem? h)) (Nat.not_le.mpr hlow)
  have hshort : front.length ≤ 16 := by
    by_contra hlong
    exact hnotin (i := 16) (by omega) (by rw [← hleft (by omega), hlow16])
  rcases Nat.lt_or_ge front.length 16 with hperiodic | hwhole
  · -- the word and the low byte have the period of the bytes before the second occurrence
    have hperiod : (word ++ [low]).HasPeriod (front.length + 1) := by
      rw [List.hasPeriod_iff_getElem?]
      intro i hi
      rw [hlength] at hi
      have hshift : i + (front.length + 1) - front.length = i + 1 := by omega
      have hagain : (word ++ low :: tail)[i + (front.length + 1)]? = word[i]? := by
        rw [heq, List.getElem?_append_right (by omega), hshift, List.getElem?_cons_succ,
          List.getElem?_append_left (by omega)]
      rw [hleft (i := i + (front.length + 1)) (by omega), hagain,
        List.getElem?_append_left (by omega)]
    have hmod := hperiod.getElem?_mod (front.length + 1) 16 (word ++ [low]) (by omega)
    rw [hlow16, hleft ((Nat.mod_le _ _).trans_lt (by omega))] at hmod
    have hle : front.length ≤ 16 % (front.length + 1) := by
      by_contra hlt
      exact hnotin (Nat.not_le.mp hlt) hmod
    have hdvd : front.length + 1 ∣ 17 := by
      have hrem : 16 % (front.length + 1) = front.length := by
        have hlt : 16 % (front.length + 1) < front.length + 1 := Nat.mod_lt _ (Nat.succ_pos _)
        omega
      have hdiv := Nat.mod_add_div 16 (front.length + 1)
      exact ⟨16 / (front.length + 1) + 1, by rw [Nat.mul_succ]; omega⟩
    have hone : front.length + 1 = 1 :=
      ((Nat.dvd_prime (by norm_num)).mp hdvd).resolve_right (by omega)
    obtain rfl : front = [] := List.length_eq_zero_iff.mp (by omega)
    rw [List.length_nil, zero_add, Nat.mod_one, heq] at hmod
    exact ⟨rfl, Option.some.inj hmod⟩
  · -- the second occurrence is in the tail, but the word has the high bits
    have hsame : front.length = 16 := by omega
    obtain ⟨rfl, hrest⟩ := List.append_inj heq (by omega)
    obtain ⟨-, rfl⟩ := List.cons.inj hrest
    obtain ⟨b, hb⟩ := List.exists_mem_of_length_pos (l := word) (by omega)
    exact absurd (hfront b hb) (Nat.not_le.mpr (htail b (List.mem_append_left _ hb)))

/-! ### Memos -/

/-- A string of one-byte characters. -/
def IsAscii (s : String) : Prop := ∀ c ∈ s.toList, c.toNat < 128

theorem IsAscii.append {s t : String} (hs : IsAscii s) (ht : IsAscii t) : IsAscii (s ++ t) := by
  intro c hc
  rw [String.toList_append] at hc
  exact (List.mem_append.mp hc).elim (hs c) (ht c)

theorem utf8EncodeChar_of_lt {c : Char} (h : c.toNat < 128) :
    String.utf8EncodeChar c = [UInt8.ofNat c.toNat] := by
  have hle : c.val.toNat ≤ 127 := Nat.le_of_lt_succ h
  simp only [String.utf8EncodeChar, hle, if_true]
  rfl

/-- Such a string has a byte for each character. -/
theorem IsAscii.bytesOf {s : String} (h : IsAscii s) :
    bytesOf s = s.toList.map fun c => UInt8.ofNat c.toNat := by
  rw [Twig.bytesOf, List.map_eq_flatMap]
  exact List.flatMap_congr fun c hc => utf8EncodeChar_of_lt (h c hc)

theorem IsAscii.byte_lt {s : String} (h : IsAscii s) : ∀ b ∈ Twig.bytesOf s, b.toNat < 128 := by
  intro b hb
  rw [h.bytesOf] at hb
  obtain ⟨c, hc, rfl⟩ := List.mem_map.mp hb
  rw [UInt8.toNat_ofNat', Nat.mod_eq_of_lt ((h c hc).trans (by decide))]
  exact h c hc

theorem getD_mem_cons {l : List Char} {i : ℕ} {c : Char} : l.getD i c ∈ c :: l := by
  rw [List.getD_eq_getElem?_getD]
  cases hget : l[i]? with
  | none => exact List.mem_cons_self
  | some d => exact List.mem_cons_of_mem c (List.mem_of_getElem? hget)

theorem charsFrom_ascii {n : ℕ} {v : UInt64} : ∀ c ∈ Name.charsFrom n v, c.toNat < 128 := by
  induction n generalizing v with
  | zero => simp [Name.charsFrom]
  | succ n ih =>
    intro c hc
    rcases eq_or_ne v 0 with hend | hmore
    · rw [Name.charsFrom, if_pos hend] at hc
      exact absurd hc List.not_mem_nil
    · rw [Name.charsFrom, if_neg hmore] at hc
      rcases List.mem_cons.mp hc with rfl | hc
      · have hall : ('.' :: Name.charmap).all (fun c => c.toNat < 128) = true := by decide
        exact of_decide_eq_true (List.all_eq_true.mp hall _ getD_mem_cons)
      · exact ih c hc

/-- The text of a name has at most thirteen characters, of one byte each. -/
theorem isAscii_toString (n : Name) : IsAscii n.toString ∧ n.toString.toList.length ≤ 13 := by
  rw [IsAscii, Name.toString, String.toList_ofList]
  exact ⟨charsFrom_ascii, Name.length_charsFrom⟩

/-! ### Transfers -/

/-- A memo of few one-byte characters, but more than one. -/
def Transfer.ShortMemo (t : Transfer) : Prop :=
  IsAscii t.memo ∧ 1 < t.memo.toList.length ∧ t.memo.toList.length < 128

/-- **A transfer with a short memo is never read as it was meant.** -/
theorem Transfer.unpack_pack_ne {t : Transfer} (hmemo : t.ShortMemo) {u : Unpacker}
    {args : Token.TransferArgs} (hok : Token.unpackTransfer u t.pack = .ok args) :
    args.tokens ≠ [t.quantity] := by
  rintro htokens
  obtain ⟨hascii, hlow, hhigh⟩ := hmemo
  have hlength : (bytesOf t.memo).length = t.memo.toList.length := by
    rw [hascii.bytesOf, List.length_map]
  simp only [Token.unpackTransfer, Transfer.pack, Wire.Fixed.read_write, ok_bind, bind_eq_ok_iff,
    pure_eq_ok_iff, Unpacker.readVector, Unpacker.readLength, Prod.exists] at hok
  obtain ⟨tokens, data, ⟨n, bytes, ⟨m, bytes', hread, heq⟩, hmany⟩, memo, rest, -, rfl⟩ := hok
  obtain ⟨rfl, rfl⟩ := Prod.mk.inj heq
  obtain rfl : tokens = [t.quantity] := htokens
  obtain ⟨hone, rfl⟩ := Wire.Fixed.readMany_eq_ok_iff.mp hmany
  obtain ⟨front, last, hbytes, hfront, hvalue⟩ := Wire.readVaruint_spec hread
  have hpack : packString t.memo =
      UInt8.ofNat t.memo.toList.length :: bytesOf t.memo := by
    rw [packString, packLength, hlength, Wire.varuint, if_pos hhigh]
    rfl
  have hbyte : (UInt8.ofNat t.memo.toList.length).toNat = t.memo.toList.length := by
    rw [UInt8.toNat_ofNat']
    omega
  rw [hpack, List.flatMap_singleton] at hbytes
  obtain ⟨hnil, rfl⟩ := eq_of_overlap (assetFormat.length_write t.quantity) hbytes hfront
    (by rw [hbyte]; exact hhigh) hascii.byte_lt
  -- the length of the memo was read for that of the vector
  rw [hvalue hnil, hbyte, List.length_singleton] at hone
  omega

/-- The memos of this contract are short. -/
theorem shortMemo {t : Transfer} {lead : String} {newname : Name}
    (h : t.memo = lead ++ newname.toString)
    (hlead : lead.toList.all (fun c => c.toNat < 128) = true)
    (hlength : 1 < lead.toList.length ∧ lead.toList.length < 100) : t.ShortMemo := by
  have hleadAscii : IsAscii lead := fun c hc => of_decide_eq_true (List.all_eq_true.mp hlead c hc)
  obtain ⟨hascii, hthirteen⟩ := isAscii_toString newname
  rw [Transfer.ShortMemo, h, String.toList_append, List.length_append]
  exact ⟨hleadAscii.append hascii, by omega, by omega⟩

/-- **The token contract never understands the transfers of this contract**: neither that of a bid
that passes all checks, nor that of a stored refund. Under no version of the development kit is
what the token contract unpacks the sender, the receiver and a vector of just that asset. -/
theorem transfer_not_understood (u : Unpacker) (ctx : Context) (σ : State)
    (bidder newname : Name) :
    (∀ bid r, bidname ctx σ bidder newname bid = .ok r → ∃ t, r.2 = [t] ∧
      ∀ memo, Token.unpackTransfer u t.pack ≠ .ok ⟨bidder, ctx.self, [bid], memo⟩) ∧
    ∀ amount, σ.bidrefunds[RefundKey.mk newname bidder]? = some amount →
      ∀ r, bidrefund ctx σ bidder newname = .ok r → ∃ t, r.2 = [t] ∧
        ∀ memo, Token.unpackTransfer u t.pack ≠ .ok ⟨ctx.self, bidder, [amount], memo⟩ := by
  constructor
  · rintro bid ⟨σ', sends⟩ hok
    obtain ⟨-, -, rfl, -⟩ := bidname_ok hok
    refine ⟨_, rfl, ?_⟩
    intro memo hunpack
    have hshort : (bidTransfer ctx.self bidder newname bid).ShortMemo :=
      shortMemo rfl (by decide) (by decide)
    exact Transfer.unpack_pack_ne hshort hunpack rfl
  · rintro amount hamount ⟨σ', sends⟩ hok
    obtain ⟨amount', hamount', rfl, -⟩ := bidrefund_ok hok
    obtain rfl : amount = amount' := Option.some.inj (hamount.symm.trans hamount')
    refine ⟨_, rfl, ?_⟩
    intro memo hunpack
    have hshort : (refundTransfer ctx.self bidder newname amount).ShortMemo :=
      shortMemo rfl (by decide) (by decide)
    exact Transfer.unpack_pack_ne hshort hunpack rfl

/-! ### Transfers that go wrong -/

def someUnits : Asset := ⟨256, coreSymbol⟩

/-- Bids are made in the core token, and Alice has been outbid. -/
def outbid : State where
  config := some coreSymbol
  bidrefunds := (∅ : Table RefundKey Asset).insert ⟨nice, alice⟩ someUnits

theorem transfer_not_understood_outbid :
    (∃ r t, bidname namesContext outbid alice nice someUnits = .ok r ∧ r.2 = [t] ∧
      ∀ memo, Token.unpackTransfer {} t.pack ≠ .ok ⟨alice, namesContext.self, [someUnits], memo⟩) ∧
    ∃ r t, bidrefund namesContext outbid alice nice = .ok r ∧ r.2 = [t] ∧
      ∀ memo,
        Token.unpackTransfer {} t.pack ≠ .ok ⟨namesContext.self, alice, [someUnits], memo⟩ := by
  obtain ⟨hbid, hrefund⟩ := transfer_not_understood {} namesContext outbid alice nice
  obtain ⟨r, hr, -⟩ := returns_iff.mp (show
    returns (bidname namesContext outbid alice nice someUnits) (fun _ => true) = true by
      decide +kernel)
  obtain ⟨r', hr', -⟩ := returns_iff.mp (show
    returns (bidrefund namesContext outbid alice nice) (fun _ => true) = true by decide +kernel)
  obtain ⟨t, ht, hnever⟩ := hbid someUnits r hr
  obtain ⟨t', ht', hnever'⟩ := hrefund someUnits (by simp [outbid]) r' hr'
  exact ⟨⟨r, t, hr, ht, hnever⟩, r', t', hr', ht', hnever'⟩

/-- **A bid that arrives as nothing**: the length of the vector is read as zero. -/
theorem bid_unpacked_empty :
    ∃ r t, bidname namesContext outbid alice nice someUnits = .ok r ∧ r.2 = [t] ∧
      Token.unpackTransfer {} t.pack = .ok ⟨alice, namesContext.self, [], [0]⟩ := by
  obtain ⟨r, hr, htest⟩ := returns_iff.mp (show
    returns (bidname namesContext outbid alice nice someUnits) (fun r =>
      r.2.map (fun t => (Token.unpackTransfer {} t.pack).toOption) =
        [some ⟨alice, namesContext.self, [], [0]⟩]) = true by decide +kernel)
  obtain ⟨-, -, hsends, -⟩ := bidname_ok hr
  refine ⟨r, _, hr, hsends, ?_⟩
  have hunpack := of_decide_eq_true htest
  rw [hsends, List.map_singleton, List.singleton_inj] at hunpack
  cases hdata :
    Token.unpackTransfer {} (bidTransfer namesContext.self alice nice someUnits).pack with
  | error fault =>
    rw [hdata] at hunpack
    exact nomatch hunpack
  | ok args =>
    rw [hdata] at hunpack
    exact congrArg Except.ok (Option.some.inj hunpack)

end Twig.Names
