import Twig.Eosio.Wire
import Twig.Lib.Rows
import Twig.Token.Basic

/-!
# The parameters of a transfer and of an issue

What the token contract's dispatcher unpacks for `transfer`: a name, a name, a vector of assets
and a string. `unpackTransfer_packTransfer` is the round trip for the contracts that send a
vector, as the bank and the system contract do. For `issue` it unpacks a map, whose entries are
emplaced one after the other (`unpackIssue_packIssue`).
-/

namespace Twig.Token

open Std Fallible

/-- The parameters of `transfer`, the memo as its bytes. -/
structure TransferArgs where
  sender : Name
  receiver : Name
  tokens : List Asset
  memo : Bytes
deriving DecidableEq, Repr

def unpackTransfer (u : Unpacker) (data : Bytes) : Outcome TransferArgs := do
  let (sender, data) ← nameFormat.read Unpacker.pastEnd data
  let (receiver, data) ← nameFormat.read Unpacker.pastEnd data
  let (tokens, data) ← u.readVector assetFormat data
  let (memo, _) ← u.readString data
  pure { sender, receiver, tokens, memo }

/-- `std::make_tuple(sender, receiver, (std::vector<asset>){..}, memo)`, packed. -/
def packTransfer (sender receiver : Name) (tokens : List Asset) (memo : String) : Bytes :=
  nameFormat.write sender ++ (nameFormat.write receiver ++
    (packVector assetFormat tokens ++ packString memo))

/-- **A transfer of a vector arrives as it was sent.** -/
theorem unpackTransfer_packTransfer {u : Unpacker} {sender receiver : Name} {tokens : List Asset}
    {memo : String} (htokens : tokens.length < 2 ^ 32) (hmemo : (bytesOf memo).length < 2 ^ 32) :
    unpackTransfer u (packTransfer sender receiver tokens memo) =
      .ok { sender, receiver, tokens, memo := bytesOf memo } := by
  have hstring : u.readString (packString memo ++ []) = .ok (bytesOf memo, []) :=
    Unpacker.readString_packString hmemo
  rw [List.append_nil] at hstring
  simp only [packTransfer, unpackTransfer, Wire.Fixed.read_write, ok_bind,
    Unpacker.readVector_packVector htokens, hstring]
  rfl

/-! ### Issues -/

/-- The parameters of `issue`, the memo as its bytes. -/
structure IssueArgs where
  owner : Name
  tokens : FungiblePairs
  memo : Bytes

/-- An entry of a `fungible_pairs`. -/
def fungibleFormat : Wire.Fixed (Symbol × Int64) := symbolFormat.pair int64Format

def packFungiblePairs (tokens : FungiblePairs) : Bytes := packVector fungibleFormat tokens.toList

def readFungiblePairs (u : Unpacker) (bs : Bytes) : Outcome (FungiblePairs × Bytes) := do
  let (fungibles, rest) ← u.readVector fungibleFormat bs
  pure (OrdMap.ofPairs fungibles, rest)

def unpackIssue (u : Unpacker) (data : Bytes) : Outcome IssueArgs := do
  let (owner, data) ← nameFormat.read Unpacker.pastEnd data
  let (tokens, data) ← readFungiblePairs u data
  let (memo, _) ← u.readString data
  pure { owner, tokens, memo }

/-- `std::make_tuple(owner, tokens, memo)`, packed. -/
def packIssue (owner : Name) (tokens : FungiblePairs) (memo : String) : Bytes :=
  nameFormat.write owner ++ (packFungiblePairs tokens ++ packString memo)

/-- **An issue arrives as it was sent.** -/
theorem unpackIssue_packIssue {u : Unpacker} {owner : Name} {tokens : FungiblePairs}
    {memo : String} (htokens : tokens.toList.length < 2 ^ 32)
    (hmemo : (bytesOf memo).length < 2 ^ 32) :
    unpackIssue u (packIssue owner tokens memo) =
      .ok { owner, tokens, memo := bytesOf memo } := by
  have hstring : u.readString (packString memo ++ []) = .ok (bytesOf memo, []) :=
    Unpacker.readString_packString hmemo
  rw [List.append_nil] at hstring
  simp only [packIssue, packFungiblePairs, unpackIssue, readFungiblePairs, Wire.Fixed.read_write,
    ok_bind, Unpacker.readVector_packVector htokens, pure_bind, OrdMap.ofPairs_toList, hstring]
  rfl

end Twig.Token
