import Twig.System.Chunk

/-!
# The shares of a chunk

The four transfers of `onchunk` for any balance and any issued amount, and for any content of the
token contract's tables: the amounts are truncated shares of one total by weights that add up to
one, so they are covered in the order they are sent and leave at most three units behind
(`chunk_conserved`). The total is computed before the issue has run; afterwards the chunks account
holds exactly that.
-/

namespace Twig.System

open Std Fallible Token

/-! ### Amounts -/

/-- The weights of the four shares, in the order of the transfers. -/
def chunkWeights : List ℚ :=
  [luckyNumberTeamWeight, luckyNumberBoardWeight, luckyNumberProducerWeight, luckyNumberWorldWeight]

theorem chunkWeights_eq : chunkWeights = [0.01125, 0.01125, 0.0025, 0.975] := by
  rw [chunkWeights, luckyNumberTeamWeight_eq, luckyNumberBoardWeight_eq,
    luckyNumberProducerWeight_eq, luckyNumberWorldWeight_eq]
  norm_num

theorem sum_chunkWeights : chunkWeights.sum = 1 := by
  rw [chunkWeights_eq]
  norm_num

theorem chunkWeights_bounds : ∀ w ∈ chunkWeights, 0 ≤ w ∧ w ≤ 1 := by
  rw [chunkWeights_eq]
  norm_num

/-- What transfers from the chunks account add up to. -/
def shared (ts : List (Name × Int64 × String)) : ℤ := (ts.map fun t => t.2.1.toInt).sum

theorem shared_append {ts ts' : List (Name × Int64 × String)} :
    shared (ts ++ ts') = shared ts + shared ts' := by
  rw [shared, List.map_append, List.sum_append]
  rfl

theorem shared_cons {t : Name × Int64 × String} {ts : List (Name × Int64 × String)} :
    shared (t :: ts) = t.2.1.toInt + shared ts := rfl

theorem shared_nonneg {ts : List (Name × Int64 × String)} (h : ∀ t ∈ ts, 0 ≤ t.2.1.toInt) :
    0 ≤ shared ts := by
  refine List.sum_nonneg fun x hx => ?_
  obtain ⟨t, ht, rfl⟩ := List.mem_map.mp hx
  exact h t ht

variable {total : Int64}

/-- The amounts of the shares are the truncated products. -/
theorem toInt_chunkShares (h : 0 ≤ total.toInt) :
    (chunkShares total).map (fun t => t.2.1.toInt) =
      chunkWeights.map fun w => Rat.truncate (total.toInt * w) := by
  have hshare (w : ℚ) (hw : w ∈ chunkWeights) :
      (scaleBy total w).toInt = Rat.truncate (total.toInt * w) :=
    toInt_scaleBy_eq_truncate (chunkWeights_bounds w hw).1 (chunkWeights_bounds w hw).2 h
  calc (chunkShares total).map (fun t => t.2.1.toInt)
      = chunkWeights.map fun w => (scaleBy total w).toInt := rfl
    _ = chunkWeights.map fun w => Rat.truncate (total.toInt * w) := List.map_congr_left hshare

theorem chunkShares_nonneg (h : 0 ≤ total.toInt) : ∀ t ∈ chunkShares total, 0 ≤ t.2.1.toInt := by
  intro t ht
  have hmem : t.2.1.toInt ∈ chunkWeights.map fun w => Rat.truncate (total.toInt * w) := by
    rw [← toInt_chunkShares h]
    exact List.mem_map_of_mem ht
  obtain ⟨w, hw, heq⟩ := List.mem_map.mp hmem
  rw [← heq]
  exact Rat.truncate_share_nonneg h (chunkWeights_bounds w hw).1

/-- The shares come to at most the total, and leave at most three units. -/
theorem shared_chunkShares (h : 0 ≤ total.toInt) :
    shared (chunkShares total) ≤ total.toInt ∧ total.toInt ≤ shared (chunkShares total) + 3 := by
  have hbounds := Rat.sum_truncate_shares h (fun w hw => (chunkWeights_bounds w hw).1)
    sum_chunkWeights
  have hlength : (chunkWeights.length : ℤ) = 4 := rfl
  rw [shared, toInt_chunkShares h]
  omega

/-! ### Running the actions -/

section Run

variable {ctx : Context} {σ : State} {τ τ' : Token.State} {ln : ALuckyNumber}
  {actions : List Token.Inline}

/-- What `onchunk` issues: nothing from the twenty-first epoch on. -/
def tokensToIssue (ln : ALuckyNumber) (τ : Token.State) : Int64 :=
  if ln.epoch < 21 then scaleBy (τ.sup.maxSupply[coreSymbol]?.getD 0) luckyNumberChunkWeight else 0

/-- The issue in front of the transfers, if the epoch calls for one. -/
def chunkIssues (ln : ALuckyNumber) (amount : Int64) : List Token.Inline :=
  if ln.epoch < 21 then [chunkIssue amount] else []

/-- **What `onchunk` sends**: the issue, and the shares of the balance it read and the amount
issued together. -/
theorem onchunk_actions (ha : σ.aluckynumber = some ln) {B : Int64}
    (hB : balanceOf τ chunksAccount coreSymbol = B.toInt) (hok : onchunk ctx σ τ = .ok actions) :
    actions = chunkIssues ln (tokensToIssue ln τ) ++
      (chunkShares (B + tokensToIssue ln τ)).map chunkTransfer := by
  obtain ⟨row, hrow, hsent⟩ := onchunk_ok ha hok
  have hheld : row[coreSymbol]?.getD 0 = B := by
    rw [balanceOf, hrow] at hB
    exact Int64.toInt_inj.mp hB
  rw [chunkIssues, tokensToIssue]
  rcases hsent with ⟨hepoch, cap, hcap, rfl⟩ | ⟨hepoch, rfl⟩
  · rw [if_pos hepoch, if_pos hepoch, hcap, hheld]
    rfl
  · rw [if_neg hepoch, if_neg hepoch, hheld, List.nil_append, Int64.add_zero]

/-- After its issue the chunks account holds what it had and the amount issued. -/
theorem balance_of_chunkIssues {amount : Int64} (hzero : ¬ ln.epoch < 21 → amount = 0)
    (hl : -2 ^ 63 ≤ balanceOf τ chunksAccount coreSymbol + amount.toInt)
    (hu : balanceOf τ chunksAccount coreSymbol + amount.toInt < 2 ^ 63)
    (hok : runToken ctx τ (chunkIssues ln amount) = .ok τ') :
    balanceOf τ' chunksAccount coreSymbol =
      balanceOf τ chunksAccount coreSymbol + amount.toInt := by
  rw [chunkIssues] at hok
  split_ifs at hok with hepoch
  · obtain ⟨τ₁, hissue, hnil⟩ := runToken_cons.mp hok
    obtain rfl : τ₁ = τ' := Except.ok.inj hnil
    have hcall : issue (ctx.inlineBy tokenAccount tokenAccount) τ chunksAccount (coreTokens amount)
        "A chunk has been found! Distributing rewards..." = .ok τ₁ := hissue
    exact credit_of_issue_coreTokens hl hu hcall
  · obtain rfl : τ = τ' := Except.ok.inj hok
    rw [hzero hepoch, Int64.toInt_zero, add_zero]

/-- Transfers take their amounts from the chunks account, one after the other, as long as it
covers them. -/
theorem balance_of_transfers (ts : List (Name × Int64 × String)) : ∀ {τ : Token.State},
    (∀ t ∈ ts, 0 ≤ t.2.1.toInt) → shared ts ≤ balanceOf τ chunksAccount coreSymbol →
      runToken ctx τ (ts.map chunkTransfer) = .ok τ' →
        balanceOf τ' chunksAccount coreSymbol =
          balanceOf τ chunksAccount coreSymbol - shared ts := by
  induction ts with
  | nil =>
    intro τ _ _ hok
    obtain rfl : τ = τ' := Except.ok.inj hok
    rw [shared, List.map_nil, List.sum_nil, sub_zero]
  | cons t ts ih =>
    intro τ hnn hle hok
    obtain ⟨ht, hts⟩ := List.forall_mem_cons.mp hnn
    obtain ⟨τ₁, hone, hrest⟩ := runToken_cons.mp hok
    have hrest0 := shared_nonneg hts
    rw [shared_cons] at hle ⊢
    have hleft : balanceOf τ₁ chunksAccount coreSymbol =
        balanceOf τ chunksAccount coreSymbol - t.2.1.toInt :=
      debit_of_transfer_single (by omega) hone
    rw [ih hts (by omega) hrest, hleft, sub_sub]

end Run

/-- **Chunk shares conserve the chunk.** For every balance and every issued amount that come to a
legal amount together: the four amounts that `onchunk` transfers are its truncated shares, are not
negative, come to at most the whole and leave at most three units; and whatever the tables of the
token contract hold, in the order of the actions, after the issue, each is covered by what the
chunks account then has. -/
theorem chunk_conserved {B a : Int64} (hB : 0 ≤ B.toInt) (ha : 0 ≤ a.toInt)
    (hlegal : B.toInt + a.toInt ≤ 2 ^ 62 - 1) :
    ((chunkShares (B + a)).map (fun t => t.2.1.toInt) = [0.01125, 0.01125, 0.0025, 0.975].map
        fun w => Rat.truncate ((B.toInt + a.toInt : ℤ) * w)) ∧
      (∀ t ∈ chunkShares (B + a), 0 ≤ t.2.1.toInt) ∧
      shared (chunkShares (B + a)) ≤ B.toInt + a.toInt ∧
      B.toInt + a.toInt ≤ shared (chunkShares (B + a)) + 3 ∧
      ∀ (ctx : Context) (σ : State) (τ : Token.State) (ln : ALuckyNumber)
        (actions : List Token.Inline), σ.aluckynumber = some ln →
        balanceOf τ chunksAccount coreSymbol = B.toInt → tokensToIssue ln τ = a →
        onchunk ctx σ τ = .ok actions →
          actions = chunkIssues ln a ++ (chunkShares (B + a)).map chunkTransfer ∧
          ∀ ts t rest τ', chunkShares (B + a) = ts ++ t :: rest →
            runToken ctx τ (chunkIssues ln a ++ ts.map chunkTransfer) = .ok τ' →
              t.2.1.toInt ≤ balanceOf τ' chunksAccount coreSymbol := by
  have htotal : (B + a).toInt = B.toInt + a.toInt :=
    Int64.toInt_add_of_mem (by omega) (by omega)
  have hnn : 0 ≤ (B + a).toInt := by omega
  obtain ⟨hle, hdust⟩ := shared_chunkShares hnn
  have hshares := chunkShares_nonneg hnn
  rw [htotal] at hle hdust
  have hproducts := toInt_chunkShares hnn
  rw [htotal, chunkWeights_eq] at hproducts
  refine ⟨hproducts, hshares, hle, hdust, fun ctx σ τ ln actions hln hheld hissue hok => ⟨?_, ?_⟩⟩
  · rw [onchunk_actions hln hheld hok, hissue]
  · intro ts t rest τ' hsplit hrun
    obtain ⟨τ₁, hfirst, hthen⟩ := runToken_append.mp hrun
    have hzero (hepoch : ¬ ln.epoch < 21) : a = 0 := by
      rw [← hissue, tokensToIssue, if_neg hepoch]
    have hstart := balance_of_chunkIssues hzero (by omega) (by omega) hfirst
    rw [hsplit] at hshares
    obtain ⟨hts, htrest⟩ := List.forall_mem_append.mp hshares
    obtain ⟨ht, hrest⟩ := List.forall_mem_cons.mp htrest
    have hrest0 := shared_nonneg hrest
    rw [hsplit, shared_append, shared_cons] at hle
    rw [balance_of_transfers ts hts (by omega) hthen, hstart]
    omega

/-- A cap of 1215000000 units, of which a chunk issues 1000, and 500 in the chunks account. -/
def halfChunk : Token.State where
  supplies := some ⟨coreTokens 500, coreTokens 1215000000⟩
  accounts := (∅ : Table Name FungiblePairs).insert chunksAccount (coreTokens 500)

/-- The shares of 1500 units are 16, 16, 3 and 1462, and the last one is covered in its turn. -/
theorem chunk_conserved_halfChunk :
    ∃ actions τ', onchunk systemContext { aluckynumber := some {} } halfChunk = .ok actions ∧
      actions = chunkIssues {} 1000 ++ (chunkShares 1500).map chunkTransfer ∧
      (chunkShares 1500).map (fun t => t.2.1) = [16, 16, 3, 1462] ∧
      shared (chunkShares 1500) ≤ 1500 ∧ 1500 ≤ shared (chunkShares 1500) + 3 ∧
      runToken systemContext halfChunk
        (chunkIssues {} 1000 ++ ((chunkShares 1500).take 3).map chunkTransfer) = .ok τ' ∧
      1462 ≤ balanceOf τ' chunksAccount coreSymbol := by
  obtain ⟨actions, hok, -⟩ := returns_iff.mp (show returns
    (onchunk systemContext { aluckynumber := some {} } halfChunk) (fun _ => true) = true
    by decide +kernel)
  obtain ⟨τ', hrun, -⟩ := returns_iff.mp (show returns (runToken systemContext halfChunk
    (chunkIssues {} 1000 ++ ((chunkShares 1500).take 3).map chunkTransfer)) (fun _ => true) = true
    by decide +kernel)
  have hamounts : (chunkShares 1500).map (fun t => t.2.1) = [16, 16, 3, 1462] := by decide +kernel
  have hheld : balanceOf halfChunk chunksAccount coreSymbol = (500 : Int64).toInt := by
    decide +kernel
  have hissue : tokensToIssue {} halfChunk = 1000 := by decide +kernel
  obtain ⟨-, -, hle, hdust, hactions⟩ := chunk_conserved (B := 500) (a := 1000) (by decide) (by decide)
    (by decide)
  obtain ⟨hsent, hcovered⟩ := hactions systemContext { aluckynumber := some {} } halfChunk {} actions
    rfl hheld hissue hok
  have hlast : chunkShares 1500 = (chunkShares 1500).take 3 ++
      (worldAccount, 1462, "Refilling World...") :: [] := by decide +kernel
  exact ⟨actions, τ', hok, hsent, hamounts, hle, hdust, hrun, hcovered _ _ _ τ' hlast hrun⟩

end Twig.System
