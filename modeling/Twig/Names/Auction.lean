import Twig.Names.Escrow

/-!
# The course of an auction

The bids on a name since it was last cleaned up, read off the calls of a run (`bidsOn`), against
the row that is stored. Each of them beats the one before it by more than a tenth, so a bid that
fits in 64 bits can be beaten a few hundred times at most: an auction ends by itself.

The closing of an auction, marked by a negative high bid, is checked by `bidname` but done by no
action: no stored bid is ever negative.
-/

namespace Twig.Names

open Std Fallible

variable {host : Host} {ctx : Context} {σ σ' : State} {n : Name}

/-! ### Bids -/

/-- What an action does to the tables, the transfers that it sends taken as delivered. (As they are
packed the token contract does not understand them, and the action is undone.) -/
def tablesStep (host : Host) (σ : State) (c : Context × Call) : Outcome State := do
  let (σ, _) ← apply host c.1 σ c.2
  pure σ

/-- Where the transfers are settled, the tables move just so. -/
theorem tablesStep_of_step {w w' : Escrow} {c : Context × Call} (h : step host w c = .ok w') :
    tablesStep host w.state c = .ok w'.state := by
  obtain ⟨state, sends, happly, -, rfl⟩ := step_eq_ok h
  rw [tablesStep, happly]
  rfl

/-- **A run of the escrow is a run of its tables.** -/
theorem tables_of_run {guard : Escrow → Context × Call → Prop} {tr : List (Context × Call)}
    {w : Escrow} (hrun : Run (step host) guard {} tr w) :
    Run (tablesStep host) (fun _ _ => True) {} tr w.state := by
  have htables : Run (tablesStep host) (fun _ _ => True) {} (tr.filterMap some) w.state :=
    hrun.project Escrow.state some (fun _ _ _ hnone => absurd hnone (Option.some_ne_none _)) <| by
      intro w c w' b hb _ hok
      obtain rfl := Option.some.inj hb
      exact ⟨trivial, tablesStep_of_step hok⟩
  rwa [List.filterMap_some] at htables

theorem init_ok {destruct : Bool} {coreSymbol : Symbol}
    (h : init host ctx σ destruct coreSymbol = .ok σ') : ∃ config, σ' = { σ with config } := by
  rw [init, Context.requireAuth, check_bind_eq_ok_iff] at h
  obtain ⟨-, h⟩ := h
  split_ifs at h
  · exact ⟨none, (pure_eq_ok_iff.mp h).symm⟩
  · obtain ⟨-, -, h⟩ := bind_eq_ok_iff.mp h
    exact ⟨some coreSymbol, (pure_eq_ok_iff.mp h).symm⟩

theorem cleanup_ok {newname : Name} (h : cleanup ctx σ newname = .ok σ') :
    σ' = { σ with namebids := σ.namebids.erase newname } := by
  simp only [cleanup, bind_eq_ok_iff, pure_eq_ok_iff] at h
  obtain ⟨-, -, -, -, rfl⟩ := h
  rfl

/-- **What a call leaves in the tables.** -/
theorem tablesStep_cases {call : Call} (h : tablesStep host σ (ctx, call) = .ok σ') :
    (∃ destruct coreSymbol config, call = .init destruct coreSymbol ∧ σ' = { σ with config }) ∨
    (∃ bidder newname bid sends, call = .bidname bidder newname bid ∧
      bidname ctx σ bidder newname bid = .ok (σ', sends)) ∨
    (∃ bidder newname, call = .bidrefund bidder newname ∧
      σ' = { σ with bidrefunds := σ.bidrefunds.erase ⟨newname, bidder⟩ }) ∨
    ∃ newname, call = .cleanup newname ∧
      σ' = { σ with namebids := σ.namebids.erase newname } := by
  rw [tablesStep, bind_eq_ok_iff] at h
  obtain ⟨⟨σ₁, sends⟩, happly, hσ'⟩ := h
  obtain rfl := pure_eq_ok_iff.mp hσ'
  cases call with
  | init destruct coreSymbol =>
    simp only [apply, bind_eq_ok_iff, pure_eq_ok_iff, Prod.mk.injEq] at happly
    obtain ⟨σ₂, hinit, rfl, -⟩ := happly
    obtain ⟨config, rfl⟩ := init_ok hinit
    exact .inl ⟨destruct, coreSymbol, config, rfl, rfl⟩
  | bidname bidder newname bid =>
    exact .inr (.inl ⟨bidder, newname, bid, sends, rfl, happly⟩)
  | bidrefund bidder newname =>
    obtain ⟨amount, -, -, rfl⟩ := bidrefund_ok happly
    exact .inr (.inr (.inl ⟨bidder, newname, rfl, rfl⟩))
  | cleanup newname =>
    simp only [apply, bind_eq_ok_iff, pure_eq_ok_iff, Prod.mk.injEq] at happly
    obtain ⟨σ₂, hcleanup, rfl, -⟩ := happly
    exact .inr (.inr (.inr ⟨newname, rfl, cleanup_ok hcleanup⟩))

/-- The bids on a name since it was last cleaned up, after one more call. -/
def bidsStep (n : Name) (bids : List (Name × Asset)) (c : Context × Call) : List (Name × Asset) :=
  match c.2 with
  | .bidname bidder newname bid => if newname = n then bids ++ [(bidder, bid)] else bids
  | .cleanup newname => if newname = n then [] else bids
  | _ => bids

/-- The bids on a name since it was last cleaned up, each with its bidder. -/
def bidsOn (n : Name) (tr : List (Context × Call)) : List (Name × Asset) :=
  tr.foldl (bidsStep n) []

theorem bidsOn_snoc {tr : List (Context × Call)} {c : Context × Call} :
    bidsOn n (tr ++ [c]) = bidsStep n (bidsOn n tr) c := by
  rw [bidsOn, List.foldl_append]
  rfl

/-- The bid stored for a name, with its bidder. -/
def highBidOn (σ : State) (n : Name) : Option (Name × Asset) :=
  (σ.namebids[n]?).map fun row => (row.highBidder, row.highBid)

/-- A bid by somebody else, more than a tenth above the one before it. -/
def Outbids (earlier later : Name × Asset) : Prop :=
  earlier.1 ≠ later.1 ∧ 11 * earlier.2.amount.toInt < 10 * later.2.amount.toInt

/-- The comparison of `bidname`, in exact arithmetic. -/
theorem outbids_of_increase {bidder : Name} {bid : Asset} {row : NameBid}
    (hrow : 0 < row.highBid.amount) (hbid : 0 < bid.amount)
    (hmore : row.highBid.amount / 10 < bid.amount - row.highBid.amount)
    (hother : row.highBidder ≠ bidder) : Outbids (row.highBidder, row.highBid) (bidder, bid) := by
  rw [Int64.toInt_pos_iff] at hrow hbid
  have hb := bid.amount.toInt_bounds
  have hr := row.highBid.amount.toInt_bounds
  have hten : (10 : Int64).toInt = 10 := rfl
  have hdiff : (bid.amount - row.highBid.amount).toInt =
      bid.amount.toInt - row.highBid.amount.toInt := Int64.toInt_sub_of_mem (by omega) (by omega)
  have hquot : (row.highBid.amount / 10).toInt = row.highBid.amount.toInt / 10 := by
    rw [Int64.toInt_div_of_ne_right _ _ (by decide), hten, Int.tdiv_eq_ediv_of_nonneg hrow.le]
  rw [Int64.lt_iff_toInt_lt, hdiff, hquot] at hmore
  refine ⟨hother, ?_⟩
  show 11 * row.highBid.amount.toInt < 10 * bid.amount.toInt
  omega

/-! ### The law -/

/-- The tables show the last of the bids, which are positive and rise. -/
structure Follows (tr : List (Context × Call)) (σ : State) : Prop where
  live : ∀ n, highBidOn σ n = (bidsOn n tr).getLast?
  positive : ∀ n, ∀ b ∈ bidsOn n tr, 0 < b.2.amount.toInt
  rising : ∀ n, (bidsOn n tr).IsChain Outbids

theorem follows_nil : Follows [] {} where
  live n := by simp [highBidOn, bidsOn]
  positive n b hb := absurd hb List.not_mem_nil
  rising n := .nil

/-- A call that bids on no name and cleans up none leaves the bids alone. -/
theorem Follows.of_same {tr : List (Context × Call)} {c : Context × Call} (h : Follows tr σ)
    (hrows : σ'.namebids = σ.namebids) (hcall : ∀ n, bidsStep n (bidsOn n tr) c = bidsOn n tr) :
    Follows (tr ++ [c]) σ' where
  live n := by rw [bidsOn_snoc, hcall, highBidOn, hrows, ← highBidOn, h.live]
  positive n := by
    rw [bidsOn_snoc, hcall]
    exact h.positive n
  rising n := by
    rw [bidsOn_snoc, hcall]
    exact h.rising n

/-- **A bid is stored, and beats the bid that was.** -/
theorem Follows.bid {tr : List (Context × Call)} {bidder newname : Name} {bid : Asset}
    {sends : List Transfer} (h : Follows tr σ)
    (hok : bidname ctx σ bidder newname bid = .ok (σ', sends)) :
    Follows (tr ++ [(ctx, .bidname bidder newname bid)]) σ' := by
  obtain ⟨-, hpos, -, bidrefunds, hcases, rfl⟩ := bidname_ok hok
  have hstep (n : Name) : bidsOn n (tr ++ [(ctx, .bidname bidder newname bid)]) =
      if newname = n then bidsOn n tr ++ [(bidder, bid)] else bidsOn n tr := bidsOn_snoc
  refine ⟨fun n => ?_, fun n => ?_, fun n => ?_⟩
  · rw [hstep, highBidOn, OrdMap.getElem?_insert]
    by_cases hn : n = newname
    · rw [if_pos hn, if_pos hn.symm, List.getLast?_concat]
      rfl
    · rw [if_neg hn, if_neg (Ne.symm hn), ← highBidOn, h.live]
  · rw [hstep]
    split_ifs
    · exact List.forall_mem_append.mpr
        ⟨h.positive n, List.forall_mem_singleton.mpr (Int64.toInt_pos_iff.mp hpos)⟩
    · exact h.positive n
  · rw [hstep]
    split_ifs with hn
    · refine List.isChain_append.mpr ⟨h.rising n, .singleton _, ?_⟩
      rintro earlier hlast later hlater
      obtain rfl : (bidder, bid) = later := Option.some.inj hlater
      -- the bid before it is the one that is stored
      rw [← h.live n, ← hn, highBidOn] at hlast
      rcases hcases with ⟨hnone, -⟩ | ⟨row, hrow, hopen, hmore, hother, -⟩
      · rw [hnone] at hlast
        exact absurd hlast (by simp)
      · rw [hrow] at hlast
        obtain rfl : (row.highBidder, row.highBid) = earlier := Option.some.inj hlast
        exact outbids_of_increase hopen hpos hmore hother
    · exact h.rising n

theorem Follows.cleanup {tr : List (Context × Call)} (newname : Name) (h : Follows tr σ) :
    Follows (tr ++ [(ctx, .cleanup newname)])
      { σ with namebids := σ.namebids.erase newname } := by
  have hstep (n : Name) : bidsOn n (tr ++ [(ctx, .cleanup newname)]) =
      if newname = n then [] else bidsOn n tr := bidsOn_snoc
  refine ⟨fun n => ?_, fun n => ?_, fun n => ?_⟩
  · rw [hstep, highBidOn, OrdMap.getElem?_erase]
    by_cases hn : n = newname
    · rw [if_pos hn, if_pos hn.symm]
      rfl
    · rw [if_neg hn, if_neg (Ne.symm hn), ← highBidOn, h.live]
  · rw [hstep]
    split_ifs
    · exact fun b hb => absurd hb List.not_mem_nil
    · exact h.positive n
  · rw [hstep]
    split_ifs
    · exact .nil
    · exact h.rising n

/-- **A step keeps the tables in step with the bids.** -/
theorem Follows.step {tr : List (Context × Call)} {c : Context × Call} (h : Follows tr σ)
    (hok : tablesStep host σ c = .ok σ') : Follows (tr ++ [c]) σ' := by
  obtain ⟨ctx, call⟩ := c
  rcases tablesStep_cases hok with ⟨destruct, coreSymbol, config, rfl, rfl⟩ |
    ⟨bidder, newname, bid, sends, rfl, hbid⟩ | ⟨bidder, newname, rfl, rfl⟩ | ⟨newname, rfl, rfl⟩
  · exact h.of_same rfl fun n => rfl
  · exact h.bid hbid
  · exact h.of_same rfl fun n => rfl
  · exact h.cleanup newname

/-! ### The number of bids -/

/-- Along a chain in which each value is at least `p / q` of the one before it, the values grow
with the powers of `p / q`. -/
theorem pow_mul_le_of_isChain {α : Type*} {R : α → α → Prop} {f : α → ℤ} {p q : ℕ}
    (hR : ∀ a b, R a b → p * f a ≤ q * f b) : ∀ {l : List α} {a : α}, (a :: l).IsChain R →
      (p : ℤ) ^ l.length * f a ≤
        (q : ℤ) ^ l.length * f ((a :: l).getLast (List.cons_ne_nil a l)) := by
  intro l
  induction l with
  | nil => exact fun _ => le_rfl
  | cons b l ih =>
    intro a h
    obtain ⟨hab, hrest⟩ := List.isChain_cons_cons.mp h
    have hlast : (a :: b :: l).getLast (List.cons_ne_nil _ _) =
        (b :: l).getLast (List.cons_ne_nil _ _) := List.getLast_cons_cons
    rw [hlast, List.length_cons]
    calc (p : ℤ) ^ (l.length + 1) * f a = p ^ l.length * (p * f a) := by ring
      _ ≤ p ^ l.length * (q * f b) := mul_le_mul_of_nonneg_left (hR a b hab) (by positivity)
      _ = q * (p ^ l.length * f b) := by ring
      _ ≤ q * (q ^ l.length * f ((b :: l).getLast (List.cons_ne_nil _ _))) :=
        mul_le_mul_of_nonneg_left (ih hrest) (by positivity)
      _ = q ^ (l.length + 1) * f ((b :: l).getLast (List.cons_ne_nil _ _)) := by ring

/-- From the 459th power on, the powers of 11 and 10 are 63 bits apart. -/
theorem pow_lt_pow_eleven {k : ℕ} (hk : 459 ≤ k) : 10 ^ k * 2 ^ 63 < 11 ^ k := by
  induction k, hk using Nat.le_induction with
  | base => decide +kernel
  | succ k _ ih =>
    calc 10 ^ (k + 1) * 2 ^ 63 = 10 ^ k * 2 ^ 63 * 10 := by ring
      _ < 11 ^ k * 11 := Nat.mul_lt_mul_of_lt_of_le ih (by norm_num) (by norm_num)
      _ = 11 ^ (k + 1) := (pow_succ 11 k).symm

/-- Bids that fit in 64 bits can rise by a tenth 458 times. -/
theorem length_le_of_isChain {bids : List (Name × Asset)} (hpos : ∀ b ∈ bids, 0 < b.2.amount.toInt)
    (hrising : bids.IsChain Outbids) : bids.length ≤ 459 := by
  cases bids with
  | nil => exact Nat.zero_le _
  | cons first bids =>
    have hgrowth := pow_mul_le_of_isChain (p := 11) (q := 10)
      (f := fun b : Name × Asset => b.2.amount.toInt) (fun a b hab => hab.2.le) hrising
    have hfirst : 1 ≤ first.2.amount.toInt := hpos first List.mem_cons_self
    have hlast := ((first :: bids).getLast (List.cons_ne_nil _ _)).2.amount.toInt_lt
    push_cast at hgrowth
    rw [List.length_cons]
    by_contra hlong
    have hfar : (10 : ℤ) ^ bids.length * 2 ^ 63 < 11 ^ bids.length := by
      exact_mod_cast pow_lt_pow_eleven (k := bids.length) (by omega)
    refine absurd hfar (LE.le.not_gt ?_)
    calc (11 : ℤ) ^ bids.length = 11 ^ bids.length * 1 := (mul_one _).symm
      _ ≤ 11 ^ bids.length * first.2.amount.toInt :=
        mul_le_mul_of_nonneg_left hfirst (by positivity)
      _ ≤ 10 ^ bids.length *
          ((first :: bids).getLast (List.cons_ne_nil _ _)).2.amount.toInt := hgrowth
      _ ≤ 10 ^ bids.length * 2 ^ 63 := mul_le_mul_of_nonneg_left hlast.le (by positivity)

/-- **The course of an auction.** After every run of the contract's actions, for every name, the
row that is stored, if any, shows the last of the bids made on the name since it was last cleaned
up. Each bid is positive, by another bidder than the one before it, and more than a tenth above
it; so there are at most 459 of them, and none marks the auction as closed. -/
theorem auction_law {tr : List (Context × Call)}
    (hrun : Run (tablesStep host) (fun _ _ => True) {} tr σ) (n : Name) :
    highBidOn σ n = (bidsOn n tr).getLast? ∧ (bidsOn n tr).IsChain Outbids ∧
      (∀ b ∈ bidsOn n tr, 0 < b.2.amount.toInt) ∧ (bidsOn n tr).length ≤ 459 := by
  have h : Follows tr σ := hrun.invariant follows_nil fun _ _ _ _ _ hI _ hs => hI.step hs
  exact ⟨h.live n, h.rising n, h.positive n, length_le_of_isChain (h.positive n) (h.rising n)⟩

/-- Alice and Bob outbid each other on one name. -/
theorem auction_law_aliceAndBob :
    ∃ σ, Run (tablesStep plainHost) (fun _ _ => True) {} (aliceAndBob 100 120 140 160) σ ∧
      highBidOn σ nice = some (.ofString "bob", ⟨160, coreSymbol⟩) ∧
      bidsOn nice (aliceAndBob 100 120 140 160) =
        [(alice, ⟨100, coreSymbol⟩), (.ofString "bob", ⟨120, coreSymbol⟩),
          (alice, ⟨140, coreSymbol⟩), (.ofString "bob", ⟨160, coreSymbol⟩)] := by
  obtain ⟨σ, hσ, -⟩ := returns_iff.mp (show returns
    ((aliceAndBob 100 120 140 160).foldlM (tablesStep plainHost) {}) (fun _ => true) = true by
      decide +kernel)
  have hrun : Run (tablesStep plainHost) (fun _ _ => True) {} (aliceAndBob 100 120 140 160) σ :=
    Run.of_foldlM (fun _ _ _ => trivial) hσ
  have hbids : bidsOn nice (aliceAndBob 100 120 140 160) = _ := rfl
  exact ⟨σ, hrun, (auction_law hrun nice).1, hbids⟩

end Twig.Names
