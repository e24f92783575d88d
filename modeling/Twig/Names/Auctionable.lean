import Twig.Names.Auction
import Twig.System.NewAccount

/-!
# Names for auction

The auctions and the creation of accounts look at a name in different ways. `bidname` takes a name
that is its own suffix, and masks the last two symbols; `newaccount` goes through the symbols for a
dot, and compares the name with its suffix. The names in question are the same: a name can be
bid on exactly if nobody but the whitelisted system account may create it, the winner of its auction
included (`auctionable_iff`).

A bid counts as made here when its transfer is settled, that is, taken as delivered. (As it is
packed, the token contract does not understand it.)

* `suffixRound` — a round of the loop of `suffix()`, one for each symbol;
* `lowBits_of_hasDot` — a name with a dot that is its own suffix is short.
-/

namespace Twig.Names

open Std Fallible

variable {n : Name}

/-! ### The suffix -/

/-- The symbol at a position, counted in bits, is the dot. -/
def DotAt (n : Name) (remainingBits : UInt64) : Prop := (n.value >>> remainingBits) &&& 0x1F = 0

instance {n : Name} {r : UInt64} : Decidable (DotAt n r) := inferInstanceAs (Decidable (_ = _))

/-- A round of the loop of `suffix()`. -/
def suffixRound (n : Name) (acc : UInt64 × UInt64) (remainingBits : UInt64) : UInt64 × UInt64 :=
  if DotAt n remainingBits then (acc.1, remainingBits) else (acc.2, acc.2)

/-- The positions of the first eleven symbols. -/
def positions : List UInt64 := [59, 54, 49, 44, 39, 34, 29, 24, 19, 14, 9]

theorem positions_eq : positions = (List.range 11).map fun i => .ofNat (59 - 5 * i) := by decide

/-- The part of the name after a position, with the thirteenth character. -/
def tail (n : Name) (afterLastDot : UInt64) : Name :=
  ⟨((n.value &&& ((1 <<< afterLastDot) - 16)) <<< (64 - afterLastDot)) +
    ((n.value &&& 0x0F) <<< (64 - afterLastDot - 1))⟩

theorem suffix_eq : n.suffix =
    let (afterLastDot, tmp) := (positions ++ [4]).foldl (suffixRound n) (0, 0)
    let afterLastDot := if n.value &&& 0x0F ≠ 0 then tmp else afterLastDot
    if afterLastDot = 0 then n else tail n afterLastDot :=
  rfl

/-- The last dot is at one of the positions gone through. -/
theorem foldl_suffixRound_mem {l : List UInt64} (acc : UInt64 × UInt64) :
    (l.foldl (suffixRound n) acc).2 ∈ acc.2 :: l := by
  induction l generalizing acc with
  | nil => exact List.mem_singleton_self acc.2
  | cons r l ih =>
    have hrest := ih (suffixRound n acc r)
    rw [List.foldl_cons]
    rcases List.mem_cons.mp hrest with hsame | hlater
    · rw [hsame, suffixRound]
      split_ifs
      · exact List.mem_cons_of_mem _ List.mem_cons_self
      · exact List.mem_cons_self
    · exact List.mem_cons_of_mem _ (List.mem_cons_of_mem _ hlater)

/-- A dot among them is found. -/
theorem foldl_suffixRound_of_dot {l : List UInt64} (h : ∃ r ∈ l, DotAt n r)
    (acc : UInt64 × UInt64) : (l.foldl (suffixRound n) acc).2 ∈ l := by
  induction l generalizing acc with
  | nil =>
    obtain ⟨r, hr, -⟩ := h
    exact absurd hr List.not_mem_nil
  | cons r l ih =>
    rw [List.foldl_cons]
    by_cases hdot : DotAt n r
    · have hrest := foldl_suffixRound_mem (n := n) (l := l) (suffixRound n acc r)
      rw [suffixRound, if_pos hdot] at hrest ⊢
      exact hrest
    · obtain ⟨r', hr', hlater⟩ := h
      have hl : r' ∈ l := (List.mem_cons.mp hr').resolve_left fun heq => hdot (heq ▸ hlater)
      exact List.mem_cons_of_mem _ (ih ⟨r', hl, hlater⟩ _)

/-! ### Short names -/

/-- A shift to the left leaves the lowest bits at zero. -/
theorem shiftLeft_mod {x s : UInt64} {k : ℕ} (hk : k ≤ s.toNat) (hs : s.toNat < 64) :
    (x <<< s).toNat % 2 ^ k = 0 := by
  have hdvd : 2 ^ k ∣ 2 ^ 64 := Nat.pow_dvd_pow 2 (by omega)
  rw [UInt64.toNat_shiftLeft, Nat.mod_eq_of_lt hs, Nat.shiftLeft_eq, Nat.mod_mod_of_dvd _ hdvd]
  exact Nat.mod_eq_zero_of_dvd ((Nat.pow_dvd_pow 2 hk).mul_left _)

/-- The mask of the low bits, and the remainder. -/
theorem and_mask_eq_zero_iff {x : UInt64} : x &&& 0x0F = 0 ↔ x.toNat % 2 ^ 4 = 0 := by
  rw [← UInt64.toNat_inj, UInt64.toNat_and_two_pow_sub_one (n := 4) rfl]
  rfl

/-- The mask of the twelfth symbol, and its bits. -/
theorem and_twelfth_eq_zero_iff {x : UInt64} :
    x &&& 0x1F0 = 0 ↔ x.toNat / 2 ^ 4 % 2 ^ 5 = 0 := by
  have hquot : (x.toNat &&& 0x1F0) / 2 ^ 4 = x.toNat / 2 ^ 4 % 2 ^ 5 := by
    rw [← Nat.shiftRight_eq_div_pow, Nat.shiftRight_and_distrib, Nat.shiftRight_eq_div_pow]
    exact Nat.and_two_pow_sub_one_eq_mod _ 5
  have hrem : (x.toNat &&& 0x1F0) % 2 ^ 4 = 0 := by
    rw [Nat.and_mod_two_pow]
    exact Nat.and_zero _
  have hzero : x &&& 0x1F0 = 0 ↔ x.toNat &&& 0x1F0 = 0 := by
    rw [← UInt64.toNat_inj, UInt64.toNat_and]
    rfl
  rw [hzero, ← hquot]
  omega

section Tail

variable {r : UInt64}

theorem shift_bounds (hr : r ∈ positions ++ [4]) : 5 ≤ (64 - r).toNat ∧ (64 - r).toNat < 64 ∧
    (64 - r - 1).toNat = (64 - r).toNat - 1 := by
  have hall : (positions ++ [4]).all (fun r => decide (5 ≤ (64 - r).toNat ∧ (64 - r).toNat < 64 ∧
    (64 - r - 1).toNat = (64 - r).toNat - 1)) = true := by decide
  exact of_decide_eq_true (List.all_eq_true.mp hall r hr)

/-- The suffix that stands after a dot has no thirteenth character. -/
theorem tail_mod (hr : r ∈ positions ++ [4]) : (tail n r).value.toNat % 2 ^ 4 = 0 := by
  obtain ⟨hlow, hhigh, hprev⟩ := shift_bounds hr
  have hhead := shiftLeft_mod (x := n.value &&& ((1 <<< r) - 16)) (k := 4) (s := 64 - r)
    (by omega) hhigh
  have hlast := shiftLeft_mod (x := n.value &&& 0x0F) (k := 4) (s := 64 - r - 1)
    (by omega) (by omega)
  rw [tail, UInt64.toNat_add]
  omega

/-- Nor a twelfth, if the name has no thirteenth. -/
theorem tail_mod_of_short (hr : r ∈ positions ++ [4]) (hshort : n.value &&& 0x0F = 0) :
    (tail n r).value.toNat % 2 ^ 9 = 0 := by
  obtain ⟨hlow, hhigh, -⟩ := shift_bounds hr
  have hmasked : (n.value &&& ((1 <<< r) - 16)).toNat % 2 ^ 4 = 0 := by
    rw [UInt64.toNat_and, Nat.and_mod_two_pow, and_mask_eq_zero_iff.mp hshort, Nat.zero_and]
  have hdvd : 2 ^ 9 ∣ (n.value &&& ((1 <<< r) - 16)).toNat * 2 ^ (64 - r).toNat := by
    rw [pow_add 2 4 5]
    exact mul_dvd_mul (Nat.dvd_of_mod_eq_zero hmasked) (Nat.pow_dvd_pow 2 hlow)
  rw [tail, hshort, UInt64.zero_shiftLeft, UInt64.add_zero, UInt64.toNat_shiftLeft,
    Nat.mod_eq_of_lt hhigh, Nat.shiftLeft_eq, Nat.mod_mod_of_dvd _ (Nat.pow_dvd_pow 2 (by omega))]
  exact Nat.mod_eq_zero_of_dvd hdvd

end Tail

theorem dotAt_iff {i : ℕ} : DotAt n (.ofNat (59 - 5 * i)) ↔ System.symbolAt n i = 0 := by
  have hbits : (UInt64.ofNat (59 - 5 * i)).toNat = 59 - 5 * i :=
    UInt64.toNat_ofNat_of_lt ((Nat.sub_le 59 _).trans_lt (by decide))
  have hshift : (n.value >>> UInt64.ofNat (59 - 5 * i)).toNat =
      n.value.toNat / 2 ^ (59 - 5 * i) := by
    rw [UInt64.toNat_shiftRight, hbits, Nat.mod_eq_of_lt (by omega), Nat.shiftRight_eq_div_pow]
  rw [DotAt, ← UInt64.toNat_inj, UInt64.toNat_and_two_pow_sub_one (n := 5) rfl, hshift]
  rfl

/-- A dot among the first twelve symbols is at one of the positions. -/
theorem hasDot_iff : System.HasDot n ↔ (∃ r ∈ positions, DotAt n r) ∨ DotAt n 4 := by
  have hlast : DotAt n 4 ↔ System.symbolAt n 11 = 0 := dotAt_iff (i := 11)
  rw [System.HasDot, Nat.exists_lt_succ_right, hlast, positions_eq]
  simp only [List.mem_map, List.mem_range, exists_exists_and_eq_and, dotAt_iff]

/-- A name that is a suffix after a dot of its own has no thirteenth character. -/
theorem short_of_tail {r : UInt64} (hr : r ∈ positions ++ [4]) (h : tail n r = n) :
    n.value &&& 0x0F = 0 := by
  have hmod := tail_mod (n := n) hr
  rw [h] at hmod
  exact and_mask_eq_zero_iff.mpr hmod

/-- **A name with a dot that is its own suffix is short**: its last two symbols are empty. -/
theorem lowBits_of_hasDot (hdot : System.HasDot n) (hsuffix : n.suffix = n) :
    n.value &&& 0x0F = 0 ∧ n.value &&& 0x1F0 = 0 := by
  have htwelfth : n.value &&& 0x1F0 = 0 ↔ DotAt n 4 :=
    and_twelfth_eq_zero_iff.trans (dotAt_iff (n := n) (i := 11)).symm
  rw [htwelfth]
  rw [hasDot_iff] at hdot
  rw [suffix_eq, List.foldl_append, List.foldl_cons, List.foldl_nil] at hsuffix
  by_cases hlast : DotAt n 4
  · -- the dot at the end would have been followed by the thirteenth character
    refine ⟨?_, hlast⟩
    by_contra hlong
    rw [suffixRound, if_pos hlast] at hsuffix
    simp only [ne_eq, hlong, not_false_eq_true, if_true] at hsuffix
    exact hlong (short_of_tail (List.mem_append_right _ List.mem_cons_self)
      (by simpa using hsuffix))
  · -- the last dot stands before the twelfth symbol
    have hearlier := hdot.resolve_right hlast
    have hmem := foldl_suffixRound_of_dot hearlier (0, 0)
    rw [suffixRound, if_neg hlast] at hsuffix
    generalize (positions.foldl (suffixRound n) (0, 0)).2 = r at hmem hsuffix
    have hr : r ∈ positions ++ [4] := List.mem_append_left _ hmem
    have hne : r ≠ 0 := by
      rintro rfl
      exact absurd hmem (by decide)
    simp only [ite_self, if_neg hne] at hsuffix
    have hshort := short_of_tail hr hsuffix
    have hmod := tail_mod_of_short hr hshort
    rw [hsuffix] at hmod
    refine absurd ?_ hlast
    rw [← htwelfth, and_twelfth_eq_zero_iff]
    omega

/-! ### The two contracts -/

/-- What `bidname` asks of a name. -/
structure Biddable (n : Name) : Prop where
  suffix : n.suffix = n
  nonempty : n.value ≠ 0
  short : n.value &&& 0xF = 0
  dotted : n.value &&& 0x1F0 = 0

theorem biddable_of_bidname {ctx : Context} {σ : State} {bidder : Name} {bid : Asset}
    {r : State × List Transfer} (h : bidname ctx σ bidder n bid = .ok r) : Biddable n := by
  simp only [bidname, bind_eq_ok_iff, Context.requireAuth_eq_ok_iff, check_eq_ok_iff, exists_const,
    singletonGet_eq_ok_iff] at h
  obtain ⟨-, hsuffix, -, -, hnonempty, hshort, hdotted, -⟩ := h
  exact ⟨hsuffix, hnonempty, hshort, hdotted⟩

/-- **Names that can be bid on**, in the terms of `newaccount`. -/
theorem biddable_iff : Biddable n ↔ n.value ≠ 0 ∧ System.HasDot n ∧ n.suffix = n := by
  constructor
  · rintro ⟨hsuffix, hnonempty, -, hdotted⟩
    have htwelfth := (dotAt_iff (n := n) (i := 11)).mpr (and_twelfth_eq_zero_iff.mp hdotted)
    exact ⟨hnonempty, hasDot_iff.mpr (.inr htwelfth), hsuffix⟩
  · rintro ⟨hnonempty, hdot, hsuffix⟩
    obtain ⟨hshort, hdotted⟩ := lowBits_of_hasDot hdot hsuffix
    exact ⟨hsuffix, hnonempty, hshort, hdotted⟩

/-- When `newaccount` points to the auctions. -/
theorem newaccount_disabled_iff {ctx : Context} {whitelist : Table Name System.Whitelisted}
    {creator : Name} :
    System.newaccount ctx whitelist creator n = .error (.check "namebids currently disabled") ↔
      ¬ (creator = ctx.self ∧ 3 < System.depthOf whitelist creator) ∧ System.HasDot n ∧
        n.suffix = n := by
  rw [System.newaccount, ← System.looksAtName_iff, ← System.hasDotLoop_value]
  split_ifs with hlooks hdot
  · simp only [hlooks, hdot, true_and]
    by_cases hwhole : n.suffix = n
    · rw [if_pos hwhole]
      exact iff_of_true rfl hwhole
    · rw [if_neg hwhole, check]
      refine iff_of_false ?_ hwhole
      split_ifs
      all_goals simp
  · exact iff_of_false (by simp [pure, Except.pure]) fun h => hdot h.2.1
  · exact iff_of_false (by simp [pure, Except.pure]) fun h => hlooks h.1

/-- A step puts no name on record that cannot be bid on. -/
theorem biddable_of_step {host : Host} {σ σ' : State} {c : Context × Call}
    (hok : tablesStep host σ c = .ok σ') {row : NameBid} (hrow : σ'.namebids[n]? = some row) :
    Biddable n ∨ σ.namebids[n]? = some row := by
  obtain ⟨ctx, call⟩ := c
  rcases tablesStep_cases hok with ⟨destruct, coreSymbol, config, rfl, rfl⟩ |
    ⟨bidder, newname, bid, sends, rfl, hbid⟩ | ⟨bidder, newname, rfl, rfl⟩ | ⟨newname, rfl, rfl⟩
  · exact .inr hrow
  · obtain ⟨-, -, -, bidrefunds, -, rfl⟩ := bidname_ok hbid
    rw [OrdMap.getElem?_insert] at hrow
    split_ifs at hrow with hn
    · exact .inl (hn ▸ biddable_of_bidname hbid)
    · exact .inr hrow
  · exact .inr hrow
  · rw [OrdMap.getElem?_erase] at hrow
    split_ifs at hrow
    exact .inr hrow

/-- Every name with a bid on record can be bid on. -/
theorem biddable_of_run {host : Host} {tr : List (Context × Call)} {σ : State}
    (hrun : Run (tablesStep host) (fun _ _ => True) {} tr σ) {row : NameBid}
    (hrow : σ.namebids[n]? = some row) : Biddable n := by
  refine hrun.invariant (I := fun _ σ => ∀ row, σ.namebids[n]? = some row → Biddable n) ?_ ?_
    row hrow
  · exact fun row hrow => absurd hrow (by simp)
  · rintro tr σ c σ' - ih - hok row hrow
    exact (biddable_of_step hok hrow).elim id (ih row)

/-- A name that can be bid on is bid on in some run. -/
theorem Biddable.exists_run (h : Biddable n) :
    ∃ tr w row, Run (step plainHost) (OnContract namesContext.self) {} tr w ∧
      w.state.namebids[n]? = some row := by
  have hinit : step plainHost {} (namesContext, .init false coreSymbol) =
      .ok { state := { config := some coreSymbol } } := rfl
  have hbid : bidname namesContext { config := some coreSymbol } alice n ⟨100, coreSymbol⟩ = .ok
      ({ config := some coreSymbol
         namebids := (∅ : Table Name NameBid).insert n
           ⟨alice, ⟨100, coreSymbol⟩, namesContext.currentTimePoint⟩ },
        [bidTransfer namesContext.self alice n ⟨100, coreSymbol⟩]) := by
    simp only [bidname, bind_eq_ok_iff, Context.requireAuth_eq_ok_iff, check_eq_ok_iff,
      exists_const, singletonGet_eq_ok_iff, ExtTreeMap.getElem?_empty, Table.emplace_eq_ok_iff,
      pure_eq_ok_iff]
    exact ⟨rfl, h.suffix, _, rfl, h.nonempty, h.short, h.dotted, rfl, rfl, by decide, _,
      ⟨ExtTreeMap.not_mem_empty, rfl⟩, rfl⟩
  have hsettle : settle [bidTransfer namesContext.self alice n ⟨100, coreSymbol⟩] = .ok () :=
    settle_singleton.mpr (show alice ≠ namesContext.self by decide)
  have hstep : ∃ w, step plainHost { state := { config := some coreSymbol } }
      (namesContext, .bidname alice n ⟨100, coreSymbol⟩) = .ok w ∧ w.state.namebids[n]? =
        some ⟨alice, ⟨100, coreSymbol⟩, namesContext.currentTimePoint⟩ :=
    ⟨_, bind_eq_ok_iff.mpr ⟨_, hbid, bind_eq_ok_iff.mpr ⟨(), hsettle, rfl⟩⟩,
      ExtTreeMap.getElem?_insert_self⟩
  obtain ⟨w, hw, hrow⟩ := hstep
  have hguard (w : Escrow) (call : Call) : OnContract namesContext.self w (namesContext, call) :=
    rfl
  exact ⟨_, w, _, (Run.single (hguard _ _) hinit).trans (.single (hguard _ _) hw), hrow⟩

/-- **The names for auction.** A name has a bid on record after some run of the auctions, whose
transfers are settled, exactly if it is not empty and `newaccount` points everybody to the auctions
who would create it, the winner included, except for the system account when it is whitelisted. -/
theorem auctionable_iff (n : Name) :
    (∃ host tr w row, Run (step host) (OnContract namesContext.self) {} tr w ∧
        w.state.namebids[n]? = some row) ↔
      n.value ≠ 0 ∧ ∀ ctx whitelist creator,
        ¬ (creator = ctx.self ∧ 3 < System.depthOf whitelist creator) →
          System.newaccount ctx whitelist creator n =
            .error (.check "namebids currently disabled") := by
  constructor
  · rintro ⟨host, tr, w, row, hrun, hrow⟩
    obtain ⟨hnonempty, hdot, hsuffix⟩ :=
      biddable_iff.mp (biddable_of_run (tables_of_run hrun) hrow)
    exact ⟨hnonempty, fun ctx whitelist creator hother =>
      newaccount_disabled_iff.mpr ⟨hother, hdot, hsuffix⟩⟩
  · rintro ⟨hnonempty, hdisabled⟩
    have hother : ¬ (alice = System.systemContext.self ∧ 3 < System.depthOf ∅ alice) :=
      fun h => absurd h.1 (by decide)
    obtain ⟨-, hdot, hsuffix⟩ :=
      newaccount_disabled_iff.mp (hdisabled System.systemContext ∅ alice hother)
    obtain ⟨tr, w, row, hrun, hrow⟩ :=
      (biddable_iff.mpr ⟨hnonempty, hdot, hsuffix⟩).exists_run
    exact ⟨plainHost, tr, w, row, hrun, hrow⟩

end Twig.Names
