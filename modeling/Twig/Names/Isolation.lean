import Twig.Lib.Component
import Twig.Names.Auction

/-!
# Auctions do not meet

An action on a name reads and writes the bid and the refunds of that name, and reads the core
symbol, which only `init` writes. These are a component of the contract (`component_about`): the
auctions of other names have no effect on what is stored about a name, nor on which calls on it
succeed and what they send.

* `apply_congr` — what a call on a name does is decided by what is stored about the name;
* `auction_isolated` — after runs with the same calls on a name, its auction stands the same.
-/

namespace Twig.Names

open Std Fallible

variable {host : Host} {ctx : Context} {σ τ σ' : State} {n : Name}

/-! ### The component of a name -/

/-- What the actions on a name read: its bid, its refunds, and the core symbol. -/
def State.about (n : Name) (σ : State) : Option Symbol × Option NameBid × (Name → Option Asset) :=
  (σ.config, σ.namebids[n]?, fun bidder => σ.bidrefunds[RefundKey.mk n bidder]?)

/-- The name that a call is on; an `init` is on none. -/
def Call.target : Call → Option Name
  | .bidname _ newname _ | .bidrefund _ newname | .cleanup newname => some newname
  | .init _ _ => none

/-- The call is on the name, or an `init`. -/
def Concerns (n : Name) (c : Context × Call) : Prop := ∀ n' ∈ c.2.target, n' = n

instance (n : Name) : DecidablePred (Concerns n) :=
  fun c => inferInstanceAs (Decidable (∀ n' ∈ c.2.target, n' = n))

theorem about_eq_iff : σ.about n = τ.about n ↔
    σ.config = τ.config ∧ σ.namebids[n]? = τ.namebids[n]? ∧
      ∀ bidder, σ.bidrefunds[RefundKey.mk n bidder]? = τ.bidrefunds[RefundKey.mk n bidder]? := by
  rw [State.about, State.about, Prod.mk.injEq, Prod.mk.injEq, funext_iff]

/-! ### What an action leaves alone -/

/-- A refund is added under its own name. -/
theorem getElem?_addRefund {bidrefunds bidrefunds' : Table RefundKey Asset} {newname : Name}
    {row : NameBid} (hok : addRefund bidrefunds newname row = .ok bidrefunds') {k : RefundKey}
    (hk : k.newname ≠ newname) : bidrefunds'[k]? = bidrefunds[k]? := by
  have hne : k ≠ ⟨newname, row.highBidder⟩ := fun h => hk (congrArg RefundKey.newname h)
  unfold addRefund at hok
  split at hok
  · simp only [bind_eq_ok_iff, pure_eq_ok_iff] at hok
    obtain ⟨amount, -, rfl⟩ := hok
    rw [OrdMap.getElem?_insert, if_neg hne]
  · obtain ⟨-, rfl⟩ := Table.emplace_eq_ok_iff.mp hok
    rw [OrdMap.getElem?_insert, if_neg hne]

/-- A call that does not concern a name leaves alone what is stored about it. -/
theorem about_frame {c : Context × Call} (hc : ¬ Concerns n c)
    (h : tablesStep host σ c = .ok σ') : σ'.about n = σ.about n := by
  obtain ⟨ctx, call⟩ := c
  have hn (m : Name) (htarget : call.target = some m) : n ≠ m := by
    rintro rfl
    exact hc (by simp [Concerns, htarget])
  rw [about_eq_iff]
  rcases tablesStep_cases h with ⟨destruct, coreSymbol, config, rfl, rfl⟩ |
    ⟨bidder, newname, bid, sends, rfl, hbid⟩ | ⟨bidder, newname, rfl, rfl⟩ | ⟨newname, rfl, rfl⟩
  · exact absurd hc (by simp [Concerns, Call.target])
  · obtain ⟨-, -, -, bidrefunds, hcases, rfl⟩ := bidname_ok hbid
    refine ⟨rfl, by rw [OrdMap.getElem?_insert, if_neg (hn newname rfl)], fun b => ?_⟩
    rcases hcases with ⟨-, rfl⟩ | ⟨row, -, -, -, -, hadd⟩
    · rfl
    · exact getElem?_addRefund hadd (hn newname rfl)
  · refine ⟨rfl, rfl, fun b => ?_⟩
    have hne : RefundKey.mk n b ≠ ⟨newname, bidder⟩ :=
      fun h => hn newname rfl (congrArg RefundKey.newname h)
    rw [OrdMap.getElem?_erase, if_neg hne]
  · exact ⟨rfl, by rw [OrdMap.getElem?_erase, if_neg (hn newname rfl)], fun b => rfl⟩

/-! ### What an action depends on -/

/-- The states say the same about the name. -/
def SameAbout (n : Name) (σ τ : State) : Prop := σ.about n = τ.about n

/-- The states say the same about the name, and the same is sent. -/
def SameResult (n : Name) (r r' : State × List Transfer) : Prop :=
  SameAbout n r.1 r'.1 ∧ r.2 = r'.2

section Congr

variable (hsame : SameAbout n σ τ)
include hsame

theorem addRefund_congr {row : NameBid} :
    Simulates (fun t t' : Table RefundKey Asset => ∀ bidder,
        t[RefundKey.mk n bidder]? = t'[RefundKey.mk n bidder]?)
      (addRefund τ.bidrefunds n row) (addRefund σ.bidrefunds n row) := by
  obtain ⟨-, -, hrefunds⟩ := about_eq_iff.mp hsame
  have hkey := hrefunds row.highBidder
  have hmem : RefundKey.mk n row.highBidder ∉ σ.bidrefunds ↔
      RefundKey.mk n row.highBidder ∉ τ.bidrefunds := by
    rw [OrdMap.not_mem_iff, OrdMap.not_mem_iff, hkey]
  have hinsert (amount : Asset) (b : Name) :
      (σ.bidrefunds.insert ⟨n, row.highBidder⟩ amount)[RefundKey.mk n b]? =
        (τ.bidrefunds.insert ⟨n, row.highBidder⟩ amount)[RefundKey.mk n b]? := by
    rw [OrdMap.getElem?_insert, OrdMap.getElem?_insert, hrefunds b]
  unfold addRefund
  rw [hkey]
  cases τ.bidrefunds[RefundKey.mk n row.highBidder]? with
  | none =>
    simp only [Table.emplace, check_congr _ hmem]
    exact simulates_bind fun _ => simulates_pure (hinsert _)
  | some amount => exact simulates_bind fun amount' => simulates_pure (hinsert amount')

theorem bidname_congr {bidder : Name} {bid : Asset} :
    Simulates (SameResult n) (bidname ctx τ bidder n bid) (bidname ctx σ bidder n bid) := by
  obtain ⟨hconfig, hrow, hrefunds⟩ := about_eq_iff.mp hsame
  have hmem : n ∉ σ.namebids ↔ n ∉ τ.namebids := by
    rw [OrdMap.not_mem_iff, OrdMap.not_mem_iff, hrow]
  have hinsert (row : NameBid) :
      (σ.namebids.insert n row)[n]? = (τ.namebids.insert n row)[n]? := by
    rw [OrdMap.getElem?_insert, OrdMap.getElem?_insert, hrow]
  unfold bidname
  rw [hconfig, hrow]
  refine simulates_bind fun _ => simulates_bind fun _ => simulates_bind fun coreSymbol =>
    simulates_bind fun _ => simulates_bind fun _ => simulates_bind fun _ => simulates_bind fun _ =>
    simulates_bind fun _ => simulates_bind fun _ => ?_
  cases τ.namebids[n]? with
  | none =>
    simp only [Table.emplace, check_congr _ hmem, bind_assoc, pure_bind]
    exact simulates_bind fun _ =>
      simulates_pure ⟨about_eq_iff.mpr ⟨rfl, hinsert _, hrefunds⟩, rfl⟩
  | some row =>
    refine simulates_bind fun _ => simulates_bind fun _ => simulates_bind fun _ => ?_
    exact (addRefund_congr hsame).bind fun t t' ht =>
      simulates_pure ⟨about_eq_iff.mpr ⟨rfl, hinsert _, ht⟩, rfl⟩

theorem bidrefund_congr {bidder : Name} :
    Simulates (SameResult n) (bidrefund ctx τ bidder n) (bidrefund ctx σ bidder n) := by
  obtain ⟨hconfig, hrow, hrefunds⟩ := about_eq_iff.mp hsame
  rw [bidrefund, bidrefund, Table.requireFind_congr _ (hrefunds bidder)]
  refine simulates_bind fun amount => simulates_pure ⟨about_eq_iff.mpr ⟨hconfig, hrow, ?_⟩, rfl⟩
  intro b
  rw [OrdMap.getElem?_erase, OrdMap.getElem?_erase, hrefunds b]

theorem cleanup_congr : Simulates (SameAbout n) (cleanup ctx τ n) (cleanup ctx σ n) := by
  obtain ⟨hconfig, hrow, hrefunds⟩ := about_eq_iff.mp hsame
  rw [cleanup, cleanup, Table.requireFind_congr _ hrow]
  refine simulates_bind fun _ => simulates_bind fun _ =>
    simulates_pure (about_eq_iff.mpr ⟨hconfig, ?_, hrefunds⟩)
  rw [OrdMap.getElem?_erase, OrdMap.getElem?_erase, hrow]

theorem init_congr {destruct : Bool} {coreSymbol : Symbol} :
    Simulates (SameAbout n) (init host ctx τ destruct coreSymbol)
      (init host ctx σ destruct coreSymbol) := by
  obtain ⟨-, hrow, hrefunds⟩ := about_eq_iff.mp hsame
  rw [init, init]
  refine simulates_bind fun _ => ?_
  split_ifs
  · exact simulates_pure (about_eq_iff.mpr ⟨rfl, hrow, hrefunds⟩)
  · exact simulates_bind fun _ => simulates_pure (about_eq_iff.mpr ⟨rfl, hrow, hrefunds⟩)

/-- **What a call on a name does** is decided by what is stored about the name. -/
theorem apply_congr {call : Call} (hc : Concerns n (ctx, call)) :
    Simulates (SameResult n) (apply host ctx τ call) (apply host ctx σ call) := by
  cases call with
  | init destruct coreSymbol =>
    exact (init_congr hsame).bind fun _ _ h => simulates_pure ⟨h, rfl⟩
  | bidname bidder newname bid =>
    obtain rfl := hc newname rfl
    exact bidname_congr hsame
  | bidrefund bidder newname =>
    obtain rfl := hc newname rfl
    exact bidrefund_congr hsame
  | cleanup newname =>
    obtain rfl := hc newname rfl
    exact (cleanup_congr hsame).bind fun _ _ h => simulates_pure ⟨h, rfl⟩

end Congr

/-- **The component of a name.** -/
theorem component_about (host : Host) (n : Name) :
    Component (tablesStep host) (Concerns n) (State.about n) where
  frame := about_frame
  congr := by
    rintro σ τ ⟨ctx, call⟩ hc hsame
    exact (apply_congr hsame hc).bind fun _ _ h => simulates_pure h.1

/-! ### Runs -/

/-- **Auctions do not meet.** Two runs of the contract's actions that agree on the calls on a name,
and on the `init`s, leave the same bid and the same refunds of that name, whatever else has
happened in either; and from there the same calls on the name succeed, and send the same. -/
theorem auction_isolated {tr tr' : List (Context × Call)}
    (hrun : Run (tablesStep host) (fun _ _ => True) {} tr σ)
    (hrun' : Run (tablesStep host) (fun _ _ => True) {} tr' τ)
    (hsame : (tr.filter fun c => Concerns n c) = tr'.filter fun c => Concerns n c) :
    σ.about n = τ.about n ∧ ∀ ctx call, Concerns n (ctx, call) → ∀ sends : List Transfer,
      (∃ σ', apply host ctx σ call = .ok (σ', sends)) ↔
        ∃ τ', apply host ctx τ call = .ok (τ', sends) := by
  have habout : SameAbout n σ τ := (component_about host n).view_congr rfl hrun hrun' hsame
  refine ⟨habout, fun ctx call hc sends => ?_⟩
  constructor
  · rintro ⟨σ', hok⟩
    obtain ⟨⟨τ', sends'⟩, hok', -, rfl⟩ := apply_congr habout hc (σ', sends) hok
    exact ⟨τ', hok'⟩
  · rintro ⟨τ', hok⟩
    obtain ⟨⟨σ', sends'⟩, hok', -, rfl⟩ := apply_congr (habout.symm : SameAbout n τ σ) hc
      (τ', sends) hok
    exact ⟨σ', hok'⟩

/-- Alice bids on another name too. -/
def aliceElsewhere : List (Context × Call) :=
  aliceAndBob 100 120 140 160 ++
    [(namesContext, .bidname alice (.ofString "fine") ⟨100, coreSymbol⟩)]

theorem auction_isolated_aliceElsewhere :
    ∃ σ τ, Run (tablesStep plainHost) (fun _ _ => True) {} (aliceAndBob 100 120 140 160) σ ∧
      Run (tablesStep plainHost) (fun _ _ => True) {} aliceElsewhere τ ∧
      σ.about nice = τ.about nice := by
  obtain ⟨σ, hσ, -⟩ := returns_iff.mp (show returns
    ((aliceAndBob 100 120 140 160).foldlM (tablesStep plainHost) {}) (fun _ => true) = true by
      decide +kernel)
  obtain ⟨τ, hτ, -⟩ := returns_iff.mp (show returns
    (aliceElsewhere.foldlM (tablesStep plainHost) {}) (fun _ => true) = true by decide +kernel)
  have hrun : Run (tablesStep plainHost) (fun _ _ => True) {} (aliceAndBob 100 120 140 160) σ :=
    Run.of_foldlM (fun _ _ _ => trivial) hσ
  have hrun' : Run (tablesStep plainHost) (fun _ _ => True) {} aliceElsewhere τ :=
    Run.of_foldlM (fun _ _ _ => trivial) hτ
  exact ⟨σ, τ, hrun, hrun', (auction_isolated hrun hrun' (by rfl)).1⟩

end Twig.Names
