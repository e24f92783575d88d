import Twig.Names.Basic
import Twig.Lib.Exact
import Twig.Lib.Run

/-!
# The escrow of the name auctions

A bid is paid to the contract when it is made, and the contract pays it back when it has been
outbid. The abstract auctions (`Auctions`) say what each account is owed, with lists in place of
tables and no arithmetic at all: the live bid of each name, the outbid bids of each bidder on each
name that were not refunded, and the bids that `cleanup` erased.

* `step` — an action together with the transfers it sends, next to the abstract auctions;
* `escrow_balanced` — as long as no bid is beyond the range of an asset, the tables hold what the
  abstract auctions owe, every symbol is accounted for, and what is owed can be reclaimed once;
* `escrow_overdrawn` — amounts beyond that range wrap around in a refund row.
-/

namespace Twig

/-- The amount of one symbol in an asset. -/
def Asset.amountIn (s : Symbol) (a : Asset) : ℤ := if a.symbol = s then a.amount.toInt else 0

/-- The amount of one symbol in a list of assets. -/
def Asset.totalIn (s : Symbol) (l : List Asset) : ℤ := (l.map (Asset.amountIn s)).sum

theorem Asset.totalIn_concat {s : Symbol} {l : List Asset} {a : Asset} :
    Asset.totalIn s (l ++ [a]) = Asset.totalIn s l + a.amountIn s := by
  simp [totalIn]

namespace Names

open Std Fallible

/-! ### Abstract auctions -/

/-- What the auctions owe. -/
structure Auctions where
  /-- The highest bidder on a name and the bid. -/
  live : Name → Option (Name × Asset) := fun _ => none
  /-- The outbid bids of a bidder on a name that were not refunded yet. -/
  outbid : RefundKey → List Asset := fun _ => []
  /-- The live bids that `cleanup` erased. -/
  erased : List Asset := []

/-- The actions of the contract. -/
inductive Call
  | init (destruct : Bool) (coreSymbol : Symbol)
  | bidname (bidder newname : Name) (bid : Asset)
  | bidrefund (bidder newname : Name)
  | cleanup (newname : Name)

namespace Auctions

variable (A : Auctions)

/-- The bid is live, and the one that was live before is owed to its bidder. -/
def bid (bidder newname : Name) (bid : Asset) : Auctions where
  live := Function.update A.live newname (some (bidder, bid))
  outbid :=
    match A.live newname with
    | none => A.outbid
    | some (previous, amount) =>
      Function.update A.outbid ⟨newname, previous⟩ (A.outbid ⟨newname, previous⟩ ++ [amount])
  erased := A.erased

def refund (bidder newname : Name) : Auctions :=
  { A with outbid := Function.update A.outbid ⟨newname, bidder⟩ [] }

def erase (newname : Name) : Auctions where
  live := Function.update A.live newname none
  outbid := A.outbid
  erased := A.erased ++ ((A.live newname).map Prod.snd).toList

def after : Call → Auctions
  | .init _ _ => A
  | .bidname bidder newname bid => A.bid bidder newname bid
  | .bidrefund bidder newname => A.refund bidder newname
  | .cleanup newname => A.erase newname

end Auctions

/-! ### Steps -/

/-- The tables of the contract, the transfers made so far, and what they come to. -/
structure Escrow where
  state : State := {}
  transfers : List Transfer := []
  auctions : Auctions := {}

/-- An action, with the transfers it sends. -/
def apply (host : Host) (ctx : Context) (σ : State) : Call → Outcome (State × List Transfer)
  | .init destruct coreSymbol => do pure (← init host ctx σ destruct coreSymbol, [])
  | .bidname bidder newname bid => bidname ctx σ bidder newname bid
  | .bidrefund bidder newname => bidrefund ctx σ bidder newname
  | .cleanup newname => do pure (← cleanup ctx σ newname, [])

/-- The transfers of an action run after it, and a transfer to oneself aborts all of it. One that
aborts for a reason of the token contract makes no step at all. -/
def settle (sends : List Transfer) : Outcome Unit :=
  sends.forM fun t => check (t.sender ≠ t.receiver) "cannot transfer to self"

def step (host : Host) (w : Escrow) (c : Context × Call) : Outcome Escrow := do
  let (state, sends) ← apply host c.1 w.state c.2
  settle sends
  pure { state, transfers := w.transfers ++ sends, auctions := w.auctions.after c.2 }

/-- What an account has received of a symbol. -/
def received (a : Name) (s : Symbol) (transfers : List Transfer) : ℤ :=
  (transfers.map fun t => if t.receiver = a then t.quantity.amountIn s else 0).sum

/-- What an account has paid of a symbol. -/
def paid (a : Name) (s : Symbol) (transfers : List Transfer) : ℤ :=
  (transfers.map fun t => if t.sender = a then t.quantity.amountIn s else 0).sum

/-- The actions run on the contract's account. -/
def OnContract (contract : Name) (_ : Escrow) (c : Context × Call) : Prop := c.1.self = contract

/-- The actions run on the contract's account, and no bid is beyond the range of an asset. -/
def InRange (contract : Name) (_ : Escrow) (c : Context × Call) : Prop :=
  c.1.self = contract ∧
    ∀ bidder newname bid, c.2 = .bidname bidder newname bid → bid.isAmountWithinRange

/-! ### The accounts of the escrow -/

def bidWeight (s : Symbol) (_ : Name) (row : NameBid) : ℤ := row.highBid.amountIn s

def refundWeight (s : Symbol) (_ : RefundKey) (amount : Asset) : ℤ := amount.amountIn s

/-- What the tables hold of a symbol: the live bids and the refunds. -/
def held (s : Symbol) (σ : State) : ℤ :=
  OrdMap.sumOf (bidWeight s) σ.namebids + OrdMap.sumOf (refundWeight s) σ.bidrefunds

/-- A refund row, or its absence, stands for a list of bids. -/
structure Amounts (row : Option Asset) (bids : List Asset) : Prop where
  none_iff : row = none ↔ bids = []
  symbol : ∀ amount, row = some amount → ∀ bid ∈ bids, bid.symbol = amount.symbol
  sum : ∀ amount, row = some amount →
    amount.amount.toInt = (bids.map fun bid => bid.amount.toInt).sum

/-- The tables account for the transfers and for what the auctions owe. -/
structure Balanced (contract : Name) (w : Escrow) : Prop where
  escrow : ∀ s, received contract s w.transfers - paid contract s w.transfers =
    held s w.state + Asset.totalIn s w.auctions.erased
  refunds : ∀ key, Amounts w.state.bidrefunds[key]? (w.auctions.outbid key)

/-! ### Refund rows -/

/-- An amount that is owed to an account other than the contract, in the range of an asset. -/
structure Payable (contract bidder : Name) (a : Asset) : Prop where
  other : bidder ≠ contract
  pos : 0 < a.amount.toInt
  le_max : a.amount.toInt ≤ 2 ^ 62 - 1

theorem Payable.of_bid {contract bidder : Name} {bid : Asset} (hother : bidder ≠ contract)
    (hpos : 0 < bid.amount) (hrange : bid.isAmountWithinRange) : Payable contract bidder bid where
  other := hother
  pos := Int64.toInt_pos_iff.mp hpos
  le_max := by
    have hle : bid.amount ≤ Asset.maxAmount := (of_decide_eq_true hrange).2
    rwa [Int64.le_iff_toInt_le, Asset.toInt_maxAmount] at hle

/-- Two amounts in range add up without wrapping around, or not at all. -/
theorem Payable.add {contract bidder : Name} {a b sum : Asset} (ha : Payable contract bidder a)
    (hb : Payable contract bidder b) (h : a.add b = .ok sum) :
    Payable contract bidder sum ∧ b.symbol = a.symbol ∧ sum.symbol = a.symbol ∧
      sum.amount.toInt = a.amount.toInt + b.amount.toInt := by
  obtain ⟨hsymbol, -, hmax, rfl⟩ := Asset.add_eq_ok_iff.mp h
  have hapos := ha.pos
  have hbpos := hb.pos
  have hale := ha.le_max
  have hble := hb.le_max
  have hsum : (a.amount + b.amount).toInt = a.amount.toInt + b.amount.toInt :=
    Int64.toInt_add_of_mem (by omega) (by omega)
  rw [Int64.le_iff_toInt_le, Asset.toInt_maxAmount] at hmax
  exact ⟨⟨ha.other, by simp only [hsum]; omega, hmax⟩, hsymbol, rfl, hsum⟩

theorem amounts_none : Amounts none [] where
  none_iff := ⟨fun _ => rfl, fun _ => rfl⟩
  symbol _ h := nomatch h
  sum _ h := nomatch h

/-- One more bid on a row. -/
theorem Amounts.concat {row : Option Asset} {bids : List Asset} {bid amount : Asset}
    (h : Amounts row bids) (hsymbol : bid.symbol = amount.symbol)
    (hrow : ∀ a, row = some a → a.symbol = amount.symbol)
    (hsum : amount.amount.toInt = (row.elim 0 fun a => a.amount.toInt) + bid.amount.toInt) :
    Amounts (some amount) (bids ++ [bid]) := by
  refine ⟨by simp, ?_, ?_⟩
  · rintro _ ⟨⟩ x hx
    rcases List.mem_append.mp hx with hx | hx
    · cases row with
      | none => rw [h.none_iff.mp rfl] at hx; exact nomatch hx
      | some a => exact (h.symbol a rfl x hx).trans (hrow a rfl)
    · rw [List.mem_singleton.mp hx, hsymbol]
  · rintro _ ⟨⟩
    rw [hsum, List.map_append, List.sum_append, List.map_singleton, List.sum_singleton]
    cases row with
    | none => rw [h.none_iff.mp rfl]; rfl
    | some a => rw [← h.sum a rfl]; rfl

/-- What outbidding a bid does to the refunds: the row of its bidder on the name grows by it. -/
theorem addRefund_spec {contract newname : Name} {bidrefunds bidrefunds' : Table RefundKey Asset}
    {row : NameBid} (hrow : Payable contract row.highBidder row.highBid)
    (howed : ∀ (key : RefundKey) (a : Asset), bidrefunds[key]? = some a →
      Payable contract key.bidder a)
    (h : addRefund bidrefunds newname row = .ok bidrefunds') :
    ∃ amount, bidrefunds' = bidrefunds.insert ⟨newname, row.highBidder⟩ amount ∧
      Payable contract row.highBidder amount ∧ row.highBid.symbol = amount.symbol ∧
      (∀ a, bidrefunds[RefundKey.mk newname row.highBidder]? = some a →
        a.symbol = amount.symbol) ∧
      amount.amount.toInt = (bidrefunds[RefundKey.mk newname row.highBidder]?.elim 0
        fun a => a.amount.toInt) + row.highBid.amount.toInt := by
  unfold addRefund at h
  split at h
  · next a ha =>
    simp only [bind_eq_ok_iff, pure_eq_ok_iff] at h
    obtain ⟨amount, hadd, rfl⟩ := h
    obtain ⟨hamount, hsymbol, hsame, hsum⟩ := (howed _ _ ha).add hrow hadd
    refine ⟨amount, rfl, hamount, hsymbol.trans hsame.symm, ?_, by rw [ha]; exact hsum⟩
    intro a' ha'
    rw [ha] at ha'
    rw [← Option.some.inj ha', hsame]
  · next hnone =>
    obtain ⟨-, rfl⟩ := Table.emplace_eq_ok_iff.mp h
    refine ⟨row.highBid, rfl, hrow, rfl, ?_, by rw [hnone, Option.elim_none, zero_add]⟩
    intro a ha
    exact absurd (hnone.symm.trans ha) (Option.some_ne_none a).symm

/-! ### The invariant -/

/-- The tables account for everything, hold what the auctions owe, and hold it in range. -/
structure Inv (contract : Name) (w : Escrow) : Prop extends Balanced contract w where
  live : ∀ n, w.auctions.live n = w.state.namebids[n]?.map fun row => (row.highBidder, row.highBid)
  bids : ∀ (n : Name) (row : NameBid), w.state.namebids[n]? = some row →
    Payable contract row.highBidder row.highBid
  owed : ∀ (key : RefundKey) (a : Asset), w.state.bidrefunds[key]? = some a →
    Payable contract key.bidder a

theorem inv_start {contract : Name} : Inv contract {} where
  escrow s := by simp [received, paid, held, Asset.totalIn]
  refunds key := by simpa using amounts_none
  live n := by simp
  bids n row h := by simp at h
  owed key a h := by simp at h

section Steps

variable {host : Host} {contract : Name} {w w' : Escrow} {ctx : Context} {s : Symbol}

@[simp]
theorem received_append {a : Name} {l m : List Transfer} :
    received a s (l ++ m) = received a s l + received a s m := by
  simp [received]

@[simp]
theorem paid_append {a : Name} {l m : List Transfer} :
    paid a s (l ++ m) = paid a s l + paid a s m := by
  simp [paid]

theorem received_bid {a bidder newname : Name} {bid : Asset} :
    received a s [bidTransfer a bidder newname bid] = bid.amountIn s := by
  simp [received, bidTransfer]

theorem paid_bid {a bidder newname : Name} {bid : Asset} (h : bidder ≠ a) :
    paid a s [bidTransfer a bidder newname bid] = 0 := by
  simp [paid, bidTransfer, h]

theorem received_refund {a bidder newname : Name} {amount : Asset} (h : bidder ≠ a) :
    received a s [refundTransfer a bidder newname amount] = 0 := by
  simp [received, refundTransfer, h]

theorem paid_refund {a bidder newname : Name} {amount : Asset} :
    paid a s [refundTransfer a bidder newname amount] = amount.amountIn s := by
  simp [paid, refundTransfer]

/-- The only transfer of an action is settled when it goes to somebody else. -/
theorem settle_singleton {t : Transfer} {u : Unit} :
    settle [t] = .ok u ↔ t.sender ≠ t.receiver := by
  simp [settle]

theorem step_eq_ok {call : Call} (h : step host w (ctx, call) = .ok w') :
    ∃ state sends, apply host ctx w.state call = .ok (state, sends) ∧ settle sends = .ok () ∧
      w' = ⟨state, w.transfers ++ sends, w.auctions.after call⟩ := by
  simp only [step, bind_eq_ok_iff, pure_eq_ok_iff] at h
  obtain ⟨⟨state, sends⟩, happly, ⟨⟩, hsettle, rfl⟩ := h
  exact ⟨state, sends, happly, hsettle, rfl⟩

/-- What a bid adds to the refund row of the one that it outbids, in every symbol. -/
theorem amountIn_of_sum {row : Option Asset} {bid amount : Asset}
    (hsymbol : bid.symbol = amount.symbol) (hrow : ∀ a, row = some a → a.symbol = amount.symbol)
    (hsum : amount.amount.toInt = (row.elim 0 fun a => a.amount.toInt) + bid.amount.toInt) :
    amount.amountIn s = (row.elim 0 fun a => a.amountIn s) + bid.amountIn s := by
  cases row with
  | none =>
    simp only [Asset.amountIn, hsymbol, hsum, Option.elim_none, zero_add]
  | some a =>
    simp only [Asset.amountIn, hsymbol, hrow a rfl, hsum, Option.elim_some]
    split
    · rfl
    · rfl

/-- The tables after a bid: the bid is live, whatever was live before. -/
theorem Inv.live_insert (h : Inv contract w) {bidder newname : Name} {bid : Asset} {t : TimePoint}
    (n : Name) : Function.update w.auctions.live newname (some (bidder, bid)) n =
      (w.state.namebids.insert newname ⟨bidder, bid, t⟩)[n]?.map
        fun row => (row.highBidder, row.highBid) := by
  rw [OrdMap.getElem?_insert, Function.update_apply, h.live]
  split
  · rfl
  · rfl

/-- The tables after a bid: the bid is payable, and so are the others still. -/
theorem Inv.bids_insert (h : Inv contract w) {newname : Name} {row : NameBid}
    (hrow : Payable contract row.highBidder row.highBid) (n : Name) (row' : NameBid) :
    (w.state.namebids.insert newname row)[n]? = some row' →
      Payable contract row'.highBidder row'.highBid :=
  OrdMap.forall_insert (P := fun _ row => Payable contract row.highBidder row.highBid) hrow
    (fun n row' _ => h.bids n row') n row'

/-- **A first bid** keeps the invariant. -/
theorem Inv.firstBid (h : Inv contract w) {bidder newname : Name} {bid : Asset} {t : TimePoint}
    (hpayable : Payable contract bidder bid) (hnone : w.state.namebids[newname]? = none) :
    Inv contract ⟨{ w.state with namebids := w.state.namebids.insert newname ⟨bidder, bid, t⟩ },
      w.transfers ++ [bidTransfer contract bidder newname bid],
      w.auctions.bid bidder newname bid⟩ := by
  have hlive : w.auctions.live newname = none := by rw [h.live, hnone, Option.map_none]
  have hsame : (w.auctions.bid bidder newname bid).outbid = w.auctions.outbid := by
    simp only [Auctions.bid, hlive]
  refine ⟨⟨?_, ?_⟩, h.live_insert, h.bids_insert hpayable, h.owed⟩
  · intro s
    have hescrow := h.escrow s
    rw [held] at hescrow
    simp only [held, Auctions.bid, received_append, paid_append, received_bid,
      paid_bid hpayable.other, OrdMap.sumOf_insert, OrdMap.entry_of_none hnone, bidWeight]
    omega
  · rw [hsame]
    exact h.refunds

/-- **A higher bid** keeps the invariant: the one that it outbids moves to the refunds. -/
theorem Inv.higherBid (h : Inv contract w) {bidder newname : Name} {bid : Asset} {t : TimePoint}
    {row : NameBid} {bidrefunds : Table RefundKey Asset}
    (hpayable : Payable contract bidder bid) (hrow : w.state.namebids[newname]? = some row)
    (hadd : addRefund w.state.bidrefunds newname row = .ok bidrefunds) :
    Inv contract ⟨{ w.state with
        bidrefunds
        namebids := w.state.namebids.insert newname ⟨bidder, bid, t⟩ },
      w.transfers ++ [bidTransfer contract bidder newname bid],
      w.auctions.bid bidder newname bid⟩ := by
  have hlive : w.auctions.live newname = some (row.highBidder, row.highBid) := by
    rw [h.live, hrow, Option.map_some]
  obtain ⟨amount, rfl, hamount, hsymbol, hprevious, hsum⟩ :=
    addRefund_spec (h.bids newname row hrow) h.owed hadd
  refine ⟨⟨?_, ?_⟩, h.live_insert, h.bids_insert hpayable, ?_⟩
  · intro s
    have hescrow := h.escrow s
    have hgrow : amount.amountIn s = OrdMap.entry (refundWeight s) w.state.bidrefunds
        ⟨newname, row.highBidder⟩ + row.highBid.amountIn s :=
      amountIn_of_sum hsymbol hprevious hsum
    rw [held] at hescrow
    simp only [held, Auctions.bid, received_append, paid_append, received_bid,
      paid_bid hpayable.other, OrdMap.sumOf_insert, OrdMap.entry_of_some hrow, bidWeight]
    rw [refundWeight]
    omega
  · intro key
    show Amounts _ ((w.auctions.bid bidder newname bid).outbid key)
    simp only [Auctions.bid, hlive, OrdMap.getElem?_insert, Function.update_apply]
    split
    · exact (h.refunds _).concat hsymbol hprevious hsum
    · exact h.refunds key
  · exact OrdMap.forall_insert hamount fun key a _ => h.owed key a

/-- **A refund** keeps the invariant. -/
theorem Inv.refund (h : Inv contract w) {bidder newname : Name} {amount : Asset}
    (hrow : w.state.bidrefunds[RefundKey.mk newname bidder]? = some amount) :
    Inv contract ⟨{ w.state with bidrefunds := w.state.bidrefunds.erase ⟨newname, bidder⟩ },
      w.transfers ++ [refundTransfer contract bidder newname amount],
      w.auctions.refund bidder newname⟩ := by
  refine ⟨⟨?_, ?_⟩, h.live, h.bids, ?_⟩
  · intro s
    have hescrow := h.escrow s
    rw [held] at hescrow
    simp only [held, Auctions.refund, received_append, paid_append,
      received_refund (h.owed _ _ hrow).other, paid_refund, OrdMap.sumOf_erase,
      OrdMap.entry_of_some hrow, refundWeight]
    omega
  · intro key
    simp only [Auctions.refund, OrdMap.getElem?_erase, Function.update_apply]
    split
    · exact amounts_none
    · exact h.refunds key
  · exact OrdMap.forall_erase fun key a _ => h.owed key a

/-- **A cleanup** keeps the invariant: the live bid is counted as erased. -/
theorem Inv.cleanup (h : Inv contract w) {newname : Name} {row : NameBid}
    (hrow : w.state.namebids[newname]? = some row) :
    Inv contract ⟨{ w.state with namebids := w.state.namebids.erase newname }, w.transfers,
      w.auctions.erase newname⟩ := by
  refine ⟨⟨?_, h.refunds⟩, ?_, ?_, h.owed⟩
  · intro s
    have hescrow := h.escrow s
    have herased : (w.auctions.erase newname).erased = w.auctions.erased ++ [row.highBid] := by
      simp [Auctions.erase, h.live, hrow]
    rw [held] at hescrow
    simp only [held, herased, Asset.totalIn_concat, OrdMap.sumOf_erase, OrdMap.entry_of_some hrow,
      bidWeight]
    omega
  · intro n
    simp only [Auctions.erase, OrdMap.getElem?_erase, Function.update_apply, h.live]
    split
    · rfl
    · rfl
  · exact OrdMap.forall_erase fun n row' _ => h.bids n row'

/-- **Every action keeps the invariant**, as long as bids are in range. -/
theorem Inv.step {c : Context × Call} (h : Inv contract w) (hguard : InRange contract w c)
    (hok : step host w c = .ok w') : Inv contract w' := by
  obtain ⟨ctx, call⟩ := c
  obtain ⟨rfl, hrange⟩ := hguard
  obtain ⟨state, sends, happly, hsettle, rfl⟩ := step_eq_ok hok
  cases call with
  | init destruct coreSymbol =>
    simp only [apply, init, bind_eq_ok_iff, pure_eq_ok_iff, Prod.mk.injEq] at happly
    obtain ⟨σ, ⟨-, -, hinit⟩, rfl, rfl⟩ := happly
    rw [List.append_nil]
    split at hinit
    · obtain rfl := pure_eq_ok_iff.mp hinit
      exact { h with }
    · obtain ⟨-, -, hσ⟩ := bind_eq_ok_iff.mp hinit
      obtain rfl := pure_eq_ok_iff.mp hσ
      exact { h with }
  | bidname bidder newname bid =>
    obtain ⟨-, hpos, rfl, bidrefunds, hcases, rfl⟩ := bidname_ok happly
    have hpayable : Payable ctx.self bidder bid :=
      .of_bid (settle_singleton.mp hsettle) hpos (hrange _ _ _ rfl)
    rcases hcases with ⟨hnone, rfl⟩ | ⟨row, hrow, -, -, -, hadd⟩
    · exact h.firstBid hpayable hnone
    · exact h.higherBid hpayable hrow hadd
  | bidrefund bidder newname =>
    obtain ⟨amount, hamount, rfl, rfl⟩ := bidrefund_ok happly
    exact h.refund hamount
  | cleanup newname =>
    simp only [apply, Names.cleanup, bind_eq_ok_iff, Table.requireFind_eq_ok_iff, pure_eq_ok_iff,
      Prod.mk.injEq] at happly
    obtain ⟨σ, ⟨-, -, row, hrow, rfl⟩, rfl, rfl⟩ := happly
    rw [List.append_nil]
    exact h.cleanup hrow

/-- What is owed can be reclaimed: the refund of it succeeds, and a second one does not. -/
theorem Inv.reclaim (h : Inv contract w) {bidder newname : Name} (hself : ctx.self = contract)
    (howed : w.auctions.outbid ⟨newname, bidder⟩ ≠ []) :
    ∃ amount w₁, w.state.bidrefunds[RefundKey.mk newname bidder]? = some amount ∧
      Payable contract bidder amount ∧ Names.step host w (ctx, .bidrefund bidder newname) = .ok w₁ ∧
      w₁.transfers = w.transfers ++ [refundTransfer contract bidder newname amount] ∧
      ∀ ctx₁ w₂, Names.step host w₁ (ctx₁, .bidrefund bidder newname) ≠ .ok w₂ := by
  subst hself
  obtain ⟨amount, hamount⟩ : ∃ amount,
      w.state.bidrefunds[RefundKey.mk newname bidder]? = some amount := by
    refine Option.ne_none_iff_exists'.mp fun hnone => howed ?_
    exact (h.refunds ⟨newname, bidder⟩).none_iff.mp hnone
  have hpayable : Payable ctx.self bidder amount := h.owed _ _ hamount
  refine ⟨amount, ⟨{ w.state with bidrefunds := w.state.bidrefunds.erase ⟨newname, bidder⟩ },
    w.transfers ++ [refundTransfer ctx.self bidder newname amount],
    w.auctions.refund bidder newname⟩, hamount, hpayable, ?_, rfl, ?_⟩
  · have hsends : bidrefund ctx w.state bidder newname =
        .ok ({ w.state with bidrefunds := w.state.bidrefunds.erase ⟨newname, bidder⟩ },
          [refundTransfer ctx.self bidder newname amount]) := by
      rw [bidrefund, Table.requireFind_eq_ok_iff.mpr hamount]
      rfl
    have hsettle : settle [refundTransfer ctx.self bidder newname amount] = .ok () :=
      settle_singleton.mpr hpayable.other.symm
    exact bind_eq_ok_iff.mpr ⟨_, hsends, bind_eq_ok_iff.mpr ⟨(), hsettle, rfl⟩⟩
  · intro ctx₁ w₂ hok
    obtain ⟨state, sends, happly, -, -⟩ := step_eq_ok hok
    obtain ⟨amount', hamount', -, -⟩ := bidrefund_ok happly
    simp at hamount'

/-- **The escrow is balanced**: in every run of the actions in which no bid is beyond the range of
an asset, the tables account for every transfer and hold what the auctions owe, and what is owed to
a bidder can be reclaimed by one refund, in range, and not by a second one. -/
theorem escrow_balanced {tr : List (Context × Call)}
    (hrun : Run (step host) (InRange contract) {} tr w) :
    Balanced contract w ∧ ∀ (ctx : Context) (bidder newname : Name), ctx.self = contract →
      w.auctions.outbid ⟨newname, bidder⟩ ≠ [] → ∃ amount w₁,
        w.state.bidrefunds[RefundKey.mk newname bidder]? = some amount ∧
        Payable contract bidder amount ∧
        step host w (ctx, .bidrefund bidder newname) = .ok w₁ ∧
        w₁.transfers = w.transfers ++ [refundTransfer contract bidder newname amount] ∧
        ∀ ctx₁ w₂, step host w₁ (ctx₁, .bidrefund bidder newname) ≠ .ok w₂ := by
  have hinv : Inv contract w := hrun.state_invariant inv_start fun _ _ _ hI hg hs => hI.step hg hs
  exact ⟨hinv.toBalanced, fun ctx bidder newname hself howed => hinv.reclaim hself howed⟩

end Steps

/-! ### Runs -/

/-- A token contract that knows every token. -/
def plainHost : Host where
  getMaxSupply _ _ := .ok 0

/-- Alice and Bob outbid each other twice. -/
def aliceAndBob (a b c d : Int64) : List (Context × Call) :=
  let bob : Name := .ofString "bob"
  [.init false coreSymbol, .bidname alice nice ⟨a, coreSymbol⟩, .bidname bob nice ⟨b, coreSymbol⟩,
    .bidname alice nice ⟨c, coreSymbol⟩, .bidname bob nice ⟨d, coreSymbol⟩].map
      fun call => (namesContext, call)

theorem aliceAndBob_run {guard : Escrow → Context × Call → Prop} {a b c d : Int64}
    {test : Escrow → Bool} (hguard : ∀ w, ∀ e ∈ aliceAndBob a b c d, guard w e)
    (h : returns ((aliceAndBob a b c d).foldlM (step plainHost) {}) test = true) :
    ∃ w, Run (step plainHost) guard {} (aliceAndBob a b c d) w ∧ test w = true := by
  obtain ⟨w, hw, htest⟩ := returns_iff.mp h
  exact ⟨w, Run.of_foldlM hguard hw, htest⟩

theorem onContract_of_mem (a b c d : Int64) (w : Escrow) :
    ∀ e ∈ aliceAndBob a b c d, OnContract namesContext.self w e := by
  intro e he
  obtain ⟨call, -, rfl⟩ := List.mem_map.mp he
  rfl

theorem inRange_of_mem {a b c d : Int64}
    (h : [a, b, c, d].all (fun n => Asset.isAmountWithinRange ⟨n, coreSymbol⟩) = true)
    (w : Escrow) : ∀ e ∈ aliceAndBob a b c d, InRange namesContext.self w e := by
  have hall : ∀ call ∈ (aliceAndBob a b c d).map Prod.snd, ∀ bidder newname bid,
      call = .bidname bidder newname bid → ∃ n ∈ [a, b, c, d], bid = ⟨n, coreSymbol⟩ := by
    simp [aliceAndBob]
  intro e he
  refine ⟨onContract_of_mem a b c d w e he, fun bidder newname bid hbid => ?_⟩
  obtain ⟨n, hn, rfl⟩ := hall e.2 (List.mem_map_of_mem he) bidder newname bid hbid
  exact List.all_eq_true.mp h n hn

/-- Alice reclaims both of her bids at once. -/
theorem escrow_balanced_aliceAndBob :
    ∃ w, Run (step plainHost) (InRange namesContext.self) {} (aliceAndBob 100 120 140 160) w ∧
      Balanced namesContext.self w ∧ ∃ amount w₁,
        w.state.bidrefunds[RefundKey.mk nice alice]? = some amount ∧ amount = ⟨240, coreSymbol⟩ ∧
        step plainHost w (namesContext, .bidrefund alice nice) = .ok w₁ ∧
        w₁.transfers = w.transfers ++ [refundTransfer namesContext.self alice nice amount] := by
  obtain ⟨w, hrun, htest⟩ := aliceAndBob_run (inRange_of_mem (by decide +kernel))
    (show returns ((aliceAndBob 100 120 140 160).foldlM (step plainHost) {}) (fun w =>
      w.auctions.outbid ⟨nice, alice⟩ ≠ [] ∧
        w.state.bidrefunds[RefundKey.mk nice alice]? = some ⟨240, coreSymbol⟩) = true by
      decide +kernel)
  obtain ⟨howed, hrow⟩ := of_decide_eq_true htest
  obtain ⟨hbalanced, hreclaim⟩ := escrow_balanced hrun
  obtain ⟨amount, w₁, hamount, -, hok, htransfers, -⟩ :=
    hreclaim namesContext alice nice rfl howed
  exact ⟨w, hrun, hbalanced, amount, w₁, hamount, Option.some.inj (hamount.symm.trans hrow), hok,
    htransfers⟩

/-- **Beyond the range of an asset** the amounts wrap around in the row: Alice is owed two bids and
her refund is negative. -/
theorem escrow_overdrawn :
    ∃ w, Run (step plainHost) (OnContract namesContext.self) {}
        (aliceAndBob 6500000000000000000 7200000000000000000 8000000000000000000
          8900000000000000000) w ∧
      w.auctions.outbid ⟨nice, alice⟩ =
        [⟨6500000000000000000, coreSymbol⟩, ⟨8000000000000000000, coreSymbol⟩] ∧
      w.state.bidrefunds[RefundKey.mk nice alice]?.map (·.amount.toInt) =
        some (6500000000000000000 + 8000000000000000000 - 2 ^ 64) ∧
      (∃ s, received namesContext.self s w.transfers - paid namesContext.self s w.transfers ≠
        held s w.state + Asset.totalIn s w.auctions.erased) ∧
      ¬ Balanced namesContext.self w := by
  obtain ⟨w, hrun, htest⟩ := aliceAndBob_run (onContract_of_mem _ _ _ _)
    (show returns ((aliceAndBob 6500000000000000000 7200000000000000000 8000000000000000000
        8900000000000000000).foldlM (step plainHost) {}) (fun w =>
      w.auctions.outbid ⟨nice, alice⟩ =
        [⟨6500000000000000000, coreSymbol⟩, ⟨8000000000000000000, coreSymbol⟩] ∧
      w.state.bidrefunds[RefundKey.mk nice alice]?.map (·.amount.toInt) =
        some (6500000000000000000 + 8000000000000000000 - 2 ^ 64) ∧
      received namesContext.self coreSymbol w.transfers -
          paid namesContext.self coreSymbol w.transfers ≠
        held coreSymbol w.state + Asset.totalIn coreSymbol w.auctions.erased) = true by
      decide +kernel)
  obtain ⟨howed, hrow, hescrow⟩ := of_decide_eq_true htest
  exact ⟨w, hrun, howed, hrow, ⟨coreSymbol, hescrow⟩, fun h => hescrow (h.escrow coreSymbol)⟩

end Names

end Twig
