import Twig.Bank.Rewards
import Twig.System.Chunk
import Twig.Token.Lifetime

/-!
# Payouts

What the bank relies on in its rows, and what it sends. The amount that builds up in a row is part
of what is outstanding, which the balance of the bank covers, and a balance fits into an asset. So
no sum of the bank overflows, however often tokens come round, and nothing that it does fails.

* `Honoured` — a list of transfers each of which is positive, covered by the balance at the moment
  it runs, and accepted; `exists_honoured`: payouts within the balance are;
* `RowOk` — the invariant of a row, and `RowOk.finish`, `RowOk.modify` for the two ways in which it
  changes;
* `TableMove` — a table that pays only what it no longer holds;
* `tokenDeposit_ok` — a transfer is passed over, or it is a deposit;
* `exists_onepoch_move`, `exists_depositFor_move` — the end of an epoch and a deposit do not fail.
-/

namespace Twig.Bank

open Std Fallible Twig.System Token

/-! ### Transfers of the bank -/

/-- What a row still holds. -/
def outstanding (_ : Name) (row : Vesting) : ℤ :=
  row.vested.amount.toInt + row.unvestingTotal.amount.toInt - row.unvested.amount.toInt

/-- Transfers of the bank that run one after the other: each is of a positive amount, which the
balance covers at that moment, and is accepted. -/
inductive Honoured (ctx : Context) : Token.State → List Token.Inline → Token.State → Prop
  | nil {τ : Token.State} : Honoured ctx τ [] τ
  | cons {τ τ₁ τ₂ : Token.State} {p : Name} {amount : Int64} {memo : String}
      {sends : List Token.Inline} : 0 < amount.toInt →
      amount.toInt ≤ balanceOf τ bankAccount coreSymbol →
      Token.apply (ctx.inlineBy tokenAccount bankAccount) τ
        (send bankAccount p ⟨amount, coreSymbol⟩ memo).call = .ok τ₁ →
      Honoured ctx τ₁ sends τ₂ →
      Honoured ctx τ (send bankAccount p ⟨amount, coreSymbol⟩ memo :: sends) τ₂

/-- A transfer that nothing but the balance can fail: of a positive amount, to another account. -/
def Payout (ctx : Context) (i : Token.Inline) : Prop :=
  ∃ (p : Name) (amount : Int64) (memo : String),
    i = send bankAccount p ⟨amount, coreSymbol⟩ memo ∧ p ≠ bankAccount ∧ ctx.isAccount p ∧
      memo.utf8ByteSize ≤ 256 ∧ 0 < amount.toInt

/-- What an action transfers. -/
def amountOf (i : Token.Inline) : ℤ :=
  match i.call with
  | .transfer _ _ tokens _ => (tokens.map fun t => t.amount.toInt).sum
  | _ => 0

/-- What the actions transfer altogether. -/
def totalOf (sends : List Token.Inline) : ℤ := (sends.map amountOf).sum

@[simp]
theorem totalOf_nil : totalOf [] = 0 := rfl

theorem totalOf_cons {i : Token.Inline} {sends : List Token.Inline} :
    totalOf (i :: sends) = amountOf i + totalOf sends := List.sum_cons

theorem amountOf_send {self p : Name} {a : Asset} {memo : String} :
    amountOf (send self p a memo) = a.amount.toInt := List.sum_singleton

variable {ctx : Context} {τ τ₁ τ₂ : Token.State} {sends : List Token.Inline}

theorem Payout.amountOf_pos {i : Token.Inline} (h : Payout ctx i) : 0 < amountOf i := by
  obtain ⟨p, amount, memo, rfl, -, -, -, hpos⟩ := h
  rwa [amountOf_send]

theorem totalOf_nonneg (h : ∀ i ∈ sends, Payout ctx i) : 0 ≤ totalOf sends := by
  refine List.sum_nonneg ?_
  intro x hx
  obtain ⟨i, hi, rfl⟩ := List.mem_map.mp hx
  exact (h i hi).amountOf_pos.le

/-- A transfer in a ledger whose books are in order moves exactly the assets that it names. -/
theorem transfer_book {sender receiver : Name} {tokens : List Asset} {memo : String}
    (h : LifeInv τ) (hok : Token.transfer ctx τ sender receiver tokens memo = .ok τ₁) :
    LifeInv τ₁ ∧ balanceOf τ₁ = Book.move (balanceOf τ) sender receiver (sent tokens) := by
  have hguard : DropGuard τ (ctx, .transfer sender receiver tokens memo) :=
    ⟨trivial, fun hdrop => absurd hdrop Bool.false_ne_true⟩
  refine ⟨h.step hguard hok, ?_⟩
  obtain ⟨o, hinv, ho, -⟩ := h
  exact (transfer_spec hinv ho hok).2.2

/-- A payout that the balance covers. -/
theorem exists_payout {p : Name} {amount : Int64} {memo : String} (h : LifeInv τ)
    (hother : p ≠ bankAccount) (hexist : ctx.isAccount p) (hmemo : memo.utf8ByteSize ≤ 256)
    (hpos : 0 < amount.toInt) (hle : amount.toInt ≤ balanceOf τ bankAccount coreSymbol) :
    ∃ τ₁, Token.apply (ctx.inlineBy tokenAccount bankAccount) τ
        (send bankAccount p ⟨amount, coreSymbol⟩ memo).call = .ok τ₁ ∧ LifeInv τ₁ ∧
      balanceOf τ₁ bankAccount coreSymbol =
        balanceOf τ bankAccount coreSymbol - amount.toInt := by
  have hauth : (ctx.inlineBy tokenAccount bankAccount).hasAuth bankAccount := by
    simp [Context.inlineBy]
  have hok : ∃ τ₁, Token.transfer (ctx.inlineBy tokenAccount bankAccount) τ bankAccount p
      [⟨amount, coreSymbol⟩] memo = .ok τ₁ := by
    obtain ⟨o, hinv, ho, -⟩ := h
    exact (transfer_single_ok_iff hinv ho hauth hother.symm hexist hmemo).mpr ⟨hpos, hle⟩
  obtain ⟨τ₁, hok⟩ := hok
  obtain ⟨hlife, hbook⟩ := transfer_book h hok
  refine ⟨τ₁, hok, hlife, ?_⟩
  rw [hbook, Book.move_apply hother.symm, if_pos rfl, sent_singleton, if_pos rfl]

/-- **Payouts within the balance are honoured**, one after the other. -/
theorem exists_honoured : ∀ {τ : Token.State}, LifeInv τ → (∀ i ∈ sends, Payout ctx i) →
    totalOf sends ≤ balanceOf τ bankAccount coreSymbol → ∃ τ₁, Honoured ctx τ sends τ₁ ∧
      LifeInv τ₁ ∧ balanceOf τ₁ bankAccount coreSymbol =
        balanceOf τ bankAccount coreSymbol - totalOf sends := by
  induction sends with
  | nil => exact fun {τ} h _ _ => ⟨τ, .nil, h, (sub_zero _).symm⟩
  | cons i sends ih =>
    intro τ h hsends hle
    have hrest (j : Token.Inline) (hj : j ∈ sends) : Payout ctx j :=
      hsends j (List.mem_cons_of_mem i hj)
    have hnn := totalOf_nonneg hrest
    obtain ⟨p, amount, memo, rfl, hother, hexist, hmemo, hpos⟩ := hsends i List.mem_cons_self
    rw [totalOf_cons, amountOf_send] at hle ⊢
    simp only at hle ⊢
    obtain ⟨τ₁, hok, hlife, hleft⟩ := exists_payout h hother hexist hmemo hpos (by omega)
    obtain ⟨τ₂, hhonoured, hlife', hleft'⟩ := ih hlife hrest (by omega)
    exact ⟨τ₂, .cons hpos (by omega) hok hhonoured, hlife', by omega⟩

/-- Transfers that are honoured run. -/
theorem Honoured.runToken_eq (h : Honoured ctx τ sends τ₁) : runToken ctx τ sends = .ok τ₁ := by
  induction h with
  | nil => rfl
  | cons _ _ hok _ ih => exact runToken_cons.mpr ⟨_, hok, ih⟩

/-! ### Deposits -/

/-- **What becomes of a transfer**: the bank passes it over, or it is a deposit for the team or for
the lucky producer. -/
theorem tokenDeposit_ok {ctx : Context} {luck : Option ALuckyNumber}
    {vesting : Table Name Vesting} {sender receiver : Name} {tokens : List Asset} {memo : String}
    {r : Table Name Vesting × List Token.Inline}
    (hok : tokenDeposit ctx luck vesting sender receiver tokens memo = .ok r) :
    r = (vesting, []) ∨ ∃ amount a p, receiver = ctx.self ∧ sender ≠ ctx.self ∧
      tokens = [⟨amount, coreSymbol⟩] ∧ luck = some a ∧ (p = teamAccount ∨ p = a.producer) ∧
      depositFor ctx.self p a ⟨amount, coreSymbol⟩ vesting = .ok r := by
  unfold tokenDeposit at hok
  by_cases hskip :
    receiver ≠ ctx.self ∨ sender = ctx.self ∨ sender ≠ chunksAccount ∨ memo = "ignore_memo"
  · rw [if_pos hskip] at hok
    exact .inl (pure_eq_ok_iff.mp hok).symm
  rw [if_neg hskip] at hok
  simp only [not_or, not_not] at hskip
  split at hok
  case h_2 => exact .inl (pure_eq_ok_iff.mp hok).symm
  next quantity =>
  by_cases hsymbol : quantity.symbol = coreSymbol
  · rw [if_neg (not_not_intro hsymbol)] at hok
    simp only [bind_eq_ok_iff, singletonGet_eq_ok_iff, check_eq_ok_iff, exists_const] at hok
    obtain ⟨a, ha, hnamed, hdeposit⟩ := hok
    obtain ⟨amount, symbol⟩ := quantity
    obtain rfl : symbol = coreSymbol := hsymbol
    refine .inr ⟨amount, a, _, hskip.1, hskip.2.1, rfl, ha, ?_, hdeposit⟩
    split_ifs at hnamed ⊢
    · exact .inl rfl
    · exact .inr rfl
    · exact absurd rfl hnamed
  · rw [if_pos hsymbol] at hok
    exact .inl (pure_eq_ok_iff.mp hok).symm

/-! ### Rows -/

/-- What the bank relies on in a row. -/
structure RowOk (accounts : Name → Bool) (p : Name) (row : Vesting) : Prop where
  symbol : row.vested.symbol = coreSymbol
  vested : 0 ≤ row.vested.amount.toInt
  unvested : 0 ≤ row.unvested.amount.toInt
  le : row.unvested.amount.toInt ≤ row.unvestingTotal.amount.toInt
  legal : row.unvestingTotal.amount.toInt ≤ 2 ^ 62 - 1
  other : p ≠ bankAccount
  exist : accounts p

/-- How a row may change: it pays what it no longer holds, up to what it gains. -/
structure RowMove (ctx : Context) (gain : ℤ) (p : Name) (row row' : Vesting)
    (sends : List Token.Inline) : Prop where
  ok : RowOk ctx.isAccount p row'
  payouts : ∀ i ∈ sends, Payout ctx i
  exact : outstanding p row' + totalOf sends = outstanding p row + gain

variable {accounts : Name → Bool} {p : Name} {row : Vesting}

theorem RowOk.mono (h : RowOk accounts p row) (hacc : accounts p → ctx.isAccount p) :
    RowOk ctx.isAccount p row :=
  { h with exist := hacc h.exist }

theorem RowOk.outstanding_nonneg (h : RowOk accounts p row) : 0 ≤ outstanding p row := by
  have hvested := h.vested
  have hle := h.le
  rw [outstanding]
  omega

/-- What builds up in a row is outstanding. -/
theorem RowOk.vested_le (h : RowOk accounts p row) :
    row.vested.amount.toInt ≤ outstanding p row := by
  have hle := h.le
  rw [outstanding]
  omega

theorem make_eq_ok (amount : Int64) (hnn : 0 ≤ amount.toInt) (hmax : amount.toInt ≤ 2 ^ 62 - 1) :
    Asset.make amount coreSymbol = .ok ⟨amount, coreSymbol⟩ := by
  have hneg : (-Asset.maxAmount).toInt = -(2 ^ 62 - 1) := by decide
  have hrange : Asset.isAmountWithinRange ⟨amount, coreSymbol⟩ = true := by
    simp only [Asset.isAmountWithinRange, decide_eq_true_eq, Int64.le_iff_toInt_le, hneg,
      Asset.toInt_maxAmount]
    omega
  exact Asset.make_eq_ok_iff.mpr ⟨hrange, by decide, rfl⟩

/-- **The end of an epoch** pays a row what is left of its total. -/
theorem RowOk.finish (h : RowOk accounts p row) (hacc : accounts p → ctx.isAccount p)
    (hmax : row.vested.amount.toInt ≤ 2 ^ 62 - 1) (epoch : UInt32) :
    ∃ r, finishRow bankAccount epoch p row = .ok r ∧ RowMove ctx 0 p row r.1 r.2 := by
  have hvested := h.vested
  have hunvested := h.unvested
  have hle := h.le
  have hlegal := h.legal
  by_cases hdue : row.epoch + 1 = epoch
  · have hleft := Int64.toInt_sub_of_mem (a := row.unvestingTotal.amount)
      (b := row.unvested.amount) (by omega) (by omega)
    have hmake := make_eq_ok (row.unvestingTotal.amount - row.unvested.amount)
      (by omega) (by omega)
    rw [finishRow, if_pos hdue, h.symbol, hmake]
    simp only [ok_bind]
    -- the row moves on in any case
    let row' : Vesting := { row with
      unvestingTotal.amount := row.vested.amount
      unvested.amount := 0
      vested.amount := 0
      epoch }
    have hout : outstanding p row' = row.vested.amount.toInt := by
      simp only [row', outstanding, Int64.toInt_zero]
      omega
    have hrow' : RowOk ctx.isAccount p row' :=
      ⟨h.symbol, Int.le_refl 0, Int.le_refl 0, hvested, hmax, h.other, hacc h.exist⟩
    split_ifs with hpos
    · refine ⟨_, rfl, hrow', ?_, ?_⟩
      · intro i hi
        exact ⟨p, _, _, List.mem_singleton.mp hi, h.other, hacc h.exist, by decide,
          Int64.toInt_pos_iff.mp hpos⟩
      · show outstanding p row' + totalOf _ = outstanding p row + 0
        rw [hout, totalOf_cons, amountOf_send, totalOf_nil, hleft, outstanding]
        omega
    · refine ⟨_, rfl, hrow', by simp, ?_⟩
      show outstanding p row' + totalOf _ = outstanding p row + 0
      rw [Int64.toInt_pos_iff, hleft] at hpos
      rw [hout, totalOf_nil, outstanding]
      omega
  · exact ⟨(row, []), finishRow_of_not_due hdue, h.mono hacc, by simp, by simp⟩

theorem symbol_fixRounding (total paid : Int64) (tokens : Asset) :
    (fixRounding total paid tokens).symbol = tokens.symbol := by
  rw [fixRounding]
  split_ifs
  · rfl
  · rfl

/-- What is paid of a total is what is left of it. -/
theorem exists_fixRounding {total paid : Int64} (hpaid : 0 ≤ paid.toInt)
    (hlt : paid.toInt < total.toInt) (hmax : total.toInt ≤ 2 ^ 62 - 1) :
    ∃ left : Int64, fixRounding total paid ⟨total, coreSymbol⟩ = ⟨left, coreSymbol⟩ ∧
      left.toInt = total.toInt - paid.toInt := by
  have hleft := toInt_fixRounding (s := coreSymbol) hpaid hlt hmax
  have hsymbol := symbol_fixRounding total paid ⟨total, coreSymbol⟩
  generalize fixRounding total paid ⟨total, coreSymbol⟩ = tokens at hleft hsymbol
  obtain ⟨left, symbol⟩ := tokens
  exact ⟨left, congrArg (Asset.mk left) hsymbol, hleft⟩

/-- The memo of a payout is short. -/
theorem memo_le (p : Name) :
    ("Distributing unvested production rewards for " ++ p.toString).utf8ByteSize ≤ 256 := by
  have hname := p.utf8ByteSize_toString_le
  have hlead : "Distributing unvested production rewards for ".utf8ByteSize = 45 := by decide
  rw [String.utf8ByteSize_append, hlead]
  omega

/-- **A deposit** pays a row all that is left of its total, or nothing. -/
theorem RowOk.modify {a : ALuckyNumber} {amount : Int64} (h : RowOk accounts p row)
    (hacc : accounts p → ctx.isAccount p) (hpos : 0 < amount.toInt)
    (hmax : row.vested.amount.toInt + amount.toInt ≤ 2 ^ 62 - 1) :
    ∃ r, modifyRow bankAccount p a ⟨amount, coreSymbol⟩ row = .ok r ∧
      RowMove ctx amount.toInt p row r.1 r.2 := by
  have hvested := h.vested
  have hunvested := h.unvested
  have hle := h.le
  have hlegal := h.legal
  have hsum := Int64.toInt_add_of_mem (a := row.vested.amount) (b := amount) (by omega) (by omega)
  have hratio : currentPayoutRatio a.chunksRemaining
      { row with vested.amount := row.vested.amount + amount } =
      currentPayoutRatio a.chunksRemaining row := rfl
  rw [modifyRow]
  simp only [hratio]
  split_ifs with hpay
  · obtain ⟨htotal, hpayout⟩ := hpay
    rw [Int64.toInt_pos_iff] at htotal
    obtain ⟨hone, hlt, -⟩ := (currentPayoutRatio_pos_iff htotal hunvested hle).mp hpayout
    obtain ⟨left, hfix, hleft⟩ := exists_fixRounding hunvested hlt hlegal
    have hpaid := Int64.toInt_add_of_mem (a := row.unvested.amount) (b := left) (by omega)
      (by omega)
    simp only [hone, one_mul, Rat.truncate_intCast, Int64.ofInt_toInt,
      make_eq_ok row.unvestingTotal.amount (by omega) (by omega), ok_bind, hfix]
    refine ⟨_, rfl, ⟨h.symbol, ?_, ?_, ?_, hlegal, h.other, hacc h.exist⟩, ?_, ?_⟩
    · simp only [hsum]
      omega
    · simp only [hpaid]
      omega
    · simp only [hpaid]
      omega
    · intro i hi
      exact ⟨p, left, _, List.mem_singleton.mp hi, h.other, hacc h.exist, memo_le p, by omega⟩
    · rw [totalOf_cons, amountOf_send, totalOf_nil, outstanding, outstanding, hsum, hpaid]
      simp only
      omega
  · refine ⟨_, rfl, ⟨h.symbol, ?_, hunvested, hle, hlegal, h.other, hacc h.exist⟩, by simp, ?_⟩
    · simp only [hsum]
      omega
    · rw [totalOf_nil, outstanding, outstanding, hsum]
      simp only
      omega

/-! ### Tables -/

/-- Every row is in order, and together they hold no more than fits into an asset. -/
structure TableOk (accounts : Name → Bool) (vesting : Table Name Vesting) : Prop where
  rows : ∀ (p : Name) (row : Vesting), vesting[p]? = some row → RowOk accounts p row
  legal : OrdMap.sumOf outstanding vesting ≤ 2 ^ 62 - 1

/-- How the table may change: it pays what it no longer holds, up to what it gains. -/
structure TableMove (ctx : Context) (gain : ℤ) (vesting vesting' : Table Name Vesting)
    (sends : List Token.Inline) : Prop where
  rows : ∀ (p : Name) (row : Vesting), vesting'[p]? = some row → RowOk ctx.isAccount p row
  payouts : ∀ i ∈ sends, Payout ctx i
  covered : OrdMap.sumOf outstanding vesting' + totalOf sends ≤
    OrdMap.sumOf outstanding vesting + gain

/-- **What the bank sends is honoured**, if what it has gained is credited, and what is left covers
what is left in the rows. -/
theorem TableMove.honoured {vesting vesting' : Table Name Vesting} {gain : ℤ}
    (h : TableMove ctx gain vesting vesting' sends) (hτ : LifeInv τ)
    (hcovered : OrdMap.sumOf outstanding vesting + gain ≤ balanceOf τ bankAccount coreSymbol) :
    ∃ τ₁, Honoured ctx τ sends τ₁ ∧ LifeInv τ₁ ∧
      OrdMap.sumOf outstanding vesting' ≤ balanceOf τ₁ bankAccount coreSymbol := by
  have hmoved := h.covered
  have hleft : 0 ≤ OrdMap.sumOf outstanding vesting' :=
    OrdMap.sumOf_nonneg fun p row hp => (h.rows p row hp).outstanding_nonneg
  obtain ⟨τ₁, hhonoured, hlife, hpaid⟩ := exists_honoured hτ h.payouts (by omega)
  exact ⟨τ₁, hhonoured, hlife, by omega⟩

namespace TableOk

variable {vesting : Table Name Vesting} {a : ALuckyNumber}

theorem nonneg (h : TableOk accounts vesting) : 0 ≤ OrdMap.sumOf outstanding vesting :=
  OrdMap.sumOf_nonneg fun p row hp => (h.rows p row hp).outstanding_nonneg

theorem outstanding_le (h : TableOk accounts vesting) (hp : vesting[p]? = some row) :
    outstanding p row ≤ OrdMap.sumOf outstanding vesting := by
  have hle := OrdMap.entry_le_sumOf
    (fun p row hp => (h.rows p row hp).outstanding_nonneg) p
  rwa [OrdMap.entry_of_some hp] at hle

section Moves

variable (h : TableOk accounts vesting) (hacc : ∀ p, accounts p → ctx.isAccount p)

include h hacc

/-- The table stays as it is. -/
theorem refl : TableMove ctx 0 vesting vesting [] where
  rows p row hp := (h.rows p row hp).mono (hacc p)
  payouts := by simp
  covered := by simp

/-- **`onepoch` pays only what it takes out of the rows**, and it does not fail. -/
theorem exists_onepoch_move {ctx' : Context} (hself : ctx'.self = bankAccount)
    (hauth : ctx'.hasAuth bankAccount) :
    ∃ r, onepoch ctx' (some a) vesting a.epoch = .ok r ∧ TableMove ctx 0 vesting r.1 r.2 := by
  have hfinish (p : Name) (row : Vesting) (hp : vesting[p]? = some row) :=
    (h.rows p row hp).finish (hacc p)
      ((h.rows p row hp).vested_le.trans ((h.outstanding_le hp).trans h.legal)) a.epoch
  obtain ⟨⟨vesting', sends⟩, hupdate⟩ := OrdMap.exists_updateAll fun p row hp => by
    obtain ⟨r, hr, -⟩ := hfinish p row hp
    exact ⟨r, hr⟩
  have honepoch : onepoch ctx' (some a) vesting a.epoch = .ok (vesting', sends) := by
    simp only [onepoch, singletonGet, ok_bind, bind_eq_ok_iff, Context.requireAuth_eq_ok_iff,
      check_eq_ok_iff, exists_const, hself]
    exact ⟨hauth, trivial, hupdate⟩
  obtain ⟨-, hvesting, hsends⟩ := OrdMap.updateAll_spec hupdate
  have hmove (p : Name) (row : Vesting) (hp : vesting[p]? = some row) :
      RowMove ctx 0 p row (OrdMap.replaced (finishRow bankAccount a.epoch) p row).1
        (OrdMap.replaced (finishRow bankAccount a.epoch) p row).2 := by
    obtain ⟨r, hr, hrow⟩ := hfinish p row hp
    rwa [OrdMap.replaced_of_ok hr]
  refine ⟨_, honepoch, ?_, ?_, ?_⟩
  · intro p row' hp'
    rw [hvesting, Option.map_eq_some_iff] at hp'
    obtain ⟨row, hp, rfl⟩ := hp'
    exact (hmove p row hp).ok
  · intro i hi
    rw [hsends] at hi
    obtain ⟨e, he, hi⟩ := List.mem_flatMap.mp hi
    exact (hmove e.1 e.2 (OrdMap.mem_toList.mp he)).payouts i hi
  · -- entry by entry, what is sent is what the row no longer holds
    have htotal : totalOf sends = OrdMap.sumOf (fun p row =>
        totalOf (OrdMap.replaced (finishRow bankAccount a.epoch) p row).2) vesting := by
      rw [hsends]
      exact OrdMap.sum_flatMap_emitted
    rw [OrdMap.sumOf_of_map hvesting, htotal, ← OrdMap.sumOf_add, add_zero]
    refine (OrdMap.sumOf_congr fun p row hp => ?_).le
    rw [(hmove p row hp).exact, add_zero]

/-- **A deposit adds what it brings**, and it does not fail. -/
theorem exists_depositFor_move {amount : Int64} (hother : p ≠ bankAccount)
    (hexist : ctx.isAccount p) (hpos : 0 < amount.toInt)
    (hmax : OrdMap.sumOf outstanding vesting + amount.toInt ≤ 2 ^ 62 - 1) :
    ∃ r, depositFor bankAccount p a ⟨amount, coreSymbol⟩ vesting = .ok r ∧
      TableMove ctx amount.toInt vesting r.1 r.2 := by
  have hinsert {row : Vesting} (hrow : RowOk ctx.isAccount p row) (q : Name) (row' : Vesting) :
      (vesting.insert p row)[q]? = some row' → RowOk ctx.isAccount q row' :=
    OrdMap.forall_insert hrow (fun q row' _ hq => (h.rows q row' hq).mono (hacc q)) q row'
  cases hp : vesting[p]? with
  | none =>
    have hzero := make_eq_ok 0 (by decide) (by decide)
    have hemplace (row : Vesting) : vesting.emplace p row = .ok (vesting.insert p row) :=
      Table.emplace_eq_ok_iff.mpr ⟨OrdMap.not_mem_iff.mpr hp, rfl⟩
    have hnew : RowOk ctx.isAccount p
        ⟨⟨amount, coreSymbol⟩, ⟨0, coreSymbol⟩, ⟨0, coreSymbol⟩, a.epoch⟩ :=
      ⟨rfl, hpos.le, Int.le_refl 0, Int.le_refl 0, by simp, hother, hexist⟩
    refine ⟨(vesting.insert p
      ⟨⟨amount, coreSymbol⟩, ⟨0, coreSymbol⟩, ⟨0, coreSymbol⟩, a.epoch⟩, []), ?_, hinsert hnew,
      by simp, ?_⟩
    · rw [depositFor, hp]
      simp only [hzero, ok_bind, hemplace]
      rfl
    · simp only [OrdMap.sumOf_insert, OrdMap.entry_of_none hp, outstanding, totalOf_nil,
        Int64.toInt_zero]
      omega
  | some row =>
    have hle := h.outstanding_le hp
    have hvested := (h.rows p row hp).vested_le
    obtain ⟨r, hr, hrow⟩ := (h.rows p row hp).modify (a := a) (hacc p) hpos (by omega)
    refine ⟨(vesting.insert p r.1, r.2), ?_, hinsert hrow.ok, hrow.payouts, ?_⟩
    · rw [depositFor, hp]
      simp only [hr, ok_bind]
      rfl
    · have hexact := hrow.exact
      simp only [OrdMap.sumOf_insert, OrdMap.entry_of_some hp]
      omega

end Moves

end TableOk

end Twig.Bank
