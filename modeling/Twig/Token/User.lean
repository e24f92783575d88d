import Twig.Token.Ledger
import Twig.Lib.Book

/-!
# Transfers, opening and closing

What the user actions do to the exact books: `transfer` moves the listed assets from one
account to another, while `open` and `close` change no balance at all. In particular the only
row that `close` can take away is an empty one: no entry of a row is zero, so a row whose
entries are all zero has none.
-/

namespace Twig.Token

open Std Fallible

/-! ### Transfers -/

/-- The exact amount of `s` among the assets of a transfer, repetitions included. -/
def sent (tokens : List Asset) (s : Symbol) : ℤ :=
  amounts (tokens.map fun t => (t.symbol, t.amount)) s

theorem sent_cons {t : Asset} {l : List Asset} {s : Symbol} :
    sent (t :: l) s = (if t.symbol = s then t.amount.toInt else 0) + sent l s := by
  rw [sent, List.map_cons, amounts_cons, sent]

theorem sent_nil {s : Symbol} : sent [] s = 0 := rfl

/-- What positive assets come to is not negative. -/
theorem sent_nonneg {l : List Asset} (h : ∀ t ∈ l, 0 < t.amount.toInt) (s : Symbol) :
    0 ≤ sent l s := by
  refine List.sum_nonneg ?_
  intro x hx
  simp only [List.map_map, List.mem_map, Function.comp_apply] at hx
  obtain ⟨t, ht, rfl⟩ := hx
  have hpos := h t ht
  split_ifs
  · exact hpos.le
  · exact le_rfl

/-- What one iteration leaves of the sender's row. -/
theorem transferOne_source {source target source' target' : FungiblePairs} {t : Asset}
    (h : Holdings source) (hstep : transferOne (source, target) t = .ok (source', target')) :
    Holdings source' ∧
      ∀ s, bal source' s = bal source s - if t.symbol = s then t.amount.toInt else 0 := by
  obtain ⟨held, hheld, -, hpos, hkept, hr⟩ := transferOne_eq_ok_iff.mp hstep
  obtain ⟨rfl, rfl⟩ := Prod.mk.inj hr
  rw [Int64.toInt_pos_iff] at hpos
  have hheld0 := h.positive _ held hheld
  have hexact := toInt_sub_exact hheld0.le hpos
  rw [Int64.toInt_nonneg_iff] at hkept
  exact ⟨h.leave (OrdMap.mem_iff_exists.mpr ⟨held, hheld⟩) hkept,
    fun s => bal_leave_sub (by rw [hexact, bal_of_some hheld])⟩

/-- The loop invariant of `transfer`, with the assets `l` still to come: `S` and `R` are the
balances of sender and receiver that the loop is heading for. -/
private structure TransferLoop (S R : Symbol → ℤ) (l : List Asset)
    (source target : FungiblePairs) : Prop where
  debited : ∀ s, bal source s - sent l s = S s
  credited : ∀ s, bal target s + sent l s = R s
  bounded : ∀ s, bal source s + bal target s ≤ 2 ^ 62 - 1
  sourceRow : Holdings source
  targetRow : Holdings target

private theorem TransferLoop.step {S R : Symbol → ℤ} {t : Asset} {l : List Asset}
    {source target source' target' : FungiblePairs}
    (h : TransferLoop S R (t :: l) source target)
    (hstep : transferOne (source, target) t = .ok (source', target')) :
    TransferLoop S R l source' target' := by
  obtain ⟨hrow, hdebit⟩ := transferOne_source h.sourceRow hstep
  obtain ⟨held, hheld, -, hpos, -, hr⟩ := transferOne_eq_ok_iff.mp hstep
  obtain rfl := (Prod.mk.inj hr).2
  rw [Int64.toInt_pos_iff] at hpos
  have hbk := h.bounded t.symbol
  have htk := h.targetRow.positive.bal_nonneg t.symbol
  have hmem : t.symbol ∈ source := OrdMap.mem_iff_exists.mpr ⟨held, hheld⟩
  -- what the target receives was part of the source, so the two together still fit
  have hleft := hrow.positive.bal_nonneg t.symbol
  rw [hdebit, if_pos rfl] at hleft
  have hcredit (s : Symbol) : bal (credit target t.symbol t.amount) s =
      bal target s + if t.symbol = s then t.amount.toInt else 0 :=
    bal_credit (by omega) (by omega)
  refine ⟨?_, ?_, ?_, hrow, h.targetRow.credit (h.sourceRow.valid _ hmem) hpos (by omega)⟩
  · intro s
    rw [hdebit, ← h.debited s, sent_cons, sub_sub]
  · intro s
    rw [hcredit, ← h.credited s, sent_cons, add_assoc]
  · intro s
    have := h.bounded s
    rw [hdebit, hcredit]
    omega

/-- **What `transfer` does**: it moves exactly the listed assets from the sender to the
receiver, and keeps the invariant. -/
theorem transfer_spec {ctx : Context} {o : Symbol → ℤ} {σ σ' : State} {sender receiver : Name}
    {tokens : List Asset} {memo : String} (h : Inv o σ) (ho : AtMostOne o)
    (hok : transfer ctx σ sender receiver tokens memo = .ok σ') :
    Inv o σ' ∧ σ'.supplies = σ.supplies ∧
      balanceOf σ' = Book.move (balanceOf σ) sender receiver (sent tokens) := by
  simp only [transfer, bind_eq_ok_iff, Context.requireAuth_eq_ok_iff, check_eq_ok_iff,
    exists_const, Table.requireFind_eq_ok_iff, pure_eq_ok_iff] at hok
  obtain ⟨-, hne, -, -, -, held, hheld, ⟨source, target⟩, hloop, rfl⟩ := hok
  have hheld' : balanceOf σ sender = bal held := by funext s; simp [balanceOf, hheld]
  have hinit : TransferLoop (fun s => balanceOf σ sender s - sent tokens s)
      (fun s => balanceOf σ receiver s + sent tokens s) tokens held
      (σ.accounts[receiver]?.getD ∅) := by
    refine ⟨fun s => by rw [hheld'], fun s => rfl, ?_, h.holdings sender held hheld,
      h.holdings_getD receiver⟩
    intro s
    rw [← hheld', ← balanceOf]
    exact (h.add_le_total hne s).trans (h.total_le ho s)
  have hend := foldlM_invariant
    (fun l (acc : FungiblePairs × FungiblePairs) => TransferLoop _ _ l acc.1 acc.2)
    (fun _ _ _ _ hI hs => hI.step hs) hinit hloop
  have hsource (s : Symbol) : bal source s = balanceOf σ sender s - sent tokens s := by
    simpa [sent] using hend.debited s
  have htarget (s : Symbol) : bal target s = balanceOf σ receiver s + sent tokens s := by
    simpa [sent] using hend.credited s
  -- between the two writes the tokens in flight are orphans
  let σ₁ : State := { σ with accounts := σ.accounts.insert sender source }
  have hσ₁ (b : Name) (s : Symbol) :
      balanceOf σ₁ b s = if b = sender then bal source s else balanceOf σ b s :=
    balanceOf_of_insert rfl b s
  have h₁ : Inv (fun s => o s - sent tokens s) σ₁ :=
    h.insert_row rfl hend.sourceRow h.supplies fun s => by
      change supplyOf σ s + _ = _
      rw [hsource]
      omega
  refine ⟨h₁.insert_row (r := target) rfl hend.targetRow h.supplies ?_, rfl, ?_⟩
  · intro s
    change supplyOf σ s + o s = supplyOf σ s + _ + _ - _
    rw [hσ₁, if_neg hne.symm, htarget]
    omega
  · funext b s
    rw [Book.move_apply hne, balanceOf_of_insert (σ := σ₁) (r := target) rfl, hσ₁]
    by_cases hs : b = sender
    · subst hs; rw [if_neg hne, if_pos rfl, if_pos rfl, hsource]
    · rw [if_neg hs, if_neg hs, htarget]

/-- A transfer keeps the sender's row, even when it takes its last entry. -/
theorem sender_mem_of_transfer {ctx : Context} {σ σ' : State} {sender receiver : Name}
    {tokens : List Asset} {memo : String}
    (hok : transfer ctx σ sender receiver tokens memo = .ok σ') : sender ∈ σ'.accounts := by
  simp only [transfer, bind_eq_ok_iff, pure_eq_ok_iff] at hok
  obtain ⟨-, -, -, -, -, -, -, -, -, -, held, -, acc, -, rfl⟩ := hok
  simp

theorem sent_singleton {a : Int64} {k s : Symbol} :
    sent [⟨a, k⟩] s = if k = s then a.toInt else 0 := by
  rw [sent_cons, sent, List.map_nil, amounts_nil, add_zero]

/-- A transfer of one asset takes its amount from what the sender has, whatever else the tables
hold. -/
theorem debit_of_transfer_single {ctx : Context} {σ σ' : State} {sender receiver : Name}
    {a : Int64} {s : Symbol} {memo : String} (hheld : 0 ≤ balanceOf σ sender s)
    (hok : transfer ctx σ sender receiver [⟨a, s⟩] memo = .ok σ') :
    balanceOf σ' sender s = balanceOf σ sender s - a.toInt := by
  simp only [transfer, bind_eq_ok_iff, check_eq_ok_iff, Table.requireFind_eq_ok_iff,
    List.foldlM_cons, List.foldlM_nil, pure_eq_ok_iff] at hok
  obtain ⟨-, -, -, hne, -, -, -, -, -, -, row, hrow, r, ⟨r', hone, rfl⟩, rfl⟩ := hok
  obtain ⟨held, hs, -, hpos, -, rfl⟩ := transferOne_eq_ok_iff.mp hone
  have hbal : balanceOf σ sender s = held.toInt := by
    rw [balanceOf, hrow, Option.getD_some, bal_of_some hs]
  rw [hbal] at hheld ⊢
  rw [balanceOf, OrdMap.getElem?_insert, if_neg hne, OrdMap.getElem?_insert, if_pos rfl,
    Option.getD_some, bal_leave, if_pos rfl, toInt_sub_exact hheld (Int64.toInt_pos_iff.mp hpos)]

/-- An iteration returns exactly when its asset is valid, positive and covered. -/
theorem exists_transferOne_iff {source : FungiblePairs} (target : FungiblePairs) (t : Asset)
    (h : Holdings source) :
    (∃ r, transferOne (source, target) t = .ok r) ↔
      t.isValid = true ∧ 0 < t.amount.toInt ∧ t.amount.toInt ≤ bal source t.symbol := by
  constructor
  · rintro ⟨⟨source', target'⟩, hr⟩
    obtain ⟨hrow, hdebit⟩ := transferOne_source h hr
    obtain ⟨held, -, hvalid, hpos, -, -⟩ := transferOne_eq_ok_iff.mp hr
    have hleft := hrow.positive.bal_nonneg t.symbol
    rw [hdebit, if_pos rfl] at hleft
    exact ⟨hvalid, Int64.toInt_pos_iff.mp hpos, sub_nonneg.mp hleft⟩
  · rintro ⟨hvalid, hpos, hle⟩
    cases hheld : source[t.symbol]? with
    | none =>
      rw [bal_of_none hheld] at hle
      omega
    | some held =>
      rw [bal_of_some hheld] at hle
      have hkept : 0 ≤ held - t.amount := by
        rw [Int64.toInt_nonneg_iff, toInt_sub_exact (by omega) hpos]
        omega
      exact ⟨_, transferOne_eq_ok_iff.mpr
        ⟨held, hheld, hvalid, Int64.toInt_pos_iff.mpr hpos, hkept, rfl⟩⟩

/-- The loop returns exactly when every asset is valid and positive, and for each symbol what
the list holds of it is covered. -/
theorem exists_transferLoop_iff (l : List Asset) : ∀ {source : FungiblePairs}
    (target : FungiblePairs), Holdings source → ((∃ r, l.foldlM transferOne (source, target) = .ok r) ↔
      (∀ t ∈ l, t.isValid = true ∧ 0 < t.amount.toInt) ∧ ∀ s, sent l s ≤ bal source s) := by
  induction l with
  | nil =>
    intro source target h
    refine iff_of_true ⟨_, rfl⟩ ⟨by simp, fun s => ?_⟩
    rw [sent_nil]
    exact h.positive.bal_nonneg s
  | cons t l ih =>
    intro source target h
    have hone := exists_transferOne_iff target t h
    simp only [List.foldlM_cons, bind_eq_ok_iff, List.forall_mem_cons, sent_cons]
    constructor
    · rintro ⟨r, ⟨source', target'⟩, hstep, hloop⟩
      obtain ⟨hvalid, hpos, -⟩ := hone.mp ⟨_, hstep⟩
      obtain ⟨hrow, hdebit⟩ := transferOne_source h hstep
      obtain ⟨hrest, hcovered⟩ := (ih target' hrow).mp ⟨r, hloop⟩
      refine ⟨⟨⟨hvalid, hpos⟩, hrest⟩, fun s => ?_⟩
      have hs := hcovered s
      rw [hdebit] at hs
      omega
    · rintro ⟨⟨⟨hvalid, hpos⟩, hrest⟩, hcovered⟩
      -- the rest of the list leaves the first asset its part of the balance
      have hfirst := hcovered t.symbol
      have hnonneg := sent_nonneg (fun u hu => (hrest u hu).2) t.symbol
      rw [if_pos rfl] at hfirst
      obtain ⟨⟨source', target'⟩, hstep⟩ := hone.mpr ⟨hvalid, hpos, by omega⟩
      obtain ⟨hrow, hdebit⟩ := transferOne_source h hstep
      obtain ⟨r, hloop⟩ := (ih target' hrow).mpr ⟨hrest, fun s => by
        have hs := hcovered s
        rw [hdebit]
        omega⟩
      exact ⟨r, _, hstep, hloop⟩

section Accepted

variable {ctx : Context} {o : Symbol → ℤ} {σ : State} {sender receiver : Name} {memo : String}

/-- **When a transfer is accepted**: the sender has a row, every asset is valid and positive, and
for each symbol the sender's balance covers all that the list holds of it. -/
theorem transfer_ok_iff {tokens : List Asset} (h : Inv o σ) (hauth : ctx.hasAuth sender)
    (hne : sender ≠ receiver) (hacc : ctx.isAccount receiver) (hmemo : memo.utf8ByteSize ≤ 256)
    (hlen : 0 < tokens.length ∧ tokens.length < 100) :
    (∃ σ', transfer ctx σ sender receiver tokens memo = .ok σ') ↔
      sender ∈ σ.accounts ∧ (∀ t ∈ tokens, t.isValid = true ∧ 0 < t.amount.toInt) ∧
        ∀ s, sent tokens s ≤ balanceOf σ sender s := by
  simp only [transfer, bind_eq_ok_iff, Context.requireAuth_eq_ok_iff, check_eq_ok_iff,
    exists_const, Table.requireFind_eq_ok_iff, pure_eq_ok_iff]
  constructor
  · rintro ⟨σ', -, -, -, -, -, row, hrow, r, hloop, -⟩
    have hcovered := (exists_transferLoop_iff tokens _ (h.holdings sender row hrow)).mp
      ⟨r, hloop⟩
    refine ⟨OrdMap.mem_iff_exists.mpr ⟨row, hrow⟩, hcovered.1, ?_⟩
    intro s
    rw [balanceOf, hrow]
    exact hcovered.2 s
  · rintro ⟨hmem, hvalid, hcovered⟩
    obtain ⟨row, hrow⟩ := OrdMap.mem_iff_exists.mp hmem
    have hcovered' (s : Symbol) : sent tokens s ≤ bal row s := by
      have hs := hcovered s
      rwa [balanceOf, hrow] at hs
    obtain ⟨r, hloop⟩ := (exists_transferLoop_iff tokens (σ.accounts[receiver]?.getD ∅)
      (h.holdings sender row hrow)).mpr ⟨hvalid, hcovered'⟩
    exact ⟨_, hauth, hne, hacc, hmemo, hlen, row, hrow, r, hloop, rfl⟩

/-- A positive balance sits in a row, of a valid symbol. -/
theorem Inv.mem_of_balance_pos (h : Inv o σ) {a : Name} {s : Symbol}
    (hpos : 0 < balanceOf σ a s) : a ∈ σ.accounts ∧ s.isValid = true := by
  rw [balanceOf] at hpos
  cases hrow : σ.accounts[a]? with
  | none => simp [hrow] at hpos
  | some row =>
    refine ⟨OrdMap.mem_iff_exists.mpr ⟨row, hrow⟩, (h.holdings a row hrow).valid s ?_⟩
    by_contra hs
    rw [hrow, Option.getD_some, bal_of_none (OrdMap.not_mem_iff.mp hs)] at hpos
    exact lt_irrefl 0 hpos

/-- **When a transfer of one asset is accepted**: its amount is strictly positive and covered by
the sender's balance. -/
theorem transfer_single_ok_iff {a : Int64} {s : Symbol} (h : Inv o σ) (ho : AtMostOne o)
    (hauth : ctx.hasAuth sender) (hne : sender ≠ receiver) (hacc : ctx.isAccount receiver)
    (hmemo : memo.utf8ByteSize ≤ 256) :
    (∃ σ', transfer ctx σ sender receiver [⟨a, s⟩] memo = .ok σ') ↔
      0 < a.toInt ∧ a.toInt ≤ balanceOf σ sender s := by
  rw [transfer_ok_iff h hauth hne hacc hmemo (by simp)]
  simp only [List.forall_mem_singleton, sent_singleton]
  constructor
  · rintro ⟨-, ⟨-, hpos⟩, hcovered⟩
    have hs := hcovered s
    rw [if_pos rfl] at hs
    exact ⟨hpos, hs⟩
  · rintro ⟨hpos, hle⟩
    have hmax := h.balanceOf_le ho sender s
    obtain ⟨hmem, hvalid⟩ := h.mem_of_balance_pos (hpos.trans_le hle)
    refine ⟨hmem, ⟨Asset.isValid_iff.mpr ⟨⟨?_, ?_⟩, hvalid⟩, hpos⟩, fun k => ?_⟩
    · show -(2 ^ 62 - 1) ≤ a.toInt
      omega
    · show a.toInt ≤ 2 ^ 62 - 1
      omega
    · split_ifs with hk
      · rwa [← hk]
      · exact h.balanceOf_nonneg sender k

end Accepted

/-! ### Opening and closing -/

/-- `open` changes no balance. -/
theorem openAccount_spec {ctx : Context} {o : Symbol → ℤ} {σ σ' : State} {owner : Name}
    (h : Inv o σ) (hok : openAccount ctx σ owner = .ok σ') :
    Inv o σ' ∧ σ'.supplies = σ.supplies ∧ balanceOf σ' = balanceOf σ := by
  rw [openAccount, check_bind_eq_ok_iff, pure_eq_ok_iff] at hok
  obtain ⟨-, rfl⟩ := hok
  by_cases hmem : owner ∈ σ.accounts
  · rw [if_pos hmem]
    exact ⟨h, rfl, rfl⟩
  · rw [if_neg hmem]
    have hzero (s : Symbol) : balanceOf σ owner s = 0 := by
      rw [balanceOf, OrdMap.not_mem_iff.mp hmem]; exact bal_empty
    refine ⟨h.insert_row (r := ∅) rfl holdings_empty h.supplies ?_, rfl, ?_⟩
    · intro s
      change supplyOf σ s + o s = _
      rw [hzero, bal_empty]
      omega
    · funext b s
      rw [balanceOf_of_insert (r := ∅) rfl]
      by_cases hb : b = owner
      · rw [if_pos hb, hb, hzero, bal_empty]
      · rw [if_neg hb]

/-- Entries that are all positive and all zero are no entries. -/
theorem eq_empty_of_closeOne {row : FungiblePairs} (h : Positive row)
    (hzero : row.toList.forM closeOne = .ok ()) : row = ∅ := by
  rw [forM_eq_ok_iff] at hzero
  refine ExtTreeMap.ext_getElem? ?_
  intro s
  rw [ExtTreeMap.getElem?_empty]
  cases hs : row[s]? with
  | none => rfl
  | some v =>
    have h0 : v = 0 := check_eq_ok_iff.mp (hzero (s, v) (OrdMap.mem_toList.mpr hs))
    have hv := h s v hs
    rw [h0, Int64.toInt_zero] at hv
    exact absurd hv (lt_irrefl 0)

/-- **`close` destroys no tokens**: the row it takes away is empty, and no balance changes. -/
theorem closeAccount_spec {ctx : Context} {o : Symbol → ℤ} {σ σ' : State} {owner : Name}
    (h : Inv o σ) (hok : closeAccount ctx σ owner = .ok σ') :
    Inv o σ' ∧ σ'.supplies = σ.supplies ∧ balanceOf σ' = balanceOf σ ∧
      σ.accounts[owner]? = some ∅ ∧ σ'.accounts = σ.accounts.erase owner := by
  simp only [closeAccount, bind_eq_ok_iff, check_eq_ok_iff, exists_const,
    Table.requireFind_eq_ok_iff, pure_eq_ok_iff] at hok
  obtain ⟨-, row, hrow, u, hzero, rfl⟩ := hok
  -- no entry is zero, so a row that passes the loop has no entries
  obtain rfl := eq_empty_of_closeOne (h.holdings owner row hrow).positive hzero
  have hbook : balanceOf { σ with accounts := σ.accounts.erase owner } = balanceOf σ := by
    funext b s
    simp only [balanceOf, OrdMap.getElem?_erase]
    by_cases hb : b = owner
    · rw [if_pos hb, hb, hrow]; rfl
    · rw [if_neg hb]
  refine ⟨⟨h.supplies, ?_, ?_⟩, rfl, hbook, hrow, rfl⟩
  · exact OrdMap.forall_erase fun b r _ => h.holdings b r
  · intro s
    have hc := h.conserved s
    change totalIn (σ.accounts.erase owner) s = supplyOf σ s + o s
    rw [totalIn_erase, hrow, Option.getD_some, bal_empty, sub_zero]
    exact hc

end Twig.Token
