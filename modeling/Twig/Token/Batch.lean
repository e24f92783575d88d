import Twig.Token.Conservation

/-!
# Batches of transfers, and their order

A `transfer` of a list of assets against transfers of one asset each, and two transfers in either
order. A batch works on copies of the two rows and writes them once; an accounts table, on the
other hand, is determined by who has a row and by the exact balances (`Inv.accounts_ext`), and
these do not depend on any order.

* `transfer_eq_foldlM` — a batch is the sequence of its single transfers, errors included;
* `transfer_batch` — when a batch is accepted, and what it does to the accounts;
* `transfers_commute` — two transfers that can be made in either order lead to the same tables.
-/

namespace Twig.Token

open Std Fallible

variable {ctx : Context} {o : Symbol → ℤ} {σ σ' : State} {sender receiver : Name}
  {tokens tokens' : List Asset} {memo : String}

/-! ### One by one -/

/-- The state after both parties' rows have been written. -/
def State.put (σ : State) (sender receiver : Name) (rows : FungiblePairs × FungiblePairs) :
    State :=
  { σ with accounts := (σ.accounts.insert sender rows.1).insert receiver rows.2 }

/-- A later writing of both rows replaces an earlier one. -/
theorem State.put_put {rows rows' : FungiblePairs × FungiblePairs} :
    (σ.put sender receiver rows).put sender receiver rows' = σ.put sender receiver rows' := by
  have haccounts : ((σ.put sender receiver rows).put sender receiver rows').accounts =
      (σ.put sender receiver rows').accounts := by
    refine ExtTreeMap.ext_getElem? ?_
    intro a
    simp only [State.put, OrdMap.getElem?_insert]
    split_ifs
    all_goals rfl
  simp only [State.put] at haccounts ⊢
  rw [haccounts]

/-- What comes before the loop of `transfer`. -/
def parties (ctx : Context) (sender receiver : Name) (memo : String) : Outcome Unit := do
  ctx.requireAuth sender
  check (sender ≠ receiver) "cannot transfer to self"
  check (ctx.isAccount receiver) "to account does not exist"
  check (memo.utf8ByteSize ≤ 256) "memo has more than 256 bytes"

theorem parties_eq_ok_iff {u : Unit} : parties ctx sender receiver memo = .ok u ↔
    ctx.hasAuth sender ∧ sender ≠ receiver ∧ ctx.isAccount receiver ∧
      memo.utf8ByteSize ≤ 256 := by
  simp only [parties, bind_eq_ok_iff, Context.requireAuth_eq_ok_iff, check_eq_ok_iff, exists_const]

/-- A transfer of a list of a size that is allowed. -/
theorem transfer_eq (hlen : 0 < tokens.length ∧ tokens.length < 100) :
    transfer ctx σ sender receiver tokens memo = (do
      parties ctx sender receiver memo
      let row ← σ.accounts.requireFind sender "from account not found"
      let rows ← tokens.foldlM transferOne (row, σ.accounts[receiver]?.getD ∅)
      pure (σ.put sender receiver rows)) := by
  have hsize : check (0 < tokens.length ∧ tokens.length < 100) "invalid tokens.size()" = .ok () :=
    check_eq_ok_iff.mpr hlen
  simp only [transfer, parties, hsize, bind_assoc, ok_bind]
  rfl

/-- One transfer more, after both rows have been written. -/
theorem transfer_put (hparties : parties ctx sender receiver memo = .ok ())
    (hlen : 0 < tokens.length ∧ tokens.length < 100) {rows : FungiblePairs × FungiblePairs} :
    transfer ctx (σ.put sender receiver rows) sender receiver tokens memo =
      tokens.foldlM transferOne rows >>= fun rows => pure (σ.put sender receiver rows) := by
  have hne : sender ≠ receiver := (parties_eq_ok_iff.mp hparties).2.1
  have hsender : (σ.put sender receiver rows).accounts[sender]? = some rows.1 := by
    rw [State.put, OrdMap.getElem?_insert, if_neg hne, OrdMap.getElem?_insert, if_pos rfl]
  have hreceiver : (σ.put sender receiver rows).accounts[receiver]?.getD ∅ = rows.2 := by
    simp [State.put]
  rw [transfer_eq hlen, hparties, ok_bind, Table.requireFind_eq_ok_iff.mpr hsender, ok_bind,
    hreceiver]
  simp only [State.put_put]

/-- **A batch is the sequence of its single transfers**: it ends in the same state, or in the
same error. -/
theorem transfer_eq_foldlM (hlen : 0 < tokens.length ∧ tokens.length < 100) :
    transfer ctx σ sender receiver tokens memo =
      tokens.foldlM (fun σ t => transfer ctx σ sender receiver [t] memo) σ := by
  have hone (t : Asset) : 0 < [t].length ∧ [t].length < 100 := by simp
  cases tokens with
  | nil => exact absurd hlen.1 (by simp)
  | cons t l =>
    rw [transfer_eq hlen, List.foldlM_cons, transfer_eq (hone t)]
    cases hparties : parties ctx sender receiver memo with
    | error e => rfl
    | ok u =>
      cases σ.accounts.requireFind sender "from account not found" with
      | error e => rfl
      | ok row =>
        simp only [ok_bind, List.foldlM_cons, List.foldlM_nil, bind_assoc, pure_bind]
        refine bind_congr fun rows => ?_
        -- from the first asset on, both rows are written and read again
        exact (foldlM_map (State.put σ sender receiver)
          (fun rows t => by rw [transfer_put hparties (hone t)]; simp) l rows).symm

/-! ### Rows and books -/

/-- A transfer that returned has passed its checks, and writes the two rows only. -/
theorem transfer_ok (hok : transfer ctx σ sender receiver tokens memo = .ok σ') :
    parties ctx sender receiver memo = .ok () ∧ (0 < tokens.length ∧ tokens.length < 100) ∧
      sender ∈ σ.accounts ∧ ∃ rows, σ' = σ.put sender receiver rows := by
  have hlen : 0 < tokens.length ∧ tokens.length < 100 := by
    simp only [transfer, bind_eq_ok_iff, Context.requireAuth_eq_ok_iff, check_eq_ok_iff,
      exists_const] at hok
    obtain ⟨-, -, -, -, hlen, -⟩ := hok
    exact hlen
  rw [transfer_eq hlen] at hok
  simp only [bind_eq_ok_iff, Table.requireFind_eq_ok_iff, pure_eq_ok_iff] at hok
  obtain ⟨⟨⟩, hparties, row, hrow, rows, -, rfl⟩ := hok
  exact ⟨hparties, hlen, OrdMap.mem_iff_exists.mpr ⟨row, hrow⟩, rows, rfl⟩

/-- A transfer gives the receiver a row, and takes nobody's. -/
theorem mem_accounts_of_transfer (hok : transfer ctx σ sender receiver tokens memo = .ok σ')
    {a : Name} : a ∈ σ'.accounts ↔ a = receiver ∨ a ∈ σ.accounts := by
  obtain ⟨-, -, hmem, rows, rfl⟩ := transfer_ok hok
  simp only [State.put, ExtTreeMap.mem_insert, Std.compare_eq_iff_eq]
  constructor
  · rintro (rfl | rfl | ha)
    · exact .inl rfl
    · exact .inr hmem
    · exact .inr ha
  · rintro (rfl | ha)
    · exact .inl rfl
    · exact .inr (.inr ha)

/-- States that transfers lead to from one state are the same when their tables are. -/
theorem State.put_congr {a b a' b' : Name} {rows rows' : FungiblePairs × FungiblePairs}
    (h : (σ.put a b rows).accounts = (σ.put a' b' rows').accounts) :
    σ.put a b rows = σ.put a' b' rows' := by
  simp only [State.put] at h ⊢
  rw [h]

theorem sent_append {l l' : List Asset} {s : Symbol} :
    sent (l ++ l') s = sent l s + sent l' s := by
  rw [sent, List.map_append, amounts, List.map_append, List.sum_append]
  rfl

theorem sent_perm (h : tokens.Perm tokens') (s : Symbol) : sent tokens s = sent tokens' s :=
  ((h.map _).map _).sum_eq

/-- The order of the assets of a transfer does not matter. -/
theorem transfer_perm (h : Inv o σ) (ho : AtMostOne o) (hperm : tokens.Perm tokens')
    (hok : transfer ctx σ sender receiver tokens memo = .ok σ') :
    transfer ctx σ sender receiver tokens' memo = .ok σ' := by
  obtain ⟨hparties, hlen, -, rows, rfl⟩ := transfer_ok hok
  obtain ⟨hauth, hne, hacc, hmemo⟩ := parties_eq_ok_iff.mp hparties
  obtain ⟨hmem, hvalid, hcovered⟩ :=
    (transfer_ok_iff h hauth hne hacc hmemo hlen).mp ⟨_, hok⟩
  have hlen' : 0 < tokens'.length ∧ tokens'.length < 100 := hperm.length_eq ▸ hlen
  obtain ⟨σ', hok'⟩ := (transfer_ok_iff h hauth hne hacc hmemo hlen').mpr
    ⟨hmem, fun t ht => hvalid t (hperm.mem_iff.mpr ht), fun s => sent_perm hperm s ▸ hcovered s⟩
  obtain ⟨-, -, -, rows', rfl⟩ := transfer_ok hok'
  obtain ⟨hinv, -, hbook⟩ := transfer_spec h ho hok
  obtain ⟨hinv', -, hbook'⟩ := transfer_spec h ho hok'
  rw [hok']
  refine congrArg Except.ok (State.put_congr (hinv'.accounts_ext hinv (fun a => ?_) ?_))
  · rw [mem_accounts_of_transfer hok', mem_accounts_of_transfer hok]
  · rw [hbook', hbook]
    congr 1
    funext s
    exact (sent_perm hperm s).symm

/-! ### Batches -/

/-- The row holds exactly these amounts, with an entry for those that are not zero. -/
def Exactly (row : FungiblePairs) (amount : Symbol → ℤ) : Prop :=
  ∀ s, bal row s = amount s ∧ (row[s]? = none ↔ amount s = 0)

theorem Holdings.exactly {row : FungiblePairs} (h : Holdings row) {amount : Symbol → ℤ}
    (heq : ∀ s, bal row s = amount s) : Exactly row amount := fun s =>
  ⟨heq s, by rw [h.positive.getElem?_eq_none_iff, heq s]⟩

/-- **What a transfer does to the accounts table**: exact amounts leave the one row and enter the
other, and no sum on the way there leaves the 64-bit range. -/
structure Moved (σ σ' : State) (sender receiver : Name) (tokens : List Asset) : Prop where
  debited : ∃ row, σ'.accounts[sender]? = some row ∧
    Exactly row fun s => balanceOf σ sender s - sent tokens s
  credited : ∃ row, σ'.accounts[receiver]? = some row ∧
    Exactly row fun s => balanceOf σ receiver s + sent tokens s
  others : ∀ a, a ≠ sender → a ≠ receiver → σ'.accounts[a]? = σ.accounts[a]?
  inRange : ∀ k s, 0 ≤ balanceOf σ sender s - sent (tokens.take k) s ∧
    balanceOf σ receiver s + sent (tokens.take k) s ≤ 2 ^ 63 - 1

/-- Every transfer moves exactly its assets. -/
theorem moved_of_transfer (h : Inv o σ) (ho : AtMostOne o)
    (hok : transfer ctx σ sender receiver tokens memo = .ok σ') :
    Moved σ σ' sender receiver tokens := by
  obtain ⟨hinv, -, hbook⟩ := transfer_spec h ho hok
  obtain ⟨hparties, hlen, hmem, rows, rfl⟩ := transfer_ok hok
  obtain ⟨hauth, hne, hacc, hmemo⟩ := parties_eq_ok_iff.mp hparties
  obtain ⟨-, hvalid, hcovered⟩ := (transfer_ok_iff h hauth hne hacc hmemo hlen).mp ⟨_, hok⟩
  have hbalance (a : Name) (s : Symbol) :
      balanceOf (σ.put sender receiver rows) a s =
        if a = sender then balanceOf σ sender s - sent tokens s
        else if a = receiver then balanceOf σ receiver s + sent tokens s else balanceOf σ a s := by
    rw [hbook, Book.move_apply hne]
  have hsource : (σ.put sender receiver rows).accounts[sender]? = some rows.1 := by
    rw [State.put, OrdMap.getElem?_insert, if_neg hne, OrdMap.getElem?_insert, if_pos rfl]
  have htarget : (σ.put sender receiver rows).accounts[receiver]? = some rows.2 := by
    rw [State.put, OrdMap.getElem?_insert, if_pos rfl]
  refine ⟨⟨rows.1, hsource, (hinv.holdings _ _ hsource).exactly fun s => ?_⟩,
    ⟨rows.2, htarget, (hinv.holdings _ _ htarget).exactly fun s => ?_⟩, ?_, ?_⟩
  · have hs := hbalance sender s
    rwa [balanceOf, hsource, if_pos rfl] at hs
  · have hs := hbalance receiver s
    rwa [balanceOf, htarget, if_neg hne.symm, if_pos rfl] at hs
  · intro a hsender hreceiver
    rw [State.put, OrdMap.getElem?_insert, if_neg hreceiver, OrdMap.getElem?_insert,
      if_neg hsender]
  · intro k s
    -- what is sent so far is part of what is sent in the end
    have hsplit : sent (tokens.take k) s + sent (tokens.drop k) s = sent tokens s := by
      rw [← sent_append, List.take_append_drop]
    have hrest : 0 ≤ sent (tokens.drop k) s :=
      sent_nonneg (fun t ht => (hvalid t (List.mem_of_mem_drop ht)).2) s
    have hs := hcovered s
    have hmax := hinv.balanceOf_le ho receiver s
    rw [hbalance, if_neg hne.symm, if_pos rfl] at hmax
    omega

/-- **A batch of transfers refines single ones.** In every ledger that ledger actions with legal
issue amounts reach, with its other checks passed: a batch is accepted exactly when the sender
has a row, every asset is valid and positive, and the sender's balance covers all that the list
holds of each symbol. It then does what its single transfers do one by one, in any order, and
moves exactly the sums. -/
theorem transfer_batch {tr : List (Context × Call)} (hrun : Run step LegalGuard fresh tr σ)
    (hauth : ctx.hasAuth sender) (hne : sender ≠ receiver) (hacc : ctx.isAccount receiver)
    (hmemo : memo.utf8ByteSize ≤ 256) (hlen : 0 < tokens.length ∧ tokens.length < 100) :
    ((∃ σ', transfer ctx σ sender receiver tokens memo = .ok σ') ↔
      sender ∈ σ.accounts ∧ (∀ t ∈ tokens, t.isValid = true ∧ 0 < t.amount.toInt) ∧
        ∀ s, sent tokens s ≤ balanceOf σ sender s) ∧
      ∀ σ', transfer ctx σ sender receiver tokens memo = .ok σ' →
        tokens.foldlM (fun σ t => transfer ctx σ sender receiver [t] memo) σ = .ok σ' ∧
          (∀ tokens', tokens.Perm tokens' →
            transfer ctx σ sender receiver tokens' memo = .ok σ') ∧
          Moved σ σ' sender receiver tokens := by
  have h := (ledgerInv_of_legal_run hrun).toInv
  refine ⟨transfer_ok_iff h hauth hne hacc hmemo hlen, fun σ' hok => ?_⟩
  exact ⟨transfer_eq_foldlM hlen ▸ hok, fun tokens' hperm =>
    transfer_perm h atMostOne_zero hperm hok, moved_of_transfer h atMostOne_zero hok⟩

def alice : Name := .ofString "alice"
def bob : Name := .ofString "bob"

/-- A cap of 100 units, and ten of them issued to alice. -/
def capAndTen : List (Context × Call) :=
  [tokenCall (.setsupplies (coreTokens 100)), tokenCall (.issue alice (coreTokens 10) "")]

theorem run_capAndTen (h : capAndTen.foldlM step fresh = .ok σ) :
    Run step LegalGuard fresh capAndTen σ := by
  refine Run.of_foldlM (fun s c hc => ?_) h
  simp only [capAndTen, List.mem_cons, List.not_mem_nil, or_false] at hc
  rcases hc with rfl | rfl
  · exact ⟨rfl, trivial⟩
  · exact ⟨rfl, legal_issue_coreTokens (by decide)⟩

/-- Alice sends bob two units and three. -/
theorem transfer_batch_aliceToBob :
    ∃ σ σ', Run step LegalGuard fresh capAndTen σ ∧
      transfer (.permissive alice) σ alice bob [⟨2, coreSymbol⟩, ⟨3, coreSymbol⟩] "" = .ok σ' ∧
      transfer (.permissive alice) σ alice bob [⟨3, coreSymbol⟩, ⟨2, coreSymbol⟩] "" = .ok σ' ∧
      Moved σ σ' alice bob [⟨2, coreSymbol⟩, ⟨3, coreSymbol⟩] := by
  obtain ⟨σ, hσ, hsend⟩ := returns_iff.mp (show returns (capAndTen.foldlM step fresh) (fun σ =>
    returns (transfer (.permissive alice) σ alice bob [⟨2, coreSymbol⟩, ⟨3, coreSymbol⟩] "")
      fun _ => true) = true by decide +kernel)
  obtain ⟨σ', hok, -⟩ := returns_iff.mp hsend
  have hrun := run_capAndTen hσ
  obtain ⟨hparties, hlen, -⟩ := transfer_ok hok
  obtain ⟨hauth, hne, hacc, hmemo⟩ := parties_eq_ok_iff.mp hparties
  obtain ⟨-, hdone⟩ := transfer_batch hrun hauth hne hacc hmemo hlen
  obtain ⟨-, hany, hmoved⟩ := hdone σ' hok
  exact ⟨σ, σ', hrun, hok, hany _ (List.Perm.swap _ _ _), hmoved⟩

/-! ### Two transfers -/

/-- **Transfers commute.** Where two transfers can be made in either order, both orders lead to
the same tables, whoever takes part in them. -/
theorem transfers_commute {tr : List (Context × Call)} (hrun : Run step LegalGuard fresh tr σ)
    {ctx' : Context} {sender' receiver' : Name} {memo' : String} {σ₁ σ₁₂ σ₂ σ₂₁ : State}
    (h₁ : transfer ctx σ sender receiver tokens memo = .ok σ₁)
    (h₁₂ : transfer ctx' σ₁ sender' receiver' tokens' memo' = .ok σ₁₂)
    (h₂ : transfer ctx' σ sender' receiver' tokens' memo' = .ok σ₂)
    (h₂₁ : transfer ctx σ₂ sender receiver tokens memo = .ok σ₂₁) :
    σ₁₂.accounts = σ₂₁.accounts := by
  have h := (ledgerInv_of_legal_run hrun).toInv
  obtain ⟨hinv₁, -, hbook₁⟩ := transfer_spec h atMostOne_zero h₁
  obtain ⟨hinv₂, -, hbook₂⟩ := transfer_spec h atMostOne_zero h₂
  obtain ⟨hinv₁₂, -, hbook₁₂⟩ := transfer_spec hinv₁ atMostOne_zero h₁₂
  obtain ⟨hinv₂₁, -, hbook₂₁⟩ := transfer_spec hinv₂ atMostOne_zero h₂₁
  refine hinv₁₂.accounts_ext hinv₂₁ (fun a => ?_) ?_
  · rw [mem_accounts_of_transfer h₁₂, mem_accounts_of_transfer h₁, mem_accounts_of_transfer h₂₁,
      mem_accounts_of_transfer h₂, or_left_comm]
  · rw [hbook₁₂, hbook₁, hbook₂₁, hbook₂, Book.move_comm]

/-- Alice sends bob three units and bob sends alice one, out of the five that he had: in this
order, or in the other. -/
theorem transfers_commute_aliceAndBob :
    ∃ σ σ₁ σ₁₂ σ₂ σ₂₁, Run step LegalGuard fresh
        (capAndTen ++ [(.permissive alice, .transfer alice bob [⟨5, coreSymbol⟩] "")]) σ ∧
      transfer (.permissive alice) σ alice bob [⟨3, coreSymbol⟩] "" = .ok σ₁ ∧
      transfer (.permissive bob) σ₁ bob alice [⟨1, coreSymbol⟩] "" = .ok σ₁₂ ∧
      transfer (.permissive bob) σ bob alice [⟨1, coreSymbol⟩] "" = .ok σ₂ ∧
      transfer (.permissive alice) σ₂ alice bob [⟨3, coreSymbol⟩] "" = .ok σ₂₁ ∧
      σ₁₂.accounts = σ₂₁.accounts := by
  obtain ⟨σ₀, hσ₀, hrest⟩ := returns_iff.mp (show returns (capAndTen.foldlM step fresh) (fun σ₀ =>
    returns (transfer (.permissive alice) σ₀ alice bob [⟨5, coreSymbol⟩] "") fun σ =>
      (returns (transfer (.permissive alice) σ alice bob [⟨3, coreSymbol⟩] "") fun σ₁ =>
        returns (transfer (.permissive bob) σ₁ bob alice [⟨1, coreSymbol⟩] "") fun _ => true) &&
      (returns (transfer (.permissive bob) σ bob alice [⟨1, coreSymbol⟩] "") fun σ₂ =>
        returns (transfer (.permissive alice) σ₂ alice bob [⟨3, coreSymbol⟩] "")
          fun _ => true)) = true by decide +kernel)
  obtain ⟨σ, hσ, hboth⟩ := returns_iff.mp hrest
  obtain ⟨hfirst, hsecond⟩ := Bool.and_eq_true_iff.mp hboth
  obtain ⟨σ₁, h₁, hthen⟩ := returns_iff.mp hfirst
  obtain ⟨σ₁₂, h₁₂, -⟩ := returns_iff.mp hthen
  obtain ⟨σ₂, h₂, hthen⟩ := returns_iff.mp hsecond
  obtain ⟨σ₂₁, h₂₁, -⟩ := returns_iff.mp hthen
  have hlegal : LegalGuard σ₀
      (.permissive alice, .transfer alice bob [⟨5, coreSymbol⟩] "") := ⟨rfl, trivial⟩
  have hrun := (run_capAndTen hσ₀).snoc hlegal hσ
  exact ⟨σ, σ₁, σ₁₂, σ₂, σ₂₁, hrun, h₁, h₁₂, h₂, h₂₁,
    transfers_commute hrun h₁ h₁₂ h₂ h₂₁⟩

end Twig.Token
