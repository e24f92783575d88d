import Twig.Token.Ledger
import Twig.Lib.Book

/-!
# Issuing and retiring

What the two administration actions that change supplies do to the exact books, in the
movements of `Book`: `issue` credits its owner and `retire` debits it, each by exactly the
tokens of the call, and the supplies move along. Both keep the ledger invariant and neither
dereferences a missing entry.

The bound `IssueFits` is what `issue` itself does not check: the sum it compares with the cap
must not wrap around.
-/

namespace Twig.Token

open Std Fallible

/-! ### Issuing -/

/-- No addition to a supply passes the upper end of the 64-bit range. -/
def IssueFits (σ : State) (tokens : FungiblePairs) : Prop :=
  ∀ (s : Symbol) (a : Int64), tokens[s]? = some a → supplyOf σ s + a.toInt ≤ 2 ^ 63 - 1

/-- The loop invariant of `issue`, with the entries `l` still to come: `S` and `B` are the
supplies and the owner's balances that the loop is heading for. -/
private structure IssueLoop (cap : FungiblePairs) (o S B : Symbol → ℤ)
    (l : List (Symbol × Int64)) (supply balance : FungiblePairs) : Prop where
  supplied : ∀ s, bal supply s + amounts l s = S s
  credited : ∀ s, bal balance s + amounts l s = B s
  wf : Supplies.WF ⟨supply, cap⟩
  held : ∀ s, bal balance s ≤ bal supply s + o s
  row : Holdings balance
  fits : ∀ e ∈ l, bal supply e.1 + e.2.toInt ≤ 2 ^ 63 - 1
  distinct : l.Pairwise fun a b => a.1 ≠ b.1

private theorem IssueLoop.step {cap supply balance supply' balance' : FungiblePairs}
    {o S B : Symbol → ℤ} (ho : AtMostOne o) {e : Symbol × Int64} {l : List (Symbol × Int64)}
    (h : IssueLoop cap o S B (e :: l) supply balance)
    (hstep : issueOne cap (supply, balance) e = .ok (supply', balance')) :
    IssueLoop cap o S B l supply' balance' := by
  obtain ⟨k, a⟩ := e
  obtain ⟨v, m, hv, hm, hcap, hpos, hr⟩ := issueOne_eq_ok_iff.mp hstep
  obtain ⟨rfl, rfl⟩ := Prod.mk.inj hr
  rw [Int64.toInt_pos_iff] at hpos
  obtain ⟨hv0, hvm⟩ := h.wf.capped k v m hv hm
  have hlegal := (h.wf.legal k m hm).1
  have hvk : bal supply k = v.toInt := bal_of_some hv
  -- the sum of the cap check does not wrap, so the check bounds the exact sum
  have hfit : v.toInt + a.toInt ≤ 2 ^ 63 - 1 := by
    have := h.fits (k, a) List.mem_cons_self
    rwa [hvk] at this
  have hexact : (v + a).toInt = v.toInt + a.toInt := Int64.toInt_add_of_mem (by omega) (by omega)
  rw [Int64.lt_iff_toInt_lt, hexact] at hcap
  have hbk := h.row.positive.bal_nonneg k
  have hheldk := h.held k
  have hok := ho k
  have hissued (s : Symbol) :
      bal (supply.insert k (v + a)) s = bal supply s + if k = s then a.toInt else 0 :=
    bal_insert_add (by rw [hexact, hvk])
  have hcredit (s : Symbol) :
      bal (credit balance k a) s = bal balance s + if k = s then a.toInt else 0 :=
    bal_credit (by omega) (by omega)
  refine ⟨?_, ?_, h.wf.insert_supply hm (by omega) (by omega), ?_,
    h.row.credit (h.wf.legal k m hm).2 hpos (by omega), ?_, (List.pairwise_cons.mp h.distinct).2⟩
  · intro s
    rw [hissued, ← h.supplied s, amounts_cons, add_assoc]
  · intro s
    rw [hcredit, ← h.credited s, amounts_cons, add_assoc]
  · intro s
    have := h.held s
    rw [hissued, hcredit]
    omega
  · intro e he
    have hne : e.1 ≠ k := fun heq => (List.pairwise_cons.mp h.distinct).1 e he heq.symm
    rw [hissued, if_neg hne.symm, add_zero]
    exact h.fits e (List.mem_cons_of_mem _ he)

/-- **What `issue` does**: the supplies and the owner's balances grow by exactly the tokens,
nothing else changes, and the invariant is kept. -/
theorem issue_spec {ctx : Context} {o : Symbol → ℤ} {σ σ' : State} {owner : Name}
    {tokens : FungiblePairs} {memo : String} (h : Inv o σ) (ho : AtMostOne o)
    (hfit : IssueFits σ tokens) (hok : issue ctx σ owner tokens memo = .ok σ') :
    Inv o σ' ∧ (∀ s, supplyOf σ' s = supplyOf σ s + bal tokens s) ∧
      balanceOf σ' = Book.credit (balanceOf σ) owner (bal tokens) ∧
      ∃ supply, σ'.supplies = some ⟨supply, σ.sup.maxSupply⟩ := by
  simp only [issue, bind_eq_ok_iff, Context.requireAuth_eq_ok_iff, exists_const,
    singletonGet_eq_ok_iff, pure_eq_ok_iff] at hok
  obtain ⟨-, sup, hsup, ⟨supply, balance⟩, hloop, rfl⟩ := hok
  have hsup' : σ.sup = sup := State.sup_of_some hsup
  have hinit : IssueLoop sup.maxSupply o (fun s => supplyOf σ s + bal tokens s)
      (fun s => balanceOf σ owner s + bal tokens s) tokens.toList
      sup.supply (σ.accounts[owner]?.getD ∅) := by
    refine ⟨?_, ?_, hsup' ▸ h.supplies, ?_, h.holdings_getD owner,
      ?_, OrdMap.pairwise_keys_toList tokens⟩
    · intro s
      rw [amounts_toList, supplyOf, hsup']
    · intro s
      rw [amounts_toList, balanceOf]
    · intro s
      have hle := h.balanceOf_le_total owner s
      rw [h.conserved s, supplyOf, hsup'] at hle
      exact hle
    · intro e he
      have := hfit e.1 e.2 (OrdMap.mem_toList.mp he)
      rwa [supplyOf, hsup'] at this
  have hend := foldlM_invariant
    (fun l (acc : FungiblePairs × FungiblePairs) => IssueLoop _ o _ _ l acc.1 acc.2)
    (fun _ _ _ _ hI hs => hI.step ho hs) hinit hloop
  have hsupply (s : Symbol) : bal supply s = supplyOf σ s + bal tokens s := by
    simpa using hend.supplied s
  have hbalance (s : Symbol) : bal balance s = balanceOf σ owner s + bal tokens s := by
    simpa using hend.credited s
  refine ⟨h.insert_row (r := balance) rfl hend.row hend.wf ?_, hsupply, ?_, supply, by rw [hsup']⟩
  · intro s
    change bal supply s + o s = _
    rw [hsupply, hbalance]
    omega
  · funext b s
    rw [Book.credit_apply, balanceOf_of_insert (r := balance) rfl, hbalance]

/-- Whatever `issue` accepts is strictly positive. -/
theorem pos_of_issue {ctx : Context} {σ σ' : State} {owner : Name} {tokens : FungiblePairs}
    {memo : String} (hok : issue ctx σ owner tokens memo = .ok σ') {s : Symbol} {a : Int64}
    (hs : tokens[s]? = some a) : 0 < a.toInt := by
  simp only [issue, bind_eq_ok_iff] at hok
  obtain ⟨-, -, sup, -, acc, hloop, -⟩ := hok
  obtain ⟨acc₁, acc₂, hone⟩ := exists_of_foldlM (c := (s, a)) hloop (OrdMap.mem_toList.mpr hs)
  obtain ⟨-, -, -, -, -, hpos, -⟩ := issueOne_eq_ok_iff.mp hone
  exact Int64.toInt_pos_iff.mp hpos

/-- `issue` leaves its owner with a row. -/
theorem owner_mem_of_issue {ctx : Context} {σ σ' : State} {owner : Name} {tokens : FungiblePairs}
    {memo : String} (hok : issue ctx σ owner tokens memo = .ok σ') : owner ∈ σ'.accounts := by
  simp only [issue, bind_eq_ok_iff, pure_eq_ok_iff] at hok
  obtain ⟨-, -, sup, -, acc, -, rfl⟩ := hok
  simp

/-- The loop of `issue` returns exactly when every entry finds its supply and its cap and passes
the two checks. The symbols differ, so no entry reads what another one wrote. -/
theorem exists_issueLoop_iff {cap : FungiblePairs} (l : List (Symbol × Int64))
    (hl : l.Pairwise fun a b => a.1 ≠ b.1) (supply balance : FungiblePairs) :
    (∃ r, l.foldlM (issueOne cap) (supply, balance) = .ok r) ↔
      ∀ e ∈ l, ∃ v m, supply[e.1]? = some v ∧ cap[e.1]? = some m ∧ v + e.2 < m ∧ 0 < e.2 := by
  have hone (supply balance : FungiblePairs) (s : Symbol) (a : Int64) :
      (∃ r, issueOne cap (supply, balance) (s, a) = .ok r) ↔
        ∃ v m, supply[s]? = some v ∧ cap[s]? = some m ∧ v + a < m ∧ 0 < a := by
    constructor
    · rintro ⟨r, hr⟩
      obtain ⟨v, m, hv, hm, hcap, hpos, -⟩ := issueOne_eq_ok_iff.mp hr
      exact ⟨v, m, hv, hm, hcap, hpos⟩
    · rintro ⟨v, m, hv, hm, hcap, hpos⟩
      exact ⟨_, issueOne_eq_ok_iff.mpr ⟨v, m, hv, hm, hcap, hpos, rfl⟩⟩
  rw [exists_foldlM_iff ?_ hl]
  · exact forall₂_congr fun e _ => hone supply balance e.1 e.2
  · rintro ⟨supply, balance⟩ ⟨k, a⟩ _ ⟨s, a'⟩ hok (hne : k ≠ s)
    obtain ⟨v, m, -, -, -, -, rfl⟩ := issueOne_eq_ok_iff.mp hok
    rw [hone, hone, OrdMap.getElem?_insert, if_neg hne.symm]

/-- **When `issue` is accepted**: every entry is positive, and its supply plus its amount, in 64
bits, is strictly below its cap. -/
theorem issue_ok_iff {ctx : Context} {σ : State} {owner : Name} {tokens : FungiblePairs}
    {memo : String} (hauth : ctx.hasAuth ctx.self) {sup : Supplies} (hsup : σ.supplies = some sup) :
    (∃ σ', issue ctx σ owner tokens memo = .ok σ') ↔
      ∀ (s : Symbol) (a : Int64), tokens[s]? = some a →
        ∃ v m, sup.supply[s]? = some v ∧ sup.maxSupply[s]? = some m ∧ v + a < m ∧ 0 < a := by
  have hentries : (∀ e ∈ tokens.toList, ∃ v m, sup.supply[e.1]? = some v ∧
        sup.maxSupply[e.1]? = some m ∧ v + e.2 < m ∧ 0 < e.2) ↔
      ∀ (s : Symbol) (a : Int64), tokens[s]? = some a →
        ∃ v m, sup.supply[s]? = some v ∧ sup.maxSupply[s]? = some m ∧ v + a < m ∧ 0 < a := by
    simp only [OrdMap.mem_toList, Prod.forall]
  rw [← hentries, ← exists_issueLoop_iff tokens.toList (OrdMap.pairwise_keys_toList tokens)
    sup.supply (σ.accounts[owner]?.getD ∅)]
  simp only [issue, bind_eq_ok_iff, Context.requireAuth_eq_ok_iff, exists_const,
    singletonGet_eq_ok_iff, pure_eq_ok_iff, hsup, Option.some.injEq]
  constructor
  · rintro ⟨σ', -, sup', rfl, r, hr, -⟩
    exact ⟨r, hr⟩
  · rintro ⟨r, hr⟩
    exact ⟨_, hauth, sup, rfl, r, hr, rfl⟩

/-- Issuing the core token is one iteration. -/
theorem issue_coreTokens {ctx : Context} {σ : State} {owner : Name} {amount : Int64}
    {memo : String} {sup : Supplies} (hauth : ctx.hasAuth ctx.self) (hsup : σ.supplies = some sup) :
    issue ctx σ owner (coreTokens amount) memo = (do
      let (supply, newBalance) ← issueOne sup.maxSupply
        (sup.supply, σ.accounts[owner]?.getD ∅) (coreSymbol, amount)
      pure { σ with
        accounts := σ.accounts.insert owner newBalance
        supplies := some { sup with supply } }) := by
  rw [issue, Context.requireAuth, check, if_pos hauth, hsup, coreTokens,
    OrdMap.toList_insert_empty]
  simp only [ok_bind, singletonGet, List.foldlM_cons, List.foldlM_nil, bind_pure]

/-- An amount that keeps the supply below its cap can be issued. -/
theorem issue_coreTokens_ok {ctx : Context} {σ : State} {owner : Name} {amount v m : Int64}
    {memo : String} {sup : Supplies} (hauth : ctx.hasAuth ctx.self) (hsup : σ.supplies = some sup)
    (hv : sup.supply[coreSymbol]? = some v) (hm : sup.maxSupply[coreSymbol]? = some m)
    (hcap : v + amount < m) (hpos : 0 < amount) :
    ∃ σ', issue ctx σ owner (coreTokens amount) memo = .ok σ' := by
  refine (issue_ok_iff hauth hsup).mpr fun s a hs => ?_
  obtain ⟨rfl, rfl⟩ := eq_of_coreTokens hs
  exact ⟨v, m, hv, hm, hcap, hpos⟩

/-- An issue of the core token adds its amount to what the owner has, whatever else the tables
hold. -/
theorem credit_of_issue_coreTokens {ctx : Context} {σ σ' : State} {owner : Name} {amount : Int64}
    {memo : String} (hl : -2 ^ 63 ≤ balanceOf σ owner coreSymbol + amount.toInt)
    (hu : balanceOf σ owner coreSymbol + amount.toInt < 2 ^ 63)
    (hok : issue ctx σ owner (coreTokens amount) memo = .ok σ') :
    balanceOf σ' owner coreSymbol = balanceOf σ owner coreSymbol + amount.toInt := by
  simp only [issue, coreTokens, OrdMap.toList_insert_empty, List.foldlM_cons, List.foldlM_nil,
    bind_eq_ok_iff, pure_eq_ok_iff] at hok
  obtain ⟨-, -, sup, -, r, ⟨r', hone, rfl⟩, rfl⟩ := hok
  obtain ⟨v, m, -, -, -, -, rfl⟩ := issueOne_eq_ok_iff.mp hone
  rw [balanceOf, OrdMap.getElem?_insert, if_pos rfl, Option.getD_some, bal_credit hl hu,
    if_pos rfl, balanceOf]

/-- An amount that takes the supply to its cap is rejected. -/
theorem issue_coreTokens_rejected {ctx : Context} {σ : State} {owner : Name}
    {amount v m : Int64} {memo : String} {sup : Supplies} (hauth : ctx.hasAuth ctx.self)
    (hsup : σ.supplies = some sup) (hv : sup.supply[coreSymbol]? = some v)
    (hm : sup.maxSupply[coreSymbol]? = some m) (hcap : ¬ v + amount < m) :
    issue ctx σ owner (coreTokens amount) memo =
      .error (.check "cannot issue above fungible max supply: TWIG") := by
  have hmem : coreSymbol ∈ sup.supply := OrdMap.mem_iff_exists.mpr ⟨v, hv⟩
  have hcode : "cannot issue above fungible max supply: " ++ coreSymbol.code.toString =
      "cannot issue above fungible max supply: TWIG" := by decide
  rw [issue_coreTokens hauth hsup, issueOne]
  simp only [check, if_pos hmem, hv, hm, deref, ok_bind, if_neg hcap, error_bind, hcode]

/-- `issue` dereferences no missing entry: the cap of every supplied symbol is there. -/
theorem issue_neverFails {ctx : Context} {σ : State} {owner : Name} {tokens : FungiblePairs}
    {memo : String} (h : σ.sup.WF) :
    NeverFails Fault.deref (issue ctx σ owner tokens memo) := by
  refine Context.neverFails_requireAuth.bind fun _ _ =>
    neverFails_singletonGet.bind ?_
  intro sup hsup
  rw [singletonGet_eq_ok_iff] at hsup
  rw [State.sup_of_some hsup] at h
  -- the loop writes supplies of registered symbols only, so every supply keeps its cap
  refine NeverFails.bind (neverFails_foldlM
    (fun _ (acc : FungiblePairs × FungiblePairs) => ∀ s, s ∈ acc.1 → s ∈ sup.maxSupply)
    (fun e l acc hI => ?_) (fun e l acc acc' hI hs => ?_) fun s => (h.keys s).mp)
    fun _ _ => neverFails_pure
  · refine neverFails_check.bind ?_
    intro _ hmem
    rw [check_eq_ok_iff] at hmem
    refine (neverFails_deref (ExtTreeMap.mem_iff_isSome_getElem?.mp hmem)).bind ?_
    intro _ _
    have hcap := ExtTreeMap.mem_iff_isSome_getElem?.mp (hI _ hmem)
    exact (neverFails_deref hcap).bind fun _ _ =>
      neverFails_check.bind fun _ _ => neverFails_check.bind fun _ _ => neverFails_pure
  · obtain ⟨v, m, hv, hm, -, -, rfl⟩ := issueOne_eq_ok_iff.mp hs
    intro s hmem
    rw [ExtTreeMap.mem_insert, Std.compare_eq_iff_eq] at hmem
    rcases hmem with rfl | hmem
    · exact OrdMap.mem_iff_exists.mpr ⟨m, hm⟩
    · exact hI s hmem

/-! ### Retiring -/

/-- The loop invariant of `retire`, with the entries `l` still to come: `S` and `B` are the
supplies and the owner's balances that the loop is heading for. -/
private structure RetireLoop (cap : FungiblePairs) (S B : Symbol → ℤ)
    (l : List (Symbol × Int64)) (supply balance : FungiblePairs) : Prop where
  supplied : ∀ s, bal supply s - amounts l s = S s
  debited : ∀ s, bal balance s - amounts l s = B s
  wf : Supplies.WF ⟨supply, cap⟩
  row : Holdings balance

private theorem RetireLoop.step {cap supply balance supply' balance' : FungiblePairs}
    {S B : Symbol → ℤ} {e : Symbol × Int64} {l : List (Symbol × Int64)}
    (h : RetireLoop cap S B (e :: l) supply balance)
    (hstep : retireOne (supply, balance) e = .ok (supply', balance')) :
    RetireLoop cap S B l supply' balance' := by
  obtain ⟨k, a⟩ := e
  obtain ⟨v, held, hv, hheld, hleft, hpos, hkept, hr⟩ := retireOne_eq_ok_iff.mp hstep
  obtain ⟨rfl, rfl⟩ := Prod.mk.inj hr
  obtain ⟨m, hm⟩ := OrdMap.mem_iff_exists.mp
    ((h.wf.keys k).mp (OrdMap.mem_iff_exists.mpr ⟨v, hv⟩))
  rw [Int64.toInt_pos_iff] at hpos
  obtain ⟨hv0, hvm⟩ := h.wf.capped k v m hv hm
  have hheld0 := h.row.positive k held hheld
  have hexact := toInt_sub_exact hv0 hpos
  have hexact' := toInt_sub_exact hheld0.le hpos
  rw [Int64.toInt_nonneg_iff] at hleft hkept
  have hretired (s : Symbol) :
      bal (supply.insert k (v - a)) s = bal supply s - if k = s then a.toInt else 0 :=
    bal_insert_sub (by rw [hexact, bal_of_some hv])
  have hdebit (s : Symbol) :
      bal (leave balance k (held - a)) s = bal balance s - if k = s then a.toInt else 0 :=
    bal_leave_sub (by rw [hexact', bal_of_some hheld])
  refine ⟨?_, ?_, h.wf.insert_supply hm hleft (by omega),
    h.row.leave (OrdMap.mem_iff_exists.mpr ⟨held, hheld⟩) hkept⟩
  · intro s
    rw [hretired, ← h.supplied s, amounts_cons, sub_sub]
  · intro s
    rw [hdebit, ← h.debited s, amounts_cons, sub_sub]

/-- **What `retire` does**: the supplies and the owner's balances shrink by exactly the tokens,
nothing else changes, and the invariant is kept. -/
theorem retire_spec {ctx : Context} {o : Symbol → ℤ} {σ σ' : State} {owner : Name}
    {tokens : FungiblePairs} {memo : String} (h : Inv o σ)
    (hok : retire ctx σ owner tokens memo = .ok σ') :
    Inv o σ' ∧ (∀ s, supplyOf σ' s = supplyOf σ s - bal tokens s) ∧
      balanceOf σ' = Book.debit (balanceOf σ) owner (bal tokens) ∧
      ∃ supply, σ'.supplies = some ⟨supply, σ.sup.maxSupply⟩ := by
  simp only [retire, bind_eq_ok_iff, Context.requireAuth_eq_ok_iff, exists_const,
    singletonGet_eq_ok_iff, Table.requireFind_eq_ok_iff, pure_eq_ok_iff] at hok
  obtain ⟨-, sup, hsup, held, hheld, ⟨supply, balance⟩, hloop, rfl⟩ := hok
  have hsup' : σ.sup = sup := State.sup_of_some hsup
  have hheld' : balanceOf σ owner = bal held := by funext s; simp [balanceOf, hheld]
  have hinit : RetireLoop sup.maxSupply (fun s => supplyOf σ s - bal tokens s)
      (fun s => balanceOf σ owner s - bal tokens s) tokens.toList sup.supply held :=
    ⟨fun s => by rw [amounts_toList, supplyOf, hsup'],
      fun s => by rw [amounts_toList, hheld'], hsup' ▸ h.supplies, h.holdings owner held hheld⟩
  have hend := foldlM_invariant
    (fun l (acc : FungiblePairs × FungiblePairs) => RetireLoop _ _ _ l acc.1 acc.2)
    (fun _ _ _ _ hI hs => hI.step hs) hinit hloop
  have hsupply (s : Symbol) : bal supply s = supplyOf σ s - bal tokens s := by
    simpa using hend.supplied s
  have hbalance (s : Symbol) : bal balance s = balanceOf σ owner s - bal tokens s := by
    simpa using hend.debited s
  refine ⟨h.insert_row (r := balance) rfl hend.row hend.wf ?_, hsupply, ?_, supply, by rw [hsup']⟩
  · intro s
    change bal supply s + o s = _
    rw [hsupply, hbalance]
    omega
  · funext b s
    rw [Book.debit_apply, balanceOf_of_insert (r := balance) rfl, hbalance]

/-- Whatever `retire` accepts is strictly positive. -/
theorem pos_of_retire {ctx : Context} {σ σ' : State} {owner : Name} {tokens : FungiblePairs}
    {memo : String} (hok : retire ctx σ owner tokens memo = .ok σ') {s : Symbol} {a : Int64}
    (hs : tokens[s]? = some a) : 0 < a.toInt := by
  simp only [retire, bind_eq_ok_iff] at hok
  obtain ⟨-, -, sup, -, held, -, acc, hloop, -⟩ := hok
  obtain ⟨acc₁, acc₂, hone⟩ := exists_of_foldlM (c := (s, a)) hloop (OrdMap.mem_toList.mpr hs)
  obtain ⟨-, -, -, -, -, hpos, -⟩ := retireOne_eq_ok_iff.mp hone
  exact Int64.toInt_pos_iff.mp hpos

/-- `retire` dereferences no missing entry. -/
theorem retire_neverFails {ctx : Context} {σ : State} {owner : Name} {tokens : FungiblePairs}
    {memo : String} : NeverFails Fault.deref (retire ctx σ owner tokens memo) := by
  refine Context.neverFails_requireAuth.bind fun _ _ =>
    neverFails_singletonGet.bind fun sup _ => Table.neverFails_requireFind.bind fun _ _ =>
    NeverFails.bind (neverFails_foldlM (fun _ _ => True) (fun e l acc _ => ?_)
      (fun _ _ _ _ _ _ => trivial) trivial) fun _ _ => neverFails_pure
  refine neverFails_check.bind ?_
  intro _ hsupply
  rw [check_eq_ok_iff] at hsupply
  refine (neverFails_deref (ExtTreeMap.mem_iff_isSome_getElem?.mp hsupply)).bind fun _ _ =>
    neverFails_check.bind fun _ _ => neverFails_check.bind fun _ _ =>
    neverFails_check.bind fun _ hbalance => ?_
  rw [check_eq_ok_iff] at hbalance
  exact (neverFails_deref (ExtTreeMap.mem_iff_isSome_getElem?.mp hbalance)).bind fun _ _ =>
    neverFails_check.bind fun _ _ => neverFails_pure

end Twig.Token
