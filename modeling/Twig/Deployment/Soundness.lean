import Twig.Bank.Solvency
import Twig.Deployment.Basic
import Twig.System.Luck
import Twig.System.Replay
import Twig.Token.Statement

/-!
# The contracts together: soundness

What holds of the three contracts in every run of their actions, each with all that follows from
it: the books of the ledger are in order, and the balance of the bank covers what is outstanding in
its rows. Nothing is assumed about the amounts that are deposited, and the producers of blocks are
accounts other than the bank. Inline actions for other contracts, and their notifications, are left
out.

* `Sound` — the invariant, between two actions and between two inline actions alike;
* `perform_payouts` — the transfers of the bank run in the ledger, and lead to nothing further;
* `Sound.settle` — what is left when the bank has paid;
* `perform_sound` — an action keeps the invariant, by induction on the depth of inline actions;
* `deployment_sound` — every run.
-/

namespace Twig.Deployment

open Std Fallible Twig.System Token

variable {hashes : Hashes} {host : Host} {ctx : Context} {d d' : Deployment}

/-! ### The invariant -/

/-- **The invariant.** -/
structure Sound (accounts : Name → Bool) (d : Deployment) : Prop where
  ledger : LifeInv d.ledger
  rows : ∀ (p : Name) (row : Bank.Vesting), d.vesting[p]? = some row → Bank.RowOk accounts p row
  covered : OrdMap.sumOf Bank.outstanding d.vesting ≤ balanceOf d.ledger bankAccount coreSymbol
  luck : ∀ a, d.system.state.aluckynumber = some a →
    a.producer ≠ bankAccount ∧ accounts a.producer
  foreign : ForeignCalls d.system.state.rngcalls

theorem sound_empty {accounts : Name → Bool} : Sound accounts {} where
  ledger := lifeInv_empty
  rows p row h := by simp at h
  covered := by
    rw [OrdMap.sumOf_empty]
    exact Int.le_refl 0
  luck a ha := nomatch ha
  foreign index row h := by simp at h

theorem Sound.mono {accounts accounts' : Name → Bool} (h : Sound accounts d)
    (hacc : ∀ a, accounts a → accounts' a) : Sound accounts' d where
  ledger := h.ledger
  rows p row hp := { h.rows p row hp with exist := hacc p (h.rows p row hp).exist }
  covered := h.covered
  luck a ha := ⟨(h.luck a ha).1, hacc _ (h.luck a ha).2⟩
  foreign := h.foreign

theorem Sound.tableOk {accounts : Name → Bool} (h : Sound accounts d) :
    Bank.TableOk accounts d.vesting :=
  ⟨h.rows, h.covered.trans (h.ledger.balanceOf_le bankAccount coreSymbol)⟩

/-! ### Payouts -/

/-- A payout runs in the ledger. The bank is notified of it, and passes it over. -/
theorem perform_payout {i : Token.Inline} (hi : Bank.Payout ctx i) (depth : ℕ) :
    perform hashes host (depth + 1) (ctx.inlineBy tokenAccount i.actor) d (.token i.call) =
      (Token.apply (ctx.inlineBy tokenAccount i.actor) d.ledger i.call).map fun ledger =>
        { d with ledger } := by
  obtain ⟨p, amount, memo, rfl, -⟩ := hi
  have hnotify : d.notify (ctx.inlineBy tokenAccount bankAccount)
      (Bank.send bankAccount p ⟨amount, coreSymbol⟩ memo).call = .ok (d.vesting, []) := by
    simp only [Bank.send, notify]
    rw [Bank.tokenDeposit, if_pos (Or.inr (Or.inl rfl))]
    rfl
  have hself : { ctx.inlineBy tokenAccount bankAccount with self := tokenAccount } =
      ctx.inlineBy tokenAccount bankAccount := rfl
  rw [perform, act]
  simp only [Bank.send] at hnotify ⊢
  rw [hself, hnotify]
  cases Token.apply (ctx.inlineBy tokenAccount bankAccount) d.ledger
    (.transfer bankAccount p [⟨amount, coreSymbol⟩] memo) with
  | error e => rfl
  | ok ledger => rfl

/-- **Payouts** run in the ledger, one after the other. -/
theorem perform_payouts {sends : List Token.Inline} (depth : ℕ) :
    ∀ {d : Deployment}, (∀ i ∈ sends, Bank.Payout ctx i) →
      (sends.map fun i => (⟨i.actor, .token i.call⟩ : Sent)).foldlM (fun d i =>
        perform hashes host (depth + 1) (ctx.inlineBy i.action.receiver i.actor) d i.action) d =
      (runToken ctx d.ledger sends).map fun ledger => { d with ledger } := by
  induction sends with
  | nil => exact fun _ => rfl
  | cons i sends ih =>
    intro d hsends
    have hfirst : perform hashes host (depth + 1) (ctx.inlineBy tokenAccount i.actor) d
        (.token i.call) = _ := perform_payout (hsends i List.mem_cons_self) depth
    rw [List.map_cons, List.foldlM_cons, runToken, List.foldlM_cons, Action.receiver, hfirst]
    cases Token.apply (ctx.inlineBy tokenAccount i.actor) d.ledger i.call with
    | error e => rfl
    | ok ledger => exact ih fun j hj => hsends j (List.mem_cons_of_mem i hj)

/-- Without a level left nothing is paid, so nothing was to be paid. -/
theorem perform_payouts_ok {sends : List Token.Inline} {depth : ℕ}
    (hsends : ∀ i ∈ sends, Bank.Payout ctx i)
    (hok : (sends.map fun i => (⟨i.actor, .token i.call⟩ : Sent)).foldlM (fun d i =>
      perform hashes host depth (ctx.inlineBy i.action.receiver i.actor) d i.action) d = .ok d') :
    ∃ τ, runToken ctx d.ledger sends = .ok τ ∧ d' = { d with ledger := τ } := by
  cases depth with
  | zero =>
    cases sends with
    | nil =>
      obtain rfl : d = d' := pure_eq_ok_iff.mp hok
      exact ⟨d.ledger, rfl, rfl⟩
    | cons i sends => exact nomatch hok
  | succ depth =>
    rw [perform_payouts depth hsends, map_eq_ok_iff] at hok
    obtain ⟨τ, hrun, rfl⟩ := hok
    exact ⟨τ, hrun, rfl⟩

/-! ### Settlement -/

section Settle

variable {τ : Token.State} {vesting : Table Name Bank.Vesting} {sends : List Token.Inline}
  {gain : ℤ}

/-- **What the bank sends is honoured.** -/
theorem Sound.honoured (h : Sound ctx.isAccount d) (hτ : LifeInv τ)
    (hmove : Bank.TableMove ctx gain d.vesting vesting sends)
    (hgain : balanceOf d.ledger bankAccount coreSymbol + gain ≤
      balanceOf τ bankAccount coreSymbol) :
    ∃ τ₁, Bank.Honoured ctx τ sends τ₁ ∧ Sound ctx.isAccount { d with ledger := τ₁, vesting } := by
  have hcovered := h.covered
  obtain ⟨τ₁, hhonoured, hlife, hleft⟩ := hmove.honoured hτ (by omega)
  exact ⟨τ₁, hhonoured, hlife, hmove.rows, hleft, h.luck, h.foreign⟩

/-- **What is left when the bank has paid.** -/
theorem Sound.settle (h : Sound ctx.isAccount d) (hτ : LifeInv τ)
    (hmove : Bank.TableMove ctx gain d.vesting vesting sends)
    (hgain : balanceOf d.ledger bankAccount coreSymbol + gain ≤
      balanceOf τ bankAccount coreSymbol) {depth : ℕ}
    (hok : (sends.map fun i => (⟨i.actor, .token i.call⟩ : Sent)).foldlM (fun d i =>
      perform hashes host depth (ctx.inlineBy i.action.receiver i.actor) d i.action)
      { d with ledger := τ, vesting } = .ok d') : Sound ctx.isAccount d' := by
  obtain ⟨τ₁, hhonoured, hsound⟩ := h.honoured hτ hmove hgain
  obtain ⟨τ₂, hrun, rfl⟩ := perform_payouts_ok hmove.payouts hok
  obtain rfl := Except.ok.inj (hrun.symm.trans hhonoured.runToken_eq)
  exact hsound

end Settle

/-! ### Actions of the token contract -/

/-- Whose tokens a call takes away. -/
def debtor : Token.Call → Option Name
  | .retire owner _ _ => some owner
  | .transfer sender _ _ _ => some sender
  | _ => none

variable {call : Token.Call} {τ : Token.State} {r : Table Name Bank.Vesting × List Token.Inline}

theorem movement_nonneg {a : Name} {s : Symbol} {σ : Token.State} (hcall : debtor call ≠ some a)
    (hok : Token.step σ (ctx, call) = .ok τ) : 0 ≤ call.movement a s := by
  cases call with
  | issue owner tokens memo =>
    have hissue : Token.issue ctx σ owner tokens memo = .ok τ := hok
    rw [Token.Call.movement]
    split_ifs
    · cases hs : tokens[s]? with
      | none => rw [bal_of_none hs]
      | some amount =>
        rw [bal_of_some hs]
        exact (pos_of_issue hissue hs).le
    · exact Int.le_refl 0
  | retire owner tokens memo =>
    have hne : owner ≠ a := fun h => hcall (congrArg some h)
    rw [Token.Call.movement, if_neg hne]
  | transfer sender receiver tokens memo =>
    have hne : sender ≠ a := fun h => hcall (congrArg some h)
    rw [Token.Call.movement, if_neg hne, sub_zero]
    split_ifs
    · exact sent_nonneg (pos_of_transfer hok) s
    · exact Int.le_refl 0
  | _ => exact Int.le_refl 0

/-- **A deposit for the team or for the lucky producer** does not fail. -/
theorem Sound.deposited (h : Sound ctx.isAccount d) (hteam : ctx.isAccount teamAccount)
    (hτ : LifeInv τ) {a : ALuckyNumber} (ha : d.system.state.aluckynumber = some a) {p : Name}
    (hp : p = teamAccount ∨ p = a.producer) {amount : Int64} (hpos : 0 < amount.toInt)
    (hgain : balanceOf d.ledger bankAccount coreSymbol + amount.toInt ≤
      balanceOf τ bankAccount coreSymbol) :
    ∃ r, Bank.depositFor bankAccount p a ⟨amount, coreSymbol⟩ d.vesting = .ok r ∧
      Bank.TableMove ctx amount.toInt d.vesting r.1 r.2 := by
  have hmax := hτ.balanceOf_le bankAccount coreSymbol
  have hcovered := h.covered
  have hp' : p ≠ bankAccount ∧ ctx.isAccount p := by
    rcases hp with rfl | rfl
    · exact ⟨by decide, hteam⟩
    · exact h.luck a ha
  exact h.tableOk.exists_depositFor_move (fun _ => id) hp'.1 hp'.2 hpos (by omega)

/-- **What the bank does when it is notified** costs it no more than it has just gained. -/
theorem Sound.notified (h : Sound ctx.isAccount d) (hteam : ctx.isAccount teamAccount)
    (hguard : DropGuard d.ledger ({ ctx with self := tokenAccount }, call))
    (hcall : debtor call ≠ some bankAccount)
    (hok : Token.step d.ledger ({ ctx with self := tokenAccount }, call) = .ok τ)
    (hnotify : d.notify ctx call = .ok r) :
    ∃ gain, Bank.TableMove ctx gain d.vesting r.1 r.2 ∧
      balanceOf d.ledger bankAccount coreSymbol + gain ≤ balanceOf τ bankAccount coreSymbol := by
  have hlife : LifeInv τ := h.ledger.step hguard hok
  have hlegal : call.Legal := hguard.1
  have hbal := balance_step h.ledger hlegal hok bankAccount coreSymbol
  have hpass (hr : r = (d.vesting, [])) : ∃ gain, Bank.TableMove ctx gain d.vesting r.1 r.2 ∧
      balanceOf d.ledger bankAccount coreSymbol + gain ≤ balanceOf τ bankAccount coreSymbol := by
    have hnonneg : 0 ≤ call.movement bankAccount coreSymbol := movement_nonneg hcall hok
    exact ⟨0, hr ▸ h.tableOk.refl fun _ => id, by omega⟩
  cases call with
  | transfer sender receiver tokens memo =>
    rcases Bank.tokenDeposit_ok hnotify with hr | ⟨amount, a, p, hto, hother, rfl, ha, hp, hdeposit⟩
    · exact hpass hr
    · obtain rfl : receiver = bankAccount := hto
      have hmoved : Token.Call.movement bankAccount coreSymbol
          (.transfer sender bankAccount [⟨amount, coreSymbol⟩] memo) = amount.toInt := by
        rw [Token.Call.movement, if_pos rfl, if_neg hother, sub_zero, sent_singleton, if_pos rfl]
      have hpos : 0 < amount.toInt := pos_of_transfer hok _ List.mem_cons_self
      obtain ⟨r', hr', hmove⟩ := h.deposited hteam hlife ha hp hpos (by omega)
      obtain rfl := Except.ok.inj (hr'.symm.trans hdeposit)
      exact ⟨amount.toInt, hmove, by omega⟩
  | _ => exact hpass (pure_eq_ok_iff.mp hnotify).symm

/-! ### Actions of the system contract -/

section SystemActions

variable {c c' : Contract} {call : System.Call} {effects : List Effect} {a a' : ALuckyNumber}

/-- The actions that write the lucky number: `init`, a block, and a new seed. -/
theorem luck_of_apply (hok : c.apply hashes host ctx call = .ok (c', effects))
    (ha' : c'.state.aluckynumber = some a') :
    (∃ a, c.state.aluckynumber = some a ∧ a'.producer = a.producer) ∨
      a'.producer = systemAccount ∨
      ∃ header, call = .onblock header ∧ a'.producer = header.producer := by
  cases applied_of_apply hok with
  | @init destruct parameters _ =>
    cases destruct with
    | true => exact absurd ha'.symm (Option.some_ne_none a')
    | false =>
      obtain rfl := Option.some.inj ha'
      exact .inr (.inl rfl)
  | @onblock header res _ hres =>
    obtain ⟨a, ha, hstored, -⟩ := onblock_luck hres
    obtain rfl := Option.some.inj (hstored.symm.trans ha')
    obtain ⟨seed, calls, -, heq⟩ := onblockLuck_eq hashes c.state.rngcalls a header
    rw [heq]
    split_ifs
    · refine .inr (.inr ⟨header, rfl, ?_⟩)
      simp only [luckyHit]
      split_ifs <;> rfl
    · exact .inl ⟨a, ha, rfl⟩
  | feedthebeast ha =>
    obtain rfl := Option.some.inj ha'
    exact .inl ⟨_, ha, rfl⟩
  | _ => exact .inl ⟨a', ha', rfl⟩

/-- Only `onchunk` calls the token contract. -/
theorem onchunk_of_token (hok : c.apply hashes host ctx call = .ok (c', effects))
    {i : Token.Inline} (hi : .token i ∈ effects) :
    ∃ τ sends, call = .onchunk τ ∧ System.onchunk ctx c.state τ = .ok sends ∧ i ∈ sends := by
  cases applied_of_apply hok with
  | onchunk _ hsends =>
    obtain ⟨j, hj, heq⟩ := List.mem_map.mp hi
    obtain rfl := Effect.token.inj heq
    exact ⟨_, _, rfl, hsends, hj⟩
  | _ => simp at hi

end SystemActions

/-! ### What the invariant asks for -/

/-- What an action must not do: name the bank as the producer of a block, have random values sent
to one of the three contracts, drop a supplies record that matters, or take the bank's tokens
away. -/
def Safe (accounts : Name → Bool) (ledger : Token.State) : Action → Prop
  | .system (.onblock header) => header.producer ≠ bankAccount ∧ accounts header.producer
  | .system (.setrngcall _ contract _) =>
    contract ≠ systemAccount ∧ contract ≠ tokenAccount ∧ contract ≠ bankAccount
  | .token call => (call.Legal ∧ (call.dropsSupplies → ∀ s, total ledger s ≤ 1)) ∧
    debtor call ≠ some bankAccount
  | _ => True

section Inline

variable {c' : Contract} {call : System.Call} {effects : List Effect}

theorem legal_chunkIssue {ledger : Token.State} (h : LifeInv ledger) {cap : Int64}
    (hcap : ledger.sup.maxSupply[coreSymbol]? = some cap) :
    (chunkIssue (scaleBy cap luckyNumberChunkWeight)).call.Legal := by
  obtain ⟨o, hinv, -, -⟩ := h
  obtain ⟨v, hv⟩ := OrdMap.mem_iff_exists.mp
    ((hinv.supplies.keys coreSymbol).mpr (OrdMap.mem_iff_exists.mpr ⟨cap, hcap⟩))
  have hcapped := hinv.supplies.capped coreSymbol v cap hv hcap
  have hlegal := (hinv.supplies.legal coreSymbol cap hcap).1
  have hshare : (scaleBy cap luckyNumberChunkWeight).toInt = cap.toInt * (1 : ℕ) / (1215000 : ℕ) :=
    toInt_scaleBy luckyNumberChunkWeight_eq (by norm_num) (by omega)
  refine legal_issue_coreTokens ?_
  rw [Asset.toInt_maxAmount, hshare]
  omega

/-- **What the system contract sends is safe**, whatever happens before it runs. -/
theorem safe_of_inline (h : LifeInv d.ledger)
    (hok : d.system.apply hashes host ctx (reading d.ledger call) = .ok (c', effects)) {i : Sent}
    (hi : i ∈ effects.filterMap inlineOf) (accounts : Name → Bool) (ledger : Token.State) :
    Safe accounts ledger i.action := by
  obtain ⟨e, he, hie⟩ := List.mem_filterMap.mp hi
  cases e with
  | send j =>
    cases j with
    | onchunk => obtain rfl := Option.some.inj hie; exact trivial
    | onepoch epoch => obtain rfl := Option.some.inj hie; exact trivial
    | rngcall contract action blend => exact nomatch hie
  | token j =>
    obtain rfl := Option.some.inj hie
    obtain ⟨τ, sends, hcall, hsends, hj⟩ := onchunk_of_token hok he
    have hτ : τ = d.ledger := by
      cases call with
      | onchunk => exact (System.Call.onchunk.inj hcall).symm
      | _ => exact nomatch hcall
    rw [hτ] at hsends
    obtain ⟨a, ha⟩ : ∃ a, d.system.state.aluckynumber = some a := by
      simp only [System.onchunk, bind_eq_ok_iff, singletonGet_eq_ok_iff] at hsends
      obtain ⟨-, -, a, ha, -⟩ := hsends
      exact ⟨a, ha⟩
    have htransfer {total : Int64} (hj : j ∈ (chunkShares total).map chunkTransfer) :
        Safe accounts ledger (.token j.call) := by
      obtain ⟨t, -, rfl⟩ := List.mem_map.mp hj
      exact ⟨⟨trivial, fun h => absurd h Bool.false_ne_true⟩,
        fun h => absurd (Option.some.inj h) (by decide)⟩
    obtain ⟨row, -, ⟨-, cap, hcap, rfl⟩ | ⟨-, rfl⟩⟩ := onchunk_ok ha hsends
    · rcases List.mem_cons.mp hj with rfl | hj
      · exact ⟨⟨legal_chunkIssue h hcap, fun h => absurd h Bool.false_ne_true⟩, nofun⟩
      · exact htransfer hj
    · exact htransfer hj
  | host | setProposedProducers | setFinalizers => exact nomatch hie

/-- **The system contract keeps the invariant.** -/
theorem Sound.system (h : Sound ctx.isAccount d) (hsystem : ctx.isAccount systemAccount)
    (hsafe : Safe ctx.isAccount d.ledger (.system call)) {ctx' : Context}
    (hok : d.system.apply hashes host ctx' (reading d.ledger call) = .ok (c', effects)) :
    Sound ctx.isAccount { d with system := c' } where
  ledger := h.ledger
  rows := h.rows
  covered := h.covered
  luck a' ha' := by
    rcases luck_of_apply hok ha' with ⟨a, ha, hp⟩ | hp | ⟨header, hcall, hp⟩
    · rw [hp]
      exact h.luck a ha
    · rw [hp]
      exact ⟨by decide, hsystem⟩
    · rw [hp]
      cases call with
      | onblock header' =>
        obtain rfl := System.Call.onblock.inj hcall
        exact hsafe
      | _ => exact nomatch hcall
  foreign index row hrow := by
    have hwritten := (rngcalls_of_apply hok index).symm.trans hrow
    by_cases hindex : (reading d.ledger call).rngIndex = some index
    · rw [if_pos hindex] at hwritten
      cases call with
      | setrngcall i contract action =>
        obtain rfl := Option.some.inj hwritten
        exact hsafe
      | rmvrngcall i => exact nomatch hwritten
      | modrngcall i active =>
        obtain ⟨old, hold, rfl⟩ := Option.map_eq_some_iff.mp hwritten
        exact h.foreign index old hold
      | _ => exact nomatch hindex
    · rw [if_neg hindex] at hwritten
      exact h.foreign index row hwritten

end Inline

/-! ### Runs -/

/-- **An action keeps the invariant, with everything that follows from it.** By induction on the
levels of inline actions: the bank's own transfers lead to nothing further, and what the system
contract sends is safe. -/
theorem perform_sound {depth : ℕ} : ∀ {ctx : Context} {d d' : Deployment} {action : Action},
    Sound ctx.isAccount d → ctx.isAccount teamAccount → ctx.isAccount systemAccount →
      Safe ctx.isAccount d.ledger action →
        perform hashes host depth ctx d action = .ok d' → Sound ctx.isAccount d' := by
  induction depth with
  | zero => exact fun _ _ _ _ hok => nomatch hok
  | succ depth ih =>
    intro ctx d d' action h hteam hsystem hsafe hok
    rw [perform, bind_eq_ok_iff] at hok
    obtain ⟨⟨d₁, sends⟩, hact, hsends⟩ := hok
    cases action with
    | system call =>
      simp only [act, bind_eq_ok_iff, pure_eq_ok_iff, Prod.mk.injEq] at hact
      obtain ⟨⟨c', effects⟩, happly, rfl, rfl⟩ := hact
      refine foldlM_invariant (fun (l : List Sent) (s : Deployment) =>
          (∀ i ∈ l, ∀ ledger, Safe ctx.isAccount ledger i.action) ∧ Sound ctx.isAccount s)
        (fun i l s s' hI hs => ?_) ⟨fun i hi => ?_, h.system hsystem hsafe happly⟩ hsends |>.2
      · obtain ⟨hl, hs'⟩ := hI
        have hinner : Sound (ctx.inlineBy i.action.receiver i.actor).isAccount s' :=
          ih hs' hteam hsystem (hl i List.mem_cons_self s.ledger) hs
        exact ⟨fun j hj => hl j (List.mem_cons_of_mem i hj), hinner⟩
      · exact safe_of_inline h.ledger happly hi ctx.isAccount
    | token call =>
      simp only [act, bind_eq_ok_iff, pure_eq_ok_iff, Prod.mk.injEq] at hact
      obtain ⟨τ, happly, r, hnotify, rfl, rfl⟩ := hact
      obtain ⟨gain, hmove, hgain⟩ := h.notified hteam hsafe.1 hsafe.2 happly hnotify
      exact h.settle (h.ledger.step hsafe.1 happly) hmove hgain hsends
    | onepoch epoch =>
      simp only [act, bind_eq_ok_iff, pure_eq_ok_iff, Prod.mk.injEq] at hact
      obtain ⟨r, hepoch, rfl, rfl⟩ := hact
      have hread := hepoch
      simp only [Bank.onepoch, bind_eq_ok_iff, Context.requireAuth_eq_ok_iff, check_eq_ok_iff,
        singletonGet_eq_ok_iff, exists_const] at hread
      obtain ⟨hauth, a, ha, rfl, -⟩ := hread
      obtain ⟨r', hr', hmove⟩ : ∃ r', Bank.onepoch { ctx with self := bankAccount } (some a)
          d.vesting a.epoch = .ok r' ∧ Bank.TableMove ctx 0 d.vesting r'.1 r'.2 :=
        h.tableOk.exists_onepoch_move (fun _ => id) rfl hauth
      rw [ha, hr'] at hepoch
      obtain rfl := Except.ok.inj hepoch
      exact h.settle h.ledger hmove (by omega) hsends
    | cleanup =>
      simp only [act, bind_eq_ok_iff, pure_eq_ok_iff, Prod.mk.injEq,
        Bank.cleanup_eq_ok_iff] at hact
      obtain ⟨-, ⟨-, rfl⟩, rfl, rfl⟩ := hact
      obtain rfl := pure_eq_ok_iff.mp hsends
      refine ⟨h.ledger, fun p row hp => by simp at hp, ?_, h.luck, h.foreign⟩
      rw [OrdMap.sumOf_empty]
      exact h.covered.trans' h.tableOk.nonneg

/-- Accounts are not removed; the team and the system contract have theirs. -/
structure Guard (d : Deployment) (e : Context × Action) : Prop where
  kept : ∀ a, d.accounts a → e.1.isAccount a
  team : e.1.isAccount teamAccount
  system : e.1.isAccount systemAccount
  safe : Safe e.1.isAccount d.ledger e.2

theorem sound_of_run {depth : ℕ} {tr : List (Context × Action)}
    (hrun : Run (step hashes host depth) Guard {} tr d) : Sound d.accounts d := by
  refine hrun.state_invariant (I := fun d => Sound d.accounts d) sound_empty ?_
  intro d e d' h hguard hok
  simp only [step, bind_eq_ok_iff, pure_eq_ok_iff] at hok
  obtain ⟨d₁, hperform, rfl⟩ := hok
  have hsound := perform_sound (h.mono hguard.kept) hguard.team hguard.system hguard.safe hperform
  exact ⟨hsound.ledger, hsound.rows, hsound.covered, hsound.luck, hsound.foreign⟩

/-- **Soundness.** In every run of the three contracts, whatever inline actions and notifications
among them follow from each action: what is held of a registered symbol stays within its cap, the
balance of the bank covers what is outstanding in its rows, none of which is overpaid, and no random
value goes to one of the three. -/
theorem deployment_sound {depth : ℕ} {tr : List (Context × Action)}
    (hrun : Run (step hashes host depth) Guard {} tr d) :
    (∀ sup, d.ledger.supplies = some sup → ∀ (s : Symbol) (m : Int64),
        sup.maxSupply[s]? = some m → total d.ledger s ≤ m.toInt) ∧
      OrdMap.sumOf Bank.outstanding d.vesting ≤ balanceOf d.ledger bankAccount coreSymbol ∧
      (∀ (p : Name) (row : Bank.Vesting), d.vesting[p]? = some row →
        0 ≤ row.vested.amount.toInt ∧ 0 ≤ row.unvested.amount.toInt ∧
          row.unvested.amount.toInt ≤ row.unvestingTotal.amount.toInt) ∧
      ForeignCalls d.system.state.rngcalls := by
  have h := sound_of_run hrun
  refine ⟨fun sup hsup s m hm => ?_, h.covered, fun p row hp =>
    ⟨(h.rows p row hp).vested, (h.rows p row hp).unvested, (h.rows p row hp).le⟩, h.foreign⟩
  obtain ⟨o, hinv, ho, -⟩ := h.ledger
  have hsup' : d.ledger.sup = sup := State.sup_of_some hsup
  have hwf : sup.WF := hsup' ▸ hinv.supplies
  obtain ⟨v, hv⟩ := OrdMap.mem_iff_exists.mp
    ((hwf.keys s).mpr (OrdMap.mem_iff_exists.mpr ⟨m, hm⟩))
  have hcapped := hwf.capped s v m hv hm
  have hone := ho s
  rw [hinv.conserved s, supplyOf, hsup', bal_of_some hv]
  omega

/-- The parameters of a chain that allows nothing. -/
def noParameters : BlockchainParameters :=
  ⟨0, 0, 0, 0, 0, 0, 0, 0, 0, 0, 0, 0, 0, 0, 0, 0, 0⟩

/-- A cap, 500 units for the chunks account, and a system contract that has been set up. -/
def setUp : List (Context × Action) :=
  [.token .cfginit, .token (.setsupplies (coreTokens 1215000000)),
    .token (.issue chunksAccount (coreTokens 500) ""), .system (.init false noParameters)].map
      fun action => (Bank.everybody, action)

/-- The next block is lucky. -/
def luckyBlock : Context × Action := (Bank.everybody, .system (.onblock (headerAt 1 1)))

theorem guard_everybody {action : Action} (hkept : ∀ a, d.accounts a → a ≠ ⟨0⟩)
    (hsafe : Safe Bank.everybody.isAccount d.ledger action) :
    Guard d (Bank.everybody, action) :=
  ⟨fun a ha => decide_eq_true (hkept a ha), show Bank.everybody.isAccount teamAccount by decide,
    show Bank.everybody.isAccount systemAccount by decide, hsafe⟩

theorem accounts_of_step {depth : ℕ} {action : Action}
    (hok : step hashes host depth d (Bank.everybody, action) = .ok d') (a : Name)
    (ha : d'.accounts a) : a ≠ ⟨0⟩ := by
  simp only [step, bind_eq_ok_iff, pure_eq_ok_iff] at hok
  obtain ⟨d₁, -, rfl⟩ := hok
  exact of_decide_eq_true ha

theorem run_setUp (h : setUp.foldlM (step hashes host 4) {} = .ok d) :
    Run (step hashes host 4) Guard {} setUp d ∧ ∀ a, d.accounts a → a ≠ ⟨0⟩ := by
  rw [setUp, List.map_cons, List.foldlM_cons, bind_eq_ok_iff] at h
  obtain ⟨d₁, hfirst, hrest⟩ := h
  have hinit : Guard {} (Bank.everybody, .token .cfginit) := by
    refine guard_everybody (fun a ha => absurd ha Bool.false_ne_true)
      ⟨⟨trivial, fun _ s => ?_⟩, nofun⟩
    rw [total_of_accounts_empty rfl]
    exact zero_le_one
  have hguard (s : Deployment) (c : Context × Action) (hc : c ∈ setUp.tail)
      (hkept : ∀ a, s.accounts a → a ≠ ⟨0⟩) : Guard s c := by
    simp only [setUp, List.map_cons, List.map_nil, List.tail_cons, List.mem_cons,
      List.not_mem_nil, or_false] at hc
    rcases hc with rfl | rfl | rfl
    · exact guard_everybody hkept ⟨⟨trivial, fun h => absurd h Bool.false_ne_true⟩, nofun⟩
    · exact guard_everybody hkept
        ⟨⟨legal_issue_coreTokens (by decide), fun h => absurd h Bool.false_ne_true⟩, nofun⟩
    · exact guard_everybody hkept trivial
  have hkeep (s : Deployment) (c : Context × Action) (hc : c ∈ setUp.tail) (s' : Deployment)
      (_ : ∀ a, s.accounts a → a ≠ ⟨0⟩) (hs : step hashes host 4 s c = .ok s') :
      ∀ a, s'.accounts a → a ≠ ⟨0⟩ := by
    obtain ⟨action, -, rfl⟩ := List.mem_map.mp (List.mem_of_mem_tail hc)
    exact accounts_of_step hs
  obtain ⟨hrun, hkept⟩ := Run.of_foldlM_invariant (accounts_of_step hfirst) hguard hkeep hrest
  exact ⟨(Run.single hinit hfirst).trans hrun, hkept⟩

/-- The first block is lucky: of 1500 units the bank receives 16 for the team and 3 for the
producer. -/
theorem deployment_sound_firstChunk :
    ∃ d, Run (step luckyHashes System.plainHost 4) Guard {} (setUp ++ [luckyBlock]) d ∧
      balanceOf d.ledger bankAccount coreSymbol = 19 ∧
      OrdMap.sumOf Bank.outstanding d.vesting ≤ balanceOf d.ledger bankAccount coreSymbol := by
  obtain ⟨d₁, hd₁, hblock⟩ := returns_iff.mp (show returns
    (setUp.foldlM (step luckyHashes System.plainHost 4) {}) (fun d =>
      returns (step luckyHashes System.plainHost 4 d luckyBlock) fun d =>
        balanceOf d.ledger bankAccount coreSymbol = 19) = true by decide +kernel)
  obtain ⟨d, hd, hbal⟩ := returns_iff.mp hblock
  obtain ⟨hsetUp, hkept⟩ := run_setUp hd₁
  have hguard : Guard d₁ luckyBlock := guard_everybody hkept ⟨by decide, by decide⟩
  have hrun := hsetUp.trans (.single hguard hd)
  exact ⟨d, hrun, of_decide_eq_true hbal, (deployment_sound hrun).2.1⟩

end Twig.Deployment
