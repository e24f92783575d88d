import Twig.Msig.Transaction
import Twig.Token.Wire

/-!
# The wrap contract

`exec` of `eosio.wrap` sends the actions of a transaction that is packed in its data. The chain runs
them next, so a transaction may wrap others, which may wrap others again. What the other contracts
do with an action, and whether it fails, is a parameter.

Both this contract and the multisig contract are taken to be privileged, so that the chain does not
check who has authorized the actions they send.

* `exec_packed_iff` — when the contract sends the actions of a transaction, and which;
* `run` — an action as the chain runs it, with what it sends;
* `Wrapped` — transactions in transactions; `run_pack`, by induction on them: they run as their
  leaves do, one after the other in the order of the text, if they are signed and not too deep;
* `wrapped_proposal` — the same for a transaction that the multisig contract executes.
-/

namespace Twig.Wrap

open Std Fallible Twig.Msig

/-- The account of the contract. -/
def wrapAccount : Name := .ofString "eosio.wrap"

def execName : Name := .ofString "exec"

/-- `exec`: the actions that it sends. -/
def exec (u : Unpacker) (ctx : Context) (data : Bytes) : Outcome (List Action) := do
  ctx.requireAuth ctx.self
  let (executer, ds) ← nameFormat.read Unpacker.pastEnd data
  ctx.requireAuth executer
  let (_, ds) ← (headerFormat u).read ds
  let (contextFreeActions, ds) ← (actionsFormat u).read ds
  check (contextFreeActions = [])
    "not allowed to `exec` a transaction with context-free actions"
  let (actions, _) ← (actionsFormat u).read ds
  pure actions

/-- The data of `exec`. -/
def packExec (u : Unpacker) (executer : Name) (trx : Transaction) : Bytes :=
  nameFormat.write executer ++ (transactionFormat u).write trx

variable {u : Unpacker} {ctx : Context} {executer : Name} {t : Transaction} {sent : List Action}

/-- **What `exec` does with a transaction in its format**, whatever bytes follow it: signed by the
contract's account and by the executer, it sends the actions. -/
theorem exec_packed_iff (rest : Bytes) (h : (transactionFormat u).Fits t) :
    exec u ctx (packExec u executer t ++ rest) = .ok sent ↔
      ctx.hasAuth ctx.self ∧ ctx.hasAuth executer ∧ t.contextFreeActions = [] ∧
        sent = t.actions := by
  obtain ⟨ds, ds', ds'', hheader, hfree, hactions⟩ := read_transaction rest h
  have hname : nameFormat.read Unpacker.pastEnd (packExec u executer t ++ rest) =
      .ok (executer, (transactionFormat u).write t ++ rest) := by
    rw [packExec, List.append_assoc, Wire.Fixed.read_write]
  simp only [exec, bind_eq_ok_iff, Context.requireAuth_eq_ok_iff, check_eq_ok_iff, exists_const,
    hname]
  constructor
  · rintro ⟨hself, r, hr, hexecuter, s, hs, f, hf, hnone, a, ha, hend⟩
    obtain rfl := Except.ok.inj hr
    obtain rfl := Except.ok.inj (hheader.symm.trans hs)
    obtain rfl := Except.ok.inj (hfree.symm.trans hf)
    obtain rfl := Except.ok.inj (hactions.symm.trans ha)
    exact ⟨hself, hexecuter, hnone, (pure_eq_ok_iff.mp hend).symm⟩
  · rintro ⟨hself, hexecuter, hnone, rfl⟩
    exact ⟨hself, _, rfl, hexecuter, _, hheader, _, hfree, hnone, _, hactions,
      pure_eq_ok_iff.mpr rfl⟩

/-! ### The chain -/

/-- The context in which the chain runs an action. -/
def contextOf (base : Context) (a : Action) : Context :=
  { base with
    self := a.account
    hasAuth := fun n => a.authorization.any fun l => l.actor = n
    hasPermission := fun l => l ∈ a.authorization }

/-- An action as the chain runs it, with the levels of inline actions that are left: one for the
wrap contract gives way to the actions that it sends, depth first, and the other contracts `perform`
theirs. -/
def run {σ : Type} (u : Unpacker) (base : Context) (perform : ℕ → σ → Action → Outcome σ) :
    ℕ → σ → Action → Outcome σ
  | 0, _, _ => .error (.check "max inline action depth per transaction reached")
  | depth + 1, s, a =>
    if a.account = wrapAccount then do
      check (a.name = execName) "unknown action"
      let sent ← exec u (contextOf base a) a.data
      sent.foldlM (run u base perform depth) s
    else perform depth s a

section Run

variable {σ : Type} {base : Context} {perform : ℕ → σ → Action → Outcome σ} {depth : ℕ} {s s' : σ}
  {a : Action}

/-- No action runs without a level left. -/
theorem run_zero_ne_ok : run u base perform 0 s a ≠ .ok s' := by
  simp [run]

theorem run_of_ne (h : a.account ≠ wrapAccount) :
    run u base perform (depth + 1) s a = perform depth s a := by
  rw [run, if_neg h]

theorem run_eq_ok_iff (h : a.account = wrapAccount) :
    run u base perform (depth + 1) s a = .ok s' ↔
      a.name = execName ∧ ∃ sent, exec u (contextOf base a) a.data = .ok sent ∧
        sent.foldlM (run u base perform depth) s = .ok s' := by
  rw [run, if_pos h, check_bind_eq_ok_iff, bind_eq_ok_iff]

end Run

/-! ### Transactions in transactions -/

/-- An action, or a transaction that is wrapped. -/
inductive Wrapped
  | plain (a : Action)
  | wrap (executer : Name) (levels : List PermissionLevel) (header : Header)
    (extensions : List Extension) (contents : List Wrapped)

mutual

/-- The action that it is packed into. -/
def Wrapped.pack (u : Unpacker) : Wrapped → Action
  | .plain a => a
  | .wrap executer levels header extensions contents =>
    { account := wrapAccount
      name := execName
      authorization := levels
      data := packExec u executer
        { header, actions := packAll u contents, transactionExtensions := extensions } }

def packAll (u : Unpacker) : List Wrapped → List Action
  | [] => []
  | w :: ws => w.pack u :: packAll u ws

end

mutual

/-- The actions in it, from left to right, each with the levels of inline actions that are left to
it. -/
def Wrapped.leaves : ℕ → Wrapped → List (ℕ × Action)
  | depth, .plain a => [(depth - 1, a)]
  | depth, .wrap _ _ _ _ contents => leavesAll (depth - 1) contents

def leavesAll : ℕ → List Wrapped → List (ℕ × Action)
  | _, [] => []
  | depth, w :: ws => w.leaves depth ++ leavesAll depth ws

end

mutual

/-- The levels of inline actions that it takes. -/
def Wrapped.height : Wrapped → ℕ
  | .plain _ => 1
  | .wrap _ _ _ _ contents => heightAll contents + 1

def heightAll : List Wrapped → ℕ
  | [] => 0
  | w :: ws => max w.height (heightAll ws)

end

mutual

/-- Each transaction fits the format, and the other actions are for other contracts. -/
def Wrapped.Fits (u : Unpacker) : Wrapped → Prop
  | .plain a => a.account ≠ wrapAccount
  | .wrap _ _ header extensions contents =>
    (transactionFormat u).Fits
        { header, actions := packAll u contents, transactionExtensions := extensions } ∧
      FitsAll u contents

def FitsAll (u : Unpacker) : List Wrapped → Prop
  | [] => True
  | w :: ws => w.Fits u ∧ FitsAll u ws

end

mutual

/-- Each transaction is signed by the contract's account and by its executer. -/
def Wrapped.Signed : Wrapped → Prop
  | .plain _ => True
  | .wrap executer levels _ _ contents =>
    (∃ l ∈ levels, l.actor = wrapAccount) ∧ (∃ l ∈ levels, l.actor = executer) ∧
      SignedAll contents

def SignedAll : List Wrapped → Prop
  | [] => True
  | w :: ws => w.Signed ∧ SignedAll ws

end

variable {base : Context}

theorem hasAuth_contextOf {a : Action} {n : Name} :
    (contextOf base a).hasAuth n = true ↔ ∃ l ∈ a.authorization, l.actor = n := by
  simp only [contextOf, List.any_eq_true, decide_eq_true_eq]

/-- What `exec` sends of a wrapped transaction. -/
theorem exec_pack_iff {levels : List PermissionLevel} {header : Header}
    {extensions : List Extension} {contents : List Wrapped} (hfits : (transactionFormat u).Fits
      { header, actions := packAll u contents, transactionExtensions := extensions }) :
    exec u (contextOf base (Wrapped.pack u (.wrap executer levels header extensions contents)))
        (Wrapped.pack u (.wrap executer levels header extensions contents)).data = .ok sent ↔
      (∃ l ∈ levels, l.actor = wrapAccount) ∧ (∃ l ∈ levels, l.actor = executer) ∧
        sent = packAll u contents := by
  rw [Wrapped.pack]
  dsimp only
  rw [← List.append_nil (packExec u executer _), exec_packed_iff [] hfits, hasAuth_contextOf,
    hasAuth_contextOf]
  exact ⟨fun h => ⟨h.1, h.2.1, h.2.2.2⟩, fun h => ⟨h.1, h.2.1, rfl, h.2.2⟩⟩

section Perform

variable {σ : Type}

/-- The other contracts perform the leaves, one after the other. -/
def performAll (perform : ℕ → σ → Action → Outcome σ) (s : σ) (leaves : List (ℕ × Action)) :
    Outcome σ :=
  leaves.foldlM (fun s leaf => perform leaf.1 s leaf.2) s

variable {perform : ℕ → σ → Action → Outcome σ}

mutual

/-- **A wrapped transaction runs as its leaves do**, one after the other from left to right, if it
is signed throughout and within the depth; and otherwise it fails. -/
theorem run_pack : ∀ (w : Wrapped) {depth : ℕ} {s s' : σ}, w.Fits u →
    (run u base perform depth s (w.pack u) = .ok s' ↔
      w.Signed ∧ w.height ≤ depth ∧ performAll perform s (w.leaves depth) = .ok s')
  | .plain a, 0, s, s', hfits => by
    rw [Wrapped.height]
    exact iff_of_false run_zero_ne_ok fun h => absurd h.2.1 (by omega)
  | .plain a, depth + 1, s, s', hfits => by
    rw [Wrapped.pack, run_of_ne hfits, Wrapped.Signed, Wrapped.height, Wrapped.leaves, performAll,
      List.foldlM_cons, bind_eq_ok_iff]
    simp only [List.foldlM_nil, pure_eq_ok_iff, exists_eq_right, true_and, Nat.add_sub_cancel]
    exact ⟨fun h => ⟨by omega, h⟩, fun h => h.2⟩
  | .wrap executer levels header extensions contents, 0, s, s', hfits => by
    rw [Wrapped.height]
    exact iff_of_false run_zero_ne_ok fun h => absurd h.2.1 (by omega)
  | .wrap executer levels header extensions contents, depth + 1, s, s', hfits => by
    obtain ⟨hfits, hcontents⟩ := hfits
    rw [run_eq_ok_iff (by rw [Wrapped.pack]), Wrapped.Signed, Wrapped.height, Wrapped.leaves,
      Nat.add_sub_cancel]
    simp only [exec_pack_iff hfits]
    constructor
    · rintro ⟨-, _, ⟨hself, hexecuter, rfl⟩, hruns⟩
      obtain ⟨hsigned, hheight, hleaves⟩ := (foldlM_packAll contents hcontents).mp hruns
      exact ⟨⟨hself, hexecuter, hsigned⟩, Nat.succ_le_succ hheight, hleaves⟩
    · rintro ⟨⟨hself, hexecuter, hsigned⟩, hheight, hleaves⟩
      exact ⟨by rw [Wrapped.pack], _, ⟨hself, hexecuter, rfl⟩,
        (foldlM_packAll contents hcontents).mpr ⟨hsigned, Nat.le_of_succ_le_succ hheight, hleaves⟩⟩

theorem foldlM_packAll : ∀ (ws : List Wrapped) {depth : ℕ} {s s' : σ}, FitsAll u ws →
    ((packAll u ws).foldlM (run u base perform depth) s = .ok s' ↔
      SignedAll ws ∧ heightAll ws ≤ depth ∧ performAll perform s (leavesAll depth ws) = .ok s')
  | [], depth, s, s', hfits => by
    rw [packAll, List.foldlM_nil, SignedAll, heightAll, leavesAll, performAll, List.foldlM_nil]
    exact ⟨fun h => ⟨trivial, Nat.zero_le _, h⟩, fun h => h.2.2⟩
  | w :: ws, depth, s, s', hfits => by
    rw [packAll, List.foldlM_cons, SignedAll, heightAll, leavesAll, performAll,
      List.foldlM_append]
    simp only [bind_eq_ok_iff, run_pack w hfits.1, foldlM_packAll ws hfits.2]
    constructor
    · rintro ⟨s₁, ⟨hsigned, hheight, hleaves⟩, hrest, hrestHeight, hrestLeaves⟩
      exact ⟨⟨hsigned, hrest⟩, max_le hheight hrestHeight, s₁, hleaves, hrestLeaves⟩
    · rintro ⟨⟨hsigned, hrest⟩, hheight, s₁, hleaves, hrestLeaves⟩
      exact ⟨s₁, ⟨hsigned, (le_max_left _ _).trans hheight, hleaves⟩, hrest,
        (le_max_right _ _).trans hheight, hrestLeaves⟩

end

end Perform

/-! ### Under the multisig contract -/

/-- **A transaction that was proposed runs with all that it wraps.** After every run of the multisig
contract, if `propose` filed the instance now in place with a transaction in its format, `exec` of
it goes through, and its actions are packed from transactions in transactions: what `exec` sends
runs exactly if they are signed throughout and within the depth, and the other contracts perform
their leaves, each once, in the order of the text; and both end in the same state. -/
theorem wrapped_proposal {authorized : Bytes → List PermissionLevel → Bool}
    {sha256 : Bytes → Checksum256} {tr since : List (Context × Call)} {σ σ' : State} {p n : Name}
    {rest : Bytes} {ws : List Wrapped} {actions : List Action} {α : Type}
    {perform : ℕ → α → Action → Outcome α} {depth : ℕ} {s s' : α}
    (hrun : Run (step (packedHost u authorized sha256)) (fun _ _ => True) {} tr σ)
    (hfits : (transactionFormat u).Fits t) (hactions : t.actions = packAll u ws)
    (hws : FitsAll u ws)
    (hinstance : InstanceOf tr p n ((transactionFormat u).write t ++ rest) since)
    (hexec : Msig.exec (packedHost u authorized sha256) ctx σ p n executer = .ok (σ', actions)) :
    actions.foldlM (run u base perform depth) s = .ok s' ↔
      SignedAll ws ∧ heightAll ws ≤ depth ∧ performAll perform s (leavesAll depth ws) = .ok s' := by
  obtain ⟨proposal, row, hproposal, hpacked, -, -⟩ := stored_of_instance hrun hinstance
  have hreads : (packedHost u authorized sha256).Reads proposal.packedTransaction t :=
    hpacked ▸ reads_transaction hfits
  obtain ⟨-, -, -, -, -, rfl⟩ := exec_ok_of_reads hproposal hreads hexec
  rw [hactions]
  exact foldlM_packAll ws hws

/-! ### Two payments -/

def tokenAccount : Name := .ofString "eosio.token"

def transferName : Name := .ofString "transfer"

/-- The token contract, as far as it is asked for transfers. -/
def performTransfer (u : Unpacker) (base : Context) (_depth : ℕ) (τ : Token.State) (a : Action) :
    Outcome Token.State := do
  check (a.account = tokenAccount ∧ a.name = transferName) "unknown action"
  let args ← Token.unpackTransfer u a.data
  let memo ← textOf args.memo
  Token.transfer (contextOf base a) τ args.sender args.receiver args.tokens memo

def payment (sender receiver : Name) (quantity : Asset) : Action where
  account := tokenAccount
  name := transferName
  authorization := [⟨sender, .ofString "active"⟩]
  data := Token.packTransfer sender receiver [quantity] ""

theorem performTransfer_payment {depth : ℕ} {τ : Token.State} {sender receiver : Name}
    {quantity : Asset} :
    performTransfer u base depth τ (payment sender receiver quantity) =
      Token.transfer (contextOf base (payment sender receiver quantity)) τ sender receiver
        [quantity] "" := by
  rw [performTransfer, payment, check, if_pos ⟨rfl, rfl⟩, ok_bind,
    Token.unpackTransfer_packTransfer (by simp) (by decide), ok_bind, textOf_bytesOf, ok_bind]

def alicePaysBob : Action := payment (.ofString "alice") (.ofString "bob") ⟨300, coreSymbol⟩

def bobPaysCarol : Action := payment (.ofString "bob") (.ofString "carol") ⟨200, coreSymbol⟩

/-- Bob executes, in one action, a payment of Alice, and pays another himself. -/
def wrappedPayment : List Wrapped :=
  [.wrap (.ofString "bob")
    [⟨wrapAccount, .ofString "active"⟩, ⟨.ofString "bob", .ofString "active"⟩]
    onePayment.header [] [.plain alicePaysBob],
   .plain bobPaysCarol]

def wrappedTransaction (u : Unpacker) : Transaction :=
  { header := onePayment.header, actions := packAll u wrappedPayment }

/-- Alice proposes it. -/
def proposeWrapped (u : Unpacker) : List (Context × Call) :=
  [(.permissive (.ofString "eosio.msig"), .propose (.ofString "alice") (.ofString "pay") []
    ((transactionFormat u).write (wrappedTransaction u)))]

/-- Alice has what she pays, and Bob has nothing of his own. -/
def aliceHolds : Token.State :=
  { accounts := (∅ : Table Name Token.FungiblePairs).insert (.ofString "alice")
      (Token.coreTokens 300) }

theorem fits_wrappedTransaction : (transactionFormat {}).Fits (wrappedTransaction {}) := by
  refine fits_transaction rfl rfl (by decide) fun a ha => ?_
  rcases List.mem_pair.mp ha with rfl | rfl
  all_goals exact fits_action (by decide) (by decide +kernel)

theorem fitsAll_wrappedPayment : FitsAll {} wrappedPayment := by
  have htoken : tokenAccount ≠ wrapAccount := by decide
  refine ⟨⟨fits_transaction rfl rfl (by decide) fun a ha => ?_, htoken, trivial⟩, htoken, trivial⟩
  obtain rfl := List.mem_singleton.mp ha
  exact fits_action (by decide) (by decide +kernel)

theorem performAll_wrappedPayment {base : Context} {τ : Token.State} :
    performAll (performTransfer {} base) τ (leavesAll 2 wrappedPayment) = (do
      let τ ← Token.transfer (contextOf base alicePaysBob) τ (.ofString "alice") (.ofString "bob")
        [⟨300, coreSymbol⟩] ""
      Token.transfer (contextOf base bobPaysCarol) τ (.ofString "bob") (.ofString "carol")
        [⟨200, coreSymbol⟩] "") := by
  simp only [wrappedPayment, leavesAll, Wrapped.leaves, performAll, List.append_nil,
    List.singleton_append, List.foldlM_cons, List.foldlM_nil, bind_pure]
  simp only [alicePaysBob, bobPaysCarol, performTransfer_payment]

theorem wrapped_proposal_wrappedPayment :
    let host := packedHost {} (fun _ _ => true) fun _ => Vector.replicate 32 0
    let ctx := Context.permissive (.ofString "eosio.msig")
    ∃ σ σ' actions τ, Run (step host) (fun _ _ => True) {} (proposeWrapped {}) σ ∧
      Msig.exec host ctx σ (.ofString "alice") (.ofString "pay") (.ofString "bob") =
        .ok (σ', actions) ∧
      actions.foldlM (run {} ctx (performTransfer {} ctx) 2) aliceHolds = .ok τ ∧
      (τ.accounts[Name.ofString "carol"]?).map (fun balance => balance[coreSymbol]?) =
        some (some 200) := by
  intro host ctx
  obtain ⟨σ, hσ, hrest⟩ := returns_iff.mp (show returns ((proposeWrapped {}).foldlM (step host) {})
    (fun σ => returns (Msig.exec host ctx σ (.ofString "alice") (.ofString "pay")
      (.ofString "bob")) fun _ => true) = true by decide +kernel)
  obtain ⟨⟨σ', actions⟩, hexec, -⟩ := returns_iff.mp hrest
  have hrun : Run (step host) (fun _ _ => True) {} (proposeWrapped {}) σ :=
    Run.of_foldlM (fun _ _ _ => trivial) hσ
  have hinstance : InstanceOf (proposeWrapped {}) (.ofString "alice") (.ofString "pay")
      ((transactionFormat {}).write (wrappedTransaction {}) ++ []) [] :=
    ⟨[], _, [], by rw [List.append_nil]; rfl, by simp⟩
  have hsigned : SignedAll wrappedPayment :=
    ⟨⟨⟨_, List.mem_cons_self, rfl⟩, ⟨_, List.mem_cons_of_mem _ List.mem_cons_self, rfl⟩,
      trivial, trivial⟩, trivial, trivial⟩
  obtain ⟨τ, hτ, hcarol⟩ := returns_iff.mp (show returns
    (performAll (performTransfer {} ctx) aliceHolds (leavesAll 2 wrappedPayment)) (fun τ =>
      (τ.accounts[Name.ofString "carol"]?).map (fun balance => balance[coreSymbol]?) =
        some (some 200)) = true by
    rw [performAll_wrappedPayment]
    decide +kernel)
  refine ⟨σ, σ', actions, τ, hrun, hexec, ?_, of_decide_eq_true hcarol⟩
  exact (wrapped_proposal hrun fits_wrappedTransaction rfl fitsAll_wrappedPayment hinstance
    hexec).mpr ⟨hsigned, by decide, hτ⟩

end Twig.Wrap
