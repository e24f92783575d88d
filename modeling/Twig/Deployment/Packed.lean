import Twig.Deployment.Soundness
import Twig.Token.Wire

/-!
# Inline actions as bytes

The parameters of an inline action travel as bytes: the contract that sends it packs them, and the
dispatcher of the one that receives it unpacks them. Among the three contracts every parameter
arrives as it was sent, so the contracts run as if there were no bytes between them. (The `issue` of
`claimdrops`, which the token contract sends to itself, is part of `claimdrops` here.)

* `transmit` — an inline action, packed and unpacked;
* `sendable_of_act` — what an action sends arrives;
* `stepPacked_eq` — the contracts with the bytes between them are the contracts without.
-/

namespace Twig.Deployment

open Std Fallible Twig.System

/-! ### Parameters -/

/-- A `uint32_t`. -/
def epochFormat : Wire.Fixed UInt32 :=
  (Wire.Fixed.number 4).congr ⟨UInt32.ofFin, UInt32.toFin, fun _ => rfl, fun _ => rfl⟩

/-- An inline action, packed by the contract that sends it and unpacked by the dispatcher of the
one that receives it. No other actions have parameters and are sent. -/
def transmit (u : Unpacker) : Action → Outcome Action
  | .token (.issue owner tokens memo) => do
    let args ← Token.unpackIssue u (Token.packIssue owner tokens memo)
    let memo ← textOf args.memo
    pure (.token (.issue args.owner args.tokens memo))
  | .token (.transfer sender receiver tokens memo) => do
    let args ← Token.unpackTransfer u (Token.packTransfer sender receiver tokens memo)
    let memo ← textOf args.memo
    pure (.token (.transfer args.sender args.receiver args.tokens memo))
  | .onepoch epoch => do
    let (epoch, _) ← epochFormat.read Unpacker.pastEnd (epochFormat.write epoch)
    pure (.onepoch epoch)
  | action => pure action

/-- The lengths in the parameters fit in 32 bits. -/
def Sendable : Action → Prop
  | .token (.issue _ tokens memo) =>
    tokens.toList.length < 2 ^ 32 ∧ (bytesOf memo).length < 2 ^ 32
  | .token (.transfer _ _ tokens memo) =>
    tokens.length < 2 ^ 32 ∧ (bytesOf memo).length < 2 ^ 32
  | _ => True

variable {u : Unpacker}

/-- **A sendable action arrives as it was sent.** -/
theorem transmit_of_sendable {a : Action} (h : Sendable a) : transmit u a = .ok a := by
  unfold transmit
  split
  · rw [Token.unpackIssue_packIssue h.1 h.2, ok_bind, textOf_bytesOf]
    rfl
  · rw [Token.unpackTransfer_packTransfer h.1 h.2, ok_bind, textOf_bytesOf]
    rfl
  · next epoch =>
    have hread : epochFormat.read Unpacker.pastEnd (epochFormat.write epoch ++ []) =
        .ok (epoch, []) := Wire.Fixed.read_write
    rw [List.append_nil] at hread
    rw [hread]
    rfl
  · rfl

/-! ### What is sent -/

theorem length_bytesOf_le (s : String) : (bytesOf s).length ≤ 4 * s.toList.length := by
  have hsum := List.sum_le_card_nsmul (s.toList.map fun c => (String.utf8EncodeChar c).length) 4
    fun k hk => by
      obtain ⟨c, -, rfl⟩ := List.mem_map.mp hk
      rw [String.length_utf8EncodeChar]
      exact c.utf8Size_le_four
  rw [List.length_map, smul_eq_mul] at hsum
  rw [bytesOf, List.length_flatMap]
  omega

/-- A short memo, as the contracts write them. -/
def Short (memo : String) : Prop := memo.toList.length ≤ 100

instance {memo : String} : Decidable (Short memo) := inferInstanceAs (Decidable (_ ≤ _))

/-- The text of a name keeps a memo short. -/
theorem short_append_toString {text : String} (h : text.toList.length ≤ 80) (n : Name) :
    Short (text ++ n.toString) := by
  have hname : (Name.charsFrom 13 n.value).length ≤ 13 := Name.length_charsFrom
  rw [Short, String.toList_append, List.length_append, Name.toString, String.toList_ofList]
  omega

theorem sendable_transfer {sender receiver : Name} {quantity : Asset} {memo : String}
    (h : Short memo) : Sendable (.token (.transfer sender receiver [quantity] memo)) := by
  have hbytes := length_bytesOf_le memo
  rw [Short] at h
  exact ⟨by simp, by omega⟩

/-- A transfer of the bank, with a short memo. -/
def FromBank (i : Token.Inline) : Prop :=
  ∃ self p quantity memo, i = Bank.send self p quantity memo ∧ Short memo

theorem FromBank.sendable {i : Token.Inline} (h : FromBank i) : Sendable (.token i.call) := by
  obtain ⟨self, p, quantity, memo, rfl, hshort⟩ := h
  exact sendable_transfer hshort

section Bank

variable {luck : Option ALuckyNumber} {vesting : Table Name Bank.Vesting} {ctx : Context}
  {r : Table Name Bank.Vesting × List Token.Inline}

theorem fromBank_modifyRow {self p : Name} {a : ALuckyNumber} {quantity : Asset}
    {row : Bank.Vesting} {r : Bank.Vesting × List Token.Inline}
    (hok : Bank.modifyRow self p a quantity row = .ok r) : ∀ i ∈ r.2, FromBank i := by
  rw [Bank.modifyRow] at hok
  split_ifs at hok
  · simp only [bind_eq_ok_iff, pure_eq_ok_iff] at hok
    obtain ⟨tokens, -, rfl⟩ := hok
    exact List.forall_mem_singleton.mpr
      ⟨self, p, _, _, rfl, short_append_toString (by decide) p⟩
  · rw [← pure_eq_ok_iff.mp hok]
    exact fun i hi => absurd hi List.not_mem_nil

theorem fromBank_tokenDeposit {sender receiver : Name} {tokens : List Asset} {memo : String}
    (hok : Bank.tokenDeposit ctx luck vesting sender receiver tokens memo = .ok r) :
    ∀ i ∈ r.2, FromBank i := by
  rcases Bank.tokenDeposit_ok hok with rfl | ⟨amount, a, p, -, -, -, -, -, hdeposit⟩
  · exact fun i hi => absurd hi List.not_mem_nil
  · unfold Bank.depositFor at hdeposit
    split at hdeposit
    · simp only [bind_eq_ok_iff, pure_eq_ok_iff] at hdeposit
      obtain ⟨zero, -, vesting', -, rfl⟩ := hdeposit
      exact fun i hi => absurd hi List.not_mem_nil
    · simp only [bind_eq_ok_iff, pure_eq_ok_iff] at hdeposit
      obtain ⟨r', hrow, rfl⟩ := hdeposit
      exact fromBank_modifyRow hrow

theorem fromBank_finishRow {self p : Name} {epoch : UInt32} {row : Bank.Vesting}
    {r : Bank.Vesting × List Token.Inline} (hok : Bank.finishRow self epoch p row = .ok r) :
    ∀ i ∈ r.2, FromBank i := by
  rw [Bank.finishRow] at hok
  split_ifs at hok
  · rw [bind_eq_ok_iff] at hok
    obtain ⟨finished, -, hok⟩ := hok
    split_ifs at hok
    · rw [← pure_eq_ok_iff.mp hok]
      have hmemo : Short "Distributing end of Epoch rewards..." := by decide
      exact List.forall_mem_singleton.mpr ⟨self, p, _, _, rfl, hmemo⟩
    · rw [← pure_eq_ok_iff.mp hok]
      exact fun i hi => absurd hi List.not_mem_nil
  · rw [← pure_eq_ok_iff.mp hok]
    exact fun i hi => absurd hi List.not_mem_nil

theorem fromBank_onepoch {epoch : UInt32} (hok : Bank.onepoch ctx luck vesting epoch = .ok r) :
    ∀ i ∈ r.2, FromBank i := by
  simp only [Bank.onepoch, bind_eq_ok_iff] at hok
  obtain ⟨-, -, a, -, -, -, hupdate⟩ := hok
  obtain ⟨hrows, -, hsends⟩ := OrdMap.updateAll_spec hupdate
  intro i hi
  rw [hsends] at hi
  obtain ⟨e, he, hi⟩ := List.mem_flatMap.mp hi
  exact fromBank_finishRow (hrows e.1 e.2 (OrdMap.mem_toList.mp he)) i hi

end Bank

theorem sendable_chunkIssue (amount : Int64) : Sendable (.token (chunkIssue amount).call) := by
  refine ⟨?_, by decide⟩
  rw [Token.coreTokens, OrdMap.toList_insert_empty]
  exact (by decide : 1 < 2 ^ 32)

theorem sendable_chunkTransfer {chunksTokens : Int64} {t : Name × Int64 × String}
    (ht : t ∈ chunkShares chunksTokens) : Sendable (.token (chunkTransfer t).call) := by
  have hall : ∀ memo ∈ ["team_share", "board_share", "producer_share", "Refilling World..."],
      Short memo := by decide
  have hmemo : t.2.2 ∈ (chunkShares chunksTokens).map fun t => t.2.2 := List.mem_map_of_mem ht
  exact sendable_transfer (hall _ hmemo)

theorem sendable_onchunk {ctx : Context} {σ : System.State} {τ : Token.State}
    {sends : List Token.Inline} (hok : onchunk ctx σ τ = .ok sends) {i : Token.Inline}
    (hi : i ∈ sends) : Sendable (.token i.call) := by
  simp only [onchunk, bind_eq_ok_iff] at hok
  obtain ⟨-, -, a, -, chunksBalance, -, hok⟩ := hok
  split_ifs at hok
  · simp only [bind_eq_ok_iff, pure_eq_ok_iff] at hok
    obtain ⟨supplies, -, maxSupply, -, rfl⟩ := hok
    rcases List.mem_cons.mp hi with rfl | hi
    · exact sendable_chunkIssue _
    · obtain ⟨t, ht, rfl⟩ := List.mem_map.mp hi
      exact sendable_chunkTransfer ht
  · rw [← pure_eq_ok_iff.mp hok] at hi
    obtain ⟨t, ht, rfl⟩ := List.mem_map.mp hi
    exact sendable_chunkTransfer ht

section Runs

variable {hashes : Hashes} {host : Host} {ctx : Context} {d d' : Deployment} {a : Action}
  {sent : List Sent}

theorem sendable_token {sends : List Token.Inline} (h : ∀ i ∈ sends, FromBank i) :
    ∀ i ∈ sends.map (fun i => (⟨i.actor, .token i.call⟩ : Sent)), Sendable i.action := by
  intro i hi
  obtain ⟨j, hj, rfl⟩ := List.mem_map.mp hi
  exact (h j hj).sendable

/-- **What an action sends is sendable**, in every state. -/
theorem sendable_of_act (hok : act hashes host ctx d a = .ok (d', sent)) :
    ∀ i ∈ sent, Sendable i.action := by
  cases a with
  | system call =>
    simp only [act, bind_eq_ok_iff, pure_eq_ok_iff, Prod.mk.injEq] at hok
    obtain ⟨⟨system, effects⟩, happly, -, rfl⟩ := hok
    intro i hi
    obtain ⟨e, he, heq⟩ := List.mem_filterMap.mp hi
    unfold inlineOf at heq
    split at heq
    · rw [← Option.some.inj heq]
      exact trivial
    · rw [← Option.some.inj heq]
      exact trivial
    · obtain ⟨τ, sends, -, hsends, hmem⟩ := onchunk_of_token happly he
      rw [← Option.some.inj heq]
      exact sendable_onchunk hsends hmem
    · exact absurd heq (by simp)
  | token call =>
    simp only [act, bind_eq_ok_iff, pure_eq_ok_iff, Prod.mk.injEq] at hok
    obtain ⟨ledger, -, ⟨vesting, sends⟩, hnotify, -, rfl⟩ := hok
    refine sendable_token ?_
    unfold notify at hnotify
    split at hnotify
    · exact fromBank_tokenDeposit hnotify
    · obtain ⟨-, rfl⟩ := Prod.mk.inj (pure_eq_ok_iff.mp hnotify)
      exact fun i hi => absurd hi List.not_mem_nil
  | onepoch epoch =>
    simp only [act, bind_eq_ok_iff, pure_eq_ok_iff, Prod.mk.injEq] at hok
    obtain ⟨⟨vesting, sends⟩, hepoch, -, rfl⟩ := hok
    exact sendable_token (fromBank_onepoch hepoch)
  | cleanup =>
    simp only [act, bind_eq_ok_iff, pure_eq_ok_iff, Prod.mk.injEq] at hok
    obtain ⟨vesting, -, -, rfl⟩ := hok
    exact fun i hi => absurd hi List.not_mem_nil

variable (u hashes host)

/-- `perform`, with the bytes between the contracts. -/
def performPacked : ℕ → Context → Deployment → Action → Outcome Deployment
  | 0, _, _, _ => .error (.check "max inline action depth per transaction reached")
  | depth + 1, ctx, d, action => do
    let (d, sends) ← act hashes host ctx d action
    sends.foldlM (fun d i => do
      let action ← transmit u i.action
      performPacked depth (ctx.inlineBy i.action.receiver i.actor) d action) d

/-- `step`, with the bytes between the contracts. -/
def stepPacked (depth : ℕ) (d : Deployment) (e : Context × Action) : Outcome Deployment := do
  let d ← performPacked u hashes host depth e.1 d e.2
  pure { d with accounts := e.1.isAccount }

theorem performPacked_eq (depth : ℕ) (ctx : Context) (d : Deployment) (a : Action) :
    performPacked u hashes host depth ctx d a = perform hashes host depth ctx d a := by
  induction depth generalizing ctx d a with
  | zero => rfl
  | succ depth ih =>
    rw [performPacked, perform]
    cases hok : act hashes host ctx d a with
    | error e => rfl
    | ok r =>
      have hsendable := sendable_of_act hok
      refine foldlM_congr fun i hi d => ?_
      rw [transmit_of_sendable (hsendable i hi), ok_bind, ih]

end Runs

end Twig.Deployment
