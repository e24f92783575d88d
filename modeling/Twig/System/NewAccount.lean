import Twig.Lib.Exact
import Twig.Lib.Run
import Twig.System.Native

/-!
# Restricted names

Which names a new account may have, after any history of `setwhitelist`. A name with a dot among
its first twelve symbols, as a short name has at its end, is meant for the account that is its
suffix and for whitelisted creators. But `newaccount` asks for the whitelist *and* for the system
account as the creator: whitelisting anyone else has no effect (`newaccount_of_ne_self`).

* `hasDotLoop_iff` — the loop finds a dot exactly when there is one;
* `newaccount_refuses_iff` — what `newaccount` refuses;
* `restricted_names_iff` — when that is what the whitelist asks for.
-/

namespace Twig.System

open Fallible

variable {ctx : Context} {whitelist whitelist' : Table Name Whitelisted}

/-! ### Dots -/

/-- The symbol at one of the first twelve positions of a name: the first one in the highest
bits. -/
def symbolAt (n : Name) (i : ℕ) : ℕ := n.value.toNat / 2 ^ (59 - 5 * i) % 2 ^ 5

/-- One of the first twelve symbols is the dot. -/
def HasDot (n : Name) : Prop := ∃ i < 12, symbolAt n i = 0

/-- The loop finds a dot among the symbols still to come. -/
theorem hasDotLoop_iff {n : ℕ} : ∀ {tmp : UInt64} {hasDot : Bool},
    hasDotLoop n tmp hasDot = true ↔
      hasDot = true ∨ ∃ i < n, tmp.toNat / 2 ^ (5 * i) % 2 ^ 5 = 0 := by
  induction n with
  | zero =>
    intro tmp hasDot
    simp [hasDotLoop]
  | succ n ih =>
    intro tmp hasDot
    have hshift : (tmp >>> 5).toNat = tmp.toNat / 2 ^ 5 :=
      UInt64.toNat_shiftRight_of_lt (by decide)
    have hmask : tmp &&& 0x1F = 0 ↔ tmp.toNat % 2 ^ 5 = 0 := by
      rw [← UInt64.toNat_inj, UInt64.toNat_and_two_pow_sub_one (n := 5) rfl]
      rfl
    rw [hasDotLoop, ih, hshift, Bool.or_eq_true, decide_eq_true_eq, hmask, or_assoc,
      Nat.exists_lt_succ_left]
    refine or_congr_right (or_congr (by simp) (exists_congr fun i => and_congr_right fun _ => ?_))
    rw [Nat.div_div_eq_div_mul, ← pow_add, Nat.mul_succ, Nat.add_comm 5]

/-- The loop of `newaccount` starts at the twelfth symbol. -/
theorem hasDotLoop_value {n : Name} :
    hasDotLoop 12 (n.value >>> 4) false = true ↔ HasDot n := by
  have hshift : (n.value >>> 4).toNat = n.value.toNat / 2 ^ 4 :=
    UInt64.toNat_shiftRight_of_lt (by decide)
  have hsymbol : ∀ i < 12, n.value.toNat / 2 ^ 4 / 2 ^ (5 * i) % 2 ^ 5 = symbolAt n (11 - i) := by
    intro i hi
    rw [symbolAt, Nat.div_div_eq_div_mul, ← pow_add]
    congr 3
    omega
  rw [hasDotLoop_iff, hshift, HasDot]
  simp only [Bool.false_eq_true, false_or]
  constructor
  · rintro ⟨i, hi, hdot⟩
    exact ⟨11 - i, by omega, (hsymbol i hi).symm.trans hdot⟩
  · rintro ⟨i, hi, hdot⟩
    refine ⟨11 - i, by omega, (hsymbol _ (by omega)).trans ?_⟩
    rw [show 11 - (11 - i) = i by omega]
    exact hdot

/-! ### The whitelist -/

/-- The depth that an account is whitelisted with, zero when it is not. -/
def depthOf (whitelist : Table Name Whitelisted) (account : Name) : ℕ :=
  whitelist[account]?.elim 0 fun row => row.depth.toNat

/-- A call of `setwhitelist`. -/
structure WhitelistCall where
  ctx : Context
  account : Name
  depth : UInt8

def WhitelistCall.step (whitelist : Table Name Whitelisted) (c : WhitelistCall) :
    Outcome (Table Name Whitelisted) :=
  setwhitelist c.ctx whitelist c.account c.depth

/-- The depth that the last successful call for an account has set. -/
def whitelistedDepth (tr : List WhitelistCall) (account : Name) : ℕ :=
  (Run.lastOf WhitelistCall.account account tr).elim 0 fun c => c.depth.toNat

variable {tr : List WhitelistCall} {c : WhitelistCall}

/-- **What a call does**: it stores the depth, or takes the row away when the depth is zero. -/
theorem setwhitelist_ok {account : Name} {depth : UInt8}
    (hok : setwhitelist ctx whitelist account depth = .ok whitelist') :
    (0 < depth ∧ whitelist' = whitelist.insert account ⟨depth⟩) ∨
      (depth = 0 ∧ whitelist' = whitelist.erase account) := by
  simp only [setwhitelist, Context.requireAuth, check_bind_eq_ok_iff] at hok
  obtain ⟨-, hok⟩ := hok
  split_ifs at hok with hnew hdepth
  · obtain ⟨-, rfl⟩ := Table.emplace_eq_ok_iff.mp hok
    exact .inl ⟨hnew.2, rfl⟩
  · exact .inl ⟨hdepth, (pure_eq_ok_iff.mp hok).symm⟩
  · obtain ⟨-, hok⟩ := check_bind_eq_ok_iff.mp hok
    exact .inr ⟨UInt8.le_zero_iff.mp (UInt8.not_lt.mp hdepth), (pure_eq_ok_iff.mp hok).symm⟩

/-- A call sets the depth of its account, and no other. -/
theorem depthOf_step (hok : WhitelistCall.step whitelist c = .ok whitelist') (account : Name) :
    depthOf whitelist' account =
      if c.account = account then c.depth.toNat else depthOf whitelist account := by
  rcases setwhitelist_ok hok with ⟨-, rfl⟩ | ⟨hzero, rfl⟩
  · rw [depthOf, OrdMap.elim_getElem?_insert, depthOf]
  · rw [depthOf, OrdMap.elim_getElem?_erase, hzero, UInt8.toNat_zero, depthOf]

/-- **The depth on record** is that of the last call. -/
theorem depthOf_eq (hrun : Run WhitelistCall.step (fun _ _ => True) ∅ tr whitelist)
    (account : Name) : depthOf whitelist account = whitelistedDepth tr account := by
  have hlast : depthOf whitelist account =
      (Run.lastOf WhitelistCall.account account tr).elim (depthOf ∅ account)
        fun c => c.depth.toNat :=
    hrun.look_eq_lastOf (fun _ _ _ hs => depthOf_step hs) account
  have hempty : depthOf ∅ account = 0 := by simp [depthOf]
  rw [hlast, hempty, whitelistedDepth]

/-! ### New accounts -/

/-- The creator is the suffix of the name, which is not the whole name. -/
def IsProperSuffix (creator n : Name) : Prop := n.suffix = creator ∧ n.suffix ≠ n

/-- A name check has failed. -/
def NameRefused (r : Outcome Unit) : Prop :=
  r = .error (.check "namebids currently disabled") ∨
    r = .error (.check "only suffix may create this account")

/-- The condition under which `newaccount` looks at the name. -/
theorem looksAtName_iff {creator : Name} :
    (creator ≠ ctx.self ∨ whitelist[creator]? = none ∨
        ∃ row ∈ whitelist[creator]?, row.depth ≤ 3) ↔
      ¬ (creator = ctx.self ∧ 3 < depthOf whitelist creator) := by
  rw [not_and_or, not_lt, depthOf]
  refine or_congr_right ?_
  cases whitelist[creator]? with
  | none => simp
  | some row => simp [UInt8.le_iff_toNat_le]

/-- **What `newaccount` refuses**: a name with a dot that is not under the creator's own, unless
the creator is the system account and whitelisted. -/
theorem newaccount_refuses_iff {creator n : Name} :
    NameRefused (newaccount ctx whitelist creator n) ↔
      ¬ (creator = ctx.self ∧ 3 < depthOf whitelist creator) ∧ HasDot n ∧
        ¬ IsProperSuffix creator n := by
  rw [newaccount, ← looksAtName_iff, ← hasDotLoop_value, IsProperSuffix]
  split_ifs with hlooks hdot
  · simp only [hlooks, hdot, true_and]
    by_cases hwhole : n.suffix = n
    · rw [if_pos hwhole]
      exact iff_of_true (.inl rfl) fun hproper => hproper.2 hwhole
    · rw [if_neg hwhole, and_iff_left hwhole, check]
      split_ifs with hcreator
      · exact iff_of_false (by simp [NameRefused]) (not_not.mpr hcreator.symm)
      · exact iff_of_true (.inr rfl) fun hsuffix => hcreator hsuffix.symm
  · exact iff_of_false (by simp [NameRefused, pure, Except.pure]) fun h => hdot h.2.1
  · exact iff_of_false (by simp [NameRefused, pure, Except.pure]) fun h => hlooks h.1

/-- The whitelist has no effect for any other account. -/
theorem newaccount_of_ne_self {creator n : Name} (h : creator ≠ ctx.self) :
    newaccount ctx whitelist creator n = newaccount ctx whitelist' creator n := by
  simp only [newaccount, if_pos (Or.inl h)]

/-- The whitelist leaves the creator no right to the name: it is not whitelisted deeply enough,
and the name has a dot and is not under the creator's own. -/
def NameRestricted (tr : List WhitelistCall) (creator n : Name) : Prop :=
  ¬ 3 < whitelistedDepth tr creator ∧ HasDot n ∧ ¬ IsProperSuffix creator n

/-- **Restricted names.** After every history of `setwhitelist`, for every creator and every name:
`newaccount` refuses exactly the names that the whitelist restricts, unless the creator is
whitelisted, is not the system account, and asks for a name with a dot that is not under its
own. -/
theorem restricted_names_iff (hrun : Run WhitelistCall.step (fun _ _ => True) ∅ tr whitelist)
    (ctx : Context) (creator n : Name) :
    (NameRefused (newaccount ctx whitelist creator n) ↔ NameRestricted tr creator n) ↔
      ¬ (creator ≠ ctx.self ∧ 3 < whitelistedDepth tr creator ∧ HasDot n ∧
        ¬ IsProperSuffix creator n) := by
  rw [newaccount_refuses_iff, NameRestricted, depthOf_eq hrun]
  tauto

/-- The system account whitelists an account. -/
def whitelisting (account : Name) : WhitelistCall where
  ctx := systemContext
  account := account
  depth := 5

theorem whitelisting_run (account : Name) :
    Run WhitelistCall.step (fun _ _ => True) ∅ [whitelisting account]
      ((∅ : Table Name Whitelisted).insert account ⟨5⟩) := by
  refine Run.single trivial ?_
  simp [WhitelistCall.step, whitelisting, setwhitelist, Context.requireAuth, systemContext,
    Context.permissive, check, Table.emplace, ok_bind]

/-- The system account, once whitelisted, may create the account `nice`. -/
theorem restricted_names_iff_systemAccount :
    ∃ whitelist, Run WhitelistCall.step (fun _ _ => True) ∅ [whitelisting systemAccount] whitelist ∧
      ¬ NameRefused (newaccount systemContext whitelist systemAccount (.ofString "nice")) := by
  refine ⟨_, whitelisting_run systemAccount, ?_⟩
  rw [(restricted_names_iff (whitelisting_run systemAccount) systemContext systemAccount
    (.ofString "nice")).mpr (fun h => h.1 rfl)]
  exact fun h => h.1 (by decide +kernel)

/-- Bob may not, however he is whitelisted. -/
theorem whitelisted_bob_refused :
    ∃ whitelist, Run WhitelistCall.step (fun _ _ => True) ∅ [whitelisting (.ofString "bob")]
        whitelist ∧
      ¬ (NameRefused (newaccount systemContext whitelist (.ofString "bob") (.ofString "nice")) ↔
        NameRestricted [whitelisting (.ofString "bob")] (.ofString "bob")
          (.ofString "nice")) := by
  have hdot : HasDot (.ofString "nice") := ⟨11, by decide, by decide +kernel⟩
  have hwhole : (Name.ofString "nice").suffix = .ofString "nice" := by decide +kernel
  have hrefused : NameRefused (newaccount systemContext
      ((∅ : Table Name Whitelisted).insert (.ofString "bob") ⟨5⟩) (.ofString "bob")
      (.ofString "nice")) :=
    newaccount_refuses_iff.mpr ⟨fun h => absurd h.1 (by decide +kernel), hdot,
      fun hproper => hproper.2 hwhole⟩
  refine ⟨_, whitelisting_run (.ofString "bob"), fun hiff => ?_⟩
  exact (hiff.mp hrefused).1 (by decide +kernel)

end Twig.System
