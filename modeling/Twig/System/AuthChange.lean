import Twig.Lib.Run
import Twig.System.Native

/-!
# Permissions that change authorities

Which permissions of an account may change its authorities, after any run of `limitauthchg`. An
account has a `Rule`, and each call of `limitauthchg` sets the one of its account: the rule in
force is that of the last call (`ruleOf_eq`). No rule that is accepted shuts out the owner
permission.

* `LimitAuthChg.Valid` — what every stored row keeps to;
* `checkAuthChange_eq_ok_iff` — the check asks the rule in force;
* `owner_never_locked_out` — which calls pass it, read off the last call.
-/

namespace Twig.System

open Fallible

variable {ctx : Context} {limits limits' : Table Name LimitAuthChg} {account : Name}
  {allowPerms disallowPerms : List Name}

/-! ### Rules -/

/-- Which permissions may change the authorities of an account. -/
inductive Rule
  /-- No restriction: the permission need not even be named. -/
  | unlimited
  | only (permissions : List Name)
  | allBut (permissions : List Name)

/-- The rule lets a permission through that is named. -/
def Rule.Permits : Rule → Name → Prop
  | .unlimited, _ => True
  | .only permissions, p => p ∈ permissions
  | .allBut permissions, p => p ∉ permissions

/-- The rule that a row stands for. -/
def LimitAuthChg.rule (row : LimitAuthChg) : Rule :=
  if row.allowPerms ≠ [] then .only row.allowPerms else .allBut row.disallowPerms

/-- The rule in force for an account. -/
def ruleOf (limits : Table Name LimitAuthChg) (account : Name) : Rule :=
  limits[account]?.elim .unlimited LimitAuthChg.rule

theorem ruleOf_eq_unlimited_iff : ruleOf limits account = .unlimited ↔ limits[account]? = none := by
  rw [ruleOf]
  cases limits[account]? with
  | none => simp
  | some row =>
    simp only [Option.elim_some, LimitAuthChg.rule]
    split_ifs <;> simp

/-- **The check**: a permission that is named must have signed, and the rule in force must let it
through; without a name no rule may be in force. -/
theorem checkAuthChange_eq_ok_iff {contract : Name} {authorizedBy : Option Name} {u : Unit} :
    checkAuthChange ctx limits contract account authorizedBy = .ok u ↔
      if (authorizedBy.getD ⟨0⟩).value ≠ 0 then
        ctx.hasPermission ⟨account, authorizedBy.getD ⟨0⟩⟩ = true ∧
          (ruleOf limits account).Permits (authorizedBy.getD ⟨0⟩)
      else ruleOf limits account = .unlimited := by
  rw [ruleOf_eq_unlimited_iff, ruleOf, checkAuthChange]
  generalize authorizedBy.getD ⟨0⟩ = authorized
  split_ifs with hnamed
  · simp only [Context.requirePermission_eq_ok_iff, bind_eq_ok_iff, exists_const]
    refine and_congr_right fun _ => ?_
    cases limits[account]? with
    | none => simp [Rule.Permits]
    | some row =>
      simp only [check_bind_eq_ok_iff, LimitAuthChg.rule, Option.elim_some]
      split_ifs with hallow
      · simp [Rule.Permits, hnamed]
      · simp [Rule.Permits, hnamed]
  · cases limits[account]? with
    | none => simp
    | some row => simp [hnamed]

/-! ### Changes of the rules -/

/-- The lists that `limitauthchg` accepts. -/
structure Accepted (allowPerms disallowPerms : List Name) : Prop where
  one_list : allowPerms = [] ∨ disallowPerms = []
  owner_allowed : allowPerms ≠ [] → ownerPermission ∈ allowPerms
  owner_not_disallowed : ownerPermission ∉ disallowPerms

/-- What every stored row keeps to: it has exactly one list, and that lets the owner permission
through. -/
structure LimitAuthChg.Valid (row : LimitAuthChg) : Prop
    extends Accepted row.allowPerms row.disallowPerms where
  some_list : row.allowPerms ≠ [] ∨ row.disallowPerms ≠ []

theorem LimitAuthChg.Valid.permits_owner {row : LimitAuthChg} (h : row.Valid) :
    row.rule.Permits ownerPermission := by
  rw [rule]
  split_ifs with hallow
  · exact h.owner_allowed hallow
  · exact h.owner_not_disallowed

/-- **What a change does**: it stores the two lists, or takes the row away when both are empty. -/
theorem limitauthchg_ok
    (hok : limitauthchg ctx limits account allowPerms disallowPerms = .ok limits') :
    Accepted allowPerms disallowPerms ∧
      ((∃ version, (allowPerms ≠ [] ∨ disallowPerms ≠ []) ∧
          limits' = limits.insert account ⟨version, allowPerms, disallowPerms⟩) ∨
        (allowPerms = [] ∧ disallowPerms = [] ∧ limits' = limits.erase account)) := by
  simp only [limitauthchg, Context.requireAuth, check_bind_eq_ok_iff] at hok
  obtain ⟨-, hone, howner, hdisallow, hok⟩ := hok
  have haccepted : Accepted allowPerms disallowPerms := by
    refine ⟨hone, fun hallow => howner.resolve_left hallow, fun hmem => ?_⟩
    exact hdisallow.elim (fun hnil => List.not_mem_nil (hnil ▸ hmem)) (fun hnot => hnot hmem)
  refine ⟨haccepted, ?_⟩
  split_ifs at hok with hlists
  · cases hrow : limits[account]? with
    | none =>
      rw [hrow] at hok
      obtain ⟨-, rfl⟩ := Table.emplace_eq_ok_iff.mp hok
      exact .inl ⟨0, hlists, rfl⟩
    | some row =>
      rw [hrow] at hok
      exact .inl ⟨row.version, hlists, (pure_eq_ok_iff.mp hok).symm⟩
  · simp only [not_or, not_not] at hlists
    refine .inr ⟨hlists.1, hlists.2, ?_⟩
    cases hrow : limits[account]? with
    | none =>
      rw [hrow] at hok
      rw [OrdMap.erase_of_not_mem hrow]
      exact (pure_eq_ok_iff.mp hok).symm
    | some row =>
      rw [hrow] at hok
      exact (pure_eq_ok_iff.mp hok).symm

/-! ### Runs -/

/-- A call of `limitauthchg`. -/
structure LimitCall where
  ctx : Context
  account : Name
  allowPerms : List Name
  disallowPerms : List Name

def LimitCall.step (limits : Table Name LimitAuthChg) (c : LimitCall) :
    Outcome (Table Name LimitAuthChg) :=
  limitauthchg c.ctx limits c.account c.allowPerms c.disallowPerms

/-- The rule that a call sets. -/
def LimitCall.rule (c : LimitCall) : Rule :=
  if c.allowPerms ≠ [] then .only c.allowPerms
  else if c.disallowPerms ≠ [] then .allBut c.disallowPerms
  else .unlimited

/-- The last call for an account, of those that have succeeded. -/
def lastLimit (tr : List LimitCall) (account : Name) : Option LimitCall :=
  Run.lastOf LimitCall.account account tr

variable {c : LimitCall} {tr : List LimitCall}

theorem LimitCall.accepted_of_step (hok : c.step limits = .ok limits') :
    Accepted c.allowPerms c.disallowPerms :=
  (limitauthchg_ok hok).1

/-- Every stored row is valid. -/
def LimitsValid (limits : Table Name LimitAuthChg) : Prop :=
  ∀ (account : Name) (row : LimitAuthChg), limits[account]? = some row → row.Valid

theorem LimitsValid.step (h : LimitsValid limits) (hok : LimitCall.step limits c = .ok limits') :
    LimitsValid limits' := by
  obtain ⟨haccepted, ⟨version, hlists, rfl⟩ | ⟨-, -, rfl⟩⟩ := limitauthchg_ok hok
  · exact OrdMap.forall_insert ⟨haccepted, hlists⟩ fun account row _ hrow => h account row hrow
  · exact OrdMap.forall_erase fun account row _ hrow => h account row hrow

/-- The row that a call stores stands for the rule that the call sets. -/
theorem LimitCall.rule_eq {version : UInt8}
    (hlists : c.allowPerms ≠ [] ∨ c.disallowPerms ≠ []) :
    LimitAuthChg.rule ⟨version, c.allowPerms, c.disallowPerms⟩ = c.rule := by
  rw [LimitAuthChg.rule, LimitCall.rule]
  split_ifs with hallow hdisallow
  · rfl
  · rfl
  · exact absurd hlists (not_or.mpr ⟨hallow, hdisallow⟩)

/-- A call sets the rule of its account, and no other. -/
theorem ruleOf_step (hok : LimitCall.step limits c = .ok limits') (account : Name) :
    ruleOf limits' account = if c.account = account then c.rule else ruleOf limits account := by
  obtain ⟨-, ⟨version, hlists, rfl⟩ | ⟨hallow, hdisallow, rfl⟩⟩ := limitauthchg_ok hok
  · rw [ruleOf, OrdMap.elim_getElem?_insert, LimitCall.rule_eq hlists, ruleOf]
  · have hrule : c.rule = .unlimited := by simp [LimitCall.rule, hallow, hdisallow]
    rw [ruleOf, OrdMap.elim_getElem?_erase, hrule, ruleOf]

/-- **The rule in force** is that of the last call. -/
theorem ruleOf_eq (hrun : Run LimitCall.step (fun _ _ => True) ∅ tr limits) (account : Name) :
    ruleOf limits account = (lastLimit tr account).elim .unlimited LimitCall.rule := by
  have hlast : ruleOf limits account =
      (Run.lastOf LimitCall.account account tr).elim (ruleOf ∅ account) LimitCall.rule :=
    hrun.look_eq_lastOf (fun _ _ _ hs => ruleOf_step hs) account
  have hempty : ruleOf ∅ account = .unlimited := by simp [ruleOf]
  rw [hlast, hempty, lastLimit]

/-! ### Access -/

/-- The actions that change the authorities of an account, with the arguments they do not look
at. -/
inductive AuthChange
  | updateauth (permission parent : Name)
  | deleteauth (permission : Name)
  | linkauth (code type requirement : Name)
  | unlinkauth (code type : Name)

def AuthChange.run (ctx : Context) (limits : Table Name LimitAuthChg) (account : Name)
    (authorizedBy : Option Name) : AuthChange → Outcome Unit
  | .updateauth permission parent =>
    System.updateauth ctx limits account permission parent authorizedBy
  | .deleteauth permission => System.deleteauth ctx limits account permission authorizedBy
  | .linkauth code type requirement =>
    System.linkauth ctx limits account code type requirement authorizedBy
  | .unlinkauth code type => System.unlinkauth ctx limits account code type authorizedBy

theorem AuthChange.run_eq {authorizedBy : Option Name} (change : AuthChange) :
    change.run ctx limits account authorizedBy =
      checkAuthChange ctx limits ctx.self account authorizedBy := by
  cases change with
  | updateauth permission parent => rfl
  | deleteauth permission => rfl
  | linkauth code type requirement => rfl
  | unlinkauth code type => rfl

/-- The call sets no restriction. -/
def LimitCall.Lifts (c : LimitCall) : Prop := c.allowPerms = [] ∧ c.disallowPerms = []

/-- The call sets no restriction, or lists the permission as allowed, or uses a list of disallowed
ones without it. -/
def LimitCall.Permits (c : LimitCall) (permission : Name) : Prop :=
  c.Lifts ∨ permission ∈ c.allowPerms ∨
    (c.disallowPerms ≠ [] ∧ permission ∉ c.disallowPerms)

theorem LimitCall.rule_eq_unlimited_iff : c.rule = .unlimited ↔ c.Lifts := by
  rw [rule, Lifts]
  split_ifs with hallow hdisallow
  · simp [hallow]
  · simp [hdisallow]
  · exact iff_of_true rfl ⟨not_not.mp hallow, not_not.mp hdisallow⟩

/-- What the rule of an accepted call lets through. -/
theorem LimitCall.rule_permits_iff (h : Accepted c.allowPerms c.disallowPerms) {p : Name} :
    c.rule.Permits p ↔ c.Permits p := by
  rw [rule, Permits, Lifts]
  split_ifs with hallow hdisallow
  · have hone := h.one_list.resolve_left hallow
    simp [Rule.Permits, hallow, hone]
  · rw [not_not] at hallow
    simp [Rule.Permits, hallow, hdisallow]
  · exact iff_of_true trivial (.inl ⟨not_not.mp hallow, not_not.mp hdisallow⟩)

/-- **Nobody locks out the owner permission.** In every run of `limitauthchg` from an empty table,
every stored row has exactly one list, which lets the owner permission through; so a change of the
authorities of an account that its owner permission has authorised and signed passes the check.
Another permission that is named and has signed passes exactly when the last call for the account,
if there is one, permits it; without a name the change passes exactly when that call, if there is
one, sets no restriction. -/
theorem owner_never_locked_out
    (hrun : Run LimitCall.step (fun _ _ => True) ∅ tr limits) (account : Name) :
    (∀ row, limits[account]? = some row → row.Valid) ∧
      ∀ (ctx : Context) (change : AuthChange),
        (ctx.hasPermission ⟨account, ownerPermission⟩ = true →
          change.run ctx limits account (some ownerPermission) = .ok ()) ∧
        (∀ p : Name, p.value ≠ 0 → ctx.hasPermission ⟨account, p⟩ = true →
          (change.run ctx limits account (some p) = .ok () ↔
            ∀ c, lastLimit tr account = some c → c.Permits p)) ∧
        ∀ authorizedBy : Option Name, authorizedBy = none ∨ authorizedBy = some ⟨0⟩ →
          (change.run ctx limits account authorizedBy = .ok () ↔
            ∀ c, lastLimit tr account = some c → c.Lifts) := by
  have hvalid : LimitsValid limits :=
    hrun.state_invariant (fun _ _ hrow => by simp at hrow) fun _ _ _ hI _ hs => hI.step hs
  have haccepted : ∀ c, lastLimit tr account = some c → Accepted c.allowPerms c.disallowPerms :=
    fun c hc => hrun.forall_mem (fun _ _ _ hs => LimitCall.accepted_of_step hs) c
      (Run.mem_of_lastOf hc)
  have hrule := ruleOf_eq hrun account
  refine ⟨hvalid account, fun ctx change => ⟨fun hsigned => ?_, fun p hp hsigned => ?_,
    fun authorizedBy hempty => ?_⟩⟩
  · have hnamed : ((some ownerPermission).getD ⟨0⟩).value ≠ 0 := by decide
    rw [change.run_eq, checkAuthChange_eq_ok_iff, if_pos hnamed]
    refine ⟨hsigned, ?_⟩
    rw [ruleOf]
    cases hrow : limits[account]? with
    | none => trivial
    | some row => exact (hvalid account row hrow).permits_owner
  · have hnamed : ((some p).getD ⟨0⟩).value ≠ 0 := hp
    rw [change.run_eq, checkAuthChange_eq_ok_iff, if_pos hnamed, Option.getD_some,
      and_iff_right hsigned, hrule]
    cases hlast : lastLimit tr account with
    | none => simp [Rule.Permits]
    | some c => simp [LimitCall.rule_permits_iff (haccepted c hlast)]
  · have hunnamed : ¬ (authorizedBy.getD ⟨0⟩).value ≠ 0 := by
      rcases hempty with rfl | rfl
      · decide
      · decide
    rw [change.run_eq, checkAuthChange_eq_ok_iff, if_neg hunnamed, hrule]
    cases lastLimit tr account with
    | none => simp
    | some c => simp [LimitCall.rule_eq_unlimited_iff]

/-- Alice lets her owner and active permissions change her authorities. -/
def aliceLimits : LimitCall where
  ctx := systemContext
  account := .ofString "alice"
  allowPerms := [ownerPermission, .ofString "active"]
  disallowPerms := []

/-- Alice's owner permission passes, another of her permissions does not, nor does no name. -/
theorem owner_never_locked_out_aliceLimits :
    ∃ limits, Run LimitCall.step (fun _ _ => True) ∅ [aliceLimits] limits ∧
      deleteauth systemContext limits (.ofString "alice") (.ofString "posting")
        (some ownerPermission) = .ok () ∧
      deleteauth systemContext limits (.ofString "alice") (.ofString "posting")
        (some (.ofString "posting")) ≠ .ok () ∧
      deleteauth systemContext limits (.ofString "alice") (.ofString "posting") none ≠ .ok () := by
  have hstep : returns (LimitCall.step ∅ aliceLimits) (fun _ => true) = true := by
    decide +kernel
  obtain ⟨limits, hok, -⟩ := returns_iff.mp hstep
  have hrun : Run LimitCall.step (fun _ _ => True) ∅ [aliceLimits] limits :=
    Run.single trivial hok
  obtain ⟨-, hcalls⟩ := owner_never_locked_out hrun (.ofString "alice")
  obtain ⟨howner, hnamed, hunnamed⟩ :=
    hcalls systemContext (.deleteauth (.ofString "posting"))
  have hlast : lastLimit [aliceLimits] (.ofString "alice") = some aliceLimits := rfl
  refine ⟨limits, hrun, howner rfl, fun hpass => ?_, fun hpass => ?_⟩
  · have hpermits := (hnamed (.ofString "posting") (by decide) rfl).mp hpass _ hlast
    revert hpermits
    rw [LimitCall.Permits, LimitCall.Lifts]
    decide +kernel
  · exact absurd ((hunnamed none (.inl rfl)).mp hpass _ hlast).1 (List.cons_ne_nil _ _)

end Twig.System
