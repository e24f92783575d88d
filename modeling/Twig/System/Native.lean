import Twig.System.Basic

/-!
# Native and admin actions

The actions of the system contract that the chain runs in front of its own: which permissions may
change the authorities of an account (`limitauthchg`, `checkAuthChange`), and which names a new
account may have (`setwhitelist`, `newaccount`); and `cleanblocks`, which empties a table of
recorded blocks. Each action gets the one table it works on.

`newaccount` does nothing but check the name: the bids it would clean up are those of a name that
it has refused in the line before.
-/

namespace Twig.System

open Std

/-! ### Changes of authorities -/

/-- A row of `limitauthchg`, filed under its account. -/
structure LimitAuthChg where
  version : UInt8 := 0
  allowPerms : List Name
  disallowPerms : List Name
deriving DecidableEq

/-- The permission that controls an account. -/
def ownerPermission : Name := .ofString "owner"

def checkAuthChange (ctx : Context) (limitauthchg : Table Name LimitAuthChg)
    (_contract account : Name) (authorizedBy : Option Name) : Outcome Unit := do
  let authorized := authorizedBy.getD ⟨0⟩
  let () ← if authorized.value ≠ 0 then ctx.requirePermission ⟨account, authorized⟩ else pure ()
  match limitauthchg[account]? with
  | none => pure ()
  | some row =>
    check (authorized.value ≠ 0) "authorized_by is required for this account"
    if row.allowPerms ≠ [] then
      check (authorized ∈ row.allowPerms) "authorized_by does not appear in allow_perms"
    else
      check (authorized ∉ row.disallowPerms) "authorized_by appears in disallow_perms"

def limitauthchg (ctx : Context) (limitauthchg : Table Name LimitAuthChg) (account : Name)
    (allowPerms disallowPerms : List Name) : Outcome (Table Name LimitAuthChg) := do
  ctx.requireAuth account
  check (allowPerms = [] ∨ disallowPerms = [])
    "either allow_perms or disallow_perms must be empty"
  check (allowPerms = [] ∨ ownerPermission ∈ allowPerms) "allow_perms does not contain owner"
  check (disallowPerms = [] ∨ ownerPermission ∉ disallowPerms) "disallow_perms contains owner"
  if allowPerms ≠ [] ∨ disallowPerms ≠ [] then
    match limitauthchg[account]? with
    | none => limitauthchg.emplace account { allowPerms, disallowPerms }
    | some row => pure (limitauthchg.insert account { row with allowPerms, disallowPerms })
  else
    match limitauthchg[account]? with
    | none => pure limitauthchg
    | some _ => pure (limitauthchg.erase account)

section Native

variable (ctx : Context) (limitauthchg : Table Name LimitAuthChg)

def updateauth (account _permission _parent : Name) (authorizedBy : Option Name) : Outcome Unit :=
  checkAuthChange ctx limitauthchg ctx.self account authorizedBy

def deleteauth (account _permission : Name) (authorizedBy : Option Name) : Outcome Unit :=
  checkAuthChange ctx limitauthchg ctx.self account authorizedBy

def linkauth (account _code _type _requirement : Name) (authorizedBy : Option Name) :
    Outcome Unit :=
  checkAuthChange ctx limitauthchg ctx.self account authorizedBy

def unlinkauth (account _code _type : Name) (authorizedBy : Option Name) : Outcome Unit :=
  checkAuthChange ctx limitauthchg ctx.self account authorizedBy

end Native

/-! ### New accounts -/

/-- A row of `whitelist`, filed under its account. -/
structure Whitelisted where
  depth : UInt8
deriving DecidableEq

def setwhitelist (ctx : Context) (whitelist : Table Name Whitelisted) (account : Name)
    (depth : UInt8) : Outcome (Table Name Whitelisted) := do
  ctx.requireAuth ctx.self
  if account ∉ whitelist ∧ 0 < depth then whitelist.emplace account { depth }
  else if 0 < depth then pure (whitelist.insert account { depth })
  else
    check (account ∈ whitelist) "cannot pass end iterator to erase"
    pure (whitelist.erase account)

/-- The loop of `newaccount`, with `n` symbols of the name still to come. -/
def hasDotLoop : ℕ → UInt64 → Bool → Bool
  | 0, _, hasDot => hasDot
  | n + 1, tmp, hasDot => hasDotLoop n (tmp >>> 5) (hasDot || tmp &&& 0x1F = 0)

def newaccount (ctx : Context) (whitelist : Table Name Whitelisted)
    (creator newAccountName : Name) : Outcome Unit :=
  if creator ≠ ctx.self ∨ whitelist[creator]? = none ∨
      ∃ row ∈ whitelist[creator]?, row.depth ≤ 3 then
    if hasDotLoop 12 (newAccountName.value >>> 4) false then
      let suffix := newAccountName.suffix
      -- the bids for the name are cleaned up after this check, so never
      if suffix = newAccountName then check False "namebids currently disabled"
      else check (creator = suffix) "only suffix may create this account"
    else pure ()
  else pure ()

/-! ### Recorded blocks -/

/-- A round of the loop of `cleanblocks`, on the table and the iterator, which is the height of a
row or past the end: the row is erased, and the iterator moves on to the next one. -/
def eraseRound : Table UInt32 BlockInfo × Option UInt32 → Table UInt32 BlockInfo × Option UInt32
  | (blockinfo, none) => (blockinfo, none)
  | (blockinfo, some height) => (blockinfo.erase height, OrdMap.nextKey blockinfo height)

/-- The loop of `cleanblocks` after a number of rounds. -/
def cleanLoop (rounds : ℕ) (blockinfo : Table UInt32 BlockInfo) :
    Table UInt32 BlockInfo × Option UInt32 :=
  eraseRound^[rounds] (blockinfo, blockinfo.minKey?)

/-- `cleanblocks`, on the tables by scope. Its loop takes as many rounds as there are rows
(`cleanLoop_size`). -/
def cleanblocks (ctx : Context) (blockinfo : UInt64 → Table UInt32 BlockInfo) :
    Outcome (UInt64 → Table UInt32 BlockInfo) := do
  ctx.requireAuth ctx.self
  let (rows, _) := cleanLoop (blockinfo 0).size (blockinfo 0)
  pure (Function.update blockinfo 0 rows)

/-- **The loop ends**, and no row is left. -/
theorem cleanLoop_size {n : ℕ} {blockinfo : Table UInt32 BlockInfo} (hsize : blockinfo.size = n) :
    cleanLoop n blockinfo = (∅, none) := by
  induction n generalizing blockinfo with
  | zero =>
    obtain rfl := ExtTreeMap.eq_empty_iff_size_eq_zero.mpr hsize
    rw [cleanLoop, ExtTreeMap.minKey?_empty]
    rfl
  | succ n ih =>
    cases hmin : blockinfo.minKey? with
    | none =>
      obtain rfl := ExtTreeMap.minKey?_eq_none_iff.mp hmin
      exact absurd hsize (by simp)
    | some height =>
      have hmem : height ∈ blockinfo := ExtTreeMap.minKey?_mem hmin
      have hrest : (blockinfo.erase height).size = n := by
        rw [ExtTreeMap.size_erase, ExtTreeMap.contains_iff_mem.mpr hmem, if_pos rfl, hsize,
          Nat.add_sub_cancel]
      -- the iterator stands at the first of the rows that are left
      rw [cleanLoop, hmin, Function.iterate_succ_apply, eraseRound,
        OrdMap.nextKey_eq_minKey?_erase hmin]
      exact ih hrest

end Twig.System
