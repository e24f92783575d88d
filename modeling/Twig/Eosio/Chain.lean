import Twig.Eosio.Types
import Twig.Lib.Fallible
import Twig.Lib.OrdMap

/-!
# Actions and tables

What an action of a contract can see and do:

* `Outcome` — a result, or a `Fault`: a failed `eosio::check`, which aborts the transaction
  with its message, or the dereference of a past-the-end iterator, which C++ leaves undefined;
* `Asset.make` — the constructor that refuses an invalid asset;
* `Context` — the receiver, the authorisations the action carries, the accounts that exist and
  the time of the pending block;
* `Table` — a `multi_index` as the ordered map from primary keys to rows, with the operations
  that abort (`emplace` on a stored key, `requireFind`, a singleton's `get`).
-/

namespace Twig

open Std Fallible

/-! ### Outcomes -/

/-- How an action can fail to return. -/
inductive Fault
  /-- `eosio::check` failed: the transaction aborts with the message. -/
  | check (msg : String)
  /-- A past-the-end iterator or a disengaged optional was dereferenced: undefined behaviour. -/
  | deref
deriving DecidableEq, Repr

/-- What an action or a function of a contract comes to. -/
abbrev Outcome := Except Fault

/-- `eosio::check`. -/
def check (p : Prop) [Decidable p] (msg : String) : Outcome Unit :=
  if p then .ok () else .error (.check msg)

/-- The value behind an iterator that the code dereferences without a check. -/
def deref {α : Type} (o : Option α) : Outcome α :=
  match o with
  | some a => .ok a
  | none => .error .deref

@[simp]
theorem check_eq_ok_iff {p : Prop} [Decidable p] {msg : String} {u : Unit} :
    check p msg = .ok u ↔ p := by
  by_cases h : p <;> simp [check, h]

@[simp]
theorem deref_eq_ok_iff {α : Type} {o : Option α} {a : α} : deref o = .ok a ↔ o = some a := by
  cases o <;> simp [deref]

theorem neverFails_check {p : Prop} [Decidable p] {msg : String} :
    NeverFails Fault.deref (check p msg) := by
  by_cases h : p <;> simp [check, h, NeverFails]

theorem neverFails_deref {α : Type} {o : Option α} (h : o.isSome) :
    NeverFails Fault.deref (deref o) := by
  obtain ⟨a, rfl⟩ := Option.isSome_iff_exists.mp h
  exact neverFails_ok

theorem check_congr {p q : Prop} [Decidable p] [Decidable q] (msg : String) (h : p ↔ q) :
    check p msg = check q msg := by
  by_cases hp : p
  · rw [check, check, if_pos hp, if_pos (h.mp hp)]
  · rw [check, check, if_neg hp, if_neg fun hq => hp (h.mpr hq)]

/-- A check in front of a computation. -/
theorem check_bind_eq_ok_iff {α : Type} {p : Prop} [Decidable p] {msg : String}
    {f : Unit → Outcome α} {a : α} : (check p msg >>= f) = .ok a ↔ p ∧ f () = .ok a := by
  rw [bind_eq_ok_iff]
  exact ⟨fun ⟨(), hp, hf⟩ => ⟨check_eq_ok_iff.mp hp, hf⟩,
    fun ⟨hp, hf⟩ => ⟨(), check_eq_ok_iff.mpr hp, hf⟩⟩

/-- The checking constructor `asset(amount, symbol)`. -/
def Asset.make (amount : Int64) (symbol : Symbol) : Outcome Asset := do
  let a : Asset := ⟨amount, symbol⟩
  check a.isAmountWithinRange "magnitude of asset amount must be less than 2^62"
  check symbol.isValid "invalid symbol name"
  pure a

@[simp]
theorem Asset.make_eq_ok_iff {amount : Int64} {symbol : Symbol} {asset : Asset} :
    Asset.make amount symbol = .ok asset ↔
      Asset.isAmountWithinRange ⟨amount, symbol⟩ ∧ symbol.isValid ∧ ⟨amount, symbol⟩ = asset := by
  rw [Asset.make, check_bind_eq_ok_iff, check_bind_eq_ok_iff, pure_eq_ok_iff]

/-- `asset::operator+=`: the sum wraps around before it is checked. -/
def Asset.add (a b : Asset) : Outcome Asset := do
  check (b.symbol = a.symbol) "attempt to add asset with different symbol"
  let sum : Asset := { a with amount := a.amount + b.amount }
  check (-maxAmount ≤ sum.amount) "addition underflow"
  check (sum.amount ≤ maxAmount) "addition overflow"
  pure sum

@[simp]
theorem Asset.add_eq_ok_iff {a b sum : Asset} : a.add b = .ok sum ↔
    b.symbol = a.symbol ∧ -maxAmount ≤ a.amount + b.amount ∧ a.amount + b.amount ≤ maxAmount ∧
      { a with amount := a.amount + b.amount } = sum := by
  rw [Asset.add, check_bind_eq_ok_iff, check_bind_eq_ok_iff, check_bind_eq_ok_iff, pure_eq_ok_iff]

/-! ### The context of an action -/

/-- What an action reads from the chain besides tables. -/
structure Context where
  /-- `get_self()`: the account the contract runs on. -/
  self : Name
  /-- `has_auth(account)`. -/
  hasAuth : Name → Bool
  /-- Whether the action is authorised by `actor@permission`. -/
  hasPermission : PermissionLevel → Bool
  /-- `is_account(account)`. -/
  isAccount : Name → Bool
  /-- The slot of the pending block, from which `current_time_point()` is read. -/
  slot : UInt32

/-- `require_auth(account)`. -/
def Context.requireAuth (ctx : Context) (account : Name) : Outcome Unit :=
  check (ctx.hasAuth account) ("missing authority of " ++ account.toString)

@[simp]
theorem Context.requireAuth_eq_ok_iff {ctx : Context} {account : Name} {u : Unit} :
    ctx.requireAuth account = .ok u ↔ ctx.hasAuth account := by
  simp [requireAuth]

theorem Context.neverFails_requireAuth {ctx : Context} {account : Name} :
    NeverFails Fault.deref (ctx.requireAuth account) :=
  neverFails_check

/-- `require_auth(level)`. -/
def Context.requirePermission (ctx : Context) (level : PermissionLevel) : Outcome Unit :=
  check (ctx.hasPermission level)
    ("missing authority of " ++ level.actor.toString ++ "/" ++ level.permission.toString)

@[simp]
theorem Context.requirePermission_eq_ok_iff {ctx : Context} {level : PermissionLevel} {u : Unit} :
    ctx.requirePermission level = .ok u ↔ ctx.hasPermission level := by
  simp [requirePermission]

/-- A `time_point`, in microseconds since the epoch. Block times start in the year 2000 and a
slot has 32 bits, so no sum the contracts form comes near the 64-bit range. -/
abbrev TimePoint := ℕ

/-- `time_point_sec(t)`: whole seconds, cut to 32 bits. -/
def TimePoint.sec (t : TimePoint) : UInt32 := UInt32.ofNat (t / 1000000)

/-- The time of a block slot: half seconds since the start of the year 2000. -/
def timeOfSlot (slot : UInt32) : TimePoint := (slot.toNat * 500 + 946684800000) * 1000

/-- `current_time_point()`. -/
def Context.currentTimePoint (ctx : Context) : TimePoint := timeOfSlot ctx.slot

/-- The seconds of a block time are not cut. -/
theorem toNat_sec_timeOfSlot (slot : UInt32) :
    (timeOfSlot slot).sec.toNat = timeOfSlot slot / 1000000 := by
  have h := slot.toNat_lt
  rw [TimePoint.sec, UInt32.toNat_ofNat', Nat.mod_eq_of_lt]
  rw [timeOfSlot]
  omega

/-- The context of an inline action authorised by `actor`'s active permission. -/
def Context.inlineBy (ctx : Context) (receiver actor : Name) : Context :=
  { ctx with
    self := receiver
    hasAuth := fun a => a = actor
    hasPermission := fun l => l = ⟨actor, Name.ofString "active"⟩ }

/-- A context that carries every authorisation, on a chain where every account exists. -/
def Context.permissive (self : Name) : Context where
  self := self
  hasAuth _ := true
  hasPermission _ := true
  isAccount _ := true
  slot := 0

/-! ### Tables -/

/-- A `multi_index`: its rows, each filed under its primary key, in key order. A row's key is
not repeated in the row. -/
abbrev Table (κ ρ : Type) [Ord κ] := ExtTreeMap κ ρ

namespace Table

variable {κ ρ : Type} [Ord κ] [TransOrd κ]

/-- `emplace`: the host refuses a primary key that is already stored. -/
def emplace (t : Table κ ρ) (k : κ) (row : ρ) : Outcome (Table κ ρ) := do
  check (k ∉ t)
    "could not insert object, most likely a uniqueness constraint was violated"
  pure (t.insert k row)

/-- `require_find(key, msg)`, and `get(key, msg)`. -/
def requireFind (t : Table κ ρ) (k : κ) (msg : String) : Outcome ρ :=
  match t[k]? with
  | some row => .ok row
  | none => .error (.check msg)

@[simp]
theorem requireFind_eq_ok_iff {t : Table κ ρ} {k : κ} {msg : String} {row : ρ} :
    t.requireFind k msg = .ok row ↔ t[k]? = some row := by
  unfold requireFind
  cases t[k]? <;> simp

theorem requireFind_congr {t t' : Table κ ρ} {k : κ} (msg : String) (h : t[k]? = t'[k]?) :
    t.requireFind k msg = t'.requireFind k msg := by
  rw [requireFind, requireFind, h]

theorem neverFails_requireFind {t : Table κ ρ} {k : κ} {msg : String} :
    NeverFails Fault.deref (t.requireFind k msg) := by
  unfold requireFind
  cases t[k]? <;> simp [NeverFails]

@[simp]
theorem emplace_eq_ok_iff {t t' : Table κ ρ} {k : κ} {row : ρ} :
    t.emplace k row = .ok t' ↔ k ∉ t ∧ t.insert k row = t' := by
  rw [emplace, check_bind_eq_ok_iff, pure_eq_ok_iff]

end Table

/-- `singleton::get()`. -/
def singletonGet {α : Type} (s : Option α) : Outcome α :=
  match s with
  | some a => .ok a
  | none => .error (.check "singleton does not exist")

@[simp]
theorem singletonGet_eq_ok_iff {α : Type} {s : Option α} {a : α} :
    singletonGet s = .ok a ↔ s = some a := by
  cases s <;> simp [singletonGet]

theorem neverFails_singletonGet {α : Type} {s : Option α} :
    NeverFails Fault.deref (singletonGet s) := by
  cases s <;> simp [singletonGet, NeverFails]

end Twig
