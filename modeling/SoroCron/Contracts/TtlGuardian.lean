import SoroCron.Foundation.Lease
import SoroCron.Foundation.Machine
import SoroCron.Registry.Host

/-! # The TTL guardian

A target that keeps other contracts from being archived: each run extends the instances and the
code of the contracts it is given, if little time is left to them.
-/

namespace SoroCron.TtlGuardian

open Outcome Lease

/-- Hard cap on how many contracts `extendMany` processes in one call. -/
def maxExtendMany : ℕ := 20

inductive Error where
  /-- `threshold` must not exceed `extendTo`, after capping to the network maximum. -/
  | invalidTtl
  | tooManyContracts
  deriving DecidableEq, Repr

/-- What no caller can catch: there is no such contract, or it is archived. -/
inductive Halt where
  | missing
  deriving DecidableEq, Repr

abbrev Result (α : Type) := Except (Fault Error Halt) α

/-! ## The ledger -/

/-- The entries that a contract can extend for another. -/
inductive LedgerKey where
  | contract (address : Address)
  /-- Contracts with the same code share its entry. -/
  | code (hash : Digest)
  deriving DecidableEq

/-- The ledger's limits on entries, and where the guardian is. -/
structure Network where
  guardian : Address
  /-- What a new entry starts with. -/
  initial : ℕ
  maxTtl : ℕ
  initial_le : initial ≤ maxTtl

/-- What the network gives an entry by itself. -/
def Network.terms (network : Network) : LeaseTerms where
  initial := network.initial
  threshold := 0
  extendTo := network.maxTtl
  threshold_le := Nat.zero_le _

structure Ledger where
  leases : Leases LedgerKey
  /-- The code that each contract runs. Built-in contracts have none. -/
  code : Store Address (Option Digest)

def keysOf (address : Address) (code : Option Digest) : List LedgerKey :=
  .contract address :: code.toList.map .code

namespace Ledger

variable (network : Network) (s : Ledger)

def ttl (key : LedgerKey) : Option ℕ := s.leases.ttl key

/-- The entries are there and have not run out. -/
def hasAll (keys : List LedgerKey) : Bool :=
  keys.all fun key => (s.ttl key).any fun left => 0 < left

/-- The contract can be called. -/
def live (address : Address) : Bool :=
  (s.code.get address).any fun code => s.hasAll (keysOf address code)

/-- The deployer's `extend_ttl`. -/
def extendTtl (address : Address) (terms : LeaseTerms) : Result Ledger := do
  let code ← orTrap (s.code.get address) .missing
  require (s.hasAll (keysOf address code) = true) .missing
  return { s with leases := (keysOf address code).foldl (Leases.extend terms) s.leases }

/-! ## Functions -/

def extendOne (address : Address) (threshold extendTo : ℕ) : Result (ℕ × Ledger) :=
  let extendTo := min extendTo network.maxTtl
  if threshold ≤ extendTo then do
    -- The host extends an entry that has no more than `threshold` left.
    let s ← s.extendTtl address
      ⟨network.initial, min (threshold + 1) extendTo, extendTo, Nat.min_le_right _ _⟩
    return (extendTo, s)
  else
    .error (.rejected .invalidTtl)

/-- If little time is left to `address`, extends it. The result is what was applied. -/
def extend (address : Address) (threshold extendTo : ℕ) : Result (ℕ × Ledger) :=
  s.extendOne network address threshold extendTo

def extendEach (threshold extendTo : ℕ) : List Address → Ledger → Result (List ℕ × Ledger)
  | [], s => .ok ([], s)
  | address :: rest, s => do
      let (one, s) ← s.extendOne network address threshold extendTo
      let (more, s) ← extendEach threshold extendTo rest s
      return (one :: more, s)

/-- Like `extend`, for several contracts in one call. -/
def extendMany (addresses : List Address) (threshold extendTo : ℕ) : Result (List ℕ × Ledger) := do
  raise (rejectIf (maxExtendMany < addresses.length) .tooManyContracts)
  extendEach network threshold extendTo addresses s

end Ledger

/-! ## The system -/

inductive Action where
  | extend (address : Address) (threshold extendTo : ℕ)
  | extendMany (addresses : List Address) (threshold extendTo : ℕ)
  /-- Someone extends an entry without the guardian. -/
  | lengthen (key : LedgerKey) (terms : LeaseTerms)
  /-- A new contract. Its code is uploaded unless it is there. -/
  | deploy (address : Address) (code : Option Digest)
  /-- A contract changes its code to one that is there. -/
  | upgrade (address : Address) (hash : Digest)
  /-- Ledgers close. -/
  | close (ledgers : ℕ)
  deriving DecidableEq

def Action.closes : Action → ℕ
  | .close ledgers => ledgers
  | _ => 0

namespace Ledger

variable (network : Network) (s : Ledger)

/-- A new contract, with entries for it and for its code. -/
def create (address : Address) (code : Option Digest) : Ledger where
  leases := (keysOf address code).foldl (Leases.create network.terms) s.leases
  code := s.code.set address code

/-- What a call of the guardian leaves: nothing new if it fails, or if the guardian is archived. -/
def afterCall {Answer : Type} (outcome : Result (Answer × Ledger)) : Ledger :=
  if s.live network.guardian = true then
    match outcome with
    | .ok (_, s) => s
    | .error _ => s
  else
    s

/-- What an action does: nothing if it fails. -/
def step : Action → Ledger
  | .extend address threshold extendTo =>
      s.afterCall network (s.extend network address threshold extendTo)
  | .extendMany addresses threshold extendTo =>
      s.afterCall network (s.extendMany network addresses threshold extendTo)
  | .lengthen key terms =>
      -- The host refuses more than the network's maximum.
      if terms.extendTo ≤ network.maxTtl ∧ s.hasAll [key] = true then
        { s with leases := s.leases.extend terms key }
      else
        s
  | .deploy address code =>
      -- Archived code has to be restored first.
      if s.code.has address = false ∧
          (s.create network address code).hasAll (keysOf address code) = true then
        s.create network address code
      else
        s
  | .upgrade address hash =>
      if s.live address = true ∧ s.hasAll [.code hash] = true then
        { s with code := s.code.set address (some hash) }
      else
        s
  | .close ledgers => { s with leases := { s.leases with ledger := s.leases.ledger + ledgers } }

end Ledger

def system (network : Network) : Machine Ledger Action Unit where
  step := Ledger.step network
  out _ _ := []

end SoroCron.TtlGuardian
