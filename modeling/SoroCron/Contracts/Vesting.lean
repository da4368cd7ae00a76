import SoroCron.Foundation.Machine
import SoroCron.Registry.Host

/-! # Vesting

A contract that holds tokens for beneficiaries and releases what has vested, linearly in time after
a cliff, whenever anybody asks it to.
-/

namespace SoroCron.VestingContract

open Outcome Bounded

/-! ## Storage -/

/-- Every failure of the contract is a panic. -/
inductive Panic where
  | notAuthorized
  | invalidParameters
  | scheduleExists
  | scheduleNotFound
  | nothingToRelease
  | tokenRefused
  | overflow
  deriving DecidableEq, Repr

abbrev Result (α : Type) := Except Panic α

/-- A schedule with parameters that `createSchedule` accepts. -/
structure VestingSchedule where
  totalAmount : ℤ
  releasedAmount : ℤ
  startTime : ℕ
  cliffDuration : ℕ
  totalDuration : ℕ
  revocable : Bool
  revoked : Bool
  total_pos : 0 < totalAmount
  duration_pos : 0 < totalDuration
  cliff_le : cliffDuration ≤ totalDuration

/-- What the constructor fixes, with the contract's own address. -/
structure Instance where
  self : Address
  admin : Address
  token : Address

/-- The contract with the balances of all tokens. -/
structure State where
  now : Timestamp
  balances : Balances
  schedules : Store Address VestingSchedule

/-- Right after the constructor. -/
def State.deployed (now : Timestamp) (balances : Balances) : State where
  now := now
  balances := balances
  schedules := ∅

/-! ## Functions -/

variable (this : Instance) (accepts : TokenAccepts) (s : State)

def transfer (sender receiver : Address) (amount : ℤ) : Result State := do
  let balances ← okOr (s.balances.transfer this.token sender receiver amount
    (accepts s.balances sender receiver amount)) .tokenRefused
  return { s with balances }

/-- The parameters of a new schedule. -/
structure Params where
  totalAmount : ℤ
  startTime : ℕ
  cliffDuration : ℕ
  totalDuration : ℕ
  revocable : Bool

/-- Creates a schedule and takes its tokens from the admin. The contract never signs for itself. -/
def createSchedule (ctx : Ctx) (beneficiary : Address) (params : Params) : Result State := do
  rejectIf (¬ (this.admin ∈ ctx.signers ∧ this.admin ≠ this.self)) .notAuthorized
  if h : 0 < params.totalAmount ∧ 0 < params.totalDuration ∧
      params.cliffDuration ≤ params.totalDuration then do
    rejectIf (s.schedules.has beneficiary = true) .scheduleExists
    let s ← transfer this accepts s this.admin this.self params.totalAmount
    return { s with schedules := s.schedules.set beneficiary {
      totalAmount := params.totalAmount
      releasedAmount := 0
      startTime := params.startTime
      cliffDuration := params.cliffDuration
      totalDuration := params.totalDuration
      revocable := params.revocable
      revoked := false
      total_pos := h.1
      duration_pos := h.2.1
      cliff_le := h.2.2 } }
  else
    .error .invalidParameters

/-- What has vested of a schedule; nothing when the arithmetic overflows. -/
def VestingSchedule.vestedAt (schedule : VestingSchedule) (now : ℕ) : Option ℤ :=
  if schedule.revoked then
    some schedule.releasedAmount
  else do
    let cliff ← checkedAdd64 schedule.startTime schedule.cliffDuration
    if now < cliff then
      some 0
    else do
      let finish ← checkedAdd64 schedule.startTime schedule.totalDuration
      if finish ≤ now then
        some schedule.totalAmount
      else do
        let scaled ← i128 (schedule.totalAmount * ((now - schedule.startTime : ℕ) : ℤ))
        return scaled / schedule.totalDuration

def vestedAmount (beneficiary : Address) : Option ℤ :=
  match s.schedules.get beneficiary with
  | none => some 0
  | some schedule => schedule.vestedAt s.now

/-- Subtraction of `i128`s that stops at the ends of their range. -/
def saturatingSub (a b : ℤ) : ℤ := max i128Min (min i128Max (a - b))

def releasableAmount (beneficiary : Address) : Option ℤ :=
  match s.schedules.get beneficiary with
  | none => some 0
  | some schedule =>
      (vestedAmount s beneficiary).map fun vested => saturatingSub vested schedule.releasedAmount

/-- Releases what has vested to its beneficiary. Anybody may call it. -/
def releaseVested (beneficiary : Address) : Result (ℤ × State) := do
  let schedule ← okOr (s.schedules.get beneficiary) .scheduleNotFound
  let releasable ← okOr (releasableAmount s beneficiary) .overflow
  rejectIf (releasable ≤ 0) .nothingToRelease
  let releasedAmount ← okOr (i128 (schedule.releasedAmount + releasable)) .overflow
  let s := { s with schedules := s.schedules.set beneficiary { schedule with releasedAmount } }
  let s ← transfer this accepts s this.self beneficiary releasable
  return (releasable, s)

/-- The resolver's check for one beneficiary; it panics where the arithmetic does. -/
def shouldRunFor (beneficiary : Address) : Option Bool :=
  (releasableAmount s beneficiary).map (0 < ·)

/-! ## The system -/

inductive Action where
  | createSchedule (ctx : Ctx) (beneficiary : Address) (params : Params)
  | releaseVested (beneficiary : Address)
  /-- Balances change without the contract. -/
  | move (balances : Balances)
  | pass (seconds : ℕ)

/-- The argument types bound the parameters, and nobody else spends the contract's tokens. -/
def Admissible (s : State) : Action → Prop
  | .createSchedule _ _ params => params.totalAmount ≤ i128Max
  | .move balances => s.balances this.token this.self ≤ balances this.token this.self
  | _ => True

/-- What was released to whom. -/
abbrev Release := Address × ℤ

def act : Action → State × List Release
  | .createSchedule ctx beneficiary params =>
      match createSchedule this accepts s ctx beneficiary params with
      | .ok s => (s, [])
      | .error _ => (s, [])
  | .releaseVested beneficiary =>
      match releaseVested this accepts s beneficiary with
      | .ok (amount, s) => (s, [(beneficiary, amount)])
      | .error _ => (s, [])
  | .move balances => ({ s with balances }, [])
  | .pass seconds => ({ s with now := s.now + seconds }, [])

/-- The contract with everything that it released. -/
def system : Machine State Action Release where
  step s action := (act this accepts s action).1
  out s action := (act this accepts s action).2

end SoroCron.VestingContract
