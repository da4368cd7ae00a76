import SoroCron.Foundation.Machine
import SoroCron.Registry.Host

/-! # Subscriptions

A merchant's plan that the registry's keepers bill: subscribers keep their funds and approve an
allowance, and each charge pulls one payment, at most once per billing period.
-/

namespace SoroCron.SubscriptionContract

open Outcome Bounded

/-! ## Storage -/

inductive Error where
  | invalidPlan
  | notSubscribed
  | alreadyCharged
  | insufficientAllowance
  | alreadySubscribed
  deriving DecidableEq, Repr

abbrev Result (α : Type) := Except (Fault Error Trap) α

/-- A plan that the constructor accepts. -/
structure Plan where
  merchant : Address
  token : Address
  price : ℤ
  period : ℕ
  price_pos : 0 < price
  period_pos : 0 < period

/-- The constructor's checks. -/
def Plan.new (merchant token : Address) (price : ℤ) (period : ℕ) : Except Error Plan :=
  if h : 0 < price ∧ 0 < period then
    .ok { merchant, token, price, period, price_pos := h.1, period_pos := h.2 }
  else
    .error .invalidPlan

structure Subscription where
  start : Timestamp
  /-- Index of the last period charged; period 0 starts at `start`. -/
  lastCharged : Option ℕ
  payments : ℕ
  deriving DecidableEq

/-- The contract with the token it bills in. -/
structure State where
  now : Timestamp
  balances : Balances
  /-- What each holder of the plan's token lets the contract take. -/
  allowance : Address → ℤ
  subs : Store Address Subscription
  jobs : Store JobId Address

/-- Right after the constructor. -/
def State.deployed (now : Timestamp) (balances : Balances) (allowance : Address → ℤ) : State where
  now := now
  balances := balances
  allowance := allowance
  subs := ∅
  jobs := ∅

/-! ## Functions -/

variable (plan : Plan) (s : State)

def currentPeriod (sub : Subscription) : ℕ := (s.now - sub.start) / plan.period

/-- Starts a subscription; the first period begins now. -/
def subscribe (ctx : Ctx) (subscriber : Address) : Result State := do
  require (subscriber ∈ ctx.signers) .notAuthorized
  raise (rejectIf (s.subs.has subscriber = true) .alreadySubscribed)
  return { s with
    subs := s.subs.set subscriber { start := s.now, lastCharged := none, payments := 0 } }

/-- Records which job bills this subscriber. -/
def bindJob (ctx : Ctx) (subscriber : Address) (jobId : JobId) : Result State := do
  require (subscriber ∈ ctx.signers) .notAuthorized
  return { s with jobs := s.jobs.set jobId subscriber }

/-- `transfer_from` of the plan's token, by this contract. -/
def transferFrom (accepts : TokenAccepts) (sender receiver : Address) (amount : ℤ) :
    Result State := do
  require (amount ≤ s.allowance sender) .tokenRefused
  let balances ← orTrap (s.balances.transfer plan.token sender receiver amount
    (accepts s.balances sender receiver amount)) .tokenRefused
  return { s with
    balances, allowance := Function.update s.allowance sender (s.allowance sender - amount) }

/-- Pulls one period's payment from the subscriber to the merchant. Anyone may call it. -/
def charge (accepts : TokenAccepts) (subscriber : Address) : Result State := do
  let sub ← raise (okOr (s.subs.get subscriber) .notSubscribed)
  let period := currentPeriod plan s sub
  raise (rejectIf (∃ last ∈ sub.lastCharged, period ≤ last) .alreadyCharged)
  raise (rejectIf (s.allowance subscriber < plan.price) .insufficientAllowance)
  require (sub.payments + 1 ≤ u32Max) .overflow
  let s := { s with
    subs := s.subs.set subscriber { sub with
      lastCharged := some period, payments := sub.payments + 1 } }
  transferFrom plan s accepts subscriber plan.merchant plan.price

/-- Ends the subscription. -/
def cancel (ctx : Ctx) (subscriber : Address) : Result State := do
  require (subscriber ∈ ctx.signers) .notAuthorized
  return { s with subs := s.subs.remove subscriber }

/-- Whether `charge` would succeed now. -/
def isBillable (subscriber : Address) : Bool :=
  match s.subs.get subscriber with
  | none => false
  | some sub =>
      sub.lastCharged.all (fun last => last < currentPeriod plan s sub) &&
        plan.price ≤ s.allowance subscriber

/-- The resolver, for jobs bound to a subscriber. -/
def shouldRun (jobId : JobId) : Bool :=
  match s.jobs.get jobId with
  | some subscriber => isBillable plan s subscriber
  | none => false

/-! ## The system -/

inductive Action where
  | subscribe (ctx : Ctx) (subscriber : Address)
  | bindJob (ctx : Ctx) (subscriber : Address) (jobId : JobId)
  | charge (subscriber : Address)
  | cancel (ctx : Ctx) (subscriber : Address)
  /-- A holder approves an amount, or an approval runs out. -/
  | allow (holder : Address) (amount : ℤ)
  /-- Balances change in any way without the contract. -/
  | move (balances : Balances)
  | pass (seconds : ℕ)

/-- What concerns a subscriber. -/
inductive Deed where
  | subscribed (subscriber : Address)
  | charged (subscriber : Address)
  | cancelled (subscriber : Address)
  | allowed (holder : Address) (amount : ℤ)
  deriving DecidableEq

/-- What an action does: nothing if the contract refuses it. -/
def act (accepts : TokenAccepts) : Action → State × List Deed
  | .subscribe ctx subscriber =>
      match subscribe s ctx subscriber with
      | .ok s => (s, [.subscribed subscriber])
      | .error _ => (s, [])
  | .bindJob ctx subscriber jobId =>
      match bindJob s ctx subscriber jobId with
      | .ok s => (s, [])
      | .error _ => (s, [])
  | .charge subscriber =>
      match charge plan s accepts subscriber with
      | .ok s => (s, [.charged subscriber])
      | .error _ => (s, [])
  | .cancel ctx subscriber =>
      match cancel s ctx subscriber with
      | .ok s => (s, [.cancelled subscriber])
      | .error _ => (s, [])
  | .allow holder amount =>
      ({ s with allowance := Function.update s.allowance holder amount }, [.allowed holder amount])
  | .move balances => ({ s with balances }, [])
  | .pass seconds => ({ s with now := s.now + seconds }, [])

/-- The contract with everything that concerned its subscribers. -/
def system (accepts : TokenAccepts) : Machine State Action (Timestamp × Deed) where
  step s action := (act plan s accepts action).1
  out s action := (act plan s accepts action).2.map (s.now, ·)

end SoroCron.SubscriptionContract
