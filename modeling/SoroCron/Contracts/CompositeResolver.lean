import SoroCron.Foundation.Grounding
import SoroCron.Registry.Host

/-! # The composite resolver

A resolver that combines others: it answers `true` if all of them do, or if any of them does.
Composites can be nested, and whoever administers one can make it part of another, so that they
may end up resting on each other.
-/

namespace SoroCron.CompositeResolver

open Outcome Grounding

/-- Bound on sub-resolvers, to keep each check within resource limits. -/
def maxResolvers : ℕ := 8

inductive Error where
  | tooManyResolvers
  | noResolvers
  deriving DecidableEq, Repr

inductive Mode where
  | all
  | any
  deriving DecidableEq, Repr

/-- What a composite stores. -/
structure Combination where
  mode : Mode
  resolvers : List Address
  nonempty : resolvers ≠ []
  bounded : resolvers.length ≤ maxResolvers

def store (mode : Mode) (resolvers : List Address) : Except Error Combination :=
  if hempty : resolvers = [] then
    .error .noResolvers
  else if hlong : maxResolvers < resolvers.length then
    .error .tooManyResolvers
  else
    .ok ⟨mode, resolvers, hempty, not_lt.mp hlong⟩

/-- The answer from the answers of the sub-resolvers. Stops at the first one that decides it. -/
def Combination.shouldRun (combination : Combination) (ask : Address → Bool) : Bool :=
  match combination.mode with
  | .all => combination.resolvers.all ask
  | .any => combination.resolvers.any ask

structure Composite where
  admin : Address
  combination : Combination

/-- The composites that are deployed. -/
abbrev Composites := Store Address Composite

/-- Why a composite or its deployment refuses a call. -/
inductive Halt where
  | notAuthorized
  | noContract
  | inUse
  deriving DecidableEq, Repr

abbrev Result (α : Type) := Except (Fault Error Halt) α

/-- The constructor, at a new address. -/
def deploy (composites : Composites) (address admin : Address) (mode : Mode)
    (resolvers : List Address) : Result Composites := do
  require (composites.has address = false) .inUse
  let combination ← raise (store mode resolvers)
  return composites.set address { admin, combination }

/-- Replaces the mode and the sub-resolvers. -/
def set (composites : Composites) (ctx : Ctx) (address : Address) (mode : Mode)
    (resolvers : List Address) : Result Composites := do
  let composite ← orTrap (composites.get address) .noContract
  require (composite.admin ∈ ctx.signers) .notAuthorized
  let combination ← raise (store mode resolvers)
  return composites.set address { composite with combination }

/-- What every other contract returns from `should_run`: nothing if it fails, or if what it returns
is no boolean. -/
abbrev Answers := Address → JobId → Option Bool

/-- `should_run` of a contract, through `try_invoke_contract`, while the composites `busy` wait for
the answer. -/
def ask (composites : Composites) (answers : Answers) (jobId : JobId) (busy : List Address)
    (resolver : Address) : Bool :=
  -- The host refuses a call to a contract that waits for one: that counts as a failure.
  if _ : resolver ∈ busy then
    false
  else
    match _ : composites.get resolver with
    | none => answers resolver jobId = some true
    | some composite =>
        composite.combination.shouldRun fun sub =>
          ask composites answers jobId (resolver :: busy) sub
termination_by (composites.keys \ busy.toFinset).card
decreasing_by
  refine card_left_lt ?_ ‹_›
  rw [Store.mem_keys, ‹composites.get resolver = some _›]
  rfl

end SoroCron.CompositeResolver
