import Mathlib.Algebra.Group.Pi.Basic
import SoroCron.Registry.Storage

/-! # The host around the registry

What the registry meets but does not define: other contracts, the SEP-41 tokens, the
hash, and the signatures on a call. `World` is the state of every other contract; only
calls to resolvers and targets, and whatever happens between calls, change it.
-/

namespace SoroCron

open Outcome

/-- Token balances, by token and holder. -/
abbrev Balances := Address → Address → ℤ

/-- What every contract can see of the chain around the registry: the clock, the state of
the other contracts, and all token balances. -/
structure Surroundings (World : Type) where
  now : Timestamp
  world : World
  balances : Balances

/-- What `try_execute` on a target reports: a value, an unreadable value, a contract error
or an unreadable failure. -/
inductive TargetOutcome where
  | value (returned : Val)
  | unreadableValue
  | error (raised : Val)
  | unreadableError
  deriving DecidableEq

/-- A call to another contract: its answer and its effects outside the registry. -/
structure OutsideCall (World Answer : Type) where
  answer : Answer
  world : World
  /-- How much each balance grew or shrank. -/
  moved : Balances

/-- A change of balances that takes nothing from `holder` and leaves it with balances that
fit a token's `i128`. -/
def Spares (holder : Address) (balances moved : Balances) : Prop :=
  ∀ token, 0 ≤ moved token holder ∧
    (balances token holder ≤ i128Max → balances token holder + moved token holder ≤ i128Max)

/-- The environment of a registry deployed at the address `registry`.

The laws are the host's: no contract spends from the registry's balances without the
registry's own authorization, which it only gives in its transfers, and no token lets a
balance of the registry overflow. -/
structure Host (World : Type) where
  registry : Address
  /-- `should_run` of a resolver, through `try_invoke`: `true` only if it returned `true`. -/
  shouldRun : Surroundings World → (resolver : Address) → JobId → OutsideCall World Bool
  /-- `try_execute` of the executor: calls `target.function(args)`. -/
  tryExecute : Surroundings World → (executor target : Address) → (function : String) →
    List Val → OutsideCall World TargetOutcome
  /-- Whether a token accepts a transfer that its sender can cover. -/
  acceptsTransfer : Surroundings World → (token sender receiver : Address) → ℤ → Bool
  /-- The first eight bytes, as a number, of `sha256(job_id, runs)`. -/
  sha256Head : JobId → ℕ → ℕ
  /-- `sha256` of a serialized value, or of no bytes. -/
  sha256 : Option Val → Digest
  shouldRun_spares : ∀ around resolver jobId,
    Spares registry around.balances (shouldRun around resolver jobId).moved
  tryExecute_spares : ∀ around executor target function args,
    Spares registry around.balances (tryExecute around executor target function args).moved
  accepts_fits : ∀ around token sender amount, sender ≠ registry →
    acceptsTransfer around token sender registry amount = true →
      around.balances token registry + amount ≤ i128Max

/-- The chain as a call finds it: its surroundings, the registry's storage, and every event
the registry published so far with its time. -/
structure Chain (World : Type) extends Surroundings World where
  reg : Registry
  log : List (Timestamp × Event) := []

/-- The addresses whose authorization a call carries. -/
structure Ctx where
  signers : List Address

variable {World : Type}

/-- `require_auth`. The registry never signs: it would have to be its own caller, and the
host forbids re-entry. -/
def requireAuth (host : Host World) (ctx : Ctx) (who : Address) : Result Unit :=
  require (who ∈ ctx.signers ∧ who ≠ host.registry) .notAuthorized

/-- The change a transfer makes to all balances. -/
def movedBy (token sender receiver : Address) (amount : ℤ) : Balances := fun token' holder =>
  (if token' = token ∧ holder = receiver then amount else 0) -
    (if token' = token ∧ holder = sender then amount else 0)

/-- Whether a token accepts a transfer that its sender can cover. -/
abbrev TokenAccepts := Balances → (sender receiver : Address) → ℤ → Bool

/-- A SEP-41 transfer: moves exactly `amount`, if the sender has it and the token accepts it. -/
def Balances.transfer (balances : Balances) (token sender receiver : Address) (amount : ℤ)
    (accepted : Bool) : Option Balances :=
  if 0 ≤ amount ∧ amount ≤ balances token sender ∧ accepted = true then
    some (balances + movedBy token sender receiver amount)
  else
    none

namespace Chain

def publish (c : Chain World) (event : Event) : Chain World :=
  { c with log := c.log ++ [(c.now, event)] }

/-- Publish `event` if `condition` holds. -/
def publishIf (c : Chain World) (condition : Prop) [Decidable condition] (event : Event) :
    Chain World :=
  { c with log := c.log ++ (if condition then [event] else []).map (c.now, ·) }

@[simp] theorem publish_toSurroundings (c : Chain World) (event : Event) :
    (c.publish event).toSurroundings = c.toSurroundings := rfl

@[simp] theorem publish_reg (c : Chain World) (event : Event) :
    (c.publish event).reg = c.reg := rfl

@[simp] theorem publish_log (c : Chain World) (event : Event) :
    (c.publish event).log = c.log ++ [(c.now, event)] := rfl

section PublishIf

variable (c : Chain World) (condition : Prop) [Decidable condition] (event : Event)

@[simp] theorem publishIf_toSurroundings :
    (c.publishIf condition event).toSurroundings = c.toSurroundings := rfl

@[simp] theorem publishIf_reg : (c.publishIf condition event).reg = c.reg := rfl

@[simp] theorem publishIf_log : (c.publishIf condition event).log =
    c.log ++ (if condition then [event] else []).map (c.now, ·) := rfl

end PublishIf

/-- A transfer in the middle of a call: it succeeds or traps. -/
def transfer (host : Host World) (c : Chain World) (token sender receiver : Address) (amount : ℤ) :
    Result (Chain World) := do
  let balances ← orTrap (c.balances.transfer token sender receiver amount
    (host.acceptsTransfer c.toSurroundings token sender receiver amount)) .tokenRefused
  return { c with balances }

/-- A transfer out of the registry, skipped when there is nothing to pay. -/
def payOut (host : Host World) (c : Chain World) (token receiver : Address) (amount : ℤ) :
    Result (Chain World) :=
  if 0 < amount then c.transfer host token host.registry receiver amount else .ok c

/-- The effects of a call to another contract on everything but the registry. -/
def afterCall {Answer : Type} (c : Chain World) (call : OutsideCall World Answer) : Chain World :=
  { c with world := call.world, balances := c.balances + call.moved }

end Chain

section Laws

variable {host : Host World} {ctx : Ctx} {c c' : Chain World} {token sender receiver : Address}
  {amount : ℤ}

@[simp] theorem requireAuth_eq_ok {who : Address} {u : Unit} :
    requireAuth host ctx who = .ok u ↔ who ∈ ctx.signers ∧ who ≠ host.registry :=
  require_eq_ok

theorem movedBy_apply (token' holder : Address) :
    movedBy token sender receiver amount token' holder =
      (if token' = token ∧ holder = receiver then amount else 0) -
        (if token' = token ∧ holder = sender then amount else 0) := rfl

@[simp] theorem movedBy_zero : movedBy token sender receiver 0 = 0 := by
  funext token' holder
  simp [movedBy]

theorem movedBy_add (first second : ℤ) :
    movedBy token sender receiver (first + second) =
      movedBy token sender receiver first + movedBy token sender receiver second := by
  funext token' holder
  simp only [movedBy, Pi.add_apply]
  split <;> split <;> omega

theorem Balances.transfer_eq_some {balances balances' : Balances} {accepted : Bool} :
    balances.transfer token sender receiver amount accepted = some balances' ↔
      (0 ≤ amount ∧ amount ≤ balances token sender ∧ accepted = true) ∧
        balances' = balances + movedBy token sender receiver amount := by
  rw [Balances.transfer, Option.ite_none_right_eq_some, Option.some.injEq, eq_comm (a := balances')]

theorem Chain.transfer_eq_ok :
    c.transfer host token sender receiver amount = .ok c' ↔
      (0 ≤ amount ∧ amount ≤ c.balances token sender ∧
        host.acceptsTransfer c.toSurroundings token sender receiver amount = true) ∧
      c' = { c with balances := c.balances + movedBy token sender receiver amount } := by
  simp only [Chain.transfer, bind_eq_ok, orTrap_eq_ok, Balances.transfer_eq_some, pure_eq_ok]
  constructor
  · rintro ⟨balances, ⟨hcovers, rfl⟩, rfl⟩
    exact ⟨hcovers, rfl⟩
  · rintro ⟨hcovers, rfl⟩
    exact ⟨_, ⟨hcovers, rfl⟩, rfl⟩

/-- A payment changes nothing but balances. -/
theorem Chain.payOut_frame (h : c.payOut host token receiver amount = .ok c') :
    c' = { c with balances := c'.balances } := by
  unfold Chain.payOut at h
  split at h
  · rw [(Chain.transfer_eq_ok.mp h).2]
  · cases h
    rfl

/-- A payment changes balances as the transfer of its amount would, whether or not a
transfer took place. -/
theorem Chain.payOut_eq_ok (hnonneg : 0 ≤ amount)
    (h : c.payOut host token receiver amount = .ok c') :
    c' = { c with balances := c.balances + movedBy token host.registry receiver amount } := by
  unfold Chain.payOut at h
  split at h
  · exact (Chain.transfer_eq_ok.mp h).2
  · have hzero : amount = 0 := by omega
    subst hzero
    simpa using (Except.ok.inj h).symm

end Laws

end SoroCron
