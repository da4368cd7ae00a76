import SoroCron.Foundation.Life
import SoroCron.Registry.Host

/-! # The DAO timelock

A target that the registry's keepers run: governance queues calls, and each run executes those
whose time has come. A call that fails stays queued until its grace period ends, and then expires.
-/

namespace SoroCron.Timelock

open Outcome Bounded

variable {World : Type}

/-! ## Storage -/

/-- Calls executed per `executeReady`, to stay within transaction limits. -/
def maxPerRun : ℕ := 10

inductive Error where
  | etaTooSoon
  | unknownCall
  deriving DecidableEq, Repr

/-- What no caller can catch. -/
inductive Halt where
  | notAuthorized
  | overflow
  | exhausted
  deriving DecidableEq, Repr

abbrev Result (α : Type) := Except (Fault Error Halt) α

structure Call where
  target : Address
  function : String
  args : List Val
  /-- Earliest execution time. -/
  eta : Timestamp
  deriving DecidableEq

structure Storage where
  admin : Address
  /-- Minimum seconds between queueing and the ETA. -/
  delay : ℕ
  /-- Seconds after the ETA during which a call may still execute. -/
  grace : ℕ
  nextId : ℕ
  /-- Ids of queued calls, oldest first. -/
  queued : List ℕ
  calls : Store ℕ Call

/-- The constructor. -/
def Storage.new (admin : Address) (delay grace : ℕ) : Storage where
  admin := admin
  delay := delay
  grace := grace
  nextId := 0
  queued := []
  calls := ∅

/-- What was done about one call. Failures leave no event. -/
inductive Deed where
  | queued (id : ℕ) (call : Call)
  | cancelled (id : ℕ)
  | executed (id : ℕ)
  | failed (id : ℕ)
  | expired (id : ℕ)
  deriving DecidableEq

def Deed.id : Deed → ℕ
  | .queued id _ | .cancelled id | .executed id | .failed id | .expired id => id

/-- How a call that the timelock makes ends. A failure is undone by the host, and what runs out of
the transaction's budget takes the whole transaction with it. -/
inductive Invoked (World : Type) where
  | returned (world : World)
  | failed
  | exhausted

/-- Other contracts. They cannot call the timelock back: the host forbids re-entry. -/
abbrev Outside (World : Type) :=
  Timestamp → World → (target : Address) → (function : String) → List Val → Invoked World

/-! ## Functions -/

namespace Storage

variable (s : Storage)

def pushed (call : Call) : Storage :=
  { s with
    nextId := s.nextId + 1
    calls := s.calls.set s.nextId call
    queued := s.queued ++ [s.nextId] }

/-- Queues a call to run at or after its ETA, which must be at least the delay from now. -/
def queue (ctx : Ctx) (now : Timestamp) (call : Call) : Result (ℕ × Storage) := do
  require (s.admin ∈ ctx.signers) .notAuthorized
  raise (rejectIf (call.eta < satAdd64 now s.delay) .etaTooSoon)
  require (s.nextId + 1 ≤ u64Max) .overflow
  return (s.nextId, s.pushed call)

def without (id : ℕ) : Storage :=
  { s with
    queued := s.queued.erase id
    calls := s.calls.remove id }

def remove (id : ℕ) : Option Storage := if id ∈ s.queued then some (s.without id) else none

def cancel (ctx : Ctx) (id : ℕ) : Result Storage := do
  require (s.admin ∈ ctx.signers) .notAuthorized
  raise (okOr (s.remove id) .unknownCall)

/-- The resolver: whether at least one call is ready to run or to expire. -/
def shouldRun (now : Timestamp) : Bool :=
  s.queued.any fun id => (s.calls.get id).any fun call => call.eta ≤ now

end Storage

/-- A run under way. -/
structure Turn (World : Type) where
  storage : Storage
  world : World
  executed : ℕ := 0
  deeds : List Deed := []

variable (outside : Outside World) (now : Timestamp)

/-- One call of the queue in a run. -/
def visit (id : ℕ) (t : Turn World) : Result (Turn World) :=
  match t.storage.calls.get id with
  | none => .ok t
  | some call =>
      if now < call.eta then
        .ok t
      else if satAdd64 call.eta t.storage.grace ≤ now then
        .ok { t with
          storage := (t.storage.remove id).getD t.storage
          deeds := t.deeds ++ [.expired id] }
      else
        match outside now t.world call.target call.function call.args with
        | .returned world =>
            .ok {
              storage := (t.storage.remove id).getD t.storage
              world
              executed := t.executed + 1
              deeds := t.deeds ++ [.executed id] }
        | .failed => .ok { t with deeds := t.deeds ++ [.failed id] }
        | .exhausted => .error (.trap .exhausted)

def visitAll : List ℕ → Turn World → Result (Turn World)
  | [], t => .ok t
  | id :: rest, t =>
      if maxPerRun ≤ t.executed then
        .ok t
      else do
        let t ← visit outside now id t
        visitAll rest t

/-- Executes every queued call whose ETA has passed and expires those past their grace period. -/
def executeReady (world : World) (s : Storage) : Result (Turn World) :=
  visitAll outside now s.queued { storage := s, world }

/-! ## The system -/

structure State (World : Type) where
  now : Timestamp
  world : World
  storage : Storage

inductive Action (World : Type) where
  | queue (ctx : Ctx) (call : Call)
  | cancel (ctx : Ctx) (id : ℕ)
  | executeReady
  /-- Time passes, and other contracts do what they do. -/
  | pass (seconds : ℕ) (world : World)

variable (s : State World)

/-- What an action does: nothing if the timelock refuses it. -/
def act : Action World → State World × List Deed
  | .queue ctx call =>
      match s.storage.queue ctx s.now call with
      | .ok (id, storage) => ({ s with storage }, [.queued id call])
      | .error _ => (s, [])
  | .cancel ctx id =>
      match s.storage.cancel ctx id with
      | .ok storage => ({ s with storage }, [.cancelled id])
      | .error _ => (s, [])
  | .executeReady =>
      match executeReady outside s.now s.world s.storage with
      | .ok t => ({ s with storage := t.storage, world := t.world }, t.deeds)
      | .error _ => (s, [])
  | .pass seconds world => ({ s with now := s.now + seconds, world }, [])

/-- The timelock with everything done about its calls. -/
def system : Machine (State World) (Action World) (Timestamp × Deed) where
  step s action := (act outside s action).1
  out s action := (act outside s action).2.map (s.now, ·)

/-! ## What was done -/

/-- The call may execute at this time. -/
def InWindow (grace : ℕ) (call : Call) (now : Timestamp) : Prop :=
  call.eta ≤ now ∧ now < satAdd64 call.eta grace

instance (grace : ℕ) (call : Call) (now : Timestamp) : Decidable (InWindow grace call now) :=
  inferInstanceAs (Decidable (_ ∧ _))

/-- Everything that one deed at time `now` changes. -/
inductive Change (now : Timestamp) : Deed → Storage → Storage → Prop where
  | queued {s : Storage} {call : Call} (hdelay : satAdd64 now s.delay ≤ call.eta) :
      Change now (.queued s.nextId call) s (s.pushed call)
  | cancelled {s : Storage} {id : ℕ} (hqueued : id ∈ s.queued) :
      Change now (.cancelled id) s (s.without id)
  | executed {s : Storage} {id : ℕ} {call : Call} (hcall : s.calls.get id = some call)
      (hwindow : InWindow s.grace call now) : Change now (.executed id) s (s.without id)
  | failed {s : Storage} {id : ℕ} {call : Call} (hcall : s.calls.get id = some call)
      (hwindow : InWindow s.grace call now) : Change now (.failed id) s s
  | expired {s : Storage} {id : ℕ} {call : Call} (hcall : s.calls.get id = some call)
      (hlate : satAdd64 call.eta s.grace ≤ now) : Change now (.expired id) s (s.without id)

/-- The queue lists exactly the ids of the stored calls, oldest first. -/
structure Storage.Sound (s : Storage) : Prop where
  ordered : s.queued.Pairwise (· < ·)
  issued : ∀ id ∈ s.queued, id < s.nextId
  stored : ∀ id, id ∈ s.queued ↔ (s.calls.get id).isSome = true

end SoroCron.Timelock
