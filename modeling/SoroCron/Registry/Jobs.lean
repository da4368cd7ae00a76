import SoroCron.Registry.Host
import SoroCron.Registry.Schedule

/-! # Job operations

Creating, updating, funding, withdrawing from, cancelling, pausing and handing over jobs.
An operation takes the chain as it finds it and returns its result with the chain it
leaves; a failure of either kind reverts the call.
-/

namespace SoroCron

open Outcome

/-- Most jobs in one `createJobs` or `executeBatch` call, and most keepers in one
`withdrawStakes` call. -/
def maxBatch : ℕ := 20

/-- Maximum length of a job's keeper allowlist. -/
def maxJobKeepers : ℕ := 10

variable {World : Type}

def ensureNotPaused (config : Config) : Except Error Unit :=
  rejectIf (config.paused = true) .paused

/-! ## Validation -/

/-- Checks the settings shared by `createJob` and `updateJob`; the effective interval is a
calendar's period for calendar schedules. -/
def validateSchedule (config : Config) (interval : ℕ) (schedule : Schedule) (argsLen : ℕ)
    (feePerRun maxFeePerRun : ℤ) (keepers : Option (List Address)) : Except Error ℕ := do
  let interval ← (match calendarPeriod schedule with
    | some period => do
        rejectIf (interval ≠ 0 ∨ scheduleIsValid schedule = false) .invalidCalendar
        return period
    | none => do
        rejectIf (interval = 0) .invalidInterval
        return interval)
  rejectIf (config.minInterval ≠ 0 ∧ interval < config.minInterval) .intervalTooShort
  rejectIf (config.maxArgs ≠ 0 ∧ config.maxArgs < argsLen) .tooManyArgs
  rejectIf (feePerRun ≤ 0) .invalidFee
  rejectIf (maxFeePerRun ≠ 0 ∧ maxFeePerRun < feePerRun) .invalidSetting
  rejectIf (∃ list ∈ keepers, maxJobKeepers < list.length) .tooManyKeepers
  return interval

/-- Jobs may not target SoroCron's own contracts or the tokens it custodies. -/
def isForbiddenTarget (host : Host World) (config : Config) (target : Address) : Bool :=
  target == host.registry || config.executor == some target || target == config.feeToken ||
    target == config.stakeToken

/-- Checks a new job's parameters and deposit against the registry's limits. -/
def validateJob (host : Host World) (reg : Registry) (params : JobParams) (deposit : ℤ) :
    Except Error Unit := do
  let _ ← validateSchedule reg.config params.interval params.schedule params.args.length
    params.feePerRun params.maxFeePerRun params.keepers
  rejectIf (deposit < params.feePerRun) .invalidAmount
  rejectIf (isForbiddenTarget host reg.config params.target = true) .forbiddenTarget
  -- A new job cannot name itself: its id is not issued yet.
  rejectIf (∃ leader ∈ params.after, reg.jobs.states.get leader = none) .jobNotFound

/-- The leader's current run count, for a job that follows `after`; a job cannot follow
itself. -/
def leaderRunsOf (reg : Registry) (jobId : JobId) (after : Option JobId) : Except Error ℕ :=
  match after with
  | none => .ok 0
  | some leader => do
      rejectIf (leader = jobId) .awaitingDependency
      let state ← okOr (reg.jobs.states.get leader) .jobNotFound
      return state.runs

/-- The run count of the leader that a new job records, `0` without a leader. -/
def initialLeaderRuns (jobs : JobTable) (after : Option JobId) : ℕ :=
  ((after.bind jobs.states.get).map JobState.runs).getD 0

/-! ## Creation -/

/-- The spec stored for a new job. -/
def JobParams.toSpec (params : JobParams) (owner : Address) : JobSpec where
  owner := owner
  target := params.target
  function := params.function
  args := params.args
  interval := (calendarPeriod params.schedule).getD params.interval
  schedule := params.schedule
  feePerRun := params.feePerRun
  maxFeePerRun := params.maxFeePerRun
  maxRuns := params.maxRuns
  endAt := params.endAt
  resolver := params.resolver
  keepers := params.keepers
  after := params.after

/-- The state stored for a new job. -/
def JobParams.toState (params : JobParams) (jobs : JobTable) (now : Timestamp) (deposit : ℤ) :
    JobState where
  nextRun := firstCalendarRun params.schedule (max params.startAt now)
  balance := deposit
  runs := 0
  failures := 0
  active := true
  leaderRuns := initialLeaderRuns jobs params.after

/-- Stores a validated job whose deposit has already been transferred in. -/
def insertJob (c : Chain World) (owner : Address) (params : JobParams) (deposit : ℤ) :
    Result (JobId × Chain World) := do
  let (id, jobs) ← c.reg.jobs.takeNextJobId
  let spec := params.toSpec owner
  let state := params.toState jobs c.now deposit
  let jobs := ((jobs.setSpec id spec).setState id state).addOwnerJob owner id
  let c := { c with reg := { c.reg with jobs } }
  return (id, c.publish
    (.jobCreated id owner spec.target spec.interval spec.feePerRun deposit))

/-- Registers a new job and escrows `deposit` of the fee token. -/
def createJob (host : Host World) (ctx : Ctx) (c : Chain World) (owner : Address)
    (params : JobParams) (deposit : ℤ) : Result (JobId × Chain World) := do
  raise (ensureNotPaused c.reg.config)
  requireAuth host ctx owner
  raise (validateJob host c.reg params deposit)
  let c ← c.transfer host c.reg.config.feeToken owner host.registry deposit
  insertJob c owner params deposit

/-- Validates every pair in order and adds up the deposits. -/
def validateJobs (host : Host World) (reg : Registry) :
    List (JobParams × ℤ) → ℤ → Except Error ℤ
  | [], total => .ok total
  | (params, deposit) :: rest, total => do
      validateJob host reg params deposit
      let total ← okOr (i128 (total + deposit)) .invalidAmount
      validateJobs host reg rest total

/-- Stores every pair in order. -/
def insertJobs (owner : Address) :
    List (JobParams × ℤ) → Chain World → Result (List JobId × Chain World)
  | [], c => .ok ([], c)
  | (params, deposit) :: rest, c => do
      let (id, c) ← insertJob c owner params deposit
      let (ids, c) ← insertJobs owner rest c
      return (id :: ids, c)

/-- Registers several jobs for one owner with a single token transfer. -/
def createJobs (host : Host World) (ctx : Ctx) (c : Chain World) (owner : Address)
    (jobs : List JobParams) (deposits : List ℤ) : Result (List JobId × Chain World) := do
  raise (ensureNotPaused c.reg.config)
  requireAuth host ctx owner
  raise (rejectIf (jobs = [] ∨ maxBatch < jobs.length) .invalidBatchSize)
  raise (rejectIf (jobs.length ≠ deposits.length) .lengthMismatch)
  let total ← raise (validateJobs host c.reg (jobs.zip deposits) 0)
  let c ← c.transfer host c.reg.config.feeToken owner host.registry total
  insertJobs owner (jobs.zip deposits) c

/-! ## Settings -/

/-- A spec after an update; only the owner and the target stay. -/
def JobUpdate.applyTo (update : JobUpdate) (spec : JobSpec) (interval : ℕ) : JobSpec :=
  { spec with
    function := update.function
    args := update.args
    interval := interval
    schedule := update.schedule
    feePerRun := update.feePerRun
    maxFeePerRun := update.maxFeePerRun
    maxRuns := update.maxRuns
    endAt := update.endAt
    resolver := update.resolver
    keepers := update.keepers
    after := update.after }

/-- The next run is kept unless the job switches to a different calendar. -/
def JobUpdate.nextRun (update : JobUpdate) (spec : JobSpec) (state : JobState) (now : Timestamp) :
    Timestamp :=
  if update.schedule ≠ .interval ∧ update.schedule ≠ spec.schedule then
    firstCalendarRun update.schedule now
  else
    state.nextRun

/-- Changes a job's call, schedule, fees, limits, resolver and keeper allowlist. -/
def updateJob (host : Host World) (ctx : Ctx) (c : Chain World) (jobId : JobId)
    (update : JobUpdate) : Result (Chain World) := do
  raise (ensureNotPaused c.reg.config)
  let (spec, state) ← raise (okOr (c.reg.jobs.getJobParts jobId) .jobNotFound)
  requireAuth host ctx spec.owner
  let interval ← raise (validateSchedule c.reg.config update.interval update.schedule
    update.args.length update.feePerRun update.maxFeePerRun update.keepers)
  let leaderRuns ← raise
    -- Keeping the leader keeps the run count recorded of it.
    (if update.after ≠ spec.after then
      leaderRunsOf c.reg jobId update.after
    else
      .ok state.leaderRuns)
  let state := { state with nextRun := update.nextRun spec state c.now, leaderRuns }
  let spec := update.applyTo spec interval
  let jobs := (c.reg.jobs.setSpec jobId spec).setState jobId state
  let c := { c with reg := { c.reg with jobs }.touch jobId c.now }
  return c.publish (.jobUpdated jobId spec.interval spec.feePerRun spec.maxRuns spec.endAt)

/-! ## Funds -/

/-- Tops up a job's fee balance; anyone may fund any job. -/
def fundJob (host : Host World) (ctx : Ctx) (c : Chain World) (payer : Address) (jobId : JobId)
    (amount : ℤ) : Result (ℤ × Chain World) := do
  raise (ensureNotPaused c.reg.config)
  requireAuth host ctx payer
  raise (rejectIf (amount ≤ 0) .invalidAmount)
  let state ← raise (okOr (c.reg.jobs.states.get jobId) .jobNotFound)
  let c ← c.transfer host c.reg.config.feeToken payer host.registry amount
  let balance ← orTrap (i128 (state.balance + amount)) .overflow
  let jobs := c.reg.jobs.setState jobId { state with balance }
  let c := { c with reg := { c.reg with jobs }.touch jobId c.now }
  return (balance, c.publish (.jobFunded jobId payer amount balance))

/-- Deletes a job and refunds its remaining balance to the owner, even while paused. -/
def cancelJob (host : Host World) (ctx : Ctx) (c : Chain World) (jobId : JobId) :
    Result (ℤ × Chain World) := do
  let (spec, state) ← raise (okOr (c.reg.jobs.getJobParts jobId) .jobNotFound)
  requireAuth host ctx spec.owner
  let jobs := (c.reg.jobs.removeJob jobId).removeOwnerJob spec.owner jobId
  let c := { c with reg := { c.reg with jobs } }
  let c ← c.payOut host c.reg.config.feeToken spec.owner state.balance
  return (state.balance, c.publish (.jobCancelled jobId state.balance))

/-- Withdraws part of a job's fee balance back to the owner, even while paused. -/
def withdrawJobBalance (host : Host World) (ctx : Ctx) (c : Chain World) (jobId : JobId)
    (amount : ℤ) : Result (ℤ × Chain World) := do
  let (spec, state) ← raise (okOr (c.reg.jobs.getJobParts jobId) .jobNotFound)
  requireAuth host ctx spec.owner
  raise (rejectIf (amount ≤ 0 ∨ state.balance < amount) .invalidAmount)
  let balance ← orTrap (i128 (state.balance - amount)) .overflow
  let jobs := c.reg.jobs.setState jobId { state with balance }
  let c := { c with reg := { c.reg with jobs }.touch jobId c.now }
  let c ← c.transfer host c.reg.config.feeToken host.registry spec.owner amount
  return (balance, c.publish (.jobWithdrawn jobId amount balance))

/-- Pauses or resumes a job; resuming clears the failure count. -/
def setJobActive (host : Host World) (ctx : Ctx) (c : Chain World) (jobId : JobId)
    (active : Bool) : Result (Chain World) := do
  let (spec, state) ← raise (okOr (c.reg.jobs.getJobParts jobId) .jobNotFound)
  requireAuth host ctx spec.owner
  -- Resuming a job that is not paused clears the count as well.
  let state := { state with active, failures := if active then 0 else state.failures }
  let jobs := c.reg.jobs.setState jobId state
  let c := { c with reg := { c.reg with jobs }.touch jobId c.now }
  return c.publish (.jobActiveSet jobId active)

/-! ## Ownership -/

/-- Starts handing a job to `newOwner`; proposing the current owner withdraws the proposal. -/
def proposeJobOwner (host : Host World) (ctx : Ctx) (c : Chain World) (jobId : JobId)
    (newOwner : Address) : Result (Chain World) := do
  let spec ← raise (okOr (c.reg.jobs.specs.get jobId) .jobNotFound)
  requireAuth host ctx spec.owner
  let jobs :=
    if newOwner = spec.owner then
      c.reg.jobs.removePendingOwner jobId
    else
      c.reg.jobs.setPendingOwner jobId newOwner
  let c := { c with reg := { c.reg with jobs } }
  return c.publish (.jobOwnerProposed jobId spec.owner newOwner)

/-- Completes a job handover, signed by the proposed owner. -/
def acceptJobOwner (host : Host World) (ctx : Ctx) (c : Chain World) (jobId : JobId) :
    Result (Chain World) := do
  let spec ← raise (okOr (c.reg.jobs.specs.get jobId) .jobNotFound)
  let newOwner ← raise (okOr (c.reg.jobs.pendingOwners.get jobId) .noPendingOwner)
  requireAuth host ctx newOwner
  let jobs := ((c.reg.jobs.removePendingOwner jobId).removeOwnerJob spec.owner jobId).addOwnerJob
    newOwner jobId
  let jobs := jobs.setSpec jobId { spec with owner := newOwner }
  let c := { c with reg := { c.reg with jobs } }
  return c.publish (.jobOwnerChanged jobId spec.owner newOwner)

end SoroCron
