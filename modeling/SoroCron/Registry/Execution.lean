import SoroCron.Registry.Jobs

/-! # Execution

Running due jobs through the executor, alone or in a batch. A run passes a chain of gates,
asks the job's resolver, calls the target, and then charges the job whether or not the
target succeeded. The caller's keeper record and its earnings are held back until the
whole call is done.
-/

namespace SoroCron

open Outcome Bounded

/-- 100% in basis points: the sample of a missed window. -/
def maxBpsScale : ℕ := 10000

variable {World : Type}

/-! ## Gates -/

def ensureActiveKeeper (config : Config) (keeper : Keeper) : Except Error Unit := do
  rejectIf (keeper.unbondingAt.isSome = true) .keeperUnbonding
  rejectIf (keeper.stake < config.minStake) .insufficientStake

/-- Whether the job's own settings allow a run at `now`. -/
def ensureDue (spec : JobSpec) (state : JobState) (now : Timestamp) : Except Error Unit := do
  rejectIf (state.active = false) .jobPaused
  rejectIf (spec.maxRuns ≠ 0 ∧ spec.maxRuns ≤ state.runs) .maxRunsReached
  -- `0` means no limit here and for the number of runs.
  rejectIf (spec.endAt ≠ 0 ∧ spec.endAt ≤ now) .jobExpired
  rejectIf (state.balance < spec.feePerRun) .insufficientJobBalance
  rejectIf (now < state.nextRun) .jobNotDue

/-- For jobs that follow another job: whether the leader has run again since this job
last ran. Returns the leader's run count to record. -/
def dependencyMet (jobs : JobTable) (spec : JobSpec) (state : JobState) : Except Error ℕ :=
  match spec.after with
  | none => .ok state.leaderRuns
  | some leader =>
      match jobs.states.get leader with
      | some leaderState =>
          if state.leaderRuns < leaderState.runs then
            .ok leaderState.runs
          else
            .error .awaitingDependency
      | none => .error .awaitingDependency

/-- A job without a resolver always passes. -/
def resolverAllows (host : Host World) (around : Surroundings World) (jobId : JobId)
    (spec : JobSpec) : OutsideCall World Bool :=
  match spec.resolver with
  | none => { answer := true, world := around.world, moved := 0 }
  | some resolver => host.shouldRun around resolver jobId

/-- The keepers a run may be assigned to, in order. -/
def candidates (keepers : KeeperTable) (spec : JobSpec) : List Address :=
  spec.keepers.getD keepers.active

/-- The keeper reserved for the job's next run, chosen by `sha256(job_id, runs)`. Nobody
when windows are off or the chosen keeper cannot execute. -/
def assignedKeeperFor (host : Host World) (config : Config) (keepers : KeeperTable)
    (jobId : JobId) (spec : JobSpec) (state : JobState) : Option Address := do
  if config.gracePeriod = 0 then
    none
  else
    -- An empty list has no element at any index: nobody is assigned.
    let list := candidates keepers spec
    let chosen ← list[host.sha256Head jobId state.runs % list.length]?
    let info ← keepers.infos.get chosen
    match ensureActiveKeeper config info with
    | .ok () => some chosen
    | .error _ => none

/-- Whether the assigned keeper had its whole window for this run: counted from the latest
of the due time and the last change that could have stopped or reassigned the run. -/
def windowOpened (reg : Registry) (jobId : JobId) (spec : JobSpec) (dueAt : Timestamp) :
    Timestamp :=
  max (max (max dueAt (reg.touchedAt jobId)) reg.windowsReset) (reg.resumedAt spec.target)

def hadWholeWindow (reg : Registry) (config : Config) (jobId : JobId) (spec : JobSpec)
    (dueAt now : Timestamp) : Bool :=
  -- A resolver or a leader can block a run without a trace.
  if spec.resolver.isSome || spec.after.isSome then
    false
  else
    satAdd64 (windowOpened reg jobId spec dueAt) config.gracePeriod ≤ now

/-! ## One run -/

/-- What a keeper earned over one call. -/
structure Payout where
  keeperFees : ℤ := 0
  protocolFees : ℤ := 0

/-- The executing keeper's record and recent stats, loaded once per call. -/
structure KeeperRecord where
  info : Keeper
  recent : KeeperRecent

def KeeperRecord.load (keepers : KeeperTable) (keeper : Address) (info : Keeper) :
    KeeperRecord where
  info := info
  recent := keepers.getKeeperRecent keeper

def KeeperRecord.save (record : KeeperRecord) (keepers : KeeperTable) (keeper : Address) :
    KeeperTable :=
  (keepers.setKeeper keeper record.info).setKeeperRecent keeper record.recent

/-- The record after one more run that was `lateness` seconds late. -/
def KeeperRecord.credit (record : KeeperRecord) (lateness : ℕ) : KeeperRecord where
  info := { record.info with
    executions := satAdd32 record.info.executions 1
    totalLateness := satAdd64 record.info.totalLateness lateness }
  recent :=
    { lateness := smooth record.recent.lateness lateness
      misses := smooth record.recent.misses 0 }

/-- A call in progress: the chain, and what is written and paid at the end. -/
structure Batch (World : Type) where
  chain : Chain World
  record : KeeperRecord
  payout : Payout := {}

/-- The registry state and keeper checks shared by `execute` and `executeBatch`. -/
def authorizeKeeper (host : Host World) (ctx : Ctx) (reg : Registry) (keeper : Address) :
    Result (Address × Keeper) := do
  raise (ensureNotPaused reg.config)
  let executor ← raise (okOr reg.config.executor .executorNotSet)
  requireAuth host ctx keeper
  let info ← raise (okOr (reg.keepers.infos.get keeper) .keeperNotFound)
  raise (ensureActiveKeeper reg.config info)
  return (executor, info)

/-- What the gates established about a run that may go ahead. -/
structure Admission where
  spec : JobSpec
  state : JobState
  /-- The keeper the run was reserved for, if it is another one. -/
  assigned : Option Address
  leaderRuns : ℕ

/-- Every gate before the resolver, in order. -/
def runGates (host : Host World) (reg : Registry) (now : Timestamp) (keeper : Address)
    (jobId : JobId) : Except Error Admission := do
  let config := reg.config
  let (spec, state) ← okOr (reg.jobs.getJobParts jobId) .jobNotFound
  ensureDue spec state now
  -- A job made before `set_executor` could aim at the executor's address.
  rejectIf (isForbiddenTarget host config spec.target = true) .forbiddenTarget
  rejectIf (reg.isTargetHalted spec.target = true) .targetHalted
  rejectIf (∃ allowed ∈ spec.keepers, keeper ∉ allowed) .keeperNotAllowed
  -- Being assigned oneself is the same as nobody being assigned.
  let assigned := (assignedKeeperFor host config reg.keepers jobId spec state).filter (· ≠ keeper)
  rejectIf (assigned.isSome = true ∧ now < satAdd64 state.nextRun config.gracePeriod)
    .notAssignedKeeper
  let leaderRuns ← dependencyMet reg.jobs spec state
  return { spec, state, assigned, leaderRuns }

/-- Records that `missed` let its whole window pass and `ranBy` ran the job. -/
def recordMiss (c : Chain World) (missed ranBy : Address) (jobId : JobId) : Chain World :=
  match c.reg.keepers.infos.get missed with
  | none => c
  | some info =>
      let recent := c.reg.keepers.getKeeperRecent missed
      let keepers := c.reg.keepers.setKeeper missed { info with missed := satAdd32 info.missed 1 }
      let keepers := keepers.setKeeperRecent missed
        { recent with misses := smooth recent.misses maxBpsScale }
      { c with reg := { c.reg with keepers } }.publish (.keeperMissedWindow missed jobId ranBy)

/-- Charges a run to the keeper it was reserved for, if that keeper had its whole window. -/
def chargeAssigned (c : Chain World) (assigned : Option Address) (jobId : JobId) (spec : JobSpec)
    (dueAt : Timestamp) (ranBy : Address) : Chain World :=
  match assigned with
  | some missed =>
      if hadWholeWindow c.reg c.reg.config jobId spec dueAt c.now then
        recordMiss c missed ranBy jobId
      else
        c
  | none => c

def TargetOutcome.success : TargetOutcome → Bool
  | .value _ | .unreadableValue => true
  | .error _ | .unreadableError => false

/-- The value or error whose digest a run's receipt carries. -/
def TargetOutcome.payload : TargetOutcome → Option Val
  | .value v | .error v => some v
  | .unreadableValue | .unreadableError => none

/-- Consecutive failures after a run. -/
def failuresAfter (state : JobState) (success : Bool) : ℕ :=
  if success then 0 else satAdd32 state.failures 1

/-- Whether a run is the failure that makes its job pause itself. -/
def deactivates (config : Config) (state : JobState) (success : Bool) : Bool :=
  !success && config.maxFailures != 0 && config.maxFailures ≤ failuresAfter state success

/-- What a run decided: the target's answer, the amounts, and the job's next balance and run. -/
structure Receipt (World : Type) where
  admission : Admission
  call : OutsideCall World TargetOutcome
  fee : ℤ
  keeperFee : ℤ
  protocolFee : ℤ
  balance : ℤ
  nextRun : Timestamp

namespace Receipt

/-- The job's state after the run, whatever the target did. -/
def state (r : Receipt World) (config : Config) : JobState where
  nextRun := r.nextRun
  balance := r.balance
  runs := satAdd32 r.admission.state.runs 1
  failures := failuresAfter r.admission.state r.call.answer.success
  active :=
    if deactivates config r.admission.state r.call.answer.success then
      false
    else
      r.admission.state.active
  leaderRuns := r.admission.leaderRuns

/-- Stores the job's new state, records a miss, and publishes the run's events. -/
def write (host : Host World) (keeper : Address) (jobId : JobId) (r : Receipt World)
    (c : Chain World) : Chain World :=
  let config := c.reg.config
  let spec := r.admission.spec
  let dueAt := r.admission.state.nextRun
  let success := r.call.answer.success
  let state := r.state config
  let c := c.publishIf (deactivates config r.admission.state success = true)
    (.jobDeactivated jobId state.failures)
  let c := { c with reg := { c.reg with jobs := c.reg.jobs.setState jobId state } }
  let c := c.publishIf (state.balance < spec.feePerRun) (.jobExhausted jobId state.balance)
  let c := chargeAssigned c r.admission.assigned jobId spec dueAt keeper
  c.publish (.jobExecuted jobId keeper success r.fee r.protocolFee state.runs state.nextRun
    (c.now - dueAt) state.failures (host.sha256 r.call.answer.payload))

end Receipt

/-- A run that passed every gate: calls the target, charges the job and adds the earnings
to the payout. -/
def performRun (host : Host World) (executor keeper : Address) (jobId : JobId)
    (admission : Admission) (b : Batch World) : Result (Batch World) := do
  let spec := admission.spec
  let state := admission.state
  let now := b.chain.now
  let call := host.tryExecute b.chain.toSurroundings executor spec.target spec.function spec.args
  let fee ← orTrap (rampedFee spec state now) .overflow
  let (keeperFee, protocolFee) ← orTrap (splitFee fee b.chain.reg.config.protocolFeeBps) .overflow
  let balance ← orTrap (i128 (state.balance - fee)) .overflow
  let nextRun ← orTrap (nextRunAfter state.nextRun spec.interval now) .overflow
  let receipt : Receipt World :=
    { admission, call, fee, keeperFee, protocolFee, balance, nextRun }
  -- Nothing is paid before the whole call is done.
  let keeperFees ← orTrap (i128 (b.payout.keeperFees + keeperFee)) .overflow
  let protocolFees ← orTrap (i128 (b.payout.protocolFees + protocolFee)) .overflow
  return {
    chain := receipt.write host keeper jobId (b.chain.afterCall call)
    record := b.record.credit (now - state.nextRun)
    payout := { keeperFees, protocolFees } }

/-- Runs one job if this keeper may run it now. A rejected run writes nothing in the
registry; what its resolver wrote elsewhere stays unless the whole call fails. -/
def runJob (host : Host World) (executor keeper : Address) (jobId : JobId) (b : Batch World) :
    Result (Except Error Unit × Batch World) :=
  match runGates host b.chain.reg b.chain.now keeper jobId with
  | .error reason => .ok (.error reason, b)
  | .ok admission =>
      let call := resolverAllows host b.chain.toSurroundings jobId admission.spec
      let b := { b with chain := b.chain.afterCall call }
      if call.answer then do
        let b ← performRun host executor keeper jobId admission b
        return (.ok (), b)
      else
        .ok (.error .resolverRejected, b)

/-! ## Calls -/

/-- Pays out a keeper's earnings and the treasury's share. -/
def settle (host : Host World) (c : Chain World) (keeper : Address) (payout : Payout) :
    Result (Chain World) := do
  let c ← c.payOut host c.reg.config.feeToken keeper payout.keeperFees
  match c.reg.config.treasury with
  | some treasury => c.payOut host c.reg.config.feeToken treasury payout.protocolFees
  -- Without a treasury the protocol fee stays with the registry.
  | none => return c

/-- Writes the keeper's record back and pays what the call earned. -/
def finish (host : Host World) (keeper : Address) (b : Batch World) : Result (Chain World) :=
  let keepers := b.record.save b.chain.reg.keepers keeper
  settle host { b.chain with reg := { b.chain.reg with keepers } } keeper b.payout

def startBatch (c : Chain World) (keeper : Address) (info : Keeper) : Batch World where
  chain := c
  record := KeeperRecord.load c.reg.keepers keeper info

/-- Executes a due job. A failed target call is still charged and recorded. -/
def execute (host : Host World) (ctx : Ctx) (c : Chain World) (keeper : Address) (jobId : JobId) :
    Result (Chain World) := do
  let (executor, info) ← authorizeKeeper host ctx c.reg keeper
  let (outcome, b) ← runJob host executor keeper jobId (startBatch c keeper info)
  raise outcome
  finish host keeper b

/-- Runs the jobs in order, skipping the ones that are rejected. -/
def runJobs (host : Host World) (executor keeper : Address) :
    List JobId → Batch World → Result (List Bool × Batch World)
  | [], b => .ok ([], b)
  | jobId :: rest, b => do
      let (outcome, b) ← runJob host executor keeper jobId b
      let (ran, b) ← runJobs host executor keeper rest b
      return (outcome.isOk :: ran, b)

/-- Executes every listed job that this keeper may run now, and pays all earnings at the
end. -/
def executeBatch (host : Host World) (ctx : Ctx) (c : Chain World) (keeper : Address)
    (jobIds : List JobId) : Result (List Bool × Chain World) := do
  raise (rejectIf (jobIds = [] ∨ maxBatch < jobIds.length) .invalidBatchSize)
  let (executor, info) ← authorizeKeeper host ctx c.reg keeper
  let (ran, b) ← runJobs host executor keeper jobIds (startBatch c keeper info)
  let c ← finish host keeper b
  return (ran, c)

/-- Whether some eligible keeper could execute this job now, ignoring which keeper. -/
def isDue (host : Host World) (c : Chain World) (jobId : JobId) : Bool :=
  if c.reg.config.paused || c.reg.config.executor.isNone then
    false
  else
    match c.reg.jobs.getJobParts jobId with
    | some (spec, state) =>
        (ensureDue spec state c.now).isOk && !c.reg.isTargetHalted spec.target &&
          (dependencyMet c.reg.jobs spec state).isOk &&
          (resolverAllows host c.toSurroundings jobId spec).answer
    | none => false

/-- The keeper reserved for this job's next run. -/
def assignedKeeper (host : Host World) (reg : Registry) (jobId : JobId) : Option Address := do
  let (spec, state) ← reg.jobs.getJobParts jobId
  assignedKeeperFor host reg.config reg.keepers jobId spec state

/-- The fee a run would pay if executed now. -/
def currentFee (c : Chain World) (jobId : JobId) : Option (Option ℤ) := do
  let (spec, state) ← c.reg.jobs.getJobParts jobId
  return rampedFee spec state c.now

end SoroCron
