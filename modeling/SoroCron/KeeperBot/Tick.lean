import SoroCron.Foundation.Machine
import SoroCron.Registry.Earnings

/-! # A tick of the TypeScript keeper

The due jobs go out in batches. A batch is simulated first, and sent if the fees of the jobs
that would run cover its cost; otherwise it is tried again in halves. The client answers each
call as it likes, and the batches of one tick take turns in any order.
-/

namespace SoroCron.KeeperBot

/-! ## The client -/

/-- A due job as the index lists it. -/
structure DueJob where
  id : JobId
  feePerRun : ℤ

/-- What a call of the client threw, as far as the tick tells errors apart. -/
inductive ClientError where
  | restoreRequired (fee : ℤ)
  /-- A `SoroCronError`. -/
  | registry
  | unexpectedAuth
  | simulationFailed
  | jobProblem
  | other

/-- Whether a failed batch should be split to find the job causing it. -/
def isJobSpecific : ClientError → Bool
  | .jobProblem | .unexpectedAuth | .simulationFailed => true
  | .restoreRequired _ | .registry | .other => false

/-- A simulated transaction. The keeper never looks at `view`, what it was simulated on. -/
structure Prepared (View : Type) where
  result : List Bool
  resourceFee : ℤ
  view : View

abbrev Simulation (View : Type) := Except ClientError (Prepared View)

inductive SendError where
  | staleSequence
  | other

/-- Everything the client and the network answer while one batch is tried. -/
structure Answers (View : Type) where
  inclusionFee : ℕ
  simulation : Simulation View
  restore : Except ClientError Unit
  /-- The simulation after a restore. -/
  resimulation : Simulation View
  send : Except SendError Unit
  /-- The simulation after a stale sequence number. -/
  rebuilt : Simulation View
  resend : Except SendError Unit

/-- A transaction that was sent, whether or not it applied. -/
structure Submission (View : Type) where
  ids : List JobId
  prepared : Prepared View
  inclusionFee : ℕ

def Submission.cost {View : Type} (s : Submission View) : ℤ :=
  s.prepared.resourceFee + s.inclusionFee

/-! ## State -/

structure TickDeps where
  keeper : Address
  batchSize : ℕ
  minProfitStroops : ℤ := 0
  feeIsNative : Bool := false
  maxRestoreFee : ℤ := 0
  maxCostPerJob : ℤ := 0
  dryRun : Bool := false

structure TickSummary where
  due : ℕ := 0
  batches : ℕ := 0
  executed : ℕ := 0
  skipped : ℕ := 0
  unprofitable : ℕ := 0
  failed : ℕ := 0
  earnedStroops : ℤ := 0
  restores : ℕ := 0
  restoreFeeStroops : ℤ := 0
  quarantined : ℕ := 0
  dryRun : ℕ := 0

/-- Jobs set aside after failing on their own, each until some tick. -/
structure Quarantine where
  untilTick : List (JobId × ℕ) := []
  ticks : ℕ := 0
  length : ℕ := 30

namespace Quarantine

/-- Advances one tick and releases jobs whose time is up. -/
def next (q : Quarantine) : Quarantine :=
  { q with
    ticks := q.ticks + 1, untilTick := q.untilTick.filter fun entry => q.ticks + 1 < entry.2 }

def has (q : Quarantine) (id : JobId) : Bool := q.untilTick.any fun entry => entry.1 = id

def add (q : Quarantine) (id : JobId) : Quarantine :=
  { q with
    untilTick := (q.untilTick.filter fun entry => entry.1 ≠ id) ++ [(id, q.ticks + q.length)] }

end Quarantine

structure TickState where
  summary : TickSummary
  quarantine : Option Quarantine

/-- What one try of a batch leaves: the batches to try next and what was sent. -/
structure Tried (View : Type) where
  state : TickState
  next : List (List DueJob) := []
  submitted : List (Submission View) := []

/-! ## One batch -/

section Batch

variable {View : Type}

/-- Simulates a batch, after a restore if that costs no more than `maxRestoreFee`. -/
def prepare (deps : TickDeps) (answers : Answers View) (summary : TickSummary) :
    Simulation View × TickSummary :=
  match answers.simulation with
  | .error (.restoreRequired fee) =>
      -- `0` turns restores off.
      if deps.maxRestoreFee = 0 ∨ deps.maxRestoreFee < fee then
        (.error .jobProblem, summary)
      else if deps.dryRun then
        (.error .other, summary)
      else
        match answers.restore with
        | .error err => (.error err, summary)
        | .ok () =>
            (answers.resimulation, { summary with
              restores := summary.restores + 1
              restoreFeeStroops := summary.restoreFeeStroops + fee })
  | simulated => (simulated, summary)

/-- The first half is the larger. -/
def halves (batch : List DueJob) : List (List DueJob) :=
  let half := (batch.length + 1) / 2
  [batch.take half, batch.drop half]

/-- Whether sending a batch is not worth its cost. -/
def refuses (deps : TickDeps) (earned cost : ℤ) (runnable : ℕ) : Bool :=
  if deps.feeIsNative then
    earned - cost < deps.minProfitStroops
  else
    deps.maxCostPerJob ≠ 0 ∧ deps.maxCostPerJob * runnable < cost

/-- Sends a batch. A stale sequence number gets one fresh attempt, rebuilt and re-simulated. -/
def send (answers : Answers View) (ids : List JobId) (prepared : Prepared View) :
    List (Submission View) × Bool :=
  let first : Submission View := { ids, prepared, inclusionFee := answers.inclusionFee }
  match answers.send with
  | .ok () => ([first], true)
  | .error .staleSequence =>
      match answers.rebuilt with
      | .ok rebuilt =>
          ([first, { ids, prepared := rebuilt, inclusionFee := answers.inclusionFee }],
            answers.resend.isOk)
      | .error _ => ([first], false)
  | .error .other => ([first], false)

/-- Simulates and sends one batch. -/
def runBatch (deps : TickDeps) (answers : Answers View) (batch : List DueJob) (state : TickState) :
    Tried View :=
  let (prepared, summary) := prepare deps answers state.summary
  match prepared with
  | .error err =>
      if isJobSpecific err ∧ 1 < batch.length then
        { state := { state with summary }, next := halves batch }
      else
        let summary := { summary with skipped := summary.skipped + batch.length }
        match isJobSpecific err, state.quarantine, batch with
        | true, some quarantine, job :: _ =>
            { state := {
                summary := { summary with quarantined := summary.quarantined + 1 }
                quarantine := some (quarantine.add job.id) } }
        | _, _, _ => { state := { state with summary } }
  | .ok prepared =>
      let runnable := ranOf batch prepared.result
      let summary := { summary with skipped := summary.skipped + (batch.length - runnable.length) }
      if runnable = [] then
        { state := { state with summary } }
      else
        let earned := (runnable.map DueJob.feePerRun).sum
        let cost := prepared.resourceFee + answers.inclusionFee
        if refuses deps earned cost runnable.length then
          if 1 < runnable.length then
            { state := { state with summary }, next := halves runnable }
          else
            { state := { state with
              summary := { summary with unprofitable := summary.unprofitable + 1 } } }
        else if deps.dryRun then
          { state := { state with
            summary := { summary with dryRun := summary.dryRun + runnable.length } } }
        else
          let summary := { summary with batches := summary.batches + 1 }
          let (submitted, applied) := send answers (batch.map DueJob.id) prepared
          if applied then
            { submitted, state := { state with summary := { summary with
                executed := summary.executed + runnable.length
                earnedStroops := summary.earnedStroops + earned } } }
          else
            { submitted, state := { state with summary := { summary with
                failed := summary.failed + runnable.length } } }

end Batch

/-! ## A tick -/

/-- A tick under way: each batch it started with is a queue of batches left to try. -/
structure Tick where
  state : TickState
  queues : List (List (List DueJob))

/-- The batch of queue `queue` is tried next. -/
structure Turn (View : Type) where
  queue : ℕ
  answers : Answers View

/-- Slices of `size` jobs, in order. -/
def batches (size : ℕ) (due : List DueJob) : List (List DueJob) :=
  (List.range ((due.length + size - 1) / size)).map fun i => (due.drop (i * size)).take size

/-- A tick once the index is in sync and lists `allDue`. -/
def Tick.start (deps : TickDeps) (quarantine : Option Quarantine) (allDue : List DueJob) : Tick :=
  let quarantine := quarantine.map Quarantine.next
  let due := allDue.filter fun job => !quarantine.any (·.has job.id)
  { state := {
      summary := {
        due := allDue.length
        skipped := allDue.length - due.length
        quarantined := allDue.length - due.length }
      quarantine }
    queues := (batches deps.batchSize due).map fun batch => [batch] }

def ticks (View : Type) (deps : TickDeps) : Machine Tick (Turn View) (Submission View) where
  step tick turn :=
    match tick.queues[turn.queue]? with
    | some (batch :: rest) =>
        let tried := runBatch deps turn.answers batch tick.state
        { state := tried.state, queues := tick.queues.set turn.queue (tried.next ++ rest) }
    | _ => tick
  out tick turn :=
    match tick.queues[turn.queue]? with
    | some (batch :: _) => (runBatch deps turn.answers batch tick.state).submitted
    | _ => []

end SoroCron.KeeperBot
