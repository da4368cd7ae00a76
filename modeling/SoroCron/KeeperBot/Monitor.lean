import SoroCron.Foundation.Edges
import SoroCron.KeeperBot.Alerts
import SoroCron.Sdk.Durations
import SoroCron.Sdk.Schedule

/-! # The owner's monitor

Alerts for the owner of jobs: a balance that pays for few more runs, a job that paused itself,
and one about to end. Each is raised when its condition begins to hold.
-/

namespace SoroCron.KeeperBot

structure OwnerAlertOptions where
  /-- Alert when the balance pays for fewer runs than this. -/
  minRuns : ℤ
  /-- Alert when the job's end time is within this many seconds. -/
  endsWithin : ℤ

/-- What an alert says about its job. -/
inductive JobDetails where
  | lowBalance (job : JobId) (balance feePerRun runsFunded : ℤ)
  | paused (job : JobId) (failures : ℕ) (target : Address) (function : String)
  | ending (job : JobId) (endAt : Timestamp)
  deriving DecidableEq

structure OwnerAlert where
  kind : AlertKind
  severity : Severity
  message : List Char
  details : JobDetails
  deriving DecidableEq

/-- `kind:id`. -/
abbrev JobKey := AlertKind × JobId

/-- Runs the balance pays for, and whether that is fewer than the job has left to run. -/
def fundedRuns (job : Job) : ℤ × Bool :=
  let funded := if 0 < job.feePerRun then job.balance.tdiv job.feePerRun else 0
  let short := if job.maxRuns = 0 then true
    else decide (funded < max ((job.maxRuns : ℤ) - job.runs) 0)
  (funded, short)

def isRunning (status : Sdk.JobStatus) : Bool :=
  status = .due || status = .scheduled || status = .underfunded

def written (n : ℤ) : List Char := (toString n).toList

def lowBalance (job : Job) (now : Timestamp) (o : OwnerAlertOptions) : Option OwnerAlert :=
  let (funded, short) := fundedRuns job
  if isRunning (Sdk.jobStatus job now) = true ∧ short = true ∧ funded < o.minRuns then
    some {
      kind := .jobLowBalance
      severity := if funded = 0 then .critical else .warning
      message :=
        if funded = 0 then
          "job #".toList ++ written job.id ++
            " can't pay for its next run; fund it or it stops".toList
        else
          "job #".toList ++ written job.id ++ " has ".toList ++ Sdk.formatAmount job.balance ++
            " XLM left, enough for ".toList ++ written funded ++ " more run(s)".toList
      details := .lowBalance job.id job.balance job.feePerRun funded }
  else
    none

def pausedItself (job : Job) (now : Timestamp) : Option OwnerAlert :=
  if Sdk.jobStatus job now = .failing then
    some {
      kind := .jobPaused
      severity := .critical
      message := "job #".toList ++ written job.id ++ " paused itself after ".toList ++
        written job.failures ++
        " failed runs in a row; fix the target, then resume it".toList
      details := .paused job.id job.failures job.target job.function }
  else
    none

def ending (job : Job) (now : Timestamp) (o : OwnerAlertOptions) : Option OwnerAlert :=
  if isRunning (Sdk.jobStatus job now) = true ∧ job.endAt ≠ 0 ∧ now < job.endAt ∧
      (job.endAt : ℤ) - now ≤ o.endsWithin then
    some {
      kind := .jobEnding
      severity := .warning
      message := "job #".toList ++ written job.id ++ " stops running in ".toList ++
        Sdk.formatDuration ((job.endAt : ℤ) - now)
      details := .ending job.id job.endAt }
  else
    none

/-- The alerts whose conditions hold for `job` right now, keyed by `kind:id`. -/
def jobConditions (job : Job) (now : Timestamp) (o : OwnerAlertOptions) :
    List (JobKey × OwnerAlert) :=
  [lowBalance job now o, pausedItself job now, ending job now o].reduceOption.map fun alert =>
    ((alert.kind, job.id), alert)

structure OwnerWatch where
  options : OwnerAlertOptions
  /-- Conditions already alerted on and still holding. -/
  active : List JobKey := []

namespace OwnerWatch

/-- The conditions of all jobs, one entry a key. -/
def current (options : OwnerAlertOptions) (jobs : List Job) (now : Timestamp) :
    Listing JobKey OwnerAlert :=
  Listing.ofPairs (jobs.flatMap fun job => jobConditions job now options)

/-- The alerts to send for this check: conditions that just started. -/
def check (watch : OwnerWatch) (jobs : List Job) (now : Timestamp) :
    OwnerWatch × List (JobKey × OwnerAlert) :=
  let current := current watch.options jobs now
  ({ watch with active := current.entries.map Prod.fst }, Edges.fresh watch.active current)

end OwnerWatch

/-- The owner's jobs as the monitor lists them. -/
def ownerJobs (jobs : JobTable) (owner : Address) : List Job :=
  (jobs.jobsByOwner owner).filterMap jobs.getJob

end SoroCron.KeeperBot
