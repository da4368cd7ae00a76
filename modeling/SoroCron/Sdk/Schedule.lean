import SoroCron.Registry.Views

/-! # The SDK's arithmetic on jobs

Helpers that clients compute from a job's view instead of asking the registry. Their integers
are unbounded, and division truncates.
-/

namespace SoroCron.Sdk

inductive JobStatus where
  | paused
  | failing
  | completed
  | expired
  | underfunded
  | scheduled
  | due
  deriving DecidableEq, Repr

/-- A job's status at `now`, in the order in which the registry checks it. -/
def jobStatus (job : Job) (now : Timestamp) : JobStatus :=
  if job.active = false then
    if 0 < job.failures then .failing else .paused
  else if job.maxRuns ≠ 0 ∧ job.maxRuns ≤ job.runs then
    .completed
  else if job.endAt ≠ 0 ∧ job.endAt ≤ now then
    .expired
  else if job.balance < job.feePerRun then
    .underfunded
  else if now < job.nextRun then
    .scheduled
  else
    .due

/-- How many more runs the current balance pays for, capped by `maxRuns`. -/
def runsRemaining (job : Job) : ℤ :=
  let funded := if 0 < job.feePerRun then job.balance.tdiv job.feePerRun else 0
  if job.maxRuns = 0 then
    funded
  else
    let left := max ((job.maxRuns : ℤ) - job.runs) 0
    if funded < left then funded else left

/-- Deposit needed for `runs` runs at `feePerRun`. -/
def depositFor (runs feePerRun : ℤ) : ℤ := runs * feePerRun

/-- The fee a run executed at `now` pays: flat without a ceiling, otherwise rising linearly to
it over one interval, capped at the balance. -/
def currentFee (job : Job) (now : Timestamp) : ℤ :=
  let base := job.feePerRun
  let fee :=
    if base < job.maxFeePerRun ∧ 0 < job.interval then
      let late := if job.nextRun < now then now - job.nextRun else 0
      if job.interval ≤ late then
        job.maxFeePerRun
      else
        base + ((job.maxFeePerRun - base) * late).tdiv job.interval
    else
      base
  if fee < job.balance then fee else job.balance

end SoroCron.Sdk
