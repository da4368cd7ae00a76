import SoroCron.Registry.Storage

/-! # Reading jobs

The views through which clients read jobs: one job, a page of consecutive ids, and how many
ids were issued.
-/

namespace SoroCron

open Bounded

/-- Most ids one `getJobs` call looks at. -/
def maxGetJobsLimit : ℕ := 50

/-- A job as clients see it. -/
structure Job where
  id : JobId
  owner : Address
  target : Address
  function : String
  args : List Val
  interval : ℕ
  schedule : Schedule
  nextRun : Timestamp
  feePerRun : ℤ
  maxFeePerRun : ℤ
  balance : ℤ
  maxRuns : ℕ
  runs : ℕ
  endAt : Timestamp
  resolver : Option Address
  keepers : Option (List Address)
  after : Option JobId
  active : Bool
  failures : ℕ

def jobView (id : JobId) (spec : JobSpec) (state : JobState) : Job where
  id := id
  owner := spec.owner
  target := spec.target
  function := spec.function
  args := spec.args
  interval := spec.interval
  schedule := spec.schedule
  nextRun := state.nextRun
  feePerRun := spec.feePerRun
  maxFeePerRun := spec.maxFeePerRun
  balance := state.balance
  maxRuns := spec.maxRuns
  runs := state.runs
  endAt := spec.endAt
  resolver := spec.resolver
  keepers := spec.keepers
  after := spec.after
  active := state.active
  failures := state.failures

namespace JobTable

def getJob (jobs : JobTable) (id : JobId) : Option Job :=
  (jobs.getJobParts id).map fun (spec, state) => jobView id spec state

/-- Where a page of at most `limit` ids from `start` on ends. -/
def pageEnd (jobs : JobTable) (start limit : ℕ) : ℕ :=
  min (satAdd64 start (min limit maxGetJobsLimit)) jobs.nextJobId

/-- The live jobs of a page, by id. -/
def getJobs (jobs : JobTable) (start limit : ℕ) : List Job :=
  (List.range' start (jobs.pageEnd start limit - start)).filterMap jobs.getJob

/-- Number of job ids ever issued. -/
def jobCount (jobs : JobTable) : ℕ := jobs.nextJobId

def pendingJobOwner (jobs : JobTable) (id : JobId) : Option Address := jobs.pendingOwners.get id

variable {jobs : JobTable} {id : JobId} {start limit : ℕ} {job : Job}

theorem getJob_id (h : jobs.getJob id = some job) : job.id = id := by
  obtain ⟨parts, -, rfl⟩ := Option.map_eq_some_iff.mp h
  rfl

theorem mem_getJobs : job ∈ jobs.getJobs start limit ↔
    start ≤ job.id ∧ job.id < jobs.pageEnd start limit ∧ jobs.getJob job.id = some job := by
  have hspan : ∀ id last : ℕ, start ≤ id ∧ id < start + (last - start) ↔
      start ≤ id ∧ id < last := by
    intro id last
    omega
  simp only [getJobs, List.mem_filterMap, List.mem_range'_1, hspan]
  constructor
  · rintro ⟨id, ⟨hstart, hend⟩, hget⟩
    obtain rfl := getJob_id hget
    exact ⟨hstart, hend, hget⟩
  · rintro ⟨hstart, hend, hget⟩
    exact ⟨job.id, ⟨hstart, hend⟩, hget⟩

/-- With all ids in range, a page ends only at its limit or where the ids end. -/
theorem pageEnd_eq (hids : jobs.nextJobId ≤ u64Max) (start limit : ℕ) :
    jobs.pageEnd start limit = min (start + min limit maxGetJobsLimit) jobs.nextJobId := by
  change min (min (start + min limit maxGetJobsLimit) u64Max) jobs.nextJobId = _
  rw [min_assoc, min_eq_right hids]

theorem lt_pageEnd (hids : jobs.nextJobId ≤ u64Max) (hlimit : limit ≤ maxGetJobsLimit) :
    id < jobs.pageEnd start limit ↔ id < start + limit ∧ id < jobs.nextJobId := by
  rw [pageEnd_eq hids, min_eq_left hlimit, lt_min_iff]

end JobTable

end SoroCron
