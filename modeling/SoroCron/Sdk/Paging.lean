import SoroCron.Foundation.Paging
import SoroCron.Registry.Index
import SoroCron.Registry.Views

/-! # Reading all jobs

Clients read the jobs in pages. The page of the SDK and the cap of the registry are the same
number, so that the pages meet.
-/

namespace SoroCron

/-- The jobs that are live, each once, by increasing id. -/
structure ListsLive (jobs : JobTable) (found : List Job) : Prop where
  mem : ∀ job, job ∈ found ↔ jobs.getJob job.id = some job
  sorted : found.Pairwise fun job job' => job.id < job'.id

/-! ## Pages -/

namespace JobTable

variable {jobs : JobTable}

theorem getJobs_eq_found (jobs : JobTable) (start limit : ℕ) :
    jobs.getJobs start limit = Paging.found jobs.getJob start (jobs.pageEnd start limit) := rfl

/-- A page as large as the registry allows. -/
theorem getJobs_page (hids : jobs.nextJobId ≤ u64Max) (start : ℕ) :
    jobs.getJobs start maxGetJobsLimit =
    Paging.found jobs.getJob start (min (start + maxGetJobsLimit) jobs.jobCount) := by
  rw [getJobs_eq_found, pageEnd_eq hids, min_self]
  rfl

theorem lt_jobCount (hsound : jobs.Sound) {id : JobId} {job : Job}
    (hjob : jobs.getJob id = some job) : id < jobs.jobCount := by
  obtain ⟨parts, hparts, -⟩ := Option.map_eq_some_iff.mp hjob
  exact hsound.issued id (mem_states_keys (states_get_of_parts hparts))

theorem found_sorted (jobs : JobTable) (first last : ℕ) :
    (Paging.found jobs.getJob first last).Pairwise fun job job' => job.id < job'.id :=
  Paging.found_pairwise (fun _ _ => getJob_id) first last

/-- What is at all ids that were issued. -/
theorem found_listsLive (hsound : jobs.Sound) :
    ListsLive jobs (Paging.found jobs.getJob 0 jobs.jobCount) where
  mem job := by
    rw [Paging.mem_found]
    constructor
    · rintro ⟨id, -, -, hjob⟩
      rwa [getJob_id hjob]
    · intro hjob
      exact ⟨job.id, Nat.zero_le _, lt_jobCount hsound hjob, hjob⟩
  sorted := found_sorted jobs 0 jobs.jobCount

end JobTable

/-! ## The SDK -/

namespace Sdk

/-- Page size used by `allJobs`. -/
def pageSize : ℕ := 50

/-- Every live job. A registry without `getJobs` is asked for each id; no array holds more
than `u32Max` ids. -/
def allJobs (jobs : JobTable) (hasGetJobs : Bool) : Option (List Job) :=
  let count := jobs.jobCount
  if hasGetJobs then
    some ((Paging.starts pageSize count 0).flatMap fun start => jobs.getJobs start pageSize)
  else if count ≤ u32Max then
    some ((List.range count).filterMap jobs.getJob)
  else
    none

variable {jobs : JobTable}

theorem allJobs_paged (hids : jobs.nextJobId ≤ u64Max) :
    allJobs jobs true = some (Paging.found jobs.getJob 0 jobs.jobCount) := by
  have hpage : ∀ start, jobs.getJobs start pageSize =
      Paging.found jobs.getJob start (min (start + pageSize) jobs.jobCount) :=
        jobs.getJobs_page hids
  rw [allJobs, if_pos rfl]
  simp only [hpage]
  rw [Paging.starts_flatMap_found _ (by decide)]

theorem allJobs_single {found : List Job} (h : allJobs jobs false = some found) :
    found = Paging.found jobs.getJob 0 jobs.jobCount := by
  rw [allJobs, if_neg (by decide), Option.ite_none_right_eq_some] at h
  rw [Paging.found, Nat.sub_zero, ← List.range_eq_range']
  exact (Option.some.inj h.2).symm

end Sdk

end SoroCron
