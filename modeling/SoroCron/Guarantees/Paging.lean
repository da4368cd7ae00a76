import SoroCron.Guarantees.IndexedJobs
import SoroCron.KeeperBot.Loading

/-! # Paging loses no job

The pages that clients read while nobody calls the registry hold every live job, and a single
page holds what its bounds say.
-/

namespace SoroCron

open KeeperBot

variable {World : Type} {host : Host World} {c : Chain World}

/-- The jobs that are live from `start` on, in a span of at most `limit` ids. -/
theorem mem_getJobs_iff (hids : c.reg.jobs.nextJobId ≤ u64Max) {start limit : ℕ} {job : Job} :
    job ∈ c.reg.jobs.getJobs start limit ↔
      start ≤ job.id ∧ job.id < min (start + min limit maxGetJobsLimit) c.reg.jobs.jobCount ∧
        c.reg.jobs.getJob job.id = some job := by
  rw [JobTable.mem_getJobs, JobTable.pageEnd_eq hids]
  rfl

/-- The pages of `allJobs`, and those a load of the keeper's index asks for, show all live jobs
in order; and every page shows exactly the live jobs between its bounds, wherever it starts. -/
theorem paging_loses_no_job (hreach : Reachable host c) :
    (∃ found, Sdk.allJobs c.reg.jobs true = some found ∧ ListsLive c.reg.jobs found) ∧
    (∀ found, Sdk.allJobs c.reg.jobs false = some found → ListsLive c.reg.jobs found) ∧
    (∀ (w : Watched World) (actions : List (WatchAction World)), w.chain = c →
      w.index.pending = .idle →
      (loading host).Along Undisturbed (watch host w .load) actions →
      2 + (Paging.starts page c.reg.jobs.jobCount 0).length ≤ actions.countP isAnswer →
      ListsLive c.reg.jobs ((loading host).outputs (watch host w .load) actions)) ∧
    (∀ start limit : ℕ, start ≤ u64Max → limit ≤ u32Max →
      (∀ job, job ∈ c.reg.jobs.getJobs start limit ↔
        start ≤ job.id ∧ job.id < min (start + min limit 50) c.reg.jobs.jobCount ∧
          c.reg.jobs.getJob job.id = some job) ∧
      (c.reg.jobs.getJobs start limit).Pairwise fun job job' => job.id < job'.id) := by
  have hids := hreach.idsFit
  have hlive := JobTable.found_listsLive hreach.sound.jobs
  refine ⟨⟨_, Sdk.allJobs_paged hids, hlive⟩, ?_, ?_, ?_⟩
  · intro found hfound
    rw [Sdk.allJobs_single hfound]
    exact hlive
  · rintro w actions rfl hidle halong hanswers
    rw [load_tells_all hids hidle halong hanswers]
    exact hlive
  · intro start limit _ _
    exact ⟨fun job => mem_getJobs_iff hids, JobTable.found_sorted c.reg.jobs _ _⟩

/-- Sixty jobs, some of which are cancelled: one in the middle of a page, and the jobs on both
sides of the end of the first page. -/
def gappyRun : List (Action Unit) :=
  List.replicate 3 (.call ⟨[⟨5⟩]⟩ (.job
      (.createJobs ⟨5⟩ (List.replicate 20 minutely) (List.replicate 20 10)))) ++
    [3, 49, 50].map fun id => .call ⟨[⟨5⟩]⟩ (.job (.cancelJob id))

def gappyChain : Chain Unit :=
  (machine plainHost).run (deployment ⟨3⟩ 1000 100 10 1000) gappyRun

theorem gappyChain_reachable : Reachable plainHost gappyChain := by
  refine (deployment_deployed ⟨3⟩ 10 1000 (by decide) (by decide)).reachable.run ?_
  simp [gappyRun, Machine.Along, Admissible, Call.WellTyped, JobParams.WellTyped, minutely, u64Max,
    i128Max]

/-- An index loads what is left of sixty jobs from two pages. -/
theorem paging_loses_no_job_gappy :
    ((loading plainHost).outputs (watch plainHost (.new gappyChain 360) .load)
      (List.replicate 4 (.answered ⟨500, true⟩))).map Job.id =
        (List.range 60).filter (· ∉ [3, 49, 50]) ∧
    ListsLive gappyChain.reg.jobs ((loading plainHost).outputs
      (watch plainHost (.new gappyChain 360) .load)
        (List.replicate 4 (.answered ⟨500, true⟩))) := by
  obtain ⟨-, -, hload, -⟩ := paging_loses_no_job gappyChain_reachable
  have hcount : gappyChain.reg.jobs.jobCount = 60 := by decide +kernel
  have hchain : (Watched.new gappyChain 360).chain = gappyChain := by simp only [Watched.new]
  have hidle : (Watched.new gappyChain 360).index.pending = .idle := rfl
  have hquiet : (loading plainHost).Along Undisturbed (watch plainHost (.new gappyChain 360) .load)
      (List.replicate 4 (.answered ⟨500, true⟩)) := by decide +kernel
  refine ⟨by decide +kernel, hload _ _ hchain hidle hquiet ?_⟩
  rw [hcount, Paging.starts_of_lt (by decide) (by decide),
    Paging.starts_of_lt (by decide) (by decide), Paging.starts_of_le (by decide)]
  decide

end SoroCron
