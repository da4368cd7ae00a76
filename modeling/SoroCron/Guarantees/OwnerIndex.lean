import SoroCron.Registry.Deployment
import SoroCron.Registry.Index

/-! # Job storage is exact

The entries of a job come and go together, ids are issued one after another, and the list
kept for each owner holds its live jobs in the order in which they came to it.
-/

namespace SoroCron

open Outcome Bounded Filing

variable {World : Type} {host : Host World}

/-- Along every run: a job's spec and its state exist together, under an id below the next
one; ids were issued one after another, each once, and a cancelled job is gone; whoever a job is
offered to is not its owner; and the list kept for each owner holds exactly the live jobs it
owns, each once, in the order in which they last came to an owner. -/
theorem job_storage_exact {start : Chain World} {actions : List (Action World)}
    (hstart : Deployed host start) (halong : (machine host).Along (Admissible host) start actions) :
    let done := jobSteps ((machine host).outputs start actions)
    let jobs := ((machine host).run start actions).reg.jobs
    (∀ id, ((jobs.specs.get id).isSome ↔ (jobs.states.get id).isSome) ∧
        ((jobs.specs.get id).isSome → id < jobs.nextJobId) ∧
        ((id, .cancelled) ∈ done → jobs.specs.get id = none)) ∧
      issuedIds done = List.range jobs.nextJobId ∧
      (∀ id newOwner, jobs.pendingOwners.get id = some newOwner →
        ∃ spec, jobs.specs.get id = some spec ∧ newOwner ≠ spec.owner) ∧
      ∀ owner, (jobs.jobsByOwner owner).Nodup ∧
        (∀ id, id ∈ jobs.jobsByOwner owner ↔
          ∃ spec, jobs.specs.get id = some spec ∧ spec.owner = owner) ∧
        jobs.jobsByOwner owner =
          (arrivals done).dedup.filter fun id =>
            (jobs.specs.get id).map JobSpec.owner = some owner := by
  intro done jobs
  have hreach : Reachable host ((machine host).run start actions) :=
    ⟨start, actions, hstart, halong, rfl⟩
  have hsound : jobs.Sound := hreach.sound.jobs
  obtain ⟨hids, harrivals, hlisted, hoffered⟩ := run_indexed hstart halong
  refine ⟨?_, hids, ?_, ?_⟩
  · intro id
    have hpaired : (jobs.specs.get id).isSome ↔ (jobs.states.get id).isSome := by
      rw [← Store.mem_keys, hsound.paired, Store.mem_keys]
    refine ⟨hpaired, ?_, ?_⟩
    · intro hspec
      exact hsound.issued id (Store.mem_keys.mpr (hpaired.mp hspec))
    · intro hcancelled
      obtain ⟨now, -, hlife⟩ := jobs_life hstart.sound halong
      have hgone : jobs.phase id = .gone := gone_of_cancelled_mem hlife hcancelled
      -- A spec that is still there would make the job live.
      by_contra hthere
      obtain ⟨spec, hspec⟩ := Option.ne_none_iff_exists'.mp hthere
      obtain ⟨state, hstate⟩ := hsound.state_of_spec hspec
      rw [phase_live hspec hstate] at hgone
      cases hgone
  · intro id newOwner hpending
    obtain ⟨owner, howner, hne⟩ := hoffered id newOwner hpending
    obtain ⟨spec, hspec, rfl⟩ := Option.map_eq_some_iff.mp howner
    exact ⟨spec, hspec, hne⟩
  · intro owner
    refine ⟨?_, ?_, hlisted owner⟩
    · rw [hlisted owner]
      exact nodup_filed
    · intro id
      rw [hlisted owner, mem_filed]
      have hiff : jobs.ownerOf id = some owner ↔
          ∃ spec, jobs.specs.get id = some spec ∧ spec.owner = owner := Option.map_eq_some_iff
      rw [← hiff]
      exact ⟨fun hmem => hmem.2, fun howner => ⟨harrivals id owner howner, howner⟩⟩

/-- Two more jobs are created, the first one is handed away and back, and the last one is
cancelled. -/
def handoverRun : List (Action Unit) :=
  firstRun ++
    [.call ⟨[⟨5⟩]⟩ (.job (.createJobs ⟨5⟩ [minutely, minutely] [50, 50])),
      .call ⟨[⟨5⟩]⟩ (.job (.proposeJobOwner 0 ⟨9⟩)), .call ⟨[⟨9⟩]⟩ (.job (.acceptJobOwner 0)),
      .call ⟨[⟨9⟩]⟩ (.job (.proposeJobOwner 0 ⟨5⟩)), .call ⟨[⟨5⟩]⟩ (.job (.acceptJobOwner 0)),
      .call ⟨[⟨5⟩]⟩ (.job (.cancelJob 2))]

theorem handoverRun_admissible (c : Chain Unit) :
    (machine plainHost).Along (Admissible plainHost) c handoverRun := by
  refine Machine.along_append.mpr ⟨firstRun_admissible c, ?_⟩
  simp [Machine.Along, Admissible, Call.WellTyped, JobParams.WellTyped, minutely, u64Max, i128Max]

theorem job_storage_exact_handoverRun :
    let c := (machine plainHost).run (deployment ⟨3⟩ 1000 100 10 1000) handoverRun
    c.reg.jobs.nextJobId = 3 ∧ c.reg.jobs.jobsByOwner ⟨5⟩ = [1, 0] ∧
      (c.reg.jobs.jobsByOwner ⟨5⟩).Nodup := by
  intro c
  have hlaws := job_storage_exact
    (deployment_deployed ⟨3⟩ 10 1000 (show 1000 ≤ u64Max by decide) (show 0 ≤ 100 by decide))
    (handoverRun_admissible _)
  exact ⟨rfl, by decide, (hlaws.2.2.2 ⟨5⟩).1⟩

end SoroCron
