import SoroCron.Registry.Lives

/-! # The entries of one job

Which calls write under a job's id, and what everything else leaves as it was.
-/

namespace SoroCron

open Outcome Bounded

variable {World : Type} {host : Host World} {c : Chain World} {ctx : Ctx} {now : Timestamp}
  {jobs jobs' : JobTable} {id : JobId} {act : JobAct World} {spec : JobSpec}

/-! ## Other jobs -/

/-- Everything stored under a job's id. -/
def JobTable.entries (jobs : JobTable) (id : JobId) :
    Option JobSpec × Option JobState × Option Address :=
  (jobs.specs.get id, jobs.states.get id, jobs.pendingOwners.get id)

/-- A write leaves every other job as it was. -/
theorem JobWrite.entries_of_ne {other : JobId} (h : JobWrite host ctx now (id, act) jobs jobs')
    (hne : other ≠ id) : jobs'.entries other = jobs.entries other := by
  have hset : ∀ state, (jobs.setState id state).entries other = jobs.entries other := by
    intro state
    simp [JobTable.entries, Store.get_set_of_ne _ _ hne]
  cases h with
  | created => simp [JobTable.entries, JobTable.withJob, Store.get_set_of_ne _ _ hne]
  | updated => simp [JobTable.entries, Store.get_set_of_ne _ _ hne]
  | handedOver => simp [JobTable.entries, Store.get_set_of_ne _ _ hne, Store.get_remove_of_ne _ hne]
  | cancelled => simp [JobTable.entries, Store.get_remove_of_ne _ hne]
  | ran => exact hset _
  | funded => exact hset _
  | withdrawn => exact hset _
  | activeSet => exact hset _

theorem Offered.entries_of_ne {newOwner : Address} {other : JobId}
    (h : Offered host ctx id newOwner spec jobs jobs') (hne : other ≠ id) :
    jobs'.entries other = jobs.entries other := by
  rw [h.result]
  split
  · simp [JobTable.entries, Store.get_remove_of_ne _ hne]
  · simp [JobTable.entries, Store.get_set_of_ne _ _ hne]

theorem entries_of_life {steps : List (JobId × JobAct World)}
    (h : Life (Written host ctx now) steps jobs jobs') (hothers : ∀ step ∈ steps, step.1 ≠ id) :
    jobs'.entries id = jobs.entries id := by
  refine (h.restrict hothers).invariant (I := fun later =>
    later.entries id = jobs.entries id) ?_ rfl
  rintro ⟨other, act⟩ before after hbefore ⟨hne, hwritten⟩
  exact (hwritten.write.entries_of_ne (Ne.symm hne)).trans hbefore

/-! ## What a call does to a job -/

/-- The calls that name the job `id`. -/
def Call.Names (id : JobId) : Call → Prop
  | .job (.updateJob jobId _) => jobId = id
  | .job (.fundJob _ jobId _) => jobId = id
  | .job (.cancelJob jobId) => jobId = id
  | .job (.withdrawJobBalance jobId _) => jobId = id
  | .job (.setJobActive jobId _) => jobId = id
  | .job (.proposeJobOwner jobId _) => jobId = id
  | .job (.acceptJobOwner jobId) => jobId = id
  | .run call => id ∈ call.jobIds
  | _ => False

def Action.Names (id : JobId) : Action World → Prop
  | .call _ named => named.Names id
  | _ => False

/-- What a call can do to the job `id`, ids from `next` on being free. -/
def Call.Does (next id : JobId) (act : JobAct World) : Call → Prop
  | .job (.createJob _ _ _) | .job (.createJobs _ _ _) =>
      next ≤ id ∧ ∃ owner params deposit, act = .created owner params deposit
  | .job (.updateJob jobId update) => jobId = id ∧ act = .updated update
  | .job (.fundJob _ jobId amount) => jobId = id ∧ act = .funded amount
  | .job (.cancelJob jobId) => jobId = id ∧ act = .cancelled
  | .job (.withdrawJobBalance jobId amount) => jobId = id ∧ act = .withdrawn amount
  | .job (.setJobActive jobId active) => jobId = id ∧ act = .activeSet active
  | .job (.acceptJobOwner jobId) => jobId = id ∧ act = .handedOver
  | .run call => id ∈ call.jobIds ∧ ∃ execution, act = .ran execution
  | _ => False

theorem creationsOf_does {owner : Address} {jobs : List (JobParams × ℤ)} {next : JobId}
    {step : JobId × JobAct World} (h : step ∈ jobSteps (creationsOf owner jobs next)) :
    next ≤ step.1 ∧ ∃ owner params deposit, step.2 = .created owner params deposit := by
  induction jobs generalizing next with
  | nil => cases h
  | cons pair rest ih =>
      rcases List.mem_cons.mp h with rfl | hrest
      · exact ⟨le_rfl, _, _, _, rfl⟩
      · obtain ⟨hnext, hcreated⟩ := ih hrest
        exact ⟨(Nat.le_succ next).trans hnext, hcreated⟩

/-- A run's job is one of those the call lists. -/
theorem runsOf_jobId {executor keeper : Address} {jobIds : List JobId} {b : Batch World}
    {execution : Execution World} (h : execution ∈ runsOf host executor keeper jobIds b) :
    execution.jobId ∈ jobIds := by
  induction jobIds generalizing b with
  | nil => cases h
  | cons jobId rest ih =>
      unfold runsOf at h
      split at h
      · rcases List.mem_cons.mp h with rfl | hrest
        · exact List.mem_cons_self
        · exact List.mem_cons_of_mem _ (ih hrest)
      · exact List.mem_cons_of_mem _ (ih h)
      · cases h

/-- What a step did to a job is what its call can do to it. -/
theorem does_of_mem {action : Action World} {step : JobId × JobAct World}
    (h : step ∈ jobSteps (acts host c action)) :
    ∃ ctx call, action = .call ctx call ∧ call.Does c.reg.jobs.nextJobId step.1 step.2 := by
  cases action with
  | call ctx call =>
      refine ⟨ctx, call, rfl, ?_⟩
      rcases step_call_cases host c ctx call with ⟨hcall, hacts⟩ | ⟨-, hacts⟩
      · rw [hacts] at h
        cases call with
        | run call =>
            obtain ⟨executor, info, ran, b, -, -, -, hmade⟩ := runCall_eq_ok hcall
            rw [hmade, jobSteps, List.filterMap_map] at h
            obtain ⟨execution, hmem, hstep⟩ := List.mem_filterMap.mp h
            cases hstep
            exact ⟨runsOf_jobId hmem, execution, rfl⟩
        | keeper call =>
            rw [jobSteps_keeper] at h
            cases h
        | admin call => cases h
        | job call =>
            cases call with
            | createJob owner params deposit => exact creationsOf_does h
            | createJobs owner jobs deposits => exact creationsOf_does h
            | proposeJobOwner jobId newOwner => cases h
            | _ =>
                cases List.mem_singleton.mp h
                exact ⟨rfl, rfl⟩
      · rw [hacts] at h
        cases h
  | _ => cases h

/-- A call does nothing to a job that is there and that it does not name. -/
theorem Call.Does.names {next : JobId} {call : Call} (h : call.Does next id act)
    (hissued : id < next) : call.Names id := by
  cases call with
  | run call => exact h.1
  | keeper call => cases h
  | admin call => cases h
  | job call =>
      cases call with
      | createJob owner params deposit => exact absurd h.1 (Nat.not_le.mpr hissued)
      | createJobs owner jobs deposits => exact absurd h.1 (Nat.not_le.mpr hissued)
      | proposeJobOwner jobId newOwner => cases h
      | _ => exact h.1

/-- No step changes a job it does not name. -/
theorem entries_of_unnamed {action : Action World} (hsound : c.Sound host)
    (hadm : Admissible host c action) (hissued : id < c.reg.jobs.nextJobId)
    (hunnamed : ¬ action.Names id) :
    (step host c action).reg.jobs.entries id = c.reg.jobs.entries id := by
  rcases step_writes action hsound hadm with ⟨ctx, jobId, newOwner, spec, rfl, -, hoffered⟩ | hlife
  · exact hoffered.entries_of_ne (Ne.symm hunnamed)
  · apply entries_of_life hlife
    rintro step hmem rfl
    obtain ⟨ctx, call, rfl, hdoes⟩ := does_of_mem hmem
    exact hunnamed (hdoes.names hissued)

theorem mem_jobSteps_of_jobActs {done : List (Act World)} (h : act ∈ jobActs id done) :
    (id, act) ∈ jobSteps done := by
  rw [jobActs_eq] at h
  obtain ⟨⟨other, act⟩, hmem, hsome⟩ := List.mem_filterMap.mp h
  dsimp only at hsome
  split at hsome
  next heq =>
    cases hsome
    exact heq ▸ hmem
  next => cases hsome

section Does

variable {next : JobId} {call : Call}

theorem Call.Does.of_handedOver (h : call.Does next id (.handedOver : JobAct World)) :
    call = .job (.acceptJobOwner id) := by
  cases call with
  | job call =>
      cases call with
      | acceptJobOwner jobId =>
          obtain ⟨rfl, -⟩ := h
          rfl
      | _ => simp [Call.Does] at h
  | run call => simp [Call.Does] at h
  | _ => cases h

theorem Call.Does.of_cancelled (h : call.Does next id (.cancelled : JobAct World)) :
    call = .job (.cancelJob id) := by
  cases call with
  | job call =>
      cases call with
      | cancelJob jobId =>
          obtain ⟨rfl, -⟩ := h
          rfl
      | _ => simp [Call.Does] at h
  | run call => simp [Call.Does] at h
  | _ => cases h

theorem Call.Does.of_activeSet {active : Bool}
    (h : call.Does next id (.activeSet active : JobAct World)) :
    call = .job (.setJobActive id active) := by
  cases call with
  | job call =>
      cases call with
      | setJobActive jobId flag =>
          simp only [Call.Does, JobAct.activeSet.injEq] at h
          obtain ⟨rfl, rfl⟩ := h
          rfl
      | _ => simp [Call.Does] at h
  | run call => simp [Call.Does] at h
  | _ => cases h

end Does

end SoroCron
