import SoroCron.Foundation.Life
import SoroCron.Registry.Soundness

/-! # Writes to the job table

Whatever a call does to jobs is a sequence of a few kinds of writes, one for each thing it
outputs about a job, each signed by somebody the kind of write asks for. Offers of a job to
a new owner are the one change of the table that has no output.
-/

namespace SoroCron

open Outcome Bounded

variable {World : Type} {host : Host World} {ctx : Ctx} {c c' : Chain World}

/-- What was done to jobs, in order. -/
def jobSteps (done : List (Act World)) : List (JobId × JobAct World) :=
  done.filterMap fun
    | .job id act => some (id, act)
    | .keeper _ _ => none

theorem jobSteps_append (first second : List (Act World)) :
    jobSteps (first ++ second) = jobSteps first ++ jobSteps second :=
  List.filterMap_append

/-! ## Kinds of writes -/

/-- The table with one more job. -/
def JobTable.withJob (jobs : JobTable) (now : Timestamp) (owner : Address) (params : JobParams)
    (deposit : ℤ) : JobTable :=
  (({ jobs with nextJobId := jobs.nextJobId + 1 }.setSpec jobs.nextJobId
    (params.toSpec owner)).setState
    jobs.nextJobId (params.toState jobs now deposit)).addOwnerJob owner jobs.nextJobId

/-- The leader's run count that a job records when it is updated to follow `after`. -/
def Relinked (jobs : JobTable) (id : JobId) (spec : JobSpec) (state : JobState)
    (after : Option JobId) (leaderRuns : ℕ) : Prop :=
  if after = spec.after then
    leaderRuns = state.leaderRuns
  else
    (∀ leader ∈ after, leader ≠ id ∧ jobs.states.get leader ≠ none) ∧
      leaderRuns = initialLeaderRuns jobs after

/-- One write to the job table at time `now` by a call that `ctx` signed. -/
inductive JobWrite (host : Host World) (ctx : Ctx) (now : Timestamp) :
    JobId × JobAct World → JobTable → JobTable → Prop where
  | created {jobs : JobTable} {owner : Address} {params : JobParams} {deposit : ℤ}
      (hsigned : owner ∈ ctx.signers ∧ owner ≠ host.registry) (hspec : (params.toSpec owner).Sound)
      (htyped : params.WellTyped)
        (hleader : ∀ leader ∈ params.after, jobs.states.get leader ≠ none) :
      JobWrite host ctx now (jobs.nextJobId, .created owner params deposit) jobs
        (jobs.withJob now owner params deposit)
  | updated {jobs : JobTable} {id : JobId} {update : JobUpdate} {spec : JobSpec} {state : JobState}
      {interval leaderRuns : ℕ} (hparts : jobs.getJobParts id = some (spec, state))
      (hsigned : spec.owner ∈ ctx.signers) (hspec : (update.applyTo spec interval).Sound)
      (hleader : Relinked jobs id spec state update.after leaderRuns) :
      JobWrite host ctx now (id, .updated update) jobs
        ((jobs.setSpec id (update.applyTo spec interval)).setState id
          { state with nextRun := update.nextRun spec state now, leaderRuns })
  | funded {jobs : JobTable} {id : JobId} {amount : ℤ} {spec : JobSpec} {state : JobState}
      (hparts : jobs.getJobParts id = some (spec, state)) (hpos : 0 < amount) :
      JobWrite host ctx now (id, .funded amount) jobs
        (jobs.setState id { state with balance := state.balance + amount })
  | withdrawn {jobs : JobTable} {id : JobId} {amount : ℤ} {spec : JobSpec} {state : JobState}
      (hparts : jobs.getJobParts id = some (spec, state)) (hsigned : spec.owner ∈ ctx.signers)
      (hpos : 0 < amount) (hle : amount ≤ state.balance) :
      JobWrite host ctx now (id, .withdrawn amount) jobs
        (jobs.setState id { state with balance := state.balance - amount })
  | activeSet {jobs : JobTable} {id : JobId} {active : Bool} {spec : JobSpec} {state : JobState}
      (hparts : jobs.getJobParts id = some (spec, state)) (hsigned : spec.owner ∈ ctx.signers) :
      JobWrite host ctx now (id, .activeSet active) jobs
        (jobs.setState id { state with active, failures := if active then 0 else state.failures })
  | handedOver {jobs : JobTable} {id : JobId} {newOwner : Address} {spec : JobSpec}
      {state : JobState}
      (hparts : jobs.getJobParts id = some (spec, state))
      (hoffered : jobs.pendingOwners.get id = some newOwner)
      (hsigned : newOwner ∈ ctx.signers ∧ newOwner ≠ host.registry) :
      JobWrite host ctx now (id, .handedOver) jobs
        ((((jobs.removePendingOwner id).removeOwnerJob spec.owner id).addOwnerJob newOwner id
          ).setSpec id { spec with owner := newOwner })
  | cancelled {jobs : JobTable} {id : JobId} {spec : JobSpec} {state : JobState}
      (hparts : jobs.getJobParts id = some (spec, state)) (hsigned : spec.owner ∈ ctx.signers) :
      JobWrite host ctx now (id, .cancelled) jobs ((jobs.removeJob id).removeOwnerJob spec.owner id)
  | ran {execution : Execution World} {r : Receipt World}
      (hnow : execution.before.chain.now = now)
      (hlive : execution.before.chain.reg.config.paused = false)
      (hconfig : execution.before.chain.reg.config.Sound)
      (hsigned : execution.keeper ∈ ctx.signers)
      (hran : Ran host execution.executor execution.keeper execution.jobId execution.before
        execution.after r) :
      JobWrite host ctx now (execution.jobId, .ran execution) execution.before.chain.reg.jobs
        (execution.before.chain.reg.jobs.setState execution.jobId
          (r.state execution.before.chain.reg.config))

/-- A write to a sound table. -/
structure Written (host : Host World) (ctx : Ctx) (now : Timestamp) (step : JobId × JobAct World)
    (before after : JobTable) : Prop where
  sound : before.Sound
  write : JobWrite host ctx now step before after

/-- An owner offers its job to `newOwner`, or withdraws the offer by naming itself. -/
structure Offered (host : Host World) (ctx : Ctx) (id : JobId) (newOwner : Address) (spec : JobSpec)
    (before after : JobTable) : Prop where
  found : before.specs.get id = some spec
  signed : spec.owner ∈ ctx.signers ∧ spec.owner ≠ host.registry
  result : after =
    if newOwner = spec.owner then before.removePendingOwner id
      else before.setPendingOwner id newOwner

/-! ## Writes of a call -/

theorem insertJobs_writes {owner : Address} {jobs : List (JobParams × ℤ)} {ids : List JobId}
    (h : insertJobs owner jobs c = .ok (ids, c'))
    (hsigned : owner ∈ ctx.signers ∧ owner ≠ host.registry) (hjobs : c.reg.jobs.Sound)
    (hnow : c.now ≤ u64Max)
    (hvalid : ∀ pair ∈ jobs, (pair.1.WellTyped ∧ pair.2 ≤ i128Max) ∧
      (∃ reg, validateJob host reg pair.1 pair.2 = .ok ()) ∧
      ∀ leader ∈ pair.1.after, c.reg.jobs.states.get leader ≠ none) :
    Life (Written host ctx c.now)
      (jobSteps (creationsOf owner jobs c.reg.jobs.nextJobId : List (Act World)))
      c.reg.jobs c'.reg.jobs := by
  induction jobs generalizing c ids with
  | nil =>
      simp only [insertJobs, Except.ok.injEq, Prod.mk.injEq] at h
      rw [← h.2]
      exact .nil _
  | cons pair rest ih =>
      obtain ⟨params, deposit⟩ := pair
      simp only [insertJobs, bind_eq_ok, Prod.exists, insertJob_eq_ok, pure_eq_ok,
        Prod.mk.injEq] at h
      obtain ⟨_, next, ⟨-, rfl, rfl⟩, others, last, hrest, -, rfl⟩ := h
      obtain ⟨⟨htyped, hdeposit⟩, ⟨reg, hchecked⟩, hleader⟩ := hvalid _ List.mem_cons_self
      have hsound := withJob_sound owner hjobs hnow htyped hchecked hdeposit
      have hone : Written host ctx c.now (c.reg.jobs.nextJobId, .created owner params deposit)
          c.reg.jobs (c.withJob owner params deposit).reg.jobs :=
        ⟨hjobs,
          .created hsigned (JobParams.toSpec_sound owner hchecked htyped.2.1 htyped.2.2) htyped
          hleader⟩
      have htail := ih hrest hsound hnow ?_
      · exact .cons hone htail
      · intro pair hpair
        obtain ⟨htyped, hchecked, hleader⟩ := hvalid pair (List.mem_cons_of_mem _ hpair)
        refine ⟨htyped, hchecked, ?_⟩
        intro leader hmem
        rw [Chain.withJob_states, Store.get_set]
        split
        · exact Option.some_ne_none _
        · exact hleader leader hmem

/-- What an update records about the job's leader. -/
theorem relinked_of_ok {jobId : JobId} {spec : JobSpec} {state : JobState} {after : Option JobId}
    {leaderRuns : ℕ}
    (h : (if after ≠ spec.after then leaderRunsOf c.reg jobId after else .ok state.leaderRuns) =
      .ok leaderRuns) : Relinked c.reg.jobs jobId spec state after leaderRuns := by
  unfold Relinked
  by_cases hkept : after = spec.after
  · rw [if_neg (not_not.mpr hkept)] at h
    rw [if_pos hkept]
    exact (Except.ok.inj h).symm
  · rw [if_pos hkept] at h
    rw [if_neg hkept]
    cases after with
    | none =>
        refine ⟨?_, (Except.ok.inj h).symm⟩
        intro leader hmem
        cases hmem
    | some leader =>
        simp only [leaderRunsOf, bind_eq_ok, rejectIf_eq_ok, okOr_eq_ok, exists_unit,
          pure_eq_ok] at h
        obtain ⟨hother, leading, hleading, rfl⟩ := h
        refine ⟨?_, by simp [initialLeaderRuns, hleading]⟩
        intro _ hmem
        cases hmem
        exact ⟨hother, by rw [hleading]; exact Option.some_ne_none _⟩

theorem jobCall_writes {call : JobCall} (h : jobCall host ctx c call = .ok c')
    (htyped : Call.WellTyped (.job call)) (hsound : c.Sound host) :
    (∃ jobId newOwner spec, call = .proposeJobOwner jobId newOwner ∧
        Offered host ctx jobId newOwner spec c.reg.jobs c'.reg.jobs) ∨
      Life (Written host ctx c.now)
        (jobSteps (actsOf host ctx c (.job call))) c.reg.jobs c'.reg.jobs := by
  have hjobs := hsound.jobs
  have hone : ∀ {step}, JobWrite host ctx c.now step c.reg.jobs c'.reg.jobs →
      Life (Written host ctx c.now) [step] c.reg.jobs c'.reg.jobs :=
    fun hwrite => .single ⟨hjobs, hwrite⟩
  cases call with
  | createJob owner params deposit =>
      obtain ⟨created, h⟩ := Result.chain_eq_ok.mp h
      obtain ⟨-, hauth, hvalid, paid, hpaid, hinsert⟩ := createJob_eq_ok h
      obtain ⟨-, rfl⟩ := Chain.transfer_eq_ok.mp hpaid
      obtain ⟨-, -, -, hleader⟩ := validateJob_eq_ok hvalid
      right
      apply insertJobs_writes (insertJobs_one hinsert) hauth hjobs hsound.clock
      intro pair hpair
      cases List.mem_singleton.mp hpair
      exact ⟨htyped, ⟨c.reg, hvalid⟩, hleader⟩
  | createJobs owner jobs deposits =>
      obtain ⟨created, h⟩ := Result.chain_eq_ok.mp h
      obtain ⟨-, hauth, -, hvalid, paid, hpaid, hinsert⟩ := createJobs_eq_ok h
      obtain ⟨-, rfl⟩ := Chain.transfer_eq_ok.mp hpaid
      right
      apply insertJobs_writes hinsert hauth hjobs hsound.clock
      intro pair hpair
      obtain ⟨hparams, hdeposit⟩ := List.of_mem_zip hpair
      obtain ⟨-, -, -, hleader⟩ := validateJob_eq_ok (hvalid pair hpair)
      exact ⟨⟨htyped.1 _ hparams, htyped.2 _ hdeposit⟩, ⟨c.reg, hvalid pair hpair⟩, hleader⟩
  | updateJob jobId update =>
      obtain ⟨-, spec, state, interval, leaderRuns, hparts, hauth, hinterval, hleader, rfl⟩ :=
        updateJob_eq_ok h
      exact .inr (hone (.updated hparts hauth.1
        (JobUpdate.applyTo_sound hinterval htyped.1 htyped.2) (relinked_of_ok hleader)))
  | fundJob payer jobId amount =>
      obtain ⟨balance, h⟩ := Result.chain_eq_ok.mp h
      obtain ⟨⟨-, -, hpos⟩, -, state, hstate, rfl, -, rfl⟩ := fundJob_eq_ok h
      obtain ⟨spec, hspec⟩ := hjobs.spec_of_state hstate
      exact .inr (hone (.funded (JobTable.getJobParts_eq_some.mpr ⟨hspec, hstate⟩) hpos))
  | cancelJob jobId =>
      obtain ⟨refund, h⟩ := Result.chain_eq_ok.mp h
      obtain ⟨spec, state, paid, hparts, hauth, hpaid, -, rfl⟩ := cancelJob_eq_ok.mp h
      rw [Chain.payOut_frame hpaid] at hone ⊢
      exact .inr (hone (.cancelled hparts hauth.1))
  | withdrawJobBalance jobId amount =>
      obtain ⟨balance, h⟩ := Result.chain_eq_ok.mp h
      obtain ⟨spec, state, hparts, hauth, hpos, hle, rfl, -, -, paid, hpaid, rfl⟩ :=
        withdrawJobBalance_eq_ok.mp h
      obtain ⟨-, rfl⟩ := Chain.transfer_eq_ok.mp hpaid
      exact .inr (hone (.withdrawn hparts hauth.1 hpos hle))
  | setJobActive jobId active =>
      obtain ⟨spec, state, hparts, hauth, rfl⟩ := setJobActive_eq_ok h
      exact .inr (hone (.activeSet hparts hauth.1))
  | proposeJobOwner jobId newOwner =>
      obtain ⟨spec, hspec, hauth, rfl⟩ := proposeJobOwner_eq_ok h
      exact .inl ⟨jobId, newOwner, spec, rfl, hspec, hauth, rfl⟩
  | acceptJobOwner jobId =>
      obtain ⟨spec, newOwner, hspec, hoffered, hauth, rfl⟩ := acceptJobOwner_eq_ok h
      obtain ⟨state, hstate⟩ := hjobs.state_of_spec hspec
      exact .inr
        (hone (.handedOver (JobTable.getJobParts_eq_some.mpr ⟨hspec, hstate⟩) hoffered hauth))

theorem runJobs_writes {executor keeper : Address} {info : Keeper} {b : Batch World}
    {jobIds : List JobId} {ran : List Bool} (hsound : c.Sound host)
    (hauth : authorizeKeeper host ctx c.reg keeper = .ok (executor, info))
    (h : runJobs host executor keeper jobIds (startBatch c keeper info) = .ok (ran, b)) :
    Life (Written host ctx c.now)
      (jobSteps ((runsOf host executor keeper jobIds (startBatch c keeper info)).map
        fun execution => .job execution.jobId (.ran execution)))
      c.reg.jobs b.chain.reg.jobs := by
  obtain ⟨hlive, -, hsigned, -, -⟩ := authorizeKeeper_eq_ok.mp hauth
  let I : List (Execution World) → Batch World → Prop := fun past b =>
    UnderwaySound c info b ∧ Life (Written host ctx c.now)
      (jobSteps (past.map fun execution => .job execution.jobId (.ran execution)))
      c.reg.jobs b.chain.reg.jobs
  have hlast : I ([] ++ runsOf host executor keeper jobIds (startBatch c keeper info)) b := by
    refine runJobs_history ?_ ?_ [] ?_ h
    · rintro past b jobId spec ⟨hunder, hpast⟩
      exact ⟨hunder.asked jobId spec, hpast⟩
    · rintro past b b' jobId r ⟨hunder, hpast⟩ hran
      refine ⟨hunder.ran hsound.config hran, ?_⟩
      have hpaused : b.chain.reg.config.paused = false := hunder.toUnderway.config ▸ hlive
      have hconfig : b.chain.reg.config.Sound := hunder.toUnderway.config ▸ hsound.config
      let execution : Execution World := { jobId, executor, keeper, before := b, after := b' }
      have hwrite : JobWrite host ctx c.now (execution.jobId, .ran execution)
          execution.before.chain.reg.jobs
          (execution.before.chain.reg.jobs.setState execution.jobId
            (r.state execution.before.chain.reg.config)) :=
        .ran hunder.now hpaused hconfig hsigned.1 hran
      rw [List.map_append, jobSteps_append, hran.reg]
      exact hpast.append (.single ⟨hunder.jobs, hwrite⟩)
    · exact ⟨UnderwaySound.start hsound.jobs keeper info, .nil _⟩
  exact hlast.2

/-! ## Writes of a step -/

/-- Who signed what happens. -/
def Action.signedBy : Action World → Ctx
  | .call ctx _ => ctx
  | _ => ⟨[]⟩

/-- Keeper operations do nothing to jobs. -/
theorem jobSteps_keeper (call : KeeperCall) : jobSteps (actsOf host ctx c (.keeper call)) = [] := by
  cases call with
  | withdrawStakes keepers => simp [jobSteps, actsOf]
  | _ => rfl

/-- Every step is an offer or a sequence of writes. -/
theorem step_writes (action : Action World) (hsound : c.Sound host)
    (hadm : Admissible host c action) :
    (∃ ctx jobId newOwner spec, action = .call ctx (.job (.proposeJobOwner jobId newOwner)) ∧
        acts host c action = [] ∧
        Offered host ctx jobId newOwner spec c.reg.jobs (step host c action).reg.jobs) ∨
      Life (Written host action.signedBy c.now) (jobSteps (acts host c action)) c.reg.jobs
        (step host c action).reg.jobs := by
  cases action with
  | call ctx call =>
      rcases step_call_cases host c ctx call with ⟨hcall, hacts⟩ | ⟨hsame, hacts⟩
      · rw [hacts]
        cases call with
        | job call =>
            rcases jobCall_writes hcall hadm hsound with ⟨jobId, newOwner, spec, rfl, hoffered⟩ |
              hlife
            · exact .inl ⟨ctx, jobId, newOwner, spec, rfl, rfl, hoffered⟩
            · exact .inr hlife
        | run call =>
            obtain ⟨executor, info, ran, b, hauth, hruns, hfinish, hacts⟩ := runCall_eq_ok hcall
            have hunder := runJobs_underway hsound.config hsound.jobs hruns
            rw [hacts, finish_eq_ok hunder.keeperFees hunder.protocolFees hfinish]
            exact .inr (runJobs_writes hsound hauth hruns)
        | keeper call =>
            rw [jobSteps_keeper, (keeperCall_keepersOnly hcall).reg]
            exact .inr (.nil _)
        | admin call =>
            obtain ⟨-, -, hc⟩ := adminCall_eq_ok hcall
            rw [hc, Chain.publish_reg, (adminCall_settingsOnly call c.reg c.now).jobs]
            exact .inr (.nil _)
      · rw [hacts, hsame]
        exact .inr (.nil _)
  | _ => exact .inr (.nil _)

end SoroCron
