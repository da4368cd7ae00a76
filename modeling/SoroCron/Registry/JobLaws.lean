import SoroCron.Registry.Jobs

/-! # What job operations do

One inversion lemma for each job operation: what a success says about the arguments and the
chain before, and the chain it leaves.
-/

namespace SoroCron

open Outcome Bounded

variable {World : Type} {host : Host World} {ctx : Ctx} {c c' : Chain World}

/-! ## Validation -/

/-- A job's settings after validation. Calendars have in-range fields and run once a period. -/
structure JobSpec.Sound (spec : JobSpec) : Prop where
  interval_pos : 0 < spec.interval
  calendar : ∀ period, calendarPeriod spec.schedule = some period → spec.interval = period
  fields : scheduleIsValid spec.schedule = true
  fee_pos : 0 < spec.feePerRun
  fee_fits : spec.feePerRun ≤ i128Max
  ceiling : spec.maxFeePerRun = 0 ∨ spec.feePerRun ≤ spec.maxFeePerRun
  ceiling_fits : spec.maxFeePerRun ≤ i128Max

theorem validateSchedule_eq_ok {config : Config} {interval effective argsLen : ℕ}
    {schedule : Schedule} {feePerRun maxFeePerRun : ℤ} {keepers : Option (List Address)}
    (h : validateSchedule config interval schedule argsLen feePerRun maxFeePerRun keepers =
      .ok effective) :
    effective = (calendarPeriod schedule).getD interval ∧ 0 < effective ∧
      scheduleIsValid schedule = true ∧ 0 < feePerRun ∧
      (maxFeePerRun = 0 ∨ feePerRun ≤ maxFeePerRun) := by
  simp only [validateSchedule, bind_eq_ok, rejectIf_eq_ok, pure_eq_ok] at h
  obtain ⟨checked, hchecked, -, -, -, -, -, hfee, -, hceiling, -, -, rfl⟩ := h
  refine ⟨?_, ?_, ?_, by omega, by omega⟩
  all_goals
    cases hperiod : calendarPeriod schedule with
    | none =>
        simp only [hperiod, bind_eq_ok, rejectIf_eq_ok, pure_eq_ok] at hchecked
        obtain ⟨-, hpos, rfl⟩ := hchecked
        cases schedule <;> simp_all [calendarPeriod, scheduleIsValid, Nat.pos_iff_ne_zero]
    | some period =>
        simp only [hperiod, bind_eq_ok, rejectIf_eq_ok, pure_eq_ok] at hchecked
        obtain ⟨-, hvalid, rfl⟩ := hchecked
        have hpos := calendarPeriod_pos hperiod
        simp_all

theorem validateJob_eq_ok {reg : Registry} {params : JobParams} {deposit : ℤ}
    (h : validateJob host reg params deposit = .ok ()) :
    (∃ interval, validateSchedule reg.config params.interval params.schedule params.args.length
        params.feePerRun params.maxFeePerRun params.keepers = .ok interval) ∧
      params.feePerRun ≤ deposit ∧ isForbiddenTarget host reg.config params.target = false ∧
      ∀ leader ∈ params.after, reg.jobs.states.get leader ≠ none := by
  simp only [validateJob, bind_eq_ok, rejectIf_eq_ok, not_lt, Bool.not_eq_true, not_exists,
    not_and, exists_unit] at h
  obtain ⟨interval, hinterval, hdeposit, hallowed, hleader⟩ := h
  exact ⟨⟨interval, hinterval⟩, hdeposit, hallowed, hleader⟩

/-- A validated new job is stored with sound settings. -/
theorem JobParams.toSpec_sound {reg : Registry} {params : JobParams} {deposit : ℤ} (owner : Address)
    (h : validateJob host reg params deposit = .ok ()) (hfee : params.feePerRun ≤ i128Max)
    (hceiling : params.maxFeePerRun ≤ i128Max) : (params.toSpec owner).Sound := by
  obtain ⟨⟨interval, hinterval⟩, -, -, -⟩ := validateJob_eq_ok h
  obtain ⟨rfl, hpos, hvalid, hfeePos, hle⟩ := validateSchedule_eq_ok hinterval
  refine ⟨hpos, ?_, hvalid, hfeePos, hfee, hle, hceiling⟩
  intro period hperiod
  simp only [JobParams.toSpec] at hperiod ⊢
  rw [hperiod, Option.getD_some]

theorem validateJobs_eq_ok {reg : Registry} {jobs : List (JobParams × ℤ)} {total total' : ℤ}
    (h : validateJobs host reg jobs total = .ok total') :
    total' = total + (jobs.map Prod.snd).sum ∧
      ∀ pair ∈ jobs, validateJob host reg pair.1 pair.2 = .ok () := by
  induction jobs generalizing total with
  | nil =>
      simp only [validateJobs, Except.ok.injEq] at h
      simp [h]
  | cons pair rest ih =>
      obtain ⟨params, deposit⟩ := pair
      simp only [validateJobs, bind_eq_ok, okOr_eq_ok, checkedInt_eq_some, exists_unit] at h
      obtain ⟨hvalid, next, ⟨-, rfl⟩, hrest⟩ := h
      obtain ⟨rfl, hall⟩ := ih hrest
      refine ⟨?_, ?_⟩
      · rw [List.map_cons, List.sum_cons, add_assoc]
      · intro pair hpair
        rcases List.mem_cons.mp hpair with rfl | hpair
        · exact hvalid
        · exact hall pair hpair

/-! ## Creation -/

/-- The chain with one more job. -/
def Chain.withJob (c : Chain World) (owner : Address) (params : JobParams) (deposit : ℤ) :
    Chain World :=
  let id := c.reg.jobs.nextJobId
  let jobs :=
    (({ c.reg.jobs with nextJobId := id + 1 }.setSpec id (params.toSpec owner)).setState id
    (params.toState c.reg.jobs c.now deposit)).addOwnerJob owner id
  { c with reg := { c.reg with jobs } }.publish (.jobCreated id owner params.target
    (params.toSpec owner).interval params.feePerRun deposit)

section WithJob

variable (c : Chain World) (owner : Address) (params : JobParams) (deposit : ℤ)

@[simp] theorem Chain.withJob_toSurroundings :
    (c.withJob owner params deposit).toSurroundings = c.toSurroundings := rfl

@[simp] theorem Chain.withJob_specs : (c.withJob owner params deposit).reg.jobs.specs =
    c.reg.jobs.specs.set c.reg.jobs.nextJobId (params.toSpec owner) := rfl

@[simp] theorem Chain.withJob_states : (c.withJob owner params deposit).reg.jobs.states =
    c.reg.jobs.states.set c.reg.jobs.nextJobId (params.toState c.reg.jobs c.now deposit) := rfl

@[simp] theorem Chain.withJob_nextJobId : (c.withJob owner params deposit).reg.jobs.nextJobId =
    c.reg.jobs.nextJobId + 1 := rfl

end WithJob

theorem insertJob_eq_ok {owner : Address} {params : JobParams} {deposit : ℤ} {id : JobId} :
    insertJob c owner params deposit = .ok (id, c') ↔
      c.reg.jobs.nextJobId + 1 ≤ u64Max ∧ id = c.reg.jobs.nextJobId ∧
        c' = c.withJob owner params deposit := by
  simp only [insertJob, bind_eq_ok, Prod.exists, JobTable.takeNextJobId_eq_ok, pure_eq_ok,
    Prod.mk.injEq]
  constructor
  · rintro ⟨_, _, ⟨hroom, rfl, rfl⟩, rfl, rfl⟩
    exact ⟨hroom, rfl, rfl⟩
  · rintro ⟨hroom, rfl, rfl⟩
    exact ⟨_, _, ⟨hroom, rfl, rfl⟩, rfl, rfl⟩

theorem insertJobs_one {owner : Address} {params : JobParams} {deposit : ℤ} {id : JobId}
    (h : insertJob c owner params deposit = .ok (id, c')) :
    insertJobs owner [(params, deposit)] c = .ok ([id], c') := by
  simp only [insertJobs, h, bind_eq_ok, Prod.exists, pure_eq_ok]
  exact ⟨_, _, rfl, _, _, rfl, rfl⟩

theorem createJob_eq_ok {owner : Address} {params : JobParams} {deposit : ℤ} {id : JobId}
    (h : createJob host ctx c owner params deposit = .ok (id, c')) :
    c.reg.config.paused = false ∧ (owner ∈ ctx.signers ∧ owner ≠ host.registry) ∧
      validateJob host c.reg params deposit = .ok () ∧
      ∃ paid, c.transfer host c.reg.config.feeToken owner host.registry deposit = .ok paid ∧
        insertJob paid owner params deposit = .ok (id, c') := by
  simp only [createJob, ensureNotPaused, bind_eq_ok, raise_eq_ok, rejectIf_eq_ok, exists_unit,
    requireAuth_eq_ok, Bool.not_eq_true] at h
  exact h

theorem createJobs_eq_ok {owner : Address} {jobs : List JobParams} {deposits : List ℤ}
    {ids : List JobId} (h : createJobs host ctx c owner jobs deposits = .ok (ids, c')) :
    c.reg.config.paused = false ∧ (owner ∈ ctx.signers ∧ owner ≠ host.registry) ∧
      jobs.length = deposits.length ∧
      (∀ pair ∈ jobs.zip deposits, validateJob host c.reg pair.1 pair.2 = .ok ()) ∧
      ∃ paid, c.transfer host c.reg.config.feeToken owner host.registry
          ((jobs.zip deposits).map Prod.snd).sum = .ok paid ∧
        insertJobs owner (jobs.zip deposits) paid = .ok (ids, c') := by
  simp only [createJobs, ensureNotPaused, bind_eq_ok, raise_eq_ok, rejectIf_eq_ok, exists_unit,
    requireAuth_eq_ok, Bool.not_eq_true, ne_eq, not_not] at h
  obtain ⟨hlive, hauth, -, hlength, total, htotal, paid, hpaid, hinsert⟩ := h
  obtain ⟨rfl, hvalid⟩ := validateJobs_eq_ok htotal
  rw [zero_add] at hpaid
  exact ⟨hlive, hauth, hlength, hvalid, paid, hpaid, hinsert⟩

/-- A property that adding a job preserves, relative to the jobs still to be added, holds
when all of them are there. -/
theorem insertJobs_invariant {I : List (JobParams × ℤ) → Chain World → Prop} {owner : Address}
    (hstep : ∀ params deposit rest c, c.reg.jobs.nextJobId + 1 ≤ u64Max →
      I ((params, deposit) :: rest) c → I rest (c.withJob owner params deposit))
    {jobs : List (JobParams × ℤ)} {ids : List JobId} (hstart : I jobs c)
    (h : insertJobs owner jobs c = .ok (ids, c')) : I [] c' := by
  induction jobs generalizing c ids with
  | nil =>
      simp only [insertJobs, Except.ok.injEq, Prod.mk.injEq] at h
      rw [← h.2]
      exact hstart
  | cons pair rest ih =>
      obtain ⟨params, deposit⟩ := pair
      simp only [insertJobs, bind_eq_ok, Prod.exists, insertJob_eq_ok, pure_eq_ok,
        Prod.mk.injEq] at h
      obtain ⟨_, next, ⟨hroom, rfl, rfl⟩, others, last, hrest, -, rfl⟩ := h
      exact ih (hstep params deposit rest c hroom hstart) hrest

/-! ## Settings -/

theorem updateJob_eq_ok {jobId : JobId} {update : JobUpdate}
    (h : updateJob host ctx c jobId update = .ok c') :
    c.reg.config.paused = false ∧ ∃ spec state interval leaderRuns,
      c.reg.jobs.getJobParts jobId = some (spec, state) ∧
      (spec.owner ∈ ctx.signers ∧ spec.owner ≠ host.registry) ∧
      validateSchedule c.reg.config update.interval update.schedule update.args.length
        update.feePerRun update.maxFeePerRun update.keepers = .ok interval ∧
      (if update.after ≠ spec.after then leaderRunsOf c.reg jobId update.after
        else .ok state.leaderRuns) = .ok leaderRuns ∧
      c' = ({ c with
        reg := { c.reg with
          jobs := (c.reg.jobs.setSpec jobId (update.applyTo spec interval)).setState jobId
            { state with nextRun := update.nextRun spec state c.now, leaderRuns }
          }.touch jobId c.now }).publish
        (.jobUpdated jobId interval update.feePerRun update.maxRuns update.endAt) := by
  simp only [updateJob, ensureNotPaused, bind_eq_ok, raise_eq_ok, rejectIf_eq_ok, exists_unit,
    requireAuth_eq_ok, Bool.not_eq_true, okOr_eq_ok, Prod.exists, pure_eq_ok] at h
  obtain ⟨hlive, spec, state, hparts, hauth, interval, hinterval, leaderRuns, hleader, hc⟩ := h
  exact ⟨hlive, spec, state, interval, leaderRuns, hparts, hauth, hinterval, hleader, hc.symm⟩

/-- An update leaves sound settings. -/
theorem JobUpdate.applyTo_sound {config : Config} {update : JobUpdate} {spec : JobSpec}
    {interval : ℕ} (h : validateSchedule config update.interval update.schedule update.args.length
      update.feePerRun update.maxFeePerRun update.keepers = .ok interval)
    (hfee : update.feePerRun ≤ i128Max) (hceiling : update.maxFeePerRun ≤ i128Max) :
    (update.applyTo spec interval).Sound := by
  obtain ⟨rfl, hpos, hvalid, hfeePos, hle⟩ := validateSchedule_eq_ok h
  refine ⟨hpos, ?_, hvalid, hfeePos, hfee, hle, hceiling⟩
  intro period hperiod
  simp only [JobUpdate.applyTo] at hperiod ⊢
  rw [hperiod, Option.getD_some]

/-! ## Funds -/

theorem fundJob_eq_ok {payer : Address} {jobId : JobId} {amount balance : ℤ}
    (h : fundJob host ctx c payer jobId amount = .ok (balance, c')) :
    (c.reg.config.paused = false ∧ (payer ∈ ctx.signers ∧ payer ≠ host.registry) ∧ 0 < amount) ∧
      host.acceptsTransfer c.toSurroundings c.reg.config.feeToken payer
        host.registry amount = true ∧
      ∃ state, c.reg.jobs.states.get jobId = some state ∧ balance = state.balance + amount ∧
        balance ≤ i128Max ∧
        c' = ({ c with
          balances := c.balances + movedBy c.reg.config.feeToken payer host.registry amount
          reg := { c.reg with
            jobs := c.reg.jobs.setState jobId { state with balance } }.touch jobId c.now }).publish
          (.jobFunded jobId payer amount balance) := by
  simp only [fundJob, ensureNotPaused, bind_eq_ok, raise_eq_ok, rejectIf_eq_ok, okOr_eq_ok,
    requireAuth_eq_ok, orTrap_eq_ok, checkedInt_eq_some, pure_eq_ok, Prod.mk.injEq,
    Chain.transfer_eq_ok, exists_unit, Bool.not_eq_true, not_le] at h
  obtain ⟨hlive, hauth, hpos, state, hstate, paid, ⟨⟨-, -, haccepts⟩, rfl⟩, _,
    ⟨⟨-, hfits⟩, rfl⟩, rfl,
    rfl⟩ := h
  exact ⟨⟨hlive, hauth, hpos⟩, haccepts, state, hstate, rfl, hfits, rfl⟩

theorem cancelJob_eq_ok {jobId : JobId} {refund : ℤ} :
    cancelJob host ctx c jobId = .ok (refund, c') ↔
      ∃ spec state paid, c.reg.jobs.getJobParts jobId = some (spec, state) ∧
        (spec.owner ∈ ctx.signers ∧ spec.owner ≠ host.registry) ∧
        { c with reg := { c.reg with
          jobs := (c.reg.jobs.removeJob jobId).removeOwnerJob spec.owner jobId } }.payOut host
            c.reg.config.feeToken spec.owner state.balance = .ok paid ∧
        refund = state.balance ∧ c' = paid.publish (.jobCancelled jobId state.balance) := by
  simp only [cancelJob, bind_eq_ok, raise_eq_ok, okOr_eq_ok, requireAuth_eq_ok, exists_unit,
    Prod.exists, pure_eq_ok, Prod.mk.injEq]
  constructor
  · rintro ⟨spec, state, hparts, hauth, paid, hpaid, rfl, rfl⟩
    exact ⟨spec, state, paid, hparts, hauth, hpaid, rfl, rfl⟩
  · rintro ⟨spec, state, paid, hparts, hauth, hpaid, rfl, rfl⟩
    exact ⟨spec, state, hparts, hauth, paid, hpaid, rfl, rfl⟩

theorem withdrawJobBalance_eq_ok {jobId : JobId} {amount balance : ℤ} :
    withdrawJobBalance host ctx c jobId amount = .ok (balance, c') ↔
      ∃ spec state, c.reg.jobs.getJobParts jobId = some (spec, state) ∧
        (spec.owner ∈ ctx.signers ∧ spec.owner ≠ host.registry) ∧
        0 < amount ∧ amount ≤ state.balance ∧ balance = state.balance - amount ∧
        i128Min ≤ balance ∧ balance ≤ i128Max ∧
        ∃ paid, { c with
            reg := { c.reg with
              jobs := c.reg.jobs.setState jobId { state with balance } }.touch jobId
                c.now }.transfer
            host c.reg.config.feeToken host.registry spec.owner amount = .ok paid ∧
          c' = paid.publish (.jobWithdrawn jobId amount balance) := by
  simp only [withdrawJobBalance, bind_eq_ok, raise_eq_ok, okOr_eq_ok, requireAuth_eq_ok,
    rejectIf_eq_ok, exists_unit, Prod.exists, orTrap_eq_ok, checkedInt_eq_some, pure_eq_ok,
    Prod.mk.injEq, not_or, not_le, not_lt]
  constructor
  · rintro ⟨spec, state, hparts, hauth, ⟨hpos, hle⟩, _, ⟨⟨hlow, hhigh⟩, rfl⟩, paid, hpaid, rfl, rfl⟩
    exact ⟨spec, state, hparts, hauth, hpos, hle, rfl, hlow, hhigh, paid, hpaid, rfl⟩
  · rintro ⟨spec, state, hparts, hauth, hpos, hle, rfl, hlow, hhigh, paid, hpaid, rfl⟩
    exact ⟨spec, state, hparts, hauth, ⟨hpos, hle⟩, _, ⟨⟨hlow, hhigh⟩, rfl⟩, paid, hpaid, rfl, rfl⟩

theorem setJobActive_eq_ok {jobId : JobId} {active : Bool}
    (h : setJobActive host ctx c jobId active = .ok c') :
    ∃ spec state, c.reg.jobs.getJobParts jobId = some (spec, state) ∧
      (spec.owner ∈ ctx.signers ∧ spec.owner ≠ host.registry) ∧
      c' = ({ c with
        reg := { c.reg with
          jobs := c.reg.jobs.setState jobId
            { state with active, failures := if active then 0 else state.failures }
          }.touch jobId c.now }).publish (.jobActiveSet jobId active) := by
  simp only [setJobActive, bind_eq_ok, raise_eq_ok, okOr_eq_ok, requireAuth_eq_ok, exists_unit,
    Prod.exists, pure_eq_ok] at h
  obtain ⟨spec, state, hparts, hauth, rfl⟩ := h
  exact ⟨spec, state, hparts, hauth, rfl⟩

/-! ## Ownership -/

theorem proposeJobOwner_eq_ok {jobId : JobId} {newOwner : Address}
    (h : proposeJobOwner host ctx c jobId newOwner = .ok c') :
    ∃ spec, c.reg.jobs.specs.get jobId = some spec ∧
      (spec.owner ∈ ctx.signers ∧ spec.owner ≠ host.registry) ∧
      c' = ({ c with reg := { c.reg with
        jobs := if newOwner = spec.owner then c.reg.jobs.removePendingOwner jobId
          else c.reg.jobs.setPendingOwner jobId newOwner } }).publish
            (.jobOwnerProposed jobId spec.owner newOwner) := by
  simp only [proposeJobOwner, bind_eq_ok, raise_eq_ok, okOr_eq_ok, requireAuth_eq_ok, exists_unit,
    pure_eq_ok] at h
  obtain ⟨spec, hspec, hauth, rfl⟩ := h
  exact ⟨spec, hspec, hauth, rfl⟩

theorem acceptJobOwner_eq_ok {jobId : JobId} (h : acceptJobOwner host ctx c jobId = .ok c') :
    ∃ spec newOwner, c.reg.jobs.specs.get jobId = some spec ∧
      c.reg.jobs.pendingOwners.get jobId = some newOwner ∧
      (newOwner ∈ ctx.signers ∧ newOwner ≠ host.registry) ∧
      c' = ({ c with reg := { c.reg with
        jobs := (((c.reg.jobs.removePendingOwner jobId).removeOwnerJob spec.owner jobId).addOwnerJob
          newOwner jobId).setSpec jobId { spec with owner := newOwner } } }).publish
            (.jobOwnerChanged jobId spec.owner newOwner) := by
  simp only [acceptJobOwner, bind_eq_ok, raise_eq_ok, okOr_eq_ok, requireAuth_eq_ok, exists_unit,
    pure_eq_ok] at h
  obtain ⟨spec, hspec, newOwner, hnew, hauth, rfl⟩ := h
  exact ⟨spec, newOwner, hspec, hnew, hauth, rfl⟩

end SoroCron
