import SoroCron.Registry.Writes

/-! # The lives of jobs and keepers

Seen from one job id, a run of the registry is a life: the id is not issued yet, the job is
live, or it is gone for good. Seen from one address it is the life of its bond, the stake it
has in the registry and, once it is unbonding, its release time. Every step is a sequence of
a few kinds of changes, in the order of its outputs, so a property that these changes
preserve holds along every run.
-/

namespace SoroCron

open Outcome Bounded

variable {World : Type} {host : Host World} {ctx : Ctx} {c c' : Chain World} {jobId : JobId}

/-! ## Changes of a job -/

/-- Where a job id is in its life. -/
inductive JobPhase where
  | future
  | live (spec : JobSpec) (state : JobState)
  | gone

def JobTable.phase (jobs : JobTable) (id : JobId) : JobPhase :=
  match jobs.getJobParts id with
  | some (spec, state) => .live spec state
  | none => if id < jobs.nextJobId then .gone else .future

/-- One change to a job at time `now`. -/
inductive JobChange (host : Host World) (now : Timestamp) :
    JobAct World → JobPhase → JobPhase → Prop where
  | created {owner : Address} {params : JobParams} {deposit : ℤ} {jobs : JobTable}
      (howner : owner ≠ host.registry) (hspec : (params.toSpec owner).Sound)
      (htyped : params.WellTyped) :
      JobChange host now (.created owner params deposit) .future
        (.live (params.toSpec owner) (params.toState jobs now deposit))
  | updated {update : JobUpdate} {spec : JobSpec} {state : JobState} {interval leaderRuns : ℕ}
      (hspec : (update.applyTo spec interval).Sound) :
      JobChange host now (.updated update) (.live spec state)
        (.live (update.applyTo spec interval)
          { state with nextRun := update.nextRun spec state now, leaderRuns })
  | funded {amount : ℤ} {spec : JobSpec} {state : JobState} (hpos : 0 < amount) :
      JobChange host now (.funded amount) (.live spec state)
        (.live spec { state with balance := state.balance + amount })
  | withdrawn {amount : ℤ} {spec : JobSpec} {state : JobState} (hpos : 0 < amount)
      (hle : amount ≤ state.balance) :
      JobChange host now (.withdrawn amount) (.live spec state)
        (.live spec { state with balance := state.balance - amount })
  | activeSet {active : Bool} {spec : JobSpec} {state : JobState} :
      JobChange host now (.activeSet active) (.live spec state)
        (.live spec { state with active, failures := if active then 0 else state.failures })
  | handedOver {newOwner : Address} {spec : JobSpec} {state : JobState}
      (howner : newOwner ≠ host.registry) :
      JobChange host now .handedOver (.live spec state)
        (.live { spec with owner := newOwner } state)
  | cancelled {spec : JobSpec} {state : JobState} :
      JobChange host now .cancelled (.live spec state) .gone
  | ran {execution : Execution World} {r : Receipt World}
      (hnow : execution.before.chain.now = now)
      (hlive : execution.before.chain.reg.config.paused = false)
      (hconfig : execution.before.chain.reg.config.Sound)
      (hjobs : execution.before.chain.reg.jobs.Sound)
      (hran : Ran host execution.executor execution.keeper execution.jobId execution.before
        execution.after r) :
      JobChange host now (.ran execution) (.live r.admission.spec r.admission.state)
        (.live r.admission.spec (r.state execution.before.chain.reg.config))

/-! ## Phases after a write -/

section Phases

variable {jobs jobs' : JobTable} {id : JobId} {spec : JobSpec} {state : JobState}

theorem phase_of_parts (hparts : jobs.getJobParts id = some (spec, state)) :
    jobs.phase id = .live spec state := by
  rw [JobTable.phase, hparts]

/-- A phase depends on the two entries and on whether the id was issued. -/
theorem phase_congr (hspec : jobs'.specs.get id = jobs.specs.get id)
    (hstate : jobs'.states.get id = jobs.states.get id)
    (hissued : id < jobs'.nextJobId ↔ id < jobs.nextJobId) : jobs'.phase id = jobs.phase id := by
  simp only [JobTable.phase, JobTable.getJobParts, hspec, hstate, hissued]

theorem phase_live (hspec : jobs.specs.get id = some spec)
    (hstate : jobs.states.get id = some state) : jobs.phase id = .live spec state :=
  phase_of_parts (JobTable.getJobParts_eq_some.mpr ⟨hspec, hstate⟩)

theorem parts_of_phase (h : jobs.phase id = .live spec state) :
    jobs.getJobParts id = some (spec, state) := by
  unfold JobTable.phase at h
  split at h
  next stored held hparts =>
    cases h
    exact hparts
  next =>
    split at h
    · cases h
    · cases h

theorem phase_setState (state : JobState) (hspec : jobs.specs.get id = some spec) :
    (jobs.setState id state).phase id = .live spec state :=
  phase_live hspec (Store.get_set_self _ _ _)

theorem phase_setState_of_ne (id : JobId) (state : JobState) {other : JobId} (hne : other ≠ id) :
    (jobs.setState id state).phase other = jobs.phase other :=
  phase_congr rfl (Store.get_set_of_ne _ _ hne) Iff.rfl

theorem phase_gone (hstate : jobs.states.get id = none) (hissued : id < jobs.nextJobId) :
    jobs.phase id = .gone := by
  have hnone : jobs.getJobParts id = none := by
    rw [JobTable.getJobParts, hstate]
    rfl
  rw [JobTable.phase, hnone]
  exact if_pos hissued

theorem JobTable.Sound.phase_fresh (h : jobs.Sound) (hid : jobs.nextJobId ≤ id) :
    jobs.phase id = .future := by
  obtain ⟨hspec, hstate⟩ := h.fresh hid
  have hnone : jobs.getJobParts id = none := by
    rw [JobTable.getJobParts, hstate]
    rfl
  rw [JobTable.phase, hnone]
  exact if_neg (Nat.not_lt.mpr hid)

theorem phase_withJob (jobs : JobTable) (now : Timestamp) (owner : Address) (params : JobParams)
    (deposit : ℤ) : (jobs.withJob now owner params deposit).phase jobs.nextJobId =
      .live (params.toSpec owner) (params.toState jobs now deposit) :=
  phase_live (Store.get_set_self _ _ _) (Store.get_set_self _ _ _)

theorem phase_withJob_of_ne (now : Timestamp) (owner : Address) (params : JobParams) (deposit : ℤ)
    {other : JobId} (hne : other ≠ jobs.nextJobId) :
    (jobs.withJob now owner params deposit).phase other = jobs.phase other := by
  apply phase_congr (Store.get_set_of_ne _ _ hne) (Store.get_set_of_ne _ _ hne)
  change other < jobs.nextJobId + 1 ↔ _
  rw [Nat.lt_succ_iff]
  exact ⟨fun hle => lt_of_le_of_ne hle hne, le_of_lt⟩

theorem phase_handedOver (newOwner : Address) (hparts : jobs.getJobParts id = some (spec, state)) :
    ((((jobs.removePendingOwner id).removeOwnerJob spec.owner id).addOwnerJob newOwner id).setSpec
      id { spec with owner := newOwner }).phase id =
        .live { spec with owner := newOwner } state := by
  have hstate := JobTable.states_get_of_parts hparts
  exact phase_live (Store.get_set_self _ _ _) hstate

theorem phase_cancelled (owner : Address) (hissued : id < jobs.nextJobId) :
    ((jobs.removeJob id).removeOwnerJob owner id).phase id = .gone :=
  phase_gone (Store.get_remove_self _ _) hissued

end Phases

/-! ## Steps of a job's life -/

/-- A write changes its job in one way and no other job. -/
theorem JobWrite.change {now : Timestamp} {id : JobId} {act : JobAct World} {jobs jobs' : JobTable}
    (h : JobWrite host ctx now (id, act) jobs jobs') (hsound : jobs.Sound) :
    JobChange host now act (jobs.phase id) (jobs'.phase id) ∧
      ∀ other, other ≠ id → jobs'.phase other = jobs.phase other := by
  cases h with
  | @created _ owner params deposit hsigned hspec htyped =>
      refine ⟨?_, fun other hne => phase_withJob_of_ne now owner params deposit hne⟩
      rw [hsound.phase_fresh le_rfl, phase_withJob]
      exact .created hsigned.2 hspec htyped
  | updated hparts hsigned hspec hleader =>
      refine ⟨?_, ?_⟩
      · rw [phase_of_parts hparts, phase_setState _ (Store.get_set_self _ _ _)]
        exact .updated hspec
      · intro other hne
        exact phase_congr (Store.get_set_of_ne _ _ hne) (Store.get_set_of_ne _ _ hne) Iff.rfl
  | @handedOver _ _ newOwner spec state hparts hoffered hsigned =>
      refine ⟨?_, ?_⟩
      · rw [phase_of_parts hparts, phase_handedOver newOwner hparts]
        exact .handedOver hsigned.2
      · intro other hne
        exact phase_congr (Store.get_set_of_ne _ _ hne) rfl Iff.rfl
  | @cancelled _ _ spec state hparts hsigned =>
      have hissued := hsound.issued id
        (JobTable.mem_states_keys (JobTable.states_get_of_parts hparts))
      refine ⟨?_, ?_⟩
      · rw [phase_of_parts hparts, phase_cancelled spec.owner hissued]
        exact .cancelled
      · intro other hne
        exact phase_congr (Store.get_remove_of_ne _ hne) (Store.get_remove_of_ne _ hne) Iff.rfl
  | ran hnow hlive hconfig hsigned hran =>
      have hparts := hran.admitted.parts
      refine ⟨?_, fun other hne => phase_setState_of_ne _ _ hne⟩
      rw [phase_of_parts hparts, phase_setState _ (JobTable.specs_get_of_parts hparts)]
      exact .ran hnow hlive hconfig hsound hran
  | funded hparts hpos =>
      refine ⟨?_, fun other hne => phase_setState_of_ne _ _ hne⟩
      rw [phase_of_parts hparts, phase_setState _ (JobTable.specs_get_of_parts hparts)]
      exact .funded hpos
  | withdrawn hparts hsigned hpos hle =>
      refine ⟨?_, fun other hne => phase_setState_of_ne _ _ hne⟩
      rw [phase_of_parts hparts, phase_setState _ (JobTable.specs_get_of_parts hparts)]
      exact .withdrawn hpos hle
  | activeSet hparts hsigned =>
      refine ⟨?_, fun other hne => phase_setState_of_ne _ _ hne⟩
      rw [phase_of_parts hparts, phase_setState _ (JobTable.specs_get_of_parts hparts)]
      exact .activeSet

/-- An offer leaves every job where it is in its life. -/
theorem Offered.phase_eq {id : JobId} {newOwner : Address} {spec : JobSpec} {jobs jobs' : JobTable}
    (h : Offered host ctx id newOwner spec jobs jobs') : jobs'.phase = jobs.phase := by
  funext other
  rw [h.result]
  split
  · exact phase_congr rfl rfl Iff.rfl
  · exact phase_congr rfl rfl Iff.rfl

/-- One write, seen as a change of the phases of all jobs. -/
def PhasesChange (host : Host World) (now : Timestamp) (done : JobId × JobAct World)
    (before after : JobId → JobPhase) : Prop :=
  ∃ ctx jobs jobs', Written host ctx now done jobs jobs' ∧ before = jobs.phase ∧ after = jobs'.phase

theorem PhasesChange.change {now : Timestamp} {id : JobId} {act : JobAct World}
    {before after : JobId → JobPhase} (h : PhasesChange host now (id, act) before after) :
    JobChange host now act (before id) (after id) ∧ ∀ other, other ≠ id →
      after other = before other := by
  obtain ⟨ctx, jobs, jobs', ⟨hsound, hwrite⟩, rfl, rfl⟩ := h
  exact hwrite.change hsound

/-- Every step of the system is a life of all jobs. -/
theorem step_jobsLife (action : Action World) (hsound : c.Sound host)
    (hadm : Admissible host c action) :
    Life (PhasesChange host c.now) (jobSteps (acts host c action)) c.reg.jobs.phase
      (step host c action).reg.jobs.phase := by
  rcases step_writes action hsound hadm with ⟨ctx, jobId, newOwner, spec, rfl, hacts, hoffered⟩ |
    hlife
  · rw [hacts, hoffered.phase_eq]
    exact .nil _
  · apply hlife.map
    intro done jobs jobs' hwrite
    exact ⟨_, jobs, jobs', hwrite, rfl, rfl⟩

/-- What was done to the job `id` among the things done to all jobs. -/
def doneTo (id : JobId) (done : List (JobId × JobAct World)) : List (JobAct World) :=
  done.filterMap fun pair => if pair.1 = id then some pair.2 else none

theorem doneTo_append (id : JobId) (first second : List (JobId × JobAct World)) :
    doneTo id (first ++ second) = doneTo id first ++ doneTo id second :=
  List.filterMap_append

@[simp] theorem doneTo_cons_self (id : JobId) (act : JobAct World)
    (rest : List (JobId × JobAct World)) :
    doneTo id ((id, act) :: rest) = act :: doneTo id rest := by
  simp [doneTo]

theorem doneTo_cons_of_ne {id other : JobId} (act : JobAct World)
    (rest : List (JobId × JobAct World))
    (hne : other ≠ id) : doneTo id ((other, act) :: rest) = doneTo id rest := by
  simp [doneTo, hne]

theorem jobActs_eq (id : JobId) (done : List (Act World)) :
    jobActs id done = doneTo id (jobSteps done) := by
  rw [jobActs, doneTo, jobSteps, List.filterMap_filterMap]
  congr 1
  funext act
  cases act with
  | job other act => rfl
  | keeper who act => rfl

/-- A life of all jobs is a life of each of them. -/
theorem jobsLife_of_job {now : Timestamp} {done : List (JobId × JobAct World)}
    {before after : JobId → JobPhase} (h : Life (PhasesChange host now) done before after)
    (id : JobId) : Life (JobChange host now) (doneTo id done) (before id) (after id) := by
  induction h with
  | nil => exact .nil _
  | @cons one rest before middle after hone _ ih =>
      obtain ⟨other, act⟩ := one
      obtain ⟨hchange, hothers⟩ := hone.change
      by_cases heq : id = other
      · subst heq
        rw [doneTo_cons_self]
        exact .cons hchange ih
      · rw [doneTo_cons_of_ne act rest (Ne.symm heq), ← hothers id heq]
        exact ih

/-- Every step of the system is a life of every job. -/
theorem step_jobLife (action : Action World) (hsound : c.Sound host)
    (hadm : Admissible host c action) (id : JobId) :
    Life (JobChange host c.now) (jobActs id (acts host c action)) (c.reg.jobs.phase id)
      ((step host c action).reg.jobs.phase id) := by
  rw [jobActs_eq]
  exact jobsLife_of_job (step_jobsLife action hsound hadm) id

theorem jobActs_append (id : JobId) (first second : List (Act World)) :
    jobActs id (first ++ second) = jobActs id first ++ jobActs id second :=
  List.filterMap_append

/-! ## Runs in a life -/

/-- The runs among what was done to a job. -/
def runsIn (done : List (JobAct World)) : List (Execution World) :=
  done.filterMap fun
    | .ran execution => some execution
    | _ => none

theorem runsIn_append (first second : List (JobAct World)) :
    runsIn (first ++ second) = runsIn first ++ runsIn second :=
  List.filterMap_append

@[simp] theorem runsIn_ran (execution : Execution World) (rest : List (JobAct World)) :
    runsIn (.ran execution :: rest) = execution :: runsIn rest := rfl

/-- How often a job ran. -/
def runCount (done : List (JobAct World)) : ℕ := (runsIn done).length

theorem runCount_append (first second : List (JobAct World)) :
    runCount (first ++ second) = runCount first + runCount second := by
  rw [runCount, runsIn_append, List.length_append]
  rfl

namespace Execution

variable (execution : Execution World)

/-- What the run published. -/
def published : List (Timestamp × Event) :=
  execution.after.chain.log.drop execution.before.chain.log.length

/-- Whether the target call succeeded, as the run's last event reports it. -/
def success : Bool :=
  match execution.published.getLast? with
  | some (_, .jobExecuted _ _ success _ _ _ _ _ _ _) => success
  | _ => false

/-- When the run happened. -/
def time : Timestamp := execution.before.chain.now

/-- The job as the run found it. -/
def found : Option (JobSpec × JobState) :=
  execution.before.chain.reg.jobs.getJobParts execution.jobId

/-- When the run was due. -/
def due : Timestamp := (execution.found.map fun parts => parts.2.nextRun).getD 0

/-- The interval under which it ran. -/
def interval : ℕ := (execution.found.map fun parts => parts.1.interval).getD 0

/-- What a run adds to what its call pays out to the keeper and the treasury. -/
def fee : ℤ :=
  (execution.after.payout.keeperFees - execution.before.payout.keeperFees) +
    (execution.after.payout.protocolFees - execution.before.payout.protocolFees)

end Execution

theorem Ran.published {executor keeper : Address} {b b' : Batch World} {r : Receipt World}
    (h : Ran host executor keeper jobId b b' r) :
    b'.chain.log.drop b.chain.log.length =
      (r.events host b.chain.reg b.chain.now keeper jobId).map (b.chain.now, ·) := by
  rw [h.log, List.drop_left]

theorem Ran.success {execution : Execution World} {r : Receipt World}
    (h : Ran host execution.executor execution.keeper execution.jobId execution.before
      execution.after r) :
    execution.success = r.call.answer.success := by
  rw [Execution.success, Execution.published, h.published, Receipt.events, List.map_append,
    List.map_singleton, List.getLast?_concat]

/-- What a run pays out is what it charges its job. -/
theorem Ran.fee {execution : Execution World} {r : Receipt World}
    (h : Ran host execution.executor execution.keeper execution.jobId execution.before
      execution.after r)
    (hjobs : execution.before.chain.reg.jobs.Sound)
    (hconfig : execution.before.chain.reg.config.Sound) : execution.fee = r.fee := by
  obtain ⟨-, -, hparts⟩ := h.parts hjobs hconfig
  obtain ⟨hkeeper, hprotocol⟩ := h.payout
  rw [Execution.fee, hkeeper, hprotocol]
  omega

/-- What a run of a job says about the job before and after. -/
theorem JobChange.ran_inv {now : Timestamp} {execution : Execution World} {before after : JobPhase}
    (h : JobChange host now (.ran execution) before after) :
    ∃ r, execution.before.chain.now = now ∧ execution.before.chain.reg.config.paused = false ∧
      execution.before.chain.reg.config.Sound ∧ execution.before.chain.reg.jobs.Sound ∧
      Ran host execution.executor execution.keeper execution.jobId execution.before
        execution.after r ∧
      execution.found = some (r.admission.spec, r.admission.state) ∧
      before = .live r.admission.spec r.admission.state ∧
      after = .live r.admission.spec (r.state execution.before.chain.reg.config) := by
  cases h with
  | @ran _ r hnow hlive hconfig hjobs hran =>
      exact ⟨r, hnow, hlive, hconfig, hjobs, hran, hran.admitted.parts, rfl, rfl⟩

/-! ## Gone for good -/

section Gone

variable {now : Timestamp} {act : JobAct World} {id : JobId}

theorem JobChange.gone_of_cancelled {before after : JobPhase}
    (h : JobChange host now .cancelled before after) : after = .gone := by
  cases h
  rfl

theorem JobChange.cancelled_of_gone {before after : JobPhase}
    (h : JobChange host now act before after) (hafter : after = .gone) : act = .cancelled := by
  cases h with
  | cancelled => rfl
  | _ => cases hafter

theorem JobChange.before_of_created {before after : JobPhase} {owner : Address} {params : JobParams}
    {deposit : ℤ} (h : JobChange host now (.created owner params deposit) before after) :
    before = .future := by
  cases h
  rfl

/-- A job that was gone stays so, and one that is gone now was cancelled. -/
theorem JobChange.gone {before after : JobPhase} (h : JobChange host now act before after) :
    before ≠ .gone ∧ after ≠ .future ∧ (after = .gone → runCount [act] = 0) := by
  cases h with
  | ran hnow hlive hconfig hjobs hran => exact ⟨nofun, nofun, nofun⟩
  | _ => exact ⟨nofun, nofun, fun _ => rfl⟩

/-- A job gone for good stays gone. -/
theorem gone_of_life {acts : List (JobId × JobAct World)}
    {before after : Timestamp × (JobId → JobPhase)}
    (h : Life (Timed (PhasesChange host)) acts before after) (hgone : before.2 id = .gone) :
    after.2 id = .gone := by
  refine h.invariant (I := fun phases => phases.2 id = .gone) ?_ hgone
  rintro ⟨other, act⟩ before after hbefore ⟨-, hchange⟩
  obtain ⟨hchange, hothers⟩ := hchange.change
  rw [hothers id ?_]
  · exact hbefore
  · rintro rfl
    exact hchange.gone.1 hbefore

theorem gone_of_cancelled_mem {acts : List (JobId × JobAct World)}
    {before after : Timestamp × (JobId → JobPhase)}
    (h : Life (Timed (PhasesChange host)) acts before after)
    (hmem : (id, .cancelled) ∈ acts) : after.2 id = .gone := by
  obtain ⟨first, second, rfl⟩ := List.append_of_mem hmem
  obtain ⟨found, left, -, ⟨-, hcancelled⟩, hsecond⟩ := h.split_at
  exact gone_of_life hsecond hcancelled.change.1.gone_of_cancelled

end Gone

/-! ## Changes of a bond -/

/-- A keeper's stake and, once it is unbonding, its release time. -/
abbrev Bond := Option (ℤ × Option Timestamp)

/-- One change to a keeper's bond at time `now`. -/
inductive KeeperChange (now : Timestamp) : KeeperAct → Bond → Bond → Prop where
  | registered {amount : ℤ} (hpos : 0 < amount) :
      KeeperChange now (.staked amount) none (some (amount, none))
  | added {amount stake : ℤ} (hpos : 0 < amount) :
      KeeperChange now (.staked amount) (some (stake, none)) (some (stake + amount, none))
  | unbonding {stake : ℤ} {release : Timestamp} :
      KeeperChange now .unbonding (some (stake, none)) (some (stake, some release))
  | withdrawn {stake : ℤ} {release : Timestamp} (hready : release ≤ now) :
      KeeperChange now .withdrawn (some (stake, some release)) none

theorem keeperActs_append (keeper : Address) (first second : List (Act World)) :
    keeperActs keeper (first ++ second) = keeperActs keeper first ++ keeperActs keeper second :=
  List.filterMap_append

/-- One change of one bond: the others stay. -/
theorem bond_one {now : Timestamp} {act : KeeperAct} {keepers keepers' : KeeperTable}
    {keeper : Address} {after : Bond}
    (hchange : KeeperChange now act (keepers.bondOf keeper) after)
    (hbonds : ∀ who, keepers'.bondOf who = if who = keeper then after else keepers.bondOf who)
    (who : Address) :
    Life (KeeperChange now) (keeperActs who [(.keeper keeper act : Act World)]) (keepers.bondOf who)
      (keepers'.bondOf who) := by
  rw [hbonds]
  by_cases heq : who = keeper
  · subst heq
    rw [if_pos rfl]
    simp only [keeperActs, List.filterMap_cons, if_true, List.filterMap_nil]
    exact .single hchange
  · have hacts : keeperActs who [(.keeper keeper act : Act World)] = [] := by
      simp [keeperActs, Ne.symm heq]
    rw [hacts, if_neg heq]
    exact .nil _

theorem releaseStake_life {keeper : Address} {amount : ℤ}
    (h : releaseStake host c keeper = .ok (amount, c')) (who : Address) :
    Life (KeeperChange c.now) (keeperActs who [(.keeper keeper .withdrawn : Act World)])
      (c.reg.keepers.bondOf who) (c'.reg.keepers.bondOf who) := by
  obtain ⟨⟨release, hbond, hready⟩, hbonds⟩ := releaseStake_bondOf h
  refine bond_one ?_ hbonds who
  rw [hbond]
  exact .withdrawn hready

theorem keeperCall_life {call : KeeperCall} (h : keeperCall host ctx c call = .ok c')
    (who : Address) : Life (KeeperChange c.now) (keeperActs who (actsOf host ctx c (.keeper call)))
      (c.reg.keepers.bondOf who) (c'.reg.keepers.bondOf who) := by
  cases call with
  | stake keeper amount =>
      obtain ⟨total, h⟩ := Result.chain_eq_ok.mp h
      obtain ⟨⟨-, -, hpos⟩, -⟩ := stake_eq_ok h
      obtain ⟨hbefore, hbonds⟩ := stake_bondOf h
      refine bond_one ?_ hbonds who
      rcases hbefore with ⟨hnone, rfl⟩ | ⟨before, hsome, rfl⟩
      · rw [hnone]
        exact .registered hpos
      · rw [hsome]
        exact .added hpos
  | beginUnbonding keeper =>
      obtain ⟨release, h⟩ := Result.chain_eq_ok.mp h
      obtain ⟨before, hbefore, hbonds⟩ := beginUnbonding_bondOf h
      refine bond_one ?_ hbonds who
      rw [hbefore]
      exact .unbonding
  | withdrawStake keeper =>
      obtain ⟨amount, h⟩ := Result.chain_eq_ok.mp h
      exact releaseStake_life (withdrawStake_eq_ok.mp h).2 who
  | withdrawStakes keepers =>
      obtain ⟨amounts, h⟩ := Result.chain_eq_ok.mp h
      let I : List Address → Chain World → Prop := fun past middle =>
        middle.now = c.now ∧ Life (KeeperChange c.now)
          (keeperActs who (past.map fun keeper => (.keeper keeper .withdrawn : Act World)))
          (c.reg.keepers.bondOf who) (middle.reg.keepers.bondOf who)
      have hlast : I ([] ++ releasesOf host keepers c) c' := by
        refine releaseStakes_history ?_ [] ⟨rfl, .nil _⟩ (withdrawStakes_eq_ok.mp h).2
        rintro past middle after keeper amount ⟨hnow, hpast⟩ hrelease
        refine ⟨(releaseStake_keepersOnly hrelease).1.now.trans hnow, ?_⟩
        have hone := releaseStake_life hrelease who
        rw [hnow] at hone
        rw [List.map_append, keeperActs_append]
        exact hpast.append hone
      exact hlast.2

/-- Every step of the system is a life of every bond. -/
theorem step_keeperLife (action : Action World) (hsound : c.Sound host) (who : Address) :
    Life (KeeperChange c.now) (keeperActs who (acts host c action)) (c.reg.keepers.bondOf who)
      ((step host c action).reg.keepers.bondOf who) := by
  cases action with
  | call ctx call =>
      rcases step_call_cases host c ctx call with ⟨hcall, hacts⟩ | ⟨hsame, hacts⟩
      · rw [hacts]
        cases call with
        | job call =>
            have hnone : ∀ owner (jobs : List (JobParams × ℤ)) id,
                keeperActs who (creationsOf owner jobs id : List (Act World)) = [] := by
              intro owner jobs
              induction jobs with
              | nil => exact fun id => rfl
              | cons pair rest ih => exact fun id => ih (id + 1)
            have hacts : keeperActs who (actsOf host ctx c (.job call)) = [] := by
              cases call with
              | createJob owner params deposit => exact hnone _ _ _
              | createJobs owner jobs deposits => exact hnone _ _ _
              | _ => rfl
            rw [hacts, (jobCall_jobsOnly hcall).keepers]
            exact .nil _
        | run call =>
            obtain ⟨executor, info, ran, b, hauth, hruns, hfinish, hacts⟩ := runCall_eq_ok hcall
            obtain ⟨-, -, -, hinfo, -⟩ := authorizeKeeper_eq_ok.mp hauth
            have hunder := runJobs_underway hsound.config hsound.jobs hruns
            have hsaved := hunder.bonds_saved hinfo who
            have hnone : keeperActs who (actsOf host ctx c (.run call)) = [] := by
              simp [hacts, keeperActs]
            rw [hnone, finish_eq_ok hunder.keeperFees hunder.protocolFees hfinish]
            dsimp only
            rw [hsaved]
            exact .nil _
        | keeper call => exact keeperCall_life hcall who
        | admin call =>
            obtain ⟨-, -, hc⟩ := adminCall_eq_ok hcall
            have hframe := (adminCall_settingsOnly call c.reg c.now).keepers
            rw [hc, Chain.publish_reg, hframe]
            exact .nil _
      · rw [hacts, hsame]
        exact .nil _
  | _ => exact .nil _

/-! ## Rules -/

theorem Deployed.phase_eq (h : Deployed host c) (id : JobId) : c.reg.jobs.phase id = .future := by
  obtain ⟨config, hreg, -, -⟩ := h.fresh
  apply h.sound.jobs.phase_fresh
  rw [hreg]
  exact Nat.zero_le _

theorem Deployed.bondOf_eq (h : Deployed host c) (who : Address) :
    c.reg.keepers.bondOf who = none := by
  obtain ⟨config, hreg, -, -⟩ := h.fresh
  rw [hreg, KeeperTable.bondOf, Store.get_empty, Option.map_none]

section Rules

variable {actions : List (Action World)}

/-- A property of what was done to a job, the time and its phase that every change and the
passing of time preserve holds along every run. -/
theorem job_history {J : List (JobAct World) → Timestamp → JobPhase → Prop}
    (hchange : ∀ past now act before after, J past now before →
      JobChange host now act before after →
      J (past ++ [act]) now after)
    (hlater : ∀ past now later phase, now ≤ later → J past now phase → J past later phase)
    (past : List (JobAct World)) (hsound : c.Sound host) (id : JobId)
    (hstart : J past c.now (c.reg.jobs.phase id))
    (halong : (machine host).Along (Admissible host) c actions) :
    J (past ++ jobActs id ((machine host).outputs c actions)) ((machine host).run c actions).now
      (((machine host).run c actions).reg.jobs.phase id) := by
  refine Machine.lives_run (I := Chain.Sound host) (fun c : Chain World => c.reg.jobs.phase id)
    (fun c : Chain World => c.now)
      (jobActs_append id) ?_ ?_ ?_ hchange hlater past hsound hstart halong
  · intro c action hsound hadm
    exact step_sound hsound hadm
  · intro c action hsound _
    exact step_now hsound action
  · intro c action hsound hadm
    exact step_jobLife action hsound hadm id

/-- Along a run, what was done to a job is a life with a time for each change. -/
theorem job_life (hsound : c.Sound host) (id : JobId)
    (halong : (machine host).Along (Admissible host) c actions) :
    ∃ now ≤ ((machine host).run c actions).now,
      Life (Timed (JobChange host)) (jobActs id ((machine host).outputs c actions))
        (c.now, c.reg.jobs.phase id) (now, ((machine host).run c actions).reg.jobs.phase id) := by
  refine Machine.life_run (I := Chain.Sound host) (fun c : Chain World => c.reg.jobs.phase id)
    (fun c : Chain World => c.now) (jobActs_append id) ?_ ?_ ?_ hsound halong
  · intro c action hsound hadm
    exact step_sound hsound hadm
  · intro c action hsound _
    exact step_now hsound action
  · intro c action hsound hadm
    exact step_jobLife action hsound hadm id

/-- The same of all jobs together. -/
theorem jobs_life (hsound : c.Sound host)
    (halong : (machine host).Along (Admissible host) c actions) :
    ∃ now ≤ ((machine host).run c actions).now,
      Life (Timed (PhasesChange host)) (jobSteps ((machine host).outputs c actions))
        (c.now, c.reg.jobs.phase) (now, ((machine host).run c actions).reg.jobs.phase) := by
  refine Machine.life_run (I := Chain.Sound host) (fun c : Chain World => c.reg.jobs.phase)
    (fun c : Chain World => c.now) jobSteps_append ?_ ?_ ?_ hsound halong
  · intro c action hsound hadm
    exact step_sound hsound hadm
  · intro c action hsound _
    exact step_now hsound action
  · intro c action hsound hadm
    exact step_jobsLife action hsound hadm

/-- The same of a keeper's bond. -/
theorem keeper_history {J : List KeeperAct → Timestamp → Bond → Prop}
    (hchange : ∀ past now act before after, J past now before → KeeperChange now act before after →
      J (past ++ [act]) now after)
    (hlater : ∀ past now later bond, now ≤ later → J past now bond → J past later bond)
    (past : List KeeperAct) (hsound : c.Sound host) (who : Address)
    (hstart : J past c.now (c.reg.keepers.bondOf who))
    (halong : (machine host).Along (Admissible host) c actions) :
    J (past ++ keeperActs who ((machine host).outputs c actions)) ((machine host).run c actions).now
      (((machine host).run c actions).reg.keepers.bondOf who) := by
  refine Machine.lives_run (I := Chain.Sound host) (fun c : Chain World => c.reg.keepers.bondOf who)
    (fun c : Chain World => c.now)
      (keeperActs_append who) ?_ ?_ ?_ hchange hlater past hsound hstart
    halong
  · intro c action hsound hadm
    exact step_sound hsound hadm
  · intro c action hsound _
    exact step_now hsound action
  · intro c action hsound _
    exact step_keeperLife action hsound who

end Rules

end SoroCron
