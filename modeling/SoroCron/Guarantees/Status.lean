import SoroCron.Guarantees.Failures
import SoroCron.Registry.Entries
import SoroCron.Sdk.Schedule

/-! # What the SDK makes of a job

`jobStatus` repeats the checks of `ensureDue`, so it names the reason why a job is not due.
For an inactive job it also says who stopped it, and this it guesses from the count of
failures, which a pause by the owner leaves where it was.
-/

namespace SoroCron

open Outcome Bounded
open Sdk (JobStatus jobStatus)

variable {World : Type} {host : Host World} {c c' : Chain World} {id : JobId}

/-! ## Reasons -/

/-- A status names the answer of `ensureDue`. -/
structure Explains (status : JobStatus) (answer : Except Error Unit) : Prop where
  due : status = .due ↔ answer = .ok ()
  completed : status = .completed ↔ answer = .error .maxRunsReached
  expired : status = .expired ↔ answer = .error .jobExpired
  underfunded : status = .underfunded ↔ answer = .error .insufficientJobBalance
  scheduled : status = .scheduled ↔ answer = .error .jobNotDue

theorem ensureDue_eq_paused {spec : JobSpec} {state : JobState} {now : Timestamp} :
    ensureDue spec state now = .error .jobPaused ↔ state.active = false := by
  simp [ensureDue, bind_eq_error]

theorem jobStatus_inactive (id : JobId) (spec : JobSpec) {state : JobState} (now : Timestamp)
    (hactive : state.active = false) :
    jobStatus (jobView id spec state) now = if 0 < state.failures then .failing else .paused :=
  if_pos hactive

/-- Both go through the same checks in the same order. -/
theorem jobStatus_explains (id : JobId) (spec : JobSpec) (state : JobState) (now : Timestamp) :
    Explains (jobStatus (jobView id spec state) now) (ensureDue spec state now) := by
  cases hactive : state.active with
  | false =>
      rw [jobStatus_inactive id spec now hactive, ensureDue_eq_paused.mpr hactive]
      split <;> constructor <;> simp
  | true =>
      have hstatus : jobStatus (jobView id spec state) now =
          if spec.maxRuns ≠ 0 ∧ spec.maxRuns ≤ state.runs then .completed
          else if spec.endAt ≠ 0 ∧ spec.endAt ≤ now then .expired
          else if state.balance < spec.feePerRun then .underfunded
          else if now < state.nextRun then .scheduled
          else .due := by
        simp only [jobStatus, jobView, hactive, Bool.true_eq_false, if_false]
      have hanswer : ensureDue spec state now =
          if spec.maxRuns ≠ 0 ∧ spec.maxRuns ≤ state.runs then .error .maxRunsReached
          else if spec.endAt ≠ 0 ∧ spec.endAt ≤ now then .error .jobExpired
          else if state.balance < spec.feePerRun then .error .insufficientJobBalance
          else if now < state.nextRun then .error .jobNotDue
          else .ok () := by
        simp only [ensureDue, rejectIf, hactive, Bool.true_eq_false, if_false, bind, Except.bind]
        split_ifs <;> rfl
      rw [hstatus, hanswer]
      split_ifs <;> constructor <;> simp

/-! ## Who stopped a job -/

/-- Who made a job inactive: the registry after too many failures, or its owner. -/
inductive StoppedBy where
  | failures
  | owner
  deriving DecidableEq

/-- A run that reaches the limit of failures in force. -/
def Execution.reachesLimit (execution : Execution World) : Bool :=
  let limit := execution.before.chain.reg.config.maxFailures
  let failures :=
    ((execution.after.chain.reg.jobs.states.get execution.jobId).map JobState.failures).getD 0
  !execution.success && limit != 0 && limit ≤ failures

/-- Who last made a job inactive that is inactive now, read off what was done to it. Pausing a
job that is inactive already makes no difference. -/
def stoppedBy (done : List (JobAct World)) : Option StoppedBy :=
  done.foldl (fun last act =>
    match act with
    | .created _ _ _ => none
    | .activeSet true => none
    | .activeSet false => some (last.getD .owner)
    | .ran execution => if execution.reachesLimit then some .failures else none
    | _ => last) none

theorem stoppedBy_append (past : List (JobAct World)) (act : JobAct World) :
    stoppedBy (past ++ [act]) =
      match act with
      | .created _ _ _ => none
      | .activeSet true => none
      | .activeSet false => some ((stoppedBy past).getD .owner)
      | .ran execution => if execution.reachesLimit then some .failures else none
      | _ => stoppedBy past := by
  rw [stoppedBy, List.foldl_append]
  rfl

theorem Ran.reachesLimit {execution : Execution World} {r : Receipt World}
    (h : Ran host execution.executor execution.keeper execution.jobId execution.before
      execution.after r) :
    execution.reachesLimit =
      deactivates execution.before.chain.reg.config r.admission.state r.call.answer.success := by
  have hstate : execution.after.chain.reg.jobs.states.get execution.jobId =
      some (r.state execution.before.chain.reg.config) := by
    rw [h.reg]
    exact Store.get_set_self _ _ _
  unfold Execution.reachesLimit
  rw [h.success, hstate]
  rfl

/-- A run leaves its job inactive exactly if it reaches the limit; only a failed one does. -/
theorem JobChange.stops {now : Timestamp} {execution : Execution World} {before after : JobPhase}
    (h : JobChange host now (.ran execution) before after) :
    ∃ spec state state', before = .live spec state ∧ after = .live spec state' ∧
      state.active = true ∧
      state'.failures = (if execution.success then 0 else satAdd32 state.failures 1) ∧
      (state'.active = false ↔ execution.reachesLimit = true) ∧
      (execution.reachesLimit = true → execution.success = false) := by
  obtain ⟨r, -, -, -, -, hran, -, hbefore, hafter⟩ := h.ran_inv
  obtain ⟨hactive, -, -, -, -⟩ := ensureDue_eq_ok.mp hran.admitted.due
  refine ⟨_, _, _, hbefore, hafter, hactive, ?_, ?_, ?_⟩
  · rw [hran.success]
    rfl
  · rw [hran.reachesLimit]
    simp [Receipt.state, hactive]
  · rw [hran.reachesLimit, hran.success]
    simp only [deactivates, Bool.and_eq_true, Bool.not_eq_true']
    exact fun hstops => hstops.1.1

/-- What a job's state says about its past: whether it was stopped, and whether its last runs
failed. -/
def JobPhase.Remembers (past : List (JobAct World)) : JobPhase → Prop
  | .future => stoppedBy past = none ∧ failedInARow past = 0
  | .live _ state =>
      (state.active = false ↔ stoppedBy past ≠ none) ∧
        (0 < state.failures ↔ 0 < failedInARow past) ∧
        (stoppedBy past = some .failures → 0 < state.failures)
  | .gone => True

theorem remembers_live {past : List (JobAct World)} {spec : JobSpec} {state : JobState} :
    (JobPhase.live spec state).Remembers past ↔
      (state.active = false ↔ stoppedBy past ≠ none) ∧
        (0 < state.failures ↔ 0 < failedInARow past) ∧
        (stoppedBy past = some .failures → 0 < state.failures) := Iff.rfl

theorem JobChange.remembers {past : List (JobAct World)} {now : Timestamp} {act : JobAct World}
    {before after : JobPhase} (hbefore : before.Remembers past)
    (h : JobChange host now act before after) : after.Remembers (past ++ [act]) := by
  cases act with
  | ran execution =>
      obtain ⟨spec, state, state', rfl, rfl, hactive, hcount, hstops, hfailed⟩ := h.stops
      rw [remembers_live, stoppedBy_append, failedInARow_append, hcount]
      cases hsuccess : execution.success with
      | true =>
          have hgoes : execution.reachesLimit = false :=
            Bool.eq_false_iff.mpr fun hlimit => by simp [hfailed hlimit] at hsuccess
          simp [hstops, hgoes, JobAct.resets, hsuccess]
      | false =>
          have hpos : 0 < satAdd32 state.failures 1 :=
            le_satAdd (by decide) (Nat.le_add_left 1 _)
          simp [hstops, JobAct.resets, hsuccess, hpos, runCount]
  | activeSet active =>
      cases h
      obtain ⟨hstopped, hcount, hfailed⟩ := hbefore
      rw [remembers_live, stoppedBy_append, failedInARow_append]
      cases active with
      | true => simp [JobAct.resets]
      | false =>
          refine ⟨by simp, hcount, ?_⟩
          intro hlast
          cases hpast : stoppedBy past with
          | none => simp [hpast] at hlast
          | some stop =>
              apply hfailed
              simpa [hpast] using hlast
  | created owner params deposit =>
      cases h
      obtain ⟨-, hnone⟩ := hbefore
      rw [remembers_live, stoppedBy_append, failedInARow_append, hnone]
      simp [JobParams.toState, JobAct.resets, runCount, runsIn]
  | cancelled =>
      cases h
      trivial
  | _ =>
      cases h
      rw [remembers_live, stoppedBy_append, failedInARow_append]
      exact hbefore

/-! ## Who is named -/

/-- The status of an inactive job names who stopped it. -/
structure Blames (status : JobStatus) (cause : Option StoppedBy) : Prop where
  failing : status = .failing ↔ cause = some .failures
  paused : status = .paused ↔ cause = some .owner

/-- The right one is named exactly unless the owner stopped a job whose last runs failed. -/
theorem blames_iff {done : List (JobAct World)} {spec : JobSpec} {state : JobState} (id : JobId)
    (now : Timestamp) (hlast : (JobPhase.live spec state).Remembers done)
    (hactive : state.active = false) :
    Blames (jobStatus (jobView id spec state) now) (stoppedBy done) ↔
      (stoppedBy done = some .owner → failedInARow done = 0) := by
  obtain ⟨hstopped, hcount, hfailed⟩ := hlast
  rw [jobStatus_inactive id spec now hactive]
  have hsome := hstopped.mp hactive
  cases hcause : stoppedBy done with
  | none => exact absurd hcause hsome
  | some cause =>
      cases cause with
      | failures =>
          rw [if_pos (hfailed hcause)]
          exact ⟨fun _ => nofun, fun _ => ⟨by simp, by simp⟩⟩
      | owner =>
          constructor
          · rintro ⟨hfailing, -⟩ -
            by_contra hfails
            rw [if_pos (hcount.mpr (Nat.pos_of_ne_zero hfails))] at hfailing
            simp at hfailing
          · intro hnone
            have hzero : ¬0 < state.failures := by
              rw [hcount, hnone rfl]
              exact lt_irrefl 0
            rw [if_neg hzero]
            exact ⟨by simp, by simp⟩

/-- The owner pauses an active job whose last runs failed. -/
def PausesFailing (host : Host World) (id : JobId) (c : Chain World)
    (action : Action World) : Prop :=
  ∃ ctx c' state, action = .call ctx (.job (.setJobActive id false)) ∧
    setJobActive host ctx c id false = .ok c' ∧ c.reg.jobs.states.get id = some state ∧
    state.active = true ∧ 0 < state.failures

/-- A pause of a job is the owner's call, and all that its step does. -/
theorem pause_of_mem {action : Action World}
    (h : .activeSet false ∈ jobActs id (acts host c action)) :
    ∃ ctx c', action = .call ctx (.job (.setJobActive id false)) ∧
      setJobActive host ctx c id false = .ok c' ∧ jobActs id (acts host c action) =
        [.activeSet false] := by
  obtain ⟨ctx, call, rfl, hdoes⟩ := does_of_mem (mem_jobSteps_of_jobActs h)
  obtain rfl := hdoes.of_activeSet
  rcases step_call_cases host c ctx (.job (.setJobActive id false)) with ⟨hcall, hacts⟩ | ⟨-, hacts⟩
  · refine ⟨ctx, _, rfl, hcall, ?_⟩
    rw [hacts]
    simp [actsOf, jobActs]
  · rw [hacts] at h
    cases h

/-- A life without pauses leaves the owner no more to blame than before. -/
theorem blameless_of_life {now : Timestamp} {past segment : List (JobAct World)}
    {before after : JobPhase}
    (h : Life (JobChange host now) segment before after) (hpauses : .activeSet false ∉ segment)
    (hpast : stoppedBy past = some .owner → failedInARow past = 0) :
    stoppedBy (past ++ segment) = some .owner → failedInARow (past ++ segment) = 0 := by
  have hact : ∀ act ∈ segment, act ≠ .activeSet false := by
    rintro act hmem rfl
    exact hpauses hmem
  refine (h.restrict hact).history
    (J := fun past _ => stoppedBy past = some .owner → failedInARow past = 0) ?_ past hpast
  rintro past act before after hpast ⟨hkept, -⟩
  rw [stoppedBy_append, failedInARow_append]
  cases act with
  | activeSet active =>
      cases active with
      | true => exact nofun
      | false => exact absurd rfl hkept
  | ran execution =>
      intro howner
      dsimp only at howner
      split at howner
      · cases howner
      · cases howner
  | created owner params deposit => exact nofun
  | _ => exact hpast

/-- A pause of a job whose last run succeeded, or that was inactive already, blames nobody anew. -/
theorem pause_blameless {ctx : Ctx} {past : List (JobAct World)}
    (hpause : setJobActive host ctx c id false = .ok c')
    (hkept : ¬PausesFailing host id c (.call ctx (.job (.setJobActive id false))))
    (hphase : (c.reg.jobs.phase id).Remembers past)
    (hpast : stoppedBy past = some .owner → failedInARow past = 0)
    (howner : some ((stoppedBy past).getD .owner) = some StoppedBy.owner) :
    (if (JobAct.activeSet false : JobAct World).resets then 0
      else failedInARow past + runCount [(.activeSet false : JobAct World)]) = 0 := by
  obtain ⟨spec, state, hparts, -, -⟩ := setJobActive_eq_ok hpause
  rw [phase_of_parts hparts] at hphase
  obtain ⟨hstopped, hcount, -⟩ := hphase
  change failedInARow past = 0
  cases hcause : stoppedBy past with
  | some cause =>
      rw [hcause] at howner
      exact hpast (hcause.trans howner)
  | none =>
      have hactive : state.active = true := by
        by_contra hinactive
        exact hstopped.mp (Bool.eq_false_iff.mpr hinactive) hcause
      by_contra hfails
      exact hkept ⟨ctx, c', state, rfl, hpause, JobTable.states_get_of_parts hparts, hactive,
        hcount.mpr (Nat.pos_of_ne_zero hfails)⟩

/-- In a run without such a pause, the owner stopped no job whose last runs failed. -/
theorem blameless_of_run {start : Chain World} {actions : List (Action World)}
    (hsound : start.Sound host) (hfresh : start.reg.jobs.phase id = .future)
    (halong : (machine host).Along
      (fun c action => Admissible host c action ∧ ¬PausesFailing host id c action) start actions) :
    let done := jobActs id ((machine host).outputs start actions)
    stoppedBy done = some .owner → failedInARow done = 0 := by
  have hlast := Machine.history_run (m := machine host)
    (J := fun done c => c.Sound host ∧ (c.reg.jobs.phase id).Remembers (jobActs id done) ∧
      (stoppedBy (jobActs id done) = some .owner → failedInARow (jobActs id done) = 0))
    ?_ [] ⟨hsound, ?_, fun _ => rfl⟩ halong
  · exact hlast.2.2
  · rintro done c action ⟨hsound, hphase, hblameless⟩ ⟨hadm, hkept⟩
    have hlife := step_jobLife action hsound hadm id
    have hout : (machine host).out c action = acts host c action := rfl
    rw [hout, jobActs_append]
    refine ⟨step_sound hsound hadm, ?_, ?_⟩
    · exact hlife.history (J := fun past phase => phase.Remembers past)
        (fun past act before after hbefore hchange => hchange.remembers hbefore) _ hphase
    · by_cases hpauses : .activeSet false ∈ jobActs id (acts host c action)
      · obtain ⟨ctx, c', rfl, hpause, hacts⟩ := pause_of_mem hpauses
        rw [hacts, stoppedBy_append, failedInARow_append]
        exact pause_blameless hpause hkept hphase hblameless
      · exact blameless_of_life hlife hpauses hblameless
  · rw [hfresh]
    exact ⟨rfl, rfl⟩

/-- Along every run, the status of a live job names the answer of `ensureDue`. The status of an
inactive job names who last made it inactive exactly unless that was the owner while the
last runs of the job had failed; so it does in every run in which the owner pauses no active
job whose last runs failed. -/
theorem jobStatus_tells {start : Chain World} {actions : List (Action World)}
    (hstart : Deployed host start)
    (halong : (machine host).Along (Admissible host) start actions) (id : JobId) (spec : JobSpec)
    (state : JobState)
    (hparts : ((machine host).run start actions).reg.jobs.getJobParts id = some (spec, state))
    (now : Timestamp) :
    let done := jobActs id ((machine host).outputs start actions)
    let status := jobStatus (jobView id spec state) now
    Explains status (ensureDue spec state now) ∧
      (ensureDue spec state now = .error .jobPaused →
        (Blames status (stoppedBy done) ↔ (stoppedBy done = some .owner → failedInARow done = 0))) ∧
      ((machine host).Along (fun c action => ¬PausesFailing host id c action) start actions →
        ensureDue spec state now = .error .jobPaused → Blames status (stoppedBy done)) := by
  intro done status
  have hlast : (JobPhase.live spec state).Remembers done := by
    have hfresh : (start.reg.jobs.phase id).Remembers ([] : List (JobAct World)) := by
      rw [hstart.phase_eq id]
      exact ⟨rfl, rfl⟩
    have hhistory := job_history (J := fun past _ phase => phase.Remembers past)
      (fun past now act before after hbefore hchange => hchange.remembers hbefore)
      (fun past now later phase _ hbefore => hbefore) [] hstart.sound id hfresh halong
    rwa [phase_of_parts hparts] at hhistory
  have hexact : ensureDue spec state now = .error .jobPaused →
      (Blames status (stoppedBy done) ↔ (stoppedBy done = some .owner → failedInARow done = 0)) :=
    fun hpaused => blames_iff id now hlast (ensureDue_eq_paused.mp hpaused)
  refine ⟨jobStatus_explains id spec state now, hexact, ?_⟩
  intro hkept hpaused
  exact (hexact hpaused).mpr
    (blameless_of_run hstart.sound (hstart.phase_eq id) (Machine.along_and halong hkept))

/-- After three failed runs in a row the status of the job says so. -/
theorem jobStatus_tells_failingRun :
    let start := deployment ⟨3⟩ 1000 100 10 1000
    ∃ spec state, ((machine failingHost).run start failingRun).reg.jobs.getJobParts 0 =
      some (spec, state) ∧
      state.active = false ∧
      (jobStatus (jobView 0 spec state) 1250 = .failing ↔
        stoppedBy failingActs = some .failures) := by
  intro start
  have hplain := deployment_deployed ⟨3⟩ 10 1000
    (show 1000 ≤ u64Max by decide) (show 0 ≤ 100 by decide)
  have hstart : Deployed failingHost start :=
    ⟨hplain.constructed, hplain.clock, hplain.holding, hplain.silent⟩
  have hadm : (machine failingHost).Along (Admissible failingHost) start failingRun :=
    Machine.along_mono (fun _ _ hguard => hguard.1) failingRun_limited
  have hkept : (machine failingHost).Along
      (fun c action => ¬PausesFailing failingHost 0 c action) start
      failingRun := by
    simp [failingRun, firstRun, Machine.Along, PausesFailing]
  have hfound : ((((machine failingHost).run start failingRun).reg.jobs.getJobParts 0).map
      fun parts => parts.2.active) = some false := by decide
  obtain ⟨⟨spec, state⟩, hparts, hactive⟩ := Option.map_eq_some_iff.mp hfound
  exact ⟨spec, state, hparts, hactive,
    ((jobStatus_tells hstart hadm 0 spec state hparts 1250).2.2 hkept
      (ensureDue_eq_paused.mpr hactive)).failing⟩

/-- The job fails once and its owner pauses it. -/
def pausedFailing : List (Action Unit) := firstRun ++ [.call ⟨[⟨5⟩]⟩ (.job (.setJobActive 0 false))]

/-- The owner's pause after one failed run out of three is taken for the registry's. -/
theorem jobStatus_blames_registry :
    let start := deployment ⟨3⟩ 1000 100 10 1000
    let last := (machine failingHost).run start pausedFailing
    Deployed failingHost start ∧
      (machine failingHost).Along (Admissible failingHost) start pausedFailing ∧
      stoppedBy (jobActs 0 ((machine failingHost).outputs start pausedFailing)) = some .owner ∧
      last.reg.config.maxFailures = 3 ∧
      ∃ spec state, last.reg.jobs.getJobParts 0 = some (spec, state) ∧ state.failures = 1 ∧
        ensureDue spec state last.now = .error .jobPaused ∧
        jobStatus (jobView 0 spec state) last.now = .failing := by
  intro start last
  have hplain := deployment_deployed ⟨3⟩ 10 1000
    (show 1000 ≤ u64Max by decide) (show 0 ≤ 100 by decide)
  refine ⟨⟨hplain.constructed, hplain.clock, hplain.holding, hplain.silent⟩, ?_, by decide,
    by decide, ?_⟩
  · simp [pausedFailing, firstRun, Machine.Along, Admissible, Call.WellTyped, JobParams.WellTyped,
      minutely, u64Max, i128Max]
  · have hfound : (last.reg.jobs.getJobParts 0).map (fun parts =>
        (parts.2.failures, parts.2.active, jobStatus (jobView 0 parts.1 parts.2) last.now)) =
          some (1, false, .failing) := by decide
    obtain ⟨⟨spec, state⟩, hparts, hstatus⟩ := Option.map_eq_some_iff.mp hfound
    simp only [Prod.mk.injEq] at hstatus
    obtain ⟨hfailures, hactive, hfailing⟩ := hstatus
    exact ⟨spec, state, hparts, hfailures, ensureDue_eq_paused.mpr hactive, hfailing⟩

end SoroCron
