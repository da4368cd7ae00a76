import SoroCron.Guarantees.Calendar

/-! # An update changes what it names

The settings in a `JobUpdate` replace the stored ones. Of the job's state only the next run
and the recorded runs of the leader can change, each under its own condition, and nothing
else on the chain does.
-/

namespace SoroCron

open Outcome Bounded

variable {World : Type} {host : Host World} {ctx : Ctx} {c c' : Chain World} {id : JobId}

/-! ## What an update replaces -/

/-- `after` has the settings of an update, and the owner and target of `before`. -/
structure JobUpdate.Replaces (update : JobUpdate) (before after : JobSpec) : Prop where
  owner : after.owner = before.owner
  target : after.target = before.target
  function : after.function = update.function
  args : after.args = update.args
  interval : after.interval = (calendarPeriod update.schedule).getD update.interval
  schedule : after.schedule = update.schedule
  feePerRun : after.feePerRun = update.feePerRun
  maxFeePerRun : after.maxFeePerRun = update.maxFeePerRun
  maxRuns : after.maxRuns = update.maxRuns
  endAt : after.endAt = update.endAt
  resolver : after.resolver = update.resolver
  keepers : after.keepers = update.keepers
  after : after.after = update.after

/-- `after` has the money and the history of `before`. -/
structure JobState.Carries (before after : JobState) : Prop where
  balance : after.balance = before.balance
  runs : after.runs = before.runs
  failures : after.failures = before.failures
  active : after.active = before.active

/-- Nothing has changed besides the two entries of job `id`, its last touch and the log. -/
structure Chain.SameBesides (id : JobId) (before after : Chain World) : Prop where
  surroundings : after.toSurroundings = before.toSurroundings
  specs : ∀ other, other ≠ id → after.reg.jobs.specs.get other = before.reg.jobs.specs.get other
  states : ∀ other, other ≠ id → after.reg.jobs.states.get other = before.reg.jobs.states.get other
  touched : ∀ other, other ≠ id → after.reg.touchedAt other = before.reg.touchedAt other
  indexes : { after.reg.jobs with specs := ∅, states := ∅ } =
    { before.reg.jobs with specs := ∅, states := ∅ }
  rest : { after.reg with jobs := {}, jobTouched := ∅ } =
    { before.reg with jobs := {}, jobTouched := ∅ }

/-- The next run after an update at `now`: moved by a different calendar only, to the next time
that one names. -/
structure JobUpdate.Reschedules (update : JobUpdate) (spec : JobSpec)
    (before after now : Timestamp) : Prop where
  kept : update.schedule = .interval ∨ update.schedule = spec.schedule → after = before
  moved : update.schedule ≠ .interval → update.schedule ≠ spec.schedule →
    ∃ first, IsLeast {time | now ≤ time ∧ update.schedule.Names time} first ∧
      after = min first u64Max

/-- The leader's runs recorded after an update: read again for a different leader only. -/
structure JobUpdate.Relinks (update : JobUpdate) (jobs : JobTable) (id : JobId) (spec : JobSpec)
    (before after : ℕ) : Prop where
  kept : update.after = spec.after → after = before
  unlinked : update.after ≠ spec.after → update.after = none → after = 0
  linked : update.after ≠ spec.after → ∀ leader, update.after = some leader →
    leader ≠ id ∧ ∃ led, jobs.states.get leader = some led ∧ after = led.runs

theorem JobUpdate.applyTo_replaces {update : JobUpdate} (spec : JobSpec) {interval : ℕ}
    (h : interval = (calendarPeriod update.schedule).getD update.interval) :
    update.Replaces spec (update.applyTo spec interval) := by
  constructor
  case interval => exact h
  all_goals rfl

theorem JobUpdate.nextRun_reschedules {update : JobUpdate} (spec : JobSpec) (state : JobState)
    (now : Timestamp) (hvalid : scheduleIsValid update.schedule = true) :
    update.Reschedules spec state.nextRun (update.nextRun spec state now) now := by
  constructor
  case kept =>
    intro hsame
    apply if_neg
    rintro ⟨hcalendar, hother⟩
    exact hsame.elim hcalendar hother
  case moved =>
    intro hcalendar hother
    rw [show update.nextRun spec state now = firstCalendarRun update.schedule now from
      if_pos ⟨hcalendar, hother⟩]
    exact firstCalendarRun_isLeast now hcalendar hvalid

theorem leaderRunsOf_relinks {update : JobUpdate} {reg : Registry} {spec : JobSpec}
    {state : JobState} {leaderRuns : ℕ}
    (h : (if update.after ≠ spec.after then leaderRunsOf reg id update.after
      else .ok state.leaderRuns) =
      .ok leaderRuns) :
    update.Relinks reg.jobs id spec state.leaderRuns leaderRuns := by
  constructor
  case kept =>
    intro hsame
    rw [if_neg (not_not.mpr hsame)] at h
    exact (Except.ok.inj h).symm
  case unlinked =>
    intro hother hnone
    rw [if_pos hother, hnone] at h
    exact (Except.ok.inj h).symm
  case linked =>
    intro hother leader hleader
    rw [if_pos hother, hleader] at h
    simp only [leaderRunsOf, bind_eq_ok, rejectIf_eq_ok, okOr_eq_ok, exists_unit, pure_eq_ok] at h
    obtain ⟨hne, led, hled, rfl⟩ := h
    exact ⟨hne, led, hled, rfl⟩

theorem touchedAt_touch_of_ne {reg : Registry} {other : JobId} (now : Timestamp)
    (hne : other ≠ id) : (reg.touch id now).touchedAt other = reg.touchedAt other := by
  unfold Registry.touchedAt
  rw [Registry.touch_jobTouched]
  split
  · rw [Store.get_set_of_ne _ _ hne]
  · rfl

/-- Storing both entries of a job anew leaves everything else in place. -/
theorem sameBesides_of_set (c : Chain World) (spec : JobSpec) (state : JobState) (event : Event) :
    c.SameBesides id (({ c with
      reg := { c.reg with jobs := (c.reg.jobs.setSpec id spec).setState id state }.touch id c.now
      }).publish event) := by
  constructor
  case specs =>
    intro other hne
    exact Store.get_set_of_ne _ _ hne
  case states =>
    intro other hne
    exact Store.get_set_of_ne _ _ hne
  case touched =>
    intro other hne
    exact touchedAt_touch_of_ne c.now hne
  all_goals rfl

/-! ## Resubmitted settings -/

/-- A job's own settings as an update. -/
def JobSpec.asUpdate (spec : JobSpec) : JobUpdate where
  function := spec.function
  args := spec.args
  interval := if calendarPeriod spec.schedule = none then spec.interval else 0
  schedule := spec.schedule
  feePerRun := spec.feePerRun
  maxFeePerRun := spec.maxFeePerRun
  maxRuns := spec.maxRuns
  endAt := spec.endAt
  resolver := spec.resolver
  keepers := spec.keepers
  after := spec.after

/-- A job's settings are within the limits in force; a limit of `0` is none. -/
structure Config.Admits (config : Config) (spec : JobSpec) : Prop where
  interval : config.minInterval ≤ spec.interval
  args : config.maxArgs = 0 ∨ spec.args.length ≤ config.maxArgs
  keepers : ∀ list ∈ spec.keepers, list.length ≤ maxJobKeepers

/-- Settings that once passed validation pass it again exactly within the limits in force. -/
theorem validateSchedule_asUpdate {config : Config} {spec : JobSpec} {interval : ℕ}
    (hspec : spec.Sound) :
    validateSchedule config spec.asUpdate.interval spec.asUpdate.schedule spec.asUpdate.args.length
        spec.asUpdate.feePerRun spec.asUpdate.maxFeePerRun spec.asUpdate.keepers = .ok interval ↔
      config.Admits spec ∧ interval = spec.interval := by
  have hinterval := hspec.interval_pos
  have hfee := hspec.fee_pos
  have hceiling := hspec.ceiling
  have hmin : ¬(config.minInterval ≠ 0 ∧ spec.interval < config.minInterval) ↔
      config.minInterval ≤ spec.interval := by omega
  have hargs : ¬(config.maxArgs ≠ 0 ∧ config.maxArgs < spec.args.length) ↔
      config.maxArgs = 0 ∨ spec.args.length ≤ config.maxArgs := by omega
  have hkeepers : (¬∃ list ∈ spec.keepers, maxJobKeepers < list.length) ↔
      ∀ list ∈ spec.keepers, list.length ≤ maxJobKeepers := by
    simp only [not_exists, not_and, not_lt]
  have hcharges : ¬spec.feePerRun ≤ 0 ∧
      ¬(spec.maxFeePerRun ≠ 0 ∧ spec.maxFeePerRun < spec.feePerRun) := by
    omega
  -- Either kind of schedule gets past the check of the interval with the stored one.
  cases hperiod : calendarPeriod spec.schedule with
  | none =>
      simp only [validateSchedule, JobSpec.asUpdate, hperiod, bind_eq_ok, rejectIf_eq_ok,
        pure_eq_ok, exists_unit, if_true, hargs, hkeepers]
      constructor
      · rintro ⟨_, ⟨-, rfl⟩, hlong, hfew, -, -, hlisted, rfl⟩
        exact ⟨⟨hmin.mp hlong, hfew, hlisted⟩, rfl⟩
      · rintro ⟨⟨hlong, hfew, hlisted⟩, rfl⟩
        exact ⟨_, ⟨hinterval.ne', rfl⟩, hmin.mpr hlong, hfew, hcharges.1, hcharges.2, hlisted, rfl⟩
  | some period =>
      have hstored := hspec.calendar period hperiod
      simp only [validateSchedule, JobSpec.asUpdate, hperiod, bind_eq_ok, rejectIf_eq_ok,
        pure_eq_ok, exists_unit, reduceCtorEq, if_false, ← hstored, hargs, hkeepers]
      constructor
      · rintro ⟨_, ⟨-, rfl⟩, hlong, hfew, -, -, hlisted, rfl⟩
        exact ⟨⟨hmin.mp hlong, hfew, hlisted⟩, rfl⟩
      · rintro ⟨⟨hlong, hfew, hlisted⟩, rfl⟩
        exact ⟨_, ⟨by simp [hspec.fields], rfl⟩, hmin.mpr hlong, hfew, hcharges.1, hcharges.2,
          hlisted, rfl⟩

theorem JobSpec.asUpdate_applyTo (spec : JobSpec) :
    spec.asUpdate.applyTo spec spec.interval = spec := rfl

theorem JobSpec.asUpdate_nextRun (spec : JobSpec) (state : JobState) (now : Timestamp) :
    spec.asUpdate.nextRun spec state now = state.nextRun :=
  if_neg fun hmoved => hmoved.2 rfl

/-- A job's own settings are accepted from its owner exactly within the limits in force. -/
theorem updateJob_asUpdate {spec : JobSpec} {state : JobState} (hspec : spec.Sound)
    (hparts : c.reg.jobs.getJobParts id = some (spec, state)) :
    (∃ c', updateJob host ctx c id spec.asUpdate = .ok c') ↔
      c.reg.config.paused = false ∧ (spec.owner ∈ ctx.signers ∧ spec.owner ≠ host.registry) ∧
        c.reg.config.Admits spec := by
  simp only [updateJob, ensureNotPaused, bind_eq_ok, raise_eq_ok, rejectIf_eq_ok, exists_unit,
    requireAuth_eq_ok, Bool.not_eq_true, okOr_eq_ok, Prod.exists, pure_eq_ok]
  constructor
  · rintro ⟨c', hlive, found, held, hfound, hauth, interval, hvalid, -⟩
    cases hparts.symm.trans hfound
    exact ⟨hlive, hauth, ((validateSchedule_asUpdate hspec).mp hvalid).1⟩
  · rintro ⟨hlive, hauth, hadmits⟩
    exact ⟨_, hlive, spec, state, hparts, hauth, spec.interval,
      (validateSchedule_asUpdate hspec).mpr ⟨hadmits, rfl⟩, state.leaderRuns,
        if_neg (not_not.mpr rfl), rfl⟩

/-- An accepted resubmission leaves both entries of the job as they were. -/
theorem updateJob_asUpdate_same {spec : JobSpec} {state : JobState} (hspec : spec.Sound)
    (hparts : c.reg.jobs.getJobParts id = some (spec, state))
    (h : updateJob host ctx c id spec.asUpdate = .ok c') :
    c'.reg.jobs.getJobParts id = some (spec, state) := by
  obtain ⟨-, found, held, interval, leaderRuns, hfound, -, hvalid, hleader, rfl⟩ :=
    updateJob_eq_ok h
  cases hparts.symm.trans hfound
  obtain ⟨-, rfl⟩ := (validateSchedule_asUpdate hspec).mp hvalid
  have hruns : leaderRuns = state.leaderRuns := (leaderRunsOf_relinks hleader).kept rfl
  rw [JobTable.getJobParts_eq_some]
  refine ⟨?_, ?_⟩
  · change (c.reg.jobs.specs.set id _).get id = _
    rw [Store.get_set_self, spec.asUpdate_applyTo]
  · change (c.reg.jobs.states.set id _).get id = _
    rw [Store.get_set_self, spec.asUpdate_nextRun, hruns]

/-! ## The frame of an update -/

/-- A failed update changes nothing. An accepted one replaces every setting it names and no
other, keeps the job's owner, target, money and history, reschedules it for a different
calendar only and reads the leader's runs again for a different leader only. A job's own
settings are accepted from its owner within the limits in force, and leave it as it was. -/
theorem update_changes_only_named (hreach : Reachable host c) (ctx : Ctx) (id : JobId) :
    (∀ update reason, updateJob host ctx c id update = .error reason →
      step host c (.call ctx (.job (.updateJob id update))) = c) ∧
    (∀ update c', updateJob host ctx c id update = .ok c' →
      step host c (.call ctx (.job (.updateJob id update))) = c' ∧ c.SameBesides id c' ∧
      ∃ spec state spec' state', c.reg.jobs.getJobParts id = some (spec, state) ∧
        c'.reg.jobs.getJobParts id = some (spec', state') ∧
        update.Replaces spec spec' ∧ state.Carries state' ∧
        update.Reschedules spec state.nextRun state'.nextRun c.now ∧
        update.Relinks c.reg.jobs id spec state.leaderRuns state'.leaderRuns) ∧
    ∀ spec state, c.reg.jobs.getJobParts id = some (spec, state) →
      ((∃ c', updateJob host ctx c id spec.asUpdate = .ok c') ↔
        c.reg.config.paused = false ∧ (spec.owner ∈ ctx.signers ∧ spec.owner ≠ host.registry) ∧
          c.reg.config.Admits spec) ∧
      ∀ c', updateJob host ctx c id spec.asUpdate = .ok c' →
        c'.reg.jobs.getJobParts id = some (spec, state) := by
  have hsound : ∀ spec state, c.reg.jobs.getJobParts id = some (spec, state) → spec.Sound :=
    fun spec _ hparts => hreach.sound.jobs.specs id spec (JobTable.specs_get_of_parts hparts)
  refine ⟨?_, ?_, ?_⟩
  · intro update reason herror
    have hcall : Call.perform host ctx c (.job (.updateJob id update)) = .error reason := herror
    simp only [step, hcall, Chain.after]
  · intro update c' hupdate
    refine ⟨step_call_ok hupdate, ?_⟩
    obtain ⟨-, spec, state, interval, leaderRuns, hparts, -, hvalid, hleader, rfl⟩ :=
      updateJob_eq_ok hupdate
    obtain ⟨hinterval, -, hfields, -, -⟩ := validateSchedule_eq_ok hvalid
    refine ⟨sameBesides_of_set c _ _ _, spec, state, update.applyTo spec interval,
      { state with nextRun := update.nextRun spec state c.now, leaderRuns }, hparts, ?_,
      JobUpdate.applyTo_replaces spec hinterval, ⟨rfl, rfl, rfl, rfl⟩,
      JobUpdate.nextRun_reschedules spec state c.now hfields, leaderRunsOf_relinks hleader⟩
    exact JobTable.getJobParts_eq_some.mpr ⟨Store.get_set_self _ _ _, Store.get_set_self _ _ _⟩
  · intro spec state hparts
    exact ⟨updateJob_asUpdate (hsound spec state hparts) hparts,
      fun c' hupdate => updateJob_asUpdate_same (hsound spec state hparts) hparts hupdate⟩

/-- A minutely job that has run once moves to every day at 7:15. -/
theorem update_changes_only_named_firstRun :
    let c := (machine plainHost).run (deployment ⟨3⟩ 1000 100 10 1000) firstRun
    ∃ c' spec' state', updateJob plainHost ⟨[⟨5⟩]⟩ c 0 moveToDaily = .ok c' ∧
      c'.reg.jobs.getJobParts 0 = some (spec', state') ∧ spec'.interval = 86400 ∧
        state'.balance = 40 ∧
      ∃ first, IsLeast {time | 1060 ≤ time ∧ (Schedule.daily 7 15).Names time} first ∧
        state'.nextRun = min first u64Max := by
  intro c
  have hreach : Reachable plainHost c := ⟨_, firstRun,
    deployment_deployed ⟨3⟩ 10 1000 (by decide) (by decide), firstRun_admissible _, rfl⟩
  have hupdate : ∃ c', updateJob plainHost ⟨[⟨5⟩]⟩ c 0 moveToDaily = .ok c' := ⟨_, rfl⟩
  have hminutely : ∃ spec state, c.reg.jobs.getJobParts 0 = some (spec, state) ∧
      spec.schedule = .interval ∧ state.balance = 40 ∧ c.now = 1060 := ⟨_, _, rfl, rfl, rfl, rfl⟩
  obtain ⟨c', hupdate⟩ := hupdate
  obtain ⟨-, -, spec, state, spec', state', hparts, hparts', hreplaced, hcarried, hnext, -⟩ :=
    (update_changes_only_named hreach ⟨[⟨5⟩]⟩ 0).2.1 moveToDaily c' hupdate
  obtain ⟨found, held, hfound, hschedule, hbalance, hnow⟩ := hminutely
  cases hparts.symm.trans hfound
  rw [hnow] at hnext
  refine ⟨c', spec', state', hupdate, hparts', hreplaced.interval,
    hcarried.balance.trans hbalance, ?_⟩
  apply hnext.moved
  · exact nofun
  · rw [hschedule]
    exact nofun

end SoroCron
