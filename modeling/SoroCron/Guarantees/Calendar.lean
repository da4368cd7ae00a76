import SoroCron.Registry.Deployment
import SoroCron.Registry.Lives

/-! # Calendar jobs stay on the wall clock

However a job came to its calendar, and however late its runs were, its next run is at the
calendar's time of day and on its weekday.
-/

namespace SoroCron

open Outcome Bounded

variable {World : Type} {host : Host World} {c c' : Chain World} {id : JobId}

/-! ## Wall-clock times -/

/-- A UTC instant at `hour:minute:00`. -/
def AtTime (hour minute : ℕ) (time : Timestamp) : Prop :=
  time % 86400 / 3600 = hour ∧ time % 3600 / 60 = minute ∧ time % 60 = 0

/-- A UTC instant on `weekday`, Monday being `0`; 1970-01-01 was a Thursday. -/
def OnWeekday (weekday : ℕ) (time : Timestamp) : Prop := (time / 86400 + 3) % 7 = weekday

/-- A time that a calendar names. -/
def Schedule.Names (schedule : Schedule) (time : Timestamp) : Prop :=
  match schedule with
  | .interval => False
  | .daily hour minute => AtTime hour minute time
  | .weekly weekday hour minute => AtTime hour minute time ∧ OnWeekday weekday time

/-- Settings and a due time that belong to one calendar, if the job has one. -/
def OnClock (spec : JobSpec) (due : Timestamp) : Prop :=
  match spec.schedule with
  | .interval => True
  | .daily hour minute =>
      (hour < 24 ∧ minute < 60) ∧ spec.interval = 86400 ∧ (AtTime hour minute due ∨ due = u64Max)
  | .weekly weekday hour minute =>
      (weekday < 7 ∧ hour < 24 ∧ minute < 60) ∧ spec.interval = 604800 ∧
        ((AtTime hour minute due ∧ OnWeekday weekday due) ∨ due = u64Max)

/-- A time in the residue class of a calendar, or the largest time. -/
def InClass (schedule : Schedule) (time : Timestamp) : Prop :=
  ∀ period, calendarPeriod schedule = some period →
    time % period = calendarOffset schedule ∨ time = u64Max

theorem atTime_of_mod {hour minute time : ℕ} (hminute : minute < 60)
    (hmod : time % 86400 = hour * 3600 + minute * 60) : AtTime hour minute time := by
  have hhours : time % 86400 / 3600 = hour := by omega
  have hminutes : time % 3600 / 60 = minute := by omega
  have hseconds : time % 60 = 0 := by omega
  exact ⟨hhours, hminutes, hseconds⟩

/-- The first Monday is four days after the epoch. -/
theorem onWeekday_of_mod {weekday hour minute time : ℕ} (hweekday : weekday < 7) (hhour : hour < 24)
    (hminute : minute < 60)
    (hmod : time % 604800 = (weekday + 4) % 7 * 86400 + hour * 3600 + minute * 60) :
    AtTime hour minute time ∧ OnWeekday weekday time := by
  have hday : time % 86400 = hour * 3600 + minute * 60 := by omega
  have hdays : (time / 86400 + 3) % 7 = weekday := by omega
  exact ⟨atTime_of_mod hminute hday, hdays⟩

theorem mod_of_atTime {hour minute time : ℕ} (h : AtTime hour minute time) :
    time % 86400 = hour * 3600 + minute * 60 := by
  have hhour : time % 86400 / 3600 = hour := h.1
  have hminute : time % 3600 / 60 = minute := h.2.1
  have hsecond : time % 60 = 0 := h.2.2
  omega

theorem mod_of_onWeekday {weekday hour minute time : ℕ}
    (h : AtTime hour minute time ∧ OnWeekday weekday time) :
    time % 604800 = (weekday + 4) % 7 * 86400 + hour * 3600 + minute * 60 := by
  have hday := mod_of_atTime h.1
  have hdays : (time / 86400 + 3) % 7 = weekday := h.2
  omega

theorem calendarOffset_lt {schedule : Schedule} {period : ℕ}
    (hperiod : calendarPeriod schedule = some period) (hvalid : scheduleIsValid schedule = true) :
    calendarOffset schedule < period := by
  cases schedule with
  | interval => cases hperiod
  | daily hour minute =>
      cases hperiod
      simp only [scheduleIsValid, Bool.and_eq_true, decide_eq_true_eq] at hvalid
      simp only [calendarOffset, day]
      omega
  | weekly weekday hour minute =>
      cases hperiod
      simp only [scheduleIsValid, Bool.and_eq_true, decide_eq_true_eq] at hvalid
      simp only [calendarOffset, week, day, firstMondayOffsetDays]
      omega

/-- The times a calendar names are one residue class of its period. -/
theorem names_iff {schedule : Schedule} {period : ℕ}
    (hperiod : calendarPeriod schedule = some period) (hvalid : scheduleIsValid schedule = true)
    (time : Timestamp) : schedule.Names time ↔ time % period = calendarOffset schedule := by
  cases schedule with
  | interval => cases hperiod
  | daily hour minute =>
      cases hperiod
      simp only [scheduleIsValid, Bool.and_eq_true, decide_eq_true_eq] at hvalid
      exact ⟨mod_of_atTime, atTime_of_mod hvalid.2⟩
  | weekly weekday hour minute =>
      cases hperiod
      simp only [scheduleIsValid, Bool.and_eq_true, decide_eq_true_eq] at hvalid
      exact ⟨mod_of_onWeekday, onWeekday_of_mod hvalid.1.1 hvalid.1.2 hvalid.2⟩

/-- The first run of a calendar is the next time it names, unless that lies beyond the largest
time. -/
theorem firstCalendarRun_isLeast {schedule : Schedule} (start : Timestamp)
    (hcalendar : schedule ≠ .interval) (hvalid : scheduleIsValid schedule = true) :
    ∃ first, IsLeast {time | start ≤ time ∧ schedule.Names time} first ∧
      firstCalendarRun schedule start = min first u64Max := by
  have hperiod : ∃ period, calendarPeriod schedule = some period := by
    cases schedule with
    | interval => exact absurd rfl hcalendar
    | daily hour minute => exact ⟨_, rfl⟩
    | weekly weekday hour minute => exact ⟨_, rfl⟩
  obtain ⟨period, hperiod⟩ := hperiod
  refine ⟨Grid.ceil period (calendarOffset schedule) start, ?_, firstCalendarRun_eq start hperiod⟩
  have hclass : {time | start ≤ time ∧ schedule.Names time} =
      Grid.From period (calendarOffset schedule) start := by
    ext time
    exact Iff.trans (and_congr_right fun _ => names_iff hperiod hvalid time) and_comm
  rw [hclass]
  exact Grid.ceil_isLeast (calendarOffset_lt hperiod hvalid)

/-- The residue classes are the wall-clock times. -/
theorem onClock_of_inClass {spec : JobSpec} {due : Timestamp} (hspec : spec.Sound)
    (hclass : InClass spec.schedule due) : OnClock spec due := by
  have hvalid := hspec.fields
  have hcalendar := hspec.calendar
  unfold OnClock
  cases hschedule : spec.schedule with
  | interval => trivial
  | daily hour minute =>
      rw [hschedule] at hvalid hcalendar hclass
      simp only [scheduleIsValid, Bool.and_eq_true, decide_eq_true_eq] at hvalid
      refine ⟨hvalid, hcalendar _ rfl, ?_⟩
      rcases hclass _ rfl with hmod | hmax
      · exact .inl (atTime_of_mod hvalid.2 hmod)
      · exact .inr hmax
  | weekly weekday hour minute =>
      rw [hschedule] at hvalid hcalendar hclass
      simp only [scheduleIsValid, Bool.and_eq_true, decide_eq_true_eq] at hvalid
      refine ⟨⟨hvalid.1.1, hvalid.1.2, hvalid.2⟩, hcalendar _ rfl, ?_⟩
      rcases hclass _ rfl with hmod | hmax
      · exact .inl (onWeekday_of_mod hvalid.1.1 hvalid.1.2 hvalid.2 hmod)
      · exact .inr hmax

/-! ## What keeps a job on its calendar -/

theorem firstCalendarRun_inClass {schedule : Schedule} (start : Timestamp)
    (hvalid : scheduleIsValid schedule = true) :
    InClass schedule (firstCalendarRun schedule start) := by
  intro period hperiod
  rw [firstCalendarRun_eq start hperiod]
  rcases min_choice (Grid.ceil period (calendarOffset schedule) start) u64Max with hfits | hfull
  · left
    rw [hfits]
    exact Grid.ceil_mod (calendarOffset_lt hperiod hvalid)
  · exact .inr hfull

/-- A late run moves the due time by whole periods. -/
theorem nextRunAfter_inClass {spec : JobSpec} {scheduled now next : Timestamp} (hspec : spec.Sound)
    (hclass : InClass spec.schedule scheduled)
    (hnext : nextRunAfter scheduled spec.interval now = some next) :
    InClass spec.schedule next := by
  intro period hperiod
  rw [nextRunAfter_eq_some hspec.interval_pos hnext]
  rcases min_choice (Grid.next scheduled spec.interval now) u64Max with hfits | hfull
  · rw [hfits]
    rcases hclass period hperiod with hmod | hmax
    · left
      rw [Grid.next_mod (hspec.calendar period hperiod ▸ dvd_rfl), hmod]
    · -- Nothing fits after the largest time.
      right
      have hlater : scheduled < Grid.next scheduled spec.interval now :=
        Grid.start_lt_next hspec.interval_pos
      have hle : Grid.next scheduled spec.interval now ≤ u64Max := min_eq_left_iff.mp hfits
      exact le_antisymm hle (hmax.ge.trans hlater.le)
  · exact .inr hfull

/-- A live job's next run is in the class of its calendar. -/
def JobPhase.InClass : JobPhase → Prop
  | .live spec state => SoroCron.InClass spec.schedule state.nextRun
  | _ => True

theorem JobChange.inClass {now : Timestamp} {act : JobAct World} {before after : JobPhase}
    (hbefore : before.InClass) (h : JobChange host now act before after) : after.InClass := by
  cases h with
  | @created owner params deposit jobs howner hspec => exact firstCalendarRun_inClass _ hspec.fields
  | @updated update spec state interval leaderRuns hspec =>
      change SoroCron.InClass update.schedule (update.nextRun spec state now)
      unfold JobUpdate.nextRun
      split
      · exact firstCalendarRun_inClass _ hspec.fields
      next hkept =>
        -- Either there is no calendar now, or it is the one the job already had.
        by_cases hinterval : update.schedule = .interval
        · intro period hperiod
          rw [hinterval] at hperiod
          cases hperiod
        · have hsame : update.schedule = spec.schedule := by
            by_contra hother
            exact hkept ⟨hinterval, hother⟩
          rw [hsame]
          exact hbefore
  | ran hnow hlive hconfig hjobs hran =>
      have hspec := hjobs.specs _ _ (JobTable.specs_get_of_parts hran.admitted.parts)
      have hnext := hran.priced.nextRun
      exact nextRunAfter_inClass hspec hbefore hnext
  | cancelled => trivial
  | _ => exact hbefore

/-! ## Along runs -/

/-- Along every run, every live job with a calendar is on it, and so was every run of it. -/
theorem calendar_stays_on_clock {start : Chain World} {actions : List (Action World)}
    (hstart : Deployed host start) (halong : (machine host).Along (Admissible host) start actions)
    (id : JobId) :
    (∀ spec state, ((machine host).run start actions).reg.jobs.getJobParts id = some (spec, state) →
        OnClock spec state.nextRun) ∧
      ∀ execution ∈ runsIn (jobActs id ((machine host).outputs start actions)),
        ∃ spec state, execution.found = some (spec, state) ∧ OnClock spec execution.due := by
  obtain ⟨now, -, hlife⟩ := job_life hstart.sound id halong
  have hclass : ∀ {past phase},
      Life (Timed (JobChange host)) past (start.now, start.reg.jobs.phase id)
      phase → phase.2.InClass := by
    intro past phase hpast
    refine hpast.invariant (I := fun phase => phase.2.InClass) ?_ ?_
    · intro act before after hbefore hchange
      exact hchange.2.inClass hbefore
    · rw [hstart.phase_eq id]
      trivial
  refine ⟨?_, ?_⟩
  · intro spec state hparts
    have hreach : Reachable host ((machine host).run start actions) :=
      ⟨start, actions, hstart, halong, rfl⟩
    have hlast := hclass hlife
    dsimp only at hlast
    rw [phase_of_parts hparts] at hlast
    exact onClock_of_inClass
      (hreach.sound.jobs.specs _ _ (JobTable.specs_get_of_parts hparts)) hlast
  · intro execution hmem
    obtain ⟨act, hact, hran⟩ := List.mem_filterMap.mp hmem
    cases act with
    | ran e =>
        cases hran
        obtain ⟨past, rest, hdone⟩ := List.append_of_mem hact
        rw [hdone] at hlife
        obtain ⟨found, left, hpast, ⟨-, hran⟩, -⟩ := hlife.split_at
        obtain ⟨r, -, -, -, hjobs, hran, hfound, hbefore, -⟩ := hran.ran_inv
        have hphase := hclass hpast
        rw [hbefore] at hphase
        have hspec := hjobs.specs _ _ (JobTable.specs_get_of_parts hran.admitted.parts)
        have hdue : execution.due = r.admission.state.nextRun := by
          rw [Execution.due, hfound, Option.map_some, Option.getD_some]
        exact ⟨_, _, hfound, hdue ▸ onClock_of_inClass hspec hphase⟩
    | _ => cases hran

/-- A job on Mondays at 9:30. -/
def calendarJob : JobParams := { minutely with interval := 0, schedule := .weekly 0 9 30 }

/-- The job runs late and then moves to every day at 7:15. -/
def calendarRun : List (Action Unit) :=
  firstRun.take 3 ++
    [.call ⟨[⟨5⟩]⟩ (.job (.createJob ⟨5⟩ calendarJob 50)),
      .advance 400000,
      .call ⟨[⟨4⟩]⟩ (.run (.execute ⟨4⟩ 0)),
      .call ⟨[⟨5⟩]⟩ (.job (.updateJob 0 moveToDaily))]

theorem calendarRun_admissible (c : Chain Unit) :
    (machine plainHost).Along (Admissible plainHost) c calendarRun := by
  refine Machine.along_append.mpr ⟨?_, ?_⟩
  · simp [firstRun, Machine.Along, Admissible, Call.WellTyped]
  · simp [Machine.Along, Admissible, Call.WellTyped, JobParams.WellTyped, JobUpdate.WellTyped,
      calendarJob, minutely, moveToDaily, u64Max, i128Max]

theorem calendar_stays_on_clock_calendarRun :
    let last := (machine plainHost).run (deployment ⟨3⟩ 1000 100 10 1000) calendarRun
    ∃ spec state, last.reg.jobs.getJobParts 0 = some (spec, state) ∧ spec.schedule = .daily 7 15 ∧
      state.runs = 1 ∧ OnClock spec state.nextRun := by
  intro last
  have hparts : ∃ spec state, last.reg.jobs.getJobParts 0 = some (spec, state) ∧
      spec.schedule = .daily 7 15 ∧ state.runs = 1 := ⟨_, _, rfl, rfl, rfl⟩
  obtain ⟨spec, state, hparts, hschedule, hruns⟩ := hparts
  exact ⟨spec, state, hparts, hschedule, hruns,
    (calendar_stays_on_clock (deployment_deployed ⟨3⟩ 10 1000 (by decide) (by decide))
      (calendarRun_admissible _) 0).1 spec state hparts⟩

end SoroCron
