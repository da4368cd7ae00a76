import SoroCron.Registry.Deployment
import SoroCron.Registry.Lives

/-! # No run before the start

A job's `start_at` is not stored: it survives in the next run alone. Only an update that
switches the job to a different calendar replaces the next run, by the first match of that
calendar.
-/

namespace SoroCron

open Outcome Bounded

variable {World : Type} {host : Host World} {ctx : Ctx} {c c' : Chain World} {id : JobId}

/-- The schedule a job was last given. -/
def lastSchedule (done : List (JobAct World)) : Option Schedule :=
  done.foldl (fun last act =>
    match act with
    | .created _ params _ => some params.schedule
    | .updated update => some update.schedule
    | _ => last) none

theorem lastSchedule_append (past : List (JobAct World)) (act : JobAct World) :
    lastSchedule (past ++ [act]) =
      match act with
      | .created _ params _ => some params.schedule
      | .updated update => some update.schedule
      | _ => lastSchedule past := by
  rw [lastSchedule, List.foldl_append]
  rfl

/-- No update replaces the schedule the job had by a different calendar. -/
def NoSwitch (done : List (JobAct World)) : Prop :=
  ∀ past update rest schedule, done = past ++ .updated update :: rest →
    lastSchedule past = some schedule → update.schedule = .interval ∨ update.schedule = schedule

/-- The job has `schedule` and does not run before `floor`. -/
def JobPhase.NotBefore (floor : Timestamp) (schedule : Schedule) : JobPhase → Prop
  | .future => False
  | .live spec state => spec.schedule = schedule ∧ floor ≤ state.nextRun
  | .gone => True

/-- What one thing done to a job leaves of its floor. -/
theorem JobChange.notBefore {past : List (JobAct World)} {now floor : Timestamp}
    {schedule : Schedule} {act : JobAct World} {before after : JobPhase} (hfits : floor ≤ u64Max)
    (hknown : lastSchedule past = some schedule) (hbefore : before.NotBefore floor schedule)
    (h : JobChange host now act before after)
    (hkept : ∀ update, act = .updated update →
      update.schedule = .interval ∨ update.schedule = schedule) :
    ∃ schedule', lastSchedule (past ++ [act]) = some schedule' ∧
      after.NotBefore floor schedule' := by
  rw [lastSchedule_append]
  cases h with
  | created howner hspec => cases hbefore
  | @updated update spec state interval leaderRuns hspec =>
      obtain ⟨hschedule, hfloor⟩ := hbefore
      refine ⟨update.schedule, rfl, rfl, ?_⟩
      have hsame : update.nextRun spec state now = state.nextRun := by
        apply if_neg
        rintro ⟨hcalendar, hother⟩
        rcases hkept update rfl with hinterval | hkept
        · exact hcalendar hinterval
        · exact hother (hkept.trans hschedule.symm)
      exact hsame.ge.trans' hfloor
  | ran hnow hlive hconfig hjobs hran =>
      obtain ⟨hschedule, hfloor⟩ := hbefore
      have hspec := hjobs.specs _ _ (JobTable.specs_get_of_parts hran.admitted.parts)
      refine ⟨schedule, hknown, hschedule, ?_⟩
      have hnext := nextRunAfter_eq_some hspec.interval_pos hran.priced.nextRun
      change floor ≤ _
      simp only [Receipt.state, hnext]
      exact le_min (hfloor.trans (Grid.start_lt_next hspec.interval_pos).le) hfits
  | cancelled => exact ⟨schedule, hknown, trivial⟩
  | _ => exact ⟨schedule, hknown, hbefore⟩

/-- Without a switch of calendars, no run comes before the floor. -/
theorem floor_le_of_life (past : List (JobAct World)) {segment : List (JobAct World)}
    {floor : Timestamp}
    {schedule : Schedule} {before after : Timestamp × JobPhase} (hfits : floor ≤ u64Max)
    (h : Life (Timed (JobChange host)) segment before after)
    (hknown : lastSchedule past = some schedule) (hbefore : before.2.NotBefore floor schedule)
    (hkept : NoSwitch (past ++ segment)) :
    ∀ execution ∈ runsIn segment, floor ≤ execution.time := by
  induction h generalizing past schedule with
  | nil =>
      intro execution hmem
      cases hmem
  | @cons act acts before middle after hone _ ih =>
      obtain ⟨-, hchange⟩ := hone
      obtain ⟨schedule', hknown', hmiddle⟩ := hchange.notBefore hfits hknown hbefore (by
        rintro update rfl
        exact hkept past update acts schedule rfl hknown)
      have hrest := ih _ hknown' hmiddle (by rwa [List.append_assoc])
      intro execution hmem
      rw [← List.singleton_append, runsIn_append, List.mem_append] at hmem
      rcases hmem with hmem | hmem
      · cases act with
        | ran run =>
            cases List.mem_singleton.mp hmem
            obtain ⟨r, hnow, -, -, -, hran, -, hphase, -⟩ := hchange.ran_inv
            rw [hphase] at hbefore
            obtain ⟨-, -, -, -, hdue⟩ := ensureDue_eq_ok.mp hran.admitted.due
            exact hbefore.2.trans hdue
        | _ => cases hmem
      · exact hrest execution hmem

/-- Along every run, no execution of a job comes before the `start_at` it was created with
unless an update has switched it to a different calendar; after such a switch, none comes
before the first match of that calendar at or after the update, until it is switched again. -/
theorem runs_from_start {start : Chain World} {actions : List (Action World)}
    (hstart : Deployed host start) (halong : (machine host).Along (Admissible host) start actions)
    (id : JobId) :
    (∀ earlier owner params deposit segment later,
      jobActs id ((machine host).outputs start actions) =
        earlier ++ .created owner params deposit :: segment ++ later →
      NoSwitch (.created owner params deposit :: segment) →
      ∀ execution ∈ runsIn segment, params.startAt ≤ execution.time) ∧
    ∀ past update future ctx, actions = past ++ .call ctx (.job (.updateJob id update)) :: future →
      let c := (machine host).run start past
      ∀ c' spec state, updateJob host ctx c id update = .ok c' →
        c.reg.jobs.getJobParts id = some (spec, state) →
        update.schedule ≠ .interval → update.schedule ≠ spec.schedule →
        ∀ segment later, jobActs id ((machine host).outputs c' future) = segment ++ later →
          NoSwitch (.updated update :: segment) →
          ∀ execution ∈ runsIn segment,
            firstCalendarRun update.schedule c.now ≤ execution.time := by
  refine ⟨?_, ?_⟩
  · intro earlier owner params deposit segment later hdone hkept
    obtain ⟨now, -, hlife⟩ := job_life hstart.sound id halong
    rw [hdone] at hlife
    obtain ⟨last, hlife, -⟩ := hlife.split
    obtain ⟨⟨_, found⟩, ⟨created, phase⟩, -, ⟨-, hcreated⟩, hsegment⟩ := hlife.split_at
    -- Creation sets a first run at or after the start; everything but a switch keeps that floor.
    have hfloor : params.startAt ≤ u64Max ∧ phase.NotBefore params.startAt params.schedule := by
      change JobChange host created _ found phase at hcreated
      cases hcreated with
      | created howner hspec htyped =>
          refine ⟨htyped.1, rfl, ?_⟩
          exact le_firstCalendarRun_of_le (le_max_left _ created) htyped.1
    exact floor_le_of_life [.created owner params deposit] hfloor.1 hsegment rfl hfloor.2 hkept
  · intro past update future ctx hactions c c' spec state hupdate hparts hcalendar hother
      segment later
      hdone hkept
    rw [hactions, Machine.along_append] at halong
    obtain ⟨hpast, hadm, hfuture⟩ := halong
    have hreach : Reachable host c := ⟨start, past, hstart, hpast, rfl⟩
    have hcall : Call.perform host ctx c (.job (.updateJob id update)) = .ok c' := hupdate
    have hstep : (machine host).step c (.call ctx (.job (.updateJob id update))) = c' :=
      step_call_ok hcall
    rw [show (machine host).step _ _ = c' from hstep] at hfuture
    have htyped : Call.WellTyped (.job (.updateJob id update)) := hadm
    have hsound : c'.Sound host := call_sound hreach.sound htyped hcall
    obtain ⟨now, -, hlife⟩ := job_life hsound id hfuture
    rw [hdone] at hlife
    obtain ⟨last, hsegment, -⟩ := hlife.split
    -- The switch sets the floor anew, at the first match of the new calendar.
    have hphase : (c'.reg.jobs.phase id).NotBefore (firstCalendarRun update.schedule c.now)
        update.schedule := by
      obtain ⟨-, found, held, interval, leaderRuns, hfound, -, -, -, hc⟩ := updateJob_eq_ok hupdate
      cases hparts.symm.trans hfound
      have hnext : update.nextRun spec state c.now = firstCalendarRun update.schedule c.now :=
        if_pos ⟨hcalendar, hother⟩
      have hafter : c'.reg.jobs.phase id = .live (update.applyTo spec interval)
          { state with nextRun := update.nextRun spec state c.now, leaderRuns } := by
        rw [hc]
        exact phase_setState _ (Store.get_set_self _ _ _)
      rw [hafter]
      exact ⟨rfl, hnext.ge⟩
    exact floor_le_of_life [.updated update]
      (firstCalendarRun_fits hreach.sound.clock) hsegment rfl hphase
      hkept

/-! ## A late start -/

theorem noSwitch_of_interval {done : List (JobAct World)}
    (h : ∀ update, .updated update ∈ done → update.schedule = .interval) : NoSwitch done := by
  rintro past update rest schedule rfl -
  exact .inl (h update (List.mem_append_right _ List.mem_cons_self))

/-- The starts of the jobs created. -/
def startsIn (done : List (JobAct World)) : List Timestamp :=
  done.filterMap fun
    | .created _ params _ => some params.startAt
    | _ => none

theorem created_of_startsIn {done : List (JobAct World)} {startAt : Timestamp}
    (h : startsIn (done.take 1) = [startAt]) :
    ∃ owner params deposit, done = .created owner params deposit :: done.tail ∧
      params.startAt = startAt := by
  cases done with
  | nil => cases h
  | cons act rest =>
      cases act with
      | created owner params deposit => exact ⟨owner, params, deposit, rfl, List.singleton_inj.mp h⟩
      | _ => cases h

/-- A job that starts at `1000000` and is updated right away; it runs at `time`. -/
def lateStart (update : JobUpdate) (time : Timestamp) : List (Action Unit) :=
  firstRun.take 3 ++
    [.call ⟨[⟨5⟩]⟩ (.job (.createJob ⟨5⟩ { minutely with startAt := 1000000 } 50)),
      .call ⟨[⟨5⟩]⟩ (.job (.updateJob 0 update)),
      .advance time,
      .call ⟨[⟨4⟩]⟩ (.run (.execute ⟨4⟩ 0))]

theorem lateStart_admissible (c : Chain Unit) {update : JobUpdate} {time : Timestamp}
    (hupdate : update.WellTyped) (htime : time ≤ u64Max) :
    (machine plainHost).Along (Admissible plainHost) c (lateStart update time) := by
  refine Machine.along_append.mpr ⟨?_, ?_⟩
  · simp [firstRun, Machine.Along, Admissible, Call.WellTyped]
  · have hstart : 1000000 ≤ u64Max := by decide
    have hmax : (10 : ℤ) ≤ i128Max ∧ (0 : ℤ) ≤ i128Max ∧ (50 : ℤ) ≤ i128Max := by decide
    simp [Machine.Along, Admissible, Call.WellTyped, JobParams.WellTyped, minutely, hupdate,
      htime, hstart, hmax]

/-- What was done to the job of a late start. -/
def lateStartActs (update : JobUpdate) (time : Timestamp) : List (JobAct Unit) :=
  jobActs 0 ((machine plainHost).outputs (deployment ⟨3⟩ 1000 100 10 1000) (lateStart update time))

def halfMinutely : JobUpdate := { moveToDaily with interval := 30, schedule := .interval }

/-- A new interval leaves the start where it was. -/
theorem runs_from_start_halfMinutely :
    let done := lateStartActs halfMinutely 1000000
    (runsIn done).length = 1 ∧ ∀ execution ∈ runsIn done.tail, 1000000 ≤ execution.time := by
  intro done
  refine ⟨rfl, ?_⟩
  have hfirst : startsIn (done.take 1) = [1000000] := rfl
  obtain ⟨owner, params, deposit, hdone, hstartAt⟩ := created_of_startsIn hfirst
  have hkept : done.all (fun act => match act with
      | .updated update => decide (update.schedule = .interval)
      | _ => true) = true := rfl
  have hlaws := (runs_from_start (deployment_deployed ⟨3⟩ 10 1000 (by decide) (by decide))
    (lateStart_admissible _ ⟨by decide, by decide⟩ (by decide)) 0).1
      [] owner params deposit done.tail []
    (hdone.trans (List.append_nil _).symm)
  rw [hstartAt, ← hdone] at hlaws
  apply hlaws
  apply noSwitch_of_interval
  intro update hmem
  exact of_decide_eq_true (List.all_eq_true.mp hkept _ hmem)

/-- Moved to a calendar before its first run, the job runs at `30000`, long before its start. -/
theorem switch_runs_before_start :
    let start := deployment ⟨3⟩ 1000 100 10 1000
    Deployed plainHost start ∧
      (machine plainHost).Along (Admissible plainHost) start (lateStart moveToDaily 30000) ∧
      let done := jobActs 0 ((machine plainHost).outputs start (lateStart moveToDaily 30000))
      startsIn done = [1000000] ∧ (runsIn done).map Execution.time = [30000] :=
  ⟨deployment_deployed ⟨3⟩ 10 1000 (by decide) (by decide),
    lateStart_admissible _ ⟨by decide, by decide⟩ (by decide), rfl, rfl⟩

end SoroCron
