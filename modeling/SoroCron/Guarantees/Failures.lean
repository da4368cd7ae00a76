import SoroCron.Registry.Deployment
import SoroCron.Registry.Lives

/-! # A broken job stops itself

While `max_failures` stays at one positive value, a job whose target keeps failing is charged
that many times at most: then it is inactive until its owner resumes it. Only runs and
resumes touch the count of failures.
-/

namespace SoroCron

open Outcome Bounded

variable {World : Type} {host : Host World} {c : Chain World} {id : JobId} {m : ℕ}

/-! ## Counting failures -/

/-- A successful run, or the owner's resume. -/
def JobAct.resets : JobAct World → Bool
  | .ran execution => execution.success
  | .activeSet active => active
  | _ => false

/-- The failed runs since the last successful run or resume. -/
def failedInARow (done : List (JobAct World)) : ℕ :=
  done.foldl (fun count act => if act.resets then 0 else count + runCount [act]) 0

theorem failedInARow_append (past : List (JobAct World)) (act : JobAct World) :
    failedInARow (past ++ [act]) = if act.resets then 0
      else failedInARow past + runCount [act] := by
  rw [failedInARow, List.foldl_append]
  rfl

/-- A run under settings that stop a job after `m` failures. -/
def RunsUnder (m : ℕ) (act : JobAct World) : Prop :=
  ∀ execution, act = .ran execution → execution.before.chain.reg.config.maxFailures = m

/-- A run happens to an active job, sets its count, and stops it once the count reaches the
limit in force. -/
theorem JobChange.failed {now : Timestamp} {execution : Execution World} {before after : JobPhase}
    (h : JobChange host now (.ran execution) before after) :
    ∃ spec state state', before = .live spec state ∧ after = .live spec state' ∧
      state.active = true ∧
      state'.failures = (if execution.success then 0 else satAdd32 state.failures 1) ∧
      (state'.active = true → execution.success = false →
        execution.before.chain.reg.config.maxFailures = 0 ∨
          state'.failures < execution.before.chain.reg.config.maxFailures) := by
  obtain ⟨r, -, -, -, -, hran, -, hbefore, hafter⟩ := h.ran_inv
  obtain ⟨hactive, -, -, -, -⟩ := ensureDue_eq_ok.mp hran.admitted.due
  refine ⟨_, _, _, hbefore, hafter, hactive, ?_, ?_⟩
  · rw [hran.success]
    rfl
  · intro hstays hfailed
    rw [hran.success] at hfailed
    simp only [Receipt.state, deactivates, hfailed, hactive, Bool.not_false, Bool.true_and,
      Bool.and_eq_true,
      bne_iff_ne, ne_eq, decide_eq_true_eq, Bool.if_false_left, Bool.and_true, Bool.not_eq_true',
      decide_eq_false_iff_not, not_and, not_le] at hstays ⊢
    by_cases hoff : execution.before.chain.reg.config.maxFailures = 0
    · exact .inl hoff
    · exact .inr (hstays hoff)

/-- What the phase of a job says when its failures are limited to `m`: an active job is below
the limit. -/
def JobPhase.Calm (m : ℕ) : JobPhase → Prop
  | .live _ state => state.active = true → state.failures < m
  | _ => True

theorem JobChange.calm {now : Timestamp} {act : JobAct World} {before after : JobPhase}
    (hpos : 0 < m)
    (hbefore : before.Calm m) (hunder : RunsUnder m act) (h : JobChange host now act before after) :
    after.Calm m := by
  cases act with
  | ran execution =>
      obtain ⟨spec, state, state', -, rfl, -, hcount, hstops⟩ := h.failed
      intro hactive
      cases hsuccess : execution.success with
      | true =>
          rw [hcount, hsuccess]
          exact hpos
      | false =>
          rcases hstops hactive hsuccess with hoff | hbelow
          · rw [hunder execution rfl] at hoff
            exact absurd hoff hpos.ne'
          · rwa [hunder execution rfl] at hbelow
  | activeSet active =>
      cases h
      intro hactive
      change active = true at hactive
      rw [if_pos hactive]
      exact hpos
  | created owner params deposit =>
      cases h
      exact fun _ => hpos
  | cancelled =>
      cases h
      trivial
  | _ =>
      cases h
      exact hbefore

/-- The count of a job created while failures were limited to `m`. -/
def JobPhase.Counted (m : ℕ) (past : List (JobAct World)) : JobPhase → Prop
  | .future => failedInARow past = 0
  | .live _ state => state.failures = failedInARow past ∧ state.failures ≤ m
  | .gone => True

theorem JobChange.counted {past : List (JobAct World)} {now : Timestamp} {act : JobAct World}
    {before after : JobPhase} (hfits : m ≤ u32Max) (hcalm : before.Calm m)
    (hbefore : before.Counted m past) (h : JobChange host now act before after) :
    after.Counted m (past ++ [act]) := by
  cases act with
  | ran execution =>
      obtain ⟨spec, state, state', rfl, rfl, hactive, hcount, -⟩ := h.failed
      have hbelow : state.failures < m := hcalm hactive
      obtain ⟨hsame, -⟩ := hbefore
      have hadd : satAdd32 state.failures 1 = state.failures + 1 := satAdd_eq (by omega)
      change state'.failures = failedInARow _ ∧ state'.failures ≤ m
      rw [failedInARow_append, hcount, hadd, ← hsame]
      cases hsuccess : execution.success with
      | true => simp [JobAct.resets, hsuccess]
      | false =>
          simp only [JobAct.resets, hsuccess, Bool.false_eq_true, if_false]
          exact ⟨rfl, hbelow⟩
  | activeSet active =>
      cases h
      obtain ⟨hsame, hle⟩ := hbefore
      unfold JobPhase.Counted
      rw [failedInARow_append, ← hsame]
      cases active with
      | true => exact ⟨rfl, Nat.zero_le _⟩
      | false => exact ⟨rfl, hle⟩
  | created owner params deposit =>
      cases h
      unfold JobPhase.Counted
      rw [failedInARow_append, show failedInARow past = 0 from hbefore]
      exact ⟨rfl, Nat.zero_le _⟩
  | cancelled =>
      cases h
      trivial
  | _ =>
      cases h
      unfold JobPhase.Counted
      rw [failedInARow_append]
      exact hbefore

theorem calm_of_parts {jobs : JobTable}
    (h : ∀ spec state, jobs.getJobParts id = some (spec, state) → state.active = true →
      state.failures < m) : (jobs.phase id).Calm m := by
  cases hphase : jobs.phase id with
  | live spec state => exact h spec state (parts_of_phase hphase)
  | _ => trivial

theorem calm_of_life {acts : List (JobAct World)} {before after : Timestamp × JobPhase}
    (hpos : 0 < m)
    (h : Life (Timed (JobChange host)) acts before after) (hunder : ∀ act ∈ acts, RunsUnder m act)
    (hbefore : before.2.Calm m) : after.2.Calm m := by
  refine (h.restrict hunder).invariant (I := fun phase => phase.2.Calm m) ?_ hbefore
  rintro act before after hbefore ⟨hlimit, -, hchange⟩
  exact hchange.calm hpos hbefore hlimit

theorem counted_of_life {acts : List (JobAct World)} {before after : Timestamp × JobPhase}
    (hpos : 0 < m) (hfits : m ≤ u32Max) (h : Life (Timed (JobChange host)) acts before after)
    (hunder : ∀ act ∈ acts, RunsUnder m act) (hbefore : before.2 = .future) :
    after.2.Counted m acts := by
  have hboth := (h.restrict hunder).history
    (J := fun past phase => phase.2.Calm m ∧ phase.2.Counted m past) ?_ [] ?_
  · exact hboth.2
  · rintro past act before after ⟨hcalm, hcounted⟩ ⟨hlimit, -, hchange⟩
    exact ⟨hchange.calm hpos hcalm hlimit, hchange.counted hfits hcalm hcounted⟩
  · rw [hbefore]
    exact ⟨trivial, rfl⟩

/-! ## A series of failures -/

/-- A job in a series of failures that has cost it `count` runs so far. -/
def JobPhase.Failing (m count : ℕ) : JobPhase → Prop
  | .future => count = 0
  | .live _ state =>
      count ≤ state.failures ∧ count ≤ m ∧ (state.active = true → count < m)
  | .gone => count ≤ m

theorem JobChange.failing {count : ℕ} {now : Timestamp} {act : JobAct World}
    {before after : JobPhase} (hpos : 0 < m) (hfits : m ≤ u32Max) (hbefore : before.Failing m count)
    (hunder : RunsUnder m act)
    (hseries : act.resets = false) (h : JobChange host now act before after) :
    after.Failing m (count + runCount [act]) := by
  cases act with
  | ran execution =>
      obtain ⟨spec, state, state', rfl, rfl, hactive, hcount, hstops⟩ := h.failed
      obtain ⟨hle, -, hbelow⟩ := hbefore
      have hlt := hbelow hactive
      have hfailed : execution.success = false := hseries
      rw [hfailed] at hcount
      have hnext : count + 1 ≤ state'.failures := by
        rw [hcount]
        exact le_satAdd (by omega) (Nat.add_le_add_right hle 1)
      refine ⟨hnext, hlt, ?_⟩
      intro hstays
      rcases hstops hstays hfailed with hoff | hstill
      · rw [hunder execution rfl] at hoff
        exact absurd hoff hpos.ne'
      · rw [hunder execution rfl] at hstill
        exact hnext.trans_lt hstill
  | activeSet active =>
      cases h
      have hoff : active = false := hseries
      subst hoff
      exact ⟨hbefore.1, hbefore.2.1, fun hactive => absurd hactive Bool.false_ne_true⟩
  | created owner params deposit =>
      cases h
      rw [show count = 0 from hbefore]
      exact ⟨le_rfl, hpos.le, fun _ => hpos⟩
  | cancelled =>
      cases h
      exact hbefore.2.1
  | _ =>
      cases h
      exact hbefore

theorem failing_zero (phase : JobPhase) (hpos : 0 < m) : phase.Failing m 0 := by
  cases phase with
  | future => rfl
  | live spec state => exact ⟨Nat.zero_le _, hpos.le, fun _ => hpos⟩
  | gone => exact hpos.le

/-- A series of failures spends no more runs than the limit. -/
theorem failing_of_life {series : List (JobAct World)} {before after : Timestamp × JobPhase}
    (hpos : 0 < m) (hfits : m ≤ u32Max) (h : Life (Timed (JobChange host)) series before after)
    (hunder : ∀ act ∈ series, RunsUnder m act) (hseries : ∀ act ∈ series, act.resets = false) :
    after.2.Failing m (runCount series) := by
  refine ((h.restrict hunder).restrict hseries).history
    (J := fun past phase => phase.2.Failing m (runCount past)) ?_ [] (failing_zero _ hpos)
  rintro past act before after hbefore ⟨hfails, hlimit, -, hchange⟩
  rw [runCount_append]
  exact hchange.failing hpos hfits hbefore hlimit hfails

theorem JobPhase.Failing.count_le {count : ℕ} {phase : JobPhase} (h : phase.Failing m count) :
    count ≤ m := by
  cases phase with
  | future =>
      rw [show count = 0 from h]
      exact Nat.zero_le m
  | live spec state => exact h.2.1
  | gone => exact h

/-- Nobody can run the job: it is inactive or gone. -/
def JobPhase.Stopped : JobPhase → Prop
  | .future => False
  | .live _ state => state.active = false
  | .gone => True

theorem JobPhase.Failing.stopped {phase : JobPhase} (h : phase.Failing m m) (hpos : 0 < m) :
    phase.Stopped := by
  cases phase with
  | future => exact hpos.ne' h
  | live spec state =>
      apply Bool.eq_false_iff.mpr
      intro hactive
      exact lt_irrefl m (h.2.2 hactive)
  | gone => trivial

theorem JobChange.stopped {now : Timestamp} {act : JobAct World} {before after : JobPhase}
    (hbefore : before.Stopped) (hkept : act ≠ .activeSet true)
    (h : JobChange host now act before after) : after.Stopped ∧ runCount [act] = 0 := by
  cases act with
  | ran execution =>
      obtain ⟨spec, state, state', rfl, -, hactive, -, -⟩ := h.failed
      rw [show state.active = false from hbefore] at hactive
      cases hactive
  | activeSet active =>
      cases h
      cases active with
      | true => exact absurd rfl hkept
      | false => exact ⟨rfl, rfl⟩
  | created owner params deposit =>
      cases h
      cases hbefore
  | cancelled =>
      cases h
      exact ⟨trivial, rfl⟩
  | _ =>
      cases h
      exact ⟨hbefore, rfl⟩

/-- A stopped job stays stopped, and nobody runs it, until it is resumed. -/
theorem stopped_of_life {acts : List (JobAct World)} {before after : Timestamp × JobPhase}
    (h : Life (Timed (JobChange host)) acts before after) (hbefore : before.2.Stopped)
    (hkept : .activeSet true ∉ acts) : after.2.Stopped ∧ runCount acts = 0 := by
  induction h with
  | nil => exact ⟨hbefore, rfl⟩
  | @cons act acts before middle after hone _ ih =>
      have hact : act ≠ .activeSet true := by
        rintro rfl
        exact hkept List.mem_cons_self
      obtain ⟨hmiddle, hnone⟩ := hone.2.stopped hbefore hact
      obtain ⟨hafter, hrest⟩ := ih hmiddle fun hmem => hkept (List.mem_cons_of_mem _ hmem)
      refine ⟨hafter, ?_⟩
      rw [← List.singleton_append, runCount_append, hnone, hrest]

/-! ## Along runs -/

/-- The steps of a run that find `max_failures` at `m`. -/
def LimitedTo (host : Host World) (m : ℕ) (c : Chain World) (action : Action World) : Prop :=
  Admissible host c action ∧ c.reg.config.maxFailures = m

section Run

variable {actions : List (Action World)}

theorem runsUnder_of_limited (hsound : c.Sound host)
    (halong : (machine host).Along (LimitedTo host m) c actions) (id : JobId) :
    ∀ act ∈ jobActs id ((machine host).outputs c actions), RunsUnder m act := by
  have hall : ∀ act ∈ (machine host).outputs c actions, ∀ other execution,
      act = .job other (.ran execution) → execution.before.chain.reg.config.maxFailures = m := by
    refine Machine.outputs_forall (I := Chain.Sound host) ?_ ?_ hsound halong
    · rintro c action hsound ⟨hadm, -⟩
      exact step_sound hsound hadm
    · rintro c action hsound ⟨-, hlimit⟩ _ hmem other execution rfl
      rw [ran_config hsound hmem, hlimit]
  intro act hmem execution hact
  subst hact
  obtain ⟨done, hdone, hjob⟩ := List.mem_filterMap.mp hmem
  cases done with
  | keeper who act => cases hjob
  | job other act =>
      dsimp only at hjob
      split at hjob
      · cases hjob
        exact hall _ hdone other execution rfl
      · cases hjob

/-- In every run in which `max_failures` stays at `m`, for every job: a series of runs that
all fail, with no resume in between, has at most `m` runs, and after the `m`-th nobody runs
the job before it is resumed. If no active job had reached `m` when the run began, none ever
does, and a job created since then counts the failed runs since its last success or resume. -/
theorem broken_job_stops_itself (hreach : Reachable host c) (hpos : 0 < m) (hfits : m ≤ u32Max)
    (halong : (machine host).Along (LimitedTo host m) c actions) (id : JobId) :
    let done := jobActs id ((machine host).outputs c actions)
    let last := (machine host).run c actions
    (∀ earlier series later, done = earlier ++ series ++ later →
      (∀ act ∈ series, act.resets = false) →
      runCount series ≤ m ∧
        (runCount series = m →
          (∀ between rest, later = between ++ rest → .activeSet true ∉ between →
            runCount between = 0) ∧
          (.activeSet true ∉ later → ∀ spec state,
            last.reg.jobs.getJobParts id = some (spec, state) →
            state.active = false))) ∧
      ((∀ spec state, c.reg.jobs.getJobParts id = some (spec, state) → state.active = true →
          state.failures < m) →
        ∀ spec state, last.reg.jobs.getJobParts id = some (spec, state) → state.active = true →
          state.failures < m) ∧
      (c.reg.jobs.nextJobId ≤ id →
        ∀ spec state, last.reg.jobs.getJobParts id = some (spec, state) →
          state.failures = failedInARow done) := by
  intro done last
  have hsound := hreach.sound
  have hadm : (machine host).Along (Admissible host) c actions :=
    Machine.along_mono (fun _ _ hguard => hguard.1) halong
  obtain ⟨now, -, hlife⟩ := job_life hsound id hadm
  have hunder := runsUnder_of_limited hsound halong id
  refine ⟨?_, ?_, ?_⟩
  · intro earlier series later hdone hseries
    rw [show jobActs id _ = _ from hdone] at hlife hunder
    obtain ⟨second, hlife, hlater⟩ := hlife.split
    obtain ⟨first, -, hfails⟩ := hlife.split
    -- The series starts at some count, adds one with each run and stops the job at `m`.
    have hfailing := failing_of_life hpos hfits hfails
      (fun act hmem => hunder act (List.mem_append_left _ (List.mem_append_right _ hmem))) hseries
    refine ⟨hfailing.count_le, ?_⟩
    intro hspent
    rw [hspent] at hfailing
    have hstopped := hfailing.stopped hpos
    refine ⟨?_, ?_⟩
    · rintro between rest rfl hkept
      obtain ⟨third, hbetween, -⟩ := hlater.split
      exact (stopped_of_life hbetween hstopped hkept).2
    · intro hkept spec state hparts
      have hend := (stopped_of_life hlater hstopped hkept).1
      dsimp only at hend
      rw [phase_of_parts hparts] at hend
      exact hend
  · intro hstart spec state hparts
    have hend := calm_of_life hpos hlife hunder (calm_of_parts hstart)
    dsimp only at hend
    rw [phase_of_parts hparts] at hend
    exact hend
  · intro hfresh spec state hparts
    have hend := counted_of_life hpos hfits hlife hunder (hsound.jobs.phase_fresh hfresh)
    dsimp only at hend
    rw [phase_of_parts hparts] at hend
    exact hend.1

end Run

/-- Targets that always fail. -/
def failingHost : Host Unit :=
  { plainHost with
    tryExecute := fun _ _ _ _ _ => { answer := .error ⟨0⟩, world := (), moved := 0 }
    tryExecute_spares := fun _ _ _ _ _ token => by simp }

/-- The first job is run three times; a fourth call comes too late. -/
def failingRun : List (Action Unit) :=
  firstRun ++
    [.advance 1130, .call ⟨[⟨4⟩]⟩ (.run (.execute ⟨4⟩ 0)),
      .advance 1190, .call ⟨[⟨4⟩]⟩ (.run (.execute ⟨4⟩ 0)),
      .advance 1250, .call ⟨[⟨4⟩]⟩ (.run (.execute ⟨4⟩ 0))]

theorem failingRun_limited :
    (machine failingHost).Along (LimitedTo failingHost 3)
      (deployment ⟨3⟩ 1000 100 10 1000) failingRun := by
  refine Machine.along_and ?_ (by decide)
  simp [failingRun, firstRun, Machine.Along, Admissible, Call.WellTyped, JobParams.WellTyped,
    minutely, u64Max, i128Max]

def failingActs : List (JobAct Unit) :=
  jobActs 0 ((machine failingHost).outputs (deployment ⟨3⟩ 1000 100 10 1000) failingRun)

def failedChain : Chain Unit :=
  (machine failingHost).run (deployment ⟨3⟩ 1000 100 10 1000) failingRun

theorem failingActs_fail : ∀ act ∈ failingActs, act.resets = false := by
  have hall : failingActs.all (fun act => !act.resets) = true := by decide
  intro act hmem
  have hact := List.all_eq_true.mp hall act hmem
  rwa [Bool.not_eq_true'] at hact

theorem failingActs_spend : runCount failingActs = 3 := by decide

theorem broken_job_stops_itself_failingRun :
    (failedChain.reg.jobs.getJobParts 0).isSome = true ∧
      ∀ spec state, failedChain.reg.jobs.getJobParts 0 = some (spec, state) →
        state.active = false := by
  refine ⟨by decide, ?_⟩
  have hplain := deployment_deployed ⟨3⟩ 10 1000
    (show 1000 ≤ u64Max by decide) (show 0 ≤ 100 by decide)
  have hstart : Deployed failingHost (deployment ⟨3⟩ 1000 100 10 1000) :=
    ⟨hplain.constructed, hplain.clock, hplain.holding, hplain.silent⟩
  have hlaws :=
    (broken_job_stops_itself hstart.reachable (by decide) (by decide) failingRun_limited 0).1
    [] failingActs [] (List.append_nil failingActs).symm failingActs_fail
  exact (hlaws.2 failingActs_spend).2 List.not_mem_nil

end SoroCron
