import SoroCron.Registry.Deployment

/-! # What keepers poll

`isDue` promises that some eligible keeper could execute a job now. It repeats the gates of
`execute` except two: it does not look at whom the job targets, and it computes no next run.
-/

namespace SoroCron

open Outcome Bounded

variable {World : Type} {host : Host World} {ctx : Ctx} {keeper : Address} {jobId : JobId}
  {c : Chain World}

/-- The gates `isDue` looks at are open for this job. -/
structure Polled (host : Host World) (c : Chain World) (jobId : JobId) (spec : JobSpec)
    (state : JobState) : Prop where
  parts : c.reg.jobs.getJobParts jobId = some (spec, state)
  live : c.reg.config.paused = false
  connected : c.reg.config.executor.isSome = true
  due : ensureDue spec state c.now = .ok ()
  running : c.reg.isTargetHalted spec.target = false
  dependency : (dependencyMet c.reg.jobs spec state).isOk = true
  allowed : (resolverAllows host c.toSurroundings jobId spec).answer = true

theorem isDue_eq_true : isDue host c jobId = true ↔
    ∃ spec state, Polled host c jobId spec state := by
  unfold isDue
  constructor
  · intro h
    split at h
    · cases h
    next hopen =>
      split at h
      next spec state hparts =>
        simp only [Bool.or_eq_true, not_or, Bool.not_eq_true, Option.isNone_eq_false_iff] at hopen
        simp only [Bool.and_eq_true, Bool.not_eq_true'] at h
        obtain ⟨⟨⟨hdue, hrunning⟩, hdependency⟩, hallowed⟩ := h
        refine ⟨spec, state, hparts, hopen.1, hopen.2, ?_, hrunning, hdependency, hallowed⟩
        cases hresult : ensureDue spec state c.now with
        | ok u => rfl
        | error reason =>
            rw [hresult] at hdue
            cases hdue
      next => cases h
  · rintro ⟨spec, state, hpolled⟩
    have hconnected := Option.isNone_eq_false_iff.mpr hpolled.connected
    rw [if_neg (by simp [hpolled.live, hconnected])]
    simp only [hpolled.parts, hpolled.due, hpolled.running, hpolled.dependency, hpolled.allowed]
    rfl

/-- A keeper the job's settings and windows let run it now. -/
structure MayRun (host : Host World) (c : Chain World) (keeper : Address) (jobId : JobId) :
    Prop where
  eligible : ∃ info, c.reg.keepers.infos.get keeper = some info ∧
    ensureActiveKeeper c.reg.config info = .ok ()
  listed : ∀ spec state, c.reg.jobs.getJobParts jobId = some (spec, state) →
    ∀ allowed ∈ spec.keepers, keeper ∈ allowed
  turn : ∀ spec state, c.reg.jobs.getJobParts jobId = some (spec, state) →
    assignedKeeperFor host c.reg.config c.reg.keepers jobId spec state = none ∨
      assignedKeeperFor host c.reg.config c.reg.keepers jobId spec state = some keeper ∨
      satAdd64 state.nextRun c.reg.config.gracePeriod ≤ c.now

/-- The run that `isDue` promises and `execute` cannot make. -/
def Unrunnable (host : Host World) (c : Chain World) (spec : JobSpec) (state : JobState) : Prop :=
  isForbiddenTarget host c.reg.config spec.target = true ∨ StepOverflows spec state c.now

/-- For a keeper that may run the job, a success of `execute` needs the polled gates and the
two that are not polled. -/
theorem execute_iff_polled (hpays : PaysOut host) (hsolvent : Solvent host c)
    (hmay : MayRun host c keeper jobId) (hsigned : keeper ∈ ctx.signers) :
    (∃ c', execute host ctx c keeper jobId = .ok c') ↔
      ∃ spec state, Polled host c jobId spec state ∧ ¬ Unrunnable host c spec state := by
  rw [execute_succeeds_iff hpays hsolvent]
  constructor
  · rintro ⟨executor, info, admission, hauth, hadmitted, hallowed, hsteps⟩
    obtain ⟨hlive, hexecutor, -, -, -⟩ := authorizeKeeper_eq_ok.mp hauth
    refine ⟨admission.spec, admission.state, ⟨hadmitted.parts, hlive, ?_, hadmitted.due,
      hadmitted.running, ?_, hallowed⟩, ?_⟩
    · rw [hexecutor]
      rfl
    · rw [hadmitted.dependency]
      rfl
    · rintro (hforbidden | hoverflows)
      · rw [hadmitted.permitted] at hforbidden
        cases hforbidden
      · exact hsteps hoverflows
  · rintro ⟨spec, state, hpolled, hrunnable⟩
    obtain ⟨info, hinfo, hactive⟩ := hmay.eligible
    obtain ⟨executor, hexecutor⟩ := Option.isSome_iff_exists.mp hpolled.connected
    have hleader : ∃ leaderRuns, dependencyMet c.reg.jobs spec state = .ok leaderRuns := by
      have hmet := hpolled.dependency
      cases hresult : dependencyMet c.reg.jobs spec state with
      | ok leaderRuns => exact ⟨leaderRuns, rfl⟩
      | error reason =>
          rw [hresult] at hmet
          cases hmet
    obtain ⟨leaderRuns, hleader⟩ := hleader
    let assigned :=
      (assignedKeeperFor host c.reg.config c.reg.keepers jobId spec state).filter (· ≠ keeper)
    refine ⟨executor, info, ⟨spec, state, assigned, leaderRuns⟩, ?_, ?_, hpolled.allowed, ?_⟩
    · exact authorizeKeeper_eq_ok.mpr
        ⟨hpolled.live, hexecutor, ⟨hsigned, hsolvent.sound.keeper_ne hinfo⟩, hinfo, hactive⟩
    · refine ⟨hpolled.parts, hpolled.due, ?_, hpolled.running, hmay.listed _ _ hpolled.parts,
        rfl, ?_,
        hleader⟩
      · exact Bool.eq_false_iff.mpr fun hforbidden => hrunnable (.inl hforbidden)
      · intro hother
        -- Nobody is assigned, the keeper itself is, or the other one had its window.
        rcases hmay.turn _ _ hpolled.parts with hnone | hself | hpast
        · simp [assigned, hnone] at hother
        · simp [assigned, hself] at hother
        · exact hpast
    · exact fun hoverflows => hrunnable (.inr hoverflows)

/-- In every reachable chain, for every job and every keeper that may run it, polling agrees
with executing exactly when the job is not one that only those two gates stop. -/
theorem isDue_agrees_iff (hpays : PaysOut host) (hreach : Reachable host c)
    (hmay : MayRun host c keeper jobId) (hsigned : keeper ∈ ctx.signers) :
    (isDue host c jobId = true ↔ ∃ c', execute host ctx c keeper jobId = .ok c') ↔
      ¬ ∃ spec state, Polled host c jobId spec state ∧ Unrunnable host c spec state := by
  rw [isDue_eq_true, execute_iff_polled hpays hreach.solvent hmay hsigned]
  constructor
  · rintro hagree ⟨spec, state, hpolled, hunrunnable⟩
    obtain ⟨spec', state', hpolled', hrunnable⟩ := hagree.mp ⟨spec, state, hpolled⟩
    have hsame := hpolled.parts.symm.trans hpolled'.parts
    cases hsame
    exact hrunnable hunrunnable
  · intro hrunnable
    constructor
    · rintro ⟨spec, state, hpolled⟩
      exact ⟨spec, state, hpolled, fun hunrunnable => hrunnable ⟨spec, state, hpolled, hunrunnable⟩⟩
    · rintro ⟨spec, state, hpolled, -⟩
      exact ⟨spec, state, hpolled⟩

/-- With windows off and no allowlist, every eligible keeper may run the job. -/
theorem mayRun_of_open {info : Keeper} (hinfo : c.reg.keepers.infos.get keeper = some info)
    (hactive : ensureActiveKeeper c.reg.config info = .ok ())
    (hwindows : c.reg.config.gracePeriod = 0)
    (hlist : (c.reg.jobs.getJobParts jobId).bind (fun parts => parts.1.keepers) = none) :
    MayRun host c keeper jobId := by
  refine ⟨⟨info, hinfo, hactive⟩, ?_, ?_⟩
  · intro spec state hparts allowed hallowed
    rw [hparts, Option.bind_some] at hlist
    dsimp only at hlist
    rw [hlist] at hallowed
    cases hallowed
  · intro spec state hparts
    exact .inl (by simp [assignedKeeperFor, hwindows])

/-- The first job is due and was not run yet. -/
def dueChain : Chain Unit :=
  (machine plainHost).run (deployment ⟨3⟩ 1000 100 10 1000) (firstRun.take 5)

theorem isDue_agrees_dueChain :
    isDue plainHost dueChain 0 = true ∧
      (isDue plainHost dueChain 0 = true ↔
        ∃ c', execute plainHost ⟨[⟨4⟩]⟩ dueChain ⟨4⟩ 0 = .ok c') := by
  have hall : (machine plainHost).Along (Admissible plainHost) (deployment ⟨3⟩ 1000 100 10 1000)
      (firstRun.take 5 ++ firstRun.drop 5) := firstRun_admissible _
  have halong := Machine.along_append.mp hall
  have hreach : Reachable plainHost dueChain :=
    ⟨_, firstRun.take 5, deployment_deployed ⟨3⟩ 10 1000 (by decide) (by decide), halong.1, rfl⟩
  have hkeeper : ∃ info, dueChain.reg.keepers.infos.get ⟨4⟩ = some info ∧
      ensureActiveKeeper dueChain.reg.config info = .ok () := ⟨_, rfl, rfl⟩
  obtain ⟨info, hinfo, hactive⟩ := hkeeper
  refine ⟨by decide, (isDue_agrees_iff plainHost_paysOut hreach
    (mayRun_of_open hinfo hactive (by decide) (by decide)) (by simp)).mpr ?_⟩
  rintro ⟨spec, state, hpolled, hunrunnable⟩
  have hfields : (dueChain.reg.jobs.getJobParts 0).map
      (fun parts => (parts.1.target, parts.2.nextRun)) =
      some (⟨7⟩, 1000) := by decide
  rw [hpolled.parts, Option.map_some, Option.some.injEq, Prod.mk.injEq] at hfields
  dsimp only at hfields
  rcases hunrunnable with hforbidden | ⟨-, hzero, -⟩
  · rw [hfields.1] at hforbidden
    revert hforbidden
    decide
  · rw [hzero] at hfields
    exact absurd hfields.2 (by decide)

/-- The executor's address `⟨6⟩` is known before the admin connects it; a job aims at it. -/
def earlyAim : List (Action Unit) :=
  [.call ⟨[⟨4⟩]⟩ (.keeper (.stake ⟨4⟩ 100)),
    .call ⟨[⟨5⟩]⟩ (.job (.createJob ⟨5⟩ { minutely with target := ⟨6⟩ } 50)),
    .call ⟨[⟨3⟩]⟩ (.admin (.setExecutor ⟨6⟩)),
    .advance 1060]

def earlyAimChain : Chain Unit :=
  (machine plainHost).run (deployment ⟨3⟩ 1000 100 10 1000) earlyAim

/-- Polling says that the job is due; no keeper can run it. -/
theorem isDue_true_for_earlyAim :
    PaysOut plainHost ∧ Reachable plainHost earlyAimChain ∧ MayRun plainHost earlyAimChain ⟨4⟩ 0 ∧
      isDue plainHost earlyAimChain 0 = true ∧
      ∀ c', execute plainHost ⟨[⟨4⟩]⟩ earlyAimChain ⟨4⟩ 0 ≠ .ok c' := by
  have hkeeper : ∃ info, earlyAimChain.reg.keepers.infos.get ⟨4⟩ = some info ∧
      ensureActiveKeeper earlyAimChain.reg.config info = .ok () := ⟨_, rfl, rfl⟩
  obtain ⟨info, hinfo, hactive⟩ := hkeeper
  have hfails : (execute plainHost ⟨[⟨4⟩]⟩ earlyAimChain ⟨4⟩ 0).isOk = false := by decide
  refine ⟨plainHost_paysOut, ?_, mayRun_of_open hinfo hactive (by decide) (by decide),
    by decide, ?_⟩
  · refine ⟨_, earlyAim, deployment_deployed ⟨3⟩ 10 1000 (by decide) (by decide), ?_, rfl⟩
    simp [earlyAim, Machine.Along, Admissible, Call.WellTyped, JobParams.WellTyped,
      minutely, u64Max, i128Max]
  · intro c' hexecute
    rw [hexecute] at hfails
    cases hfails

end SoroCron
