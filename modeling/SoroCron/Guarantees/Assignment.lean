import SoroCron.Registry.Deployment
import SoroCron.Registry.Windows

/-! # Reserved runs

A run is reserved only for a keeper that can make it, and only until its window is over.
-/

namespace SoroCron

open Outcome Bounded

variable {World : Type} {host : Host World} {c : Chain World} {ctx : Ctx} {keeper : Address}
  {jobId : JobId} {spec : JobSpec} {state : JobState} {reason : Error}

/-! ## Where rejections come from -/

/-- The errors that turn a keeper away, whatever the state of the job. -/
def keeperErrors : List Error :=
  [.keeperNotFound, .keeperUnbonding, .insufficientStake, .keeperNotAllowed, .notAssignedKeeper]

/-- Why a keeper is turned away. -/
inductive TurnedAway (host : Host World) (c : Chain World) (keeper : Address) (jobId : JobId) :
    Error → Prop where
  | notFound (hinfo : c.reg.keepers.infos.get keeper = none) :
      TurnedAway host c keeper jobId .keeperNotFound
  | ineligible {info : Keeper} {reason : Error} (hinfo : c.reg.keepers.infos.get keeper = some info)
      (hcheck : ensureActiveKeeper c.reg.config info = .error reason) :
      TurnedAway host c keeper jobId reason
  | notAllowed {spec : JobSpec} {state : JobState} {allowed : List Address}
      (hparts : c.reg.jobs.getJobParts jobId = some (spec, state))
        (hallowed : allowed ∈ spec.keepers)
      (hother : keeper ∉ allowed) : TurnedAway host c keeper jobId .keeperNotAllowed
  | notAssigned {spec : JobSpec} {state : JobState} {assigned : Address}
      (hparts : c.reg.jobs.getJobParts jobId = some (spec, state))
      (hassigned : assignedKeeper host c.reg jobId = some assigned) (hother : assigned ≠ keeper)
      (hwindow : c.now < satAdd64 state.nextRun c.reg.config.gracePeriod) :
      TurnedAway host c keeper jobId .notAssignedKeeper

theorem ensureDue_eq_error {now : Timestamp} (h : ensureDue spec state now = .error reason) :
    reason ∉ keeperErrors := by
  simp only [ensureDue, bind_eq_error, rejectIf_eq_error] at h
  rcases h with ⟨-, rfl⟩ | ⟨_, -, ⟨-, rfl⟩ | ⟨_, -, ⟨-, rfl⟩ | ⟨_, -, ⟨-, rfl⟩ | ⟨_, -, -, rfl⟩⟩⟩⟩
  all_goals decide

theorem dependencyMet_eq_error {jobs : JobTable}
    (h : dependencyMet jobs spec state = .error reason) : reason = .awaitingDependency := by
  unfold dependencyMet at h
  split at h
  · cases h
  · split at h
    · split at h
      · cases h
      · exact (Except.error.inj h).symm
    · exact (Except.error.inj h).symm

theorem authorizeKeeper_turnedAway
    (h : authorizeKeeper host ctx c.reg keeper = .error (.rejected reason))
    (hkeeper : reason ∈ keeperErrors) : TurnedAway host c keeper jobId reason := by
  simp only [authorizeKeeper, ensureNotPaused, bind_eq_error, raise_eq_rejected, raise_eq_ok,
    rejectIf_eq_error, okOr_eq_error, okOr_eq_ok, requireAuth, require_ne_rejected, false_or, pure,
    Except.pure, reduceCtorEq, and_false, exists_false, or_false] at h
  rcases h with ⟨-, rfl⟩ | ⟨_, -, ⟨-, rfl⟩ | ⟨_, -, _, -, ⟨hinfo, rfl⟩ | ⟨info, hinfo, hcheck⟩⟩⟩
  · exact absurd hkeeper (by decide)
  · exact absurd hkeeper (by decide)
  · exact .notFound hinfo
  · exact .ineligible hinfo hcheck

theorem runGates_turnedAway (h : runGates host c.reg c.now keeper jobId = .error reason)
    (hkeeper : reason ∈ keeperErrors) : TurnedAway host c keeper jobId reason := by
  simp only [runGates, bind_eq_error, okOr_eq_error, okOr_eq_ok, rejectIf_eq_error,
    Prod.exists, pure, Except.pure, reduceCtorEq, and_false, exists_false, or_false] at h
  rcases h with ⟨-, rfl⟩ |
    ⟨spec, state, hparts, hdue | ⟨_, -, ⟨-, rfl⟩ | ⟨_, -, ⟨-, rfl⟩ | ⟨_, -, h⟩⟩⟩⟩
  · exact absurd hkeeper (by decide)
  · exact absurd hkeeper (ensureDue_eq_error hdue)
  · exact absurd hkeeper (by decide)
  · exact absurd hkeeper (by decide)
  · rcases h with ⟨⟨allowed, hallowed, hother⟩, rfl⟩ |
      ⟨_, -, ⟨⟨hassigned, hwindow⟩, rfl⟩ | ⟨_, -, hleader⟩⟩
    · exact .notAllowed hparts hallowed hother
    · obtain ⟨assigned, hsome⟩ := Option.isSome_iff_exists.mp hassigned
      rw [Option.filter_eq_some_iff, decide_eq_true_eq] at hsome
      refine .notAssigned hparts ?_ hsome.2 hwindow
      rw [assignedKeeper, hparts]
      exact hsome.1
    · rw [dependencyMet_eq_error hleader] at hkeeper
      exact absurd hkeeper (by decide)

theorem performRun_ne_rejected {executor : Address} {admission : Admission} {b : Batch World} :
    performRun host executor keeper jobId admission b ≠ .error (.rejected reason) := by
  simp only [performRun, ne_eq, bind_eq_error, orTrap_ne_rejected, false_or, pure, Except.pure,
    reduceCtorEq, and_false, exists_false, not_false_eq_true]

/-- Where a rejected call to `execute` stopped. -/
theorem execute_eq_rejected (h : execute host ctx c keeper jobId = .error (.rejected reason)) :
    authorizeKeeper host ctx c.reg keeper = .error (.rejected reason) ∨
      runGates host c.reg c.now keeper jobId = .error reason ∨ reason = .resolverRejected := by
  simp only [execute, bind_eq_error, Prod.exists, raise_eq_rejected, raise_eq_ok] at h
  rcases h with hauth |
    ⟨executor, info, hauth, hrun | ⟨outcome, b, hrun, houtcome | ⟨_, -, hfinish⟩⟩⟩
  · exact .inl hauth
  · unfold runJob at hrun
    split at hrun
    · cases hrun
    · dsimp only at hrun
      split at hrun
      · rw [bind_eq_error] at hrun
        rcases hrun with hperform | ⟨_, -, hpure⟩
        · exact absurd hperform performRun_ne_rejected
        · cases hpure
      · cases hrun
  · subst houtcome
    unfold runJob at hrun
    split at hrun
    next gate hgates =>
      cases hrun
      exact .inr (.inl hgates)
    next admission hgates =>
      dsimp only at hrun
      split at hrun
      · simp only [bind_eq_ok, pure_eq_ok, Prod.mk.injEq, reduceCtorEq, false_and, and_false,
          exists_false] at hrun
      · cases hrun
        exact .inr (.inr rfl)
  · cases finish_eq_error hfinish

theorem execute_turnedAway (h : execute host ctx c keeper jobId = .error (.rejected reason))
    (hkeeper : reason ∈ keeperErrors) : TurnedAway host c keeper jobId reason := by
  rcases execute_eq_rejected h with hauth | hgates | rfl
  · exact authorizeKeeper_turnedAway hauth hkeeper
  · exact runGates_turnedAway hgates hkeeper
  · exact absurd hkeeper (by decide)

/-! ## Keepers that can run a job -/

/-- The keeper is registered, eligible and allowed by the job's list. -/
structure CanRun (c : Chain World) (keeper : Address) (spec : JobSpec) : Prop where
  eligible : ∃ info, c.reg.keepers.infos.get keeper = some info ∧
    ensureActiveKeeper c.reg.config info = .ok ()
  listed : ∀ allowed ∈ spec.keepers, keeper ∈ allowed

/-- Every gate before the window lets the keeper's call through. -/
structure AtWindow (host : Host World) (ctx : Ctx) (c : Chain World) (keeper : Address)
    (spec : JobSpec) (state : JobState) : Prop where
  authorized : ∃ executor info, authorizeKeeper host ctx c.reg keeper = .ok (executor, info)
  due : ensureDue spec state c.now = .ok ()
  permitted : isForbiddenTarget host c.reg.config spec.target = false
  running : c.reg.isTargetHalted spec.target = false
  listed : ∀ allowed ∈ spec.keepers, keeper ∈ allowed

theorem canRun_of_assigned (hparts : c.reg.jobs.getJobParts jobId = some (spec, state))
    (hassigned : assignedKeeper host c.reg jobId = some keeper) : CanRun c keeper spec := by
  rw [assignedKeeper, hparts] at hassigned
  obtain ⟨-, hchosen, heligible⟩ := assignedKeeperFor_eq_some.mp hassigned
  refine ⟨eligible_iff.mp heligible, ?_⟩
  intro allowed hallowed
  rw [candidates, hallowed] at hchosen
  exact List.mem_of_getElem? hchosen

/-- A keeper that can run the job is turned away only for the sake of another one. -/
theorem CanRun.turnedAway (hcan : CanRun c keeper spec)
    (hparts : c.reg.jobs.getJobParts jobId = some (spec, state))
    (h : TurnedAway host c keeper jobId reason) :
    ∃ assigned, assignedKeeper host c.reg jobId = some assigned ∧ assigned ≠ keeper ∧
      c.now < satAdd64 state.nextRun c.reg.config.gracePeriod := by
  obtain ⟨⟨info, hinfo, hcheck⟩, hlisted⟩ := hcan
  cases h with
  | notFound hnone =>
      rw [hinfo] at hnone
      cases hnone
  | ineligible hother hfailed =>
      cases hinfo.symm.trans hother
      rw [hcheck] at hfailed
      cases hfailed
  | notAllowed hfound hallowed hother =>
      cases hparts.symm.trans hfound
      exact absurd (hlisted _ hallowed) hother
  | notAssigned hfound hassigned hother hwindow =>
      cases hparts.symm.trans hfound
      exact ⟨_, hassigned, hother, hwindow⟩

theorem execute_notAssigned {assigned : Address}
    (hparts : c.reg.jobs.getJobParts jobId = some (spec, state))
    (hassigned : assignedKeeper host c.reg jobId = some assigned) (hother : assigned ≠ keeper)
    (hready : AtWindow host ctx c keeper spec state)
    (hwindow : c.now < satAdd64 state.nextRun c.reg.config.gracePeriod) :
    execute host ctx c keeper jobId = .error (.rejected .notAssignedKeeper) := by
  rw [assignedKeeper, hparts] at hassigned
  change assignedKeeperFor host c.reg.config c.reg.keepers jobId spec state =
    some assigned at hassigned
  obtain ⟨⟨executor, info, hauth⟩, hdue, hpermitted, hrunning, hlisted⟩ := hready
  have hnobody : ¬ ∃ allowed ∈ spec.keepers, keeper ∉ allowed := by
    rintro ⟨allowed, hallowed, hmissing⟩
    exact hmissing (hlisted allowed hallowed)
  have hreserved : ((some assigned).filter (· ≠ keeper)).isSome = true ∧
      c.now < satAdd64 state.nextRun c.reg.config.gracePeriod := by
    refine ⟨?_, hwindow⟩
    rw [Option.isSome_iff_exists]
    exact ⟨assigned, Option.filter_eq_some_iff.mpr ⟨rfl, decide_eq_true hother⟩⟩
  have hgates : runGates host c.reg c.now keeper jobId = .error .notAssignedKeeper := by
    simp only [runGates, hparts, okOr, hdue, hpermitted, hrunning, hassigned, bind, Except.bind,
      rejectIf, if_neg hnobody, if_pos hreserved, Bool.false_eq_true, if_false]
  have hrun : runJob host executor keeper jobId (startBatch c keeper info) =
      .ok (.error .notAssignedKeeper, startBatch c keeper info) := by
    simp only [runJob, startBatch, hgates]
  simp only [execute, hauth, hrun, bind, Except.bind, raise]

/-- Whatever the grace period, the lists, the stakes and the hash: if the next run of a live job is
reserved for a keeper, that keeper can make it and no error about keepers turns it away, and any
other keeper that gets as far as the window is turned away exactly until the window is over. If it
is reserved for nobody, or once its window is over, no keeper is turned away by it. -/
theorem reserved_for_able (hparts : c.reg.jobs.getJobParts jobId = some (spec, state)) :
    (∀ assigned, assignedKeeper host c.reg jobId = some assigned →
      CanRun c assigned spec ∧
      (∀ ctx, ∀ reason ∈ keeperErrors, execute host ctx c assigned jobId ≠
        .error (.rejected reason)) ∧
      ∀ ctx other, other ≠ assigned → AtWindow host ctx c other spec state →
        (execute host ctx c other jobId = .error (.rejected .notAssignedKeeper) ↔
          c.now < satAdd64 state.nextRun c.reg.config.gracePeriod)) ∧
    (assignedKeeper host c.reg jobId = none ∨
      satAdd64 state.nextRun c.reg.config.gracePeriod ≤ c.now →
      ∀ ctx keeper, CanRun c keeper spec →
        ∀ reason ∈ keeperErrors, execute host ctx c keeper jobId ≠ .error (.rejected reason)) := by
  refine ⟨?_, ?_⟩
  · intro assigned hassigned
    have hcan := canRun_of_assigned hparts hassigned
    refine ⟨hcan, ?_, ?_⟩
    · intro ctx reason hkeeper hfailed
      obtain ⟨other, hsame, hother, -⟩ :=
        hcan.turnedAway hparts (execute_turnedAway hfailed hkeeper)
      exact hother (Option.some.inj (hsame.symm.trans hassigned))
    · intro ctx other hne hready
      constructor
      · intro hfailed
        cases execute_turnedAway hfailed (by decide) with
        | ineligible hinfo hcheck =>
            obtain ⟨executor, info, hauth⟩ := hready.authorized
            obtain ⟨-, -, -, hfound, hactive⟩ := authorizeKeeper_eq_ok.mp hauth
            cases hinfo.symm.trans hfound
            rw [hactive] at hcheck
            cases hcheck
        | notAssigned hfound _ _ hwindow =>
            cases hparts.symm.trans hfound
            exact hwindow
      · exact execute_notAssigned hparts hassigned (Ne.symm hne) hready
  · intro hopen ctx keeper hcan reason hkeeper hfailed
    obtain ⟨assigned, hassigned, -, hwindow⟩ :=
      hcan.turnedAway hparts (execute_turnedAway hfailed hkeeper)
    rcases hopen with hnone | hover
    · rw [hnone] at hassigned
      cases hassigned
    · exact absurd hwindow (Nat.not_lt.mpr hover)

/-- Windows of 100 seconds, two keepers, and a job whose first run is reserved for `⟨4⟩`. -/
def windowRun : List (Action Unit) :=
  [.call ⟨[⟨3⟩]⟩ (.admin (.setExecutor ⟨6⟩)),
    .call ⟨[⟨3⟩]⟩ (.admin (.setKeeperWindows 100)),
    .call ⟨[⟨4⟩]⟩ (.keeper (.stake ⟨4⟩ 100)),
    .call ⟨[⟨9⟩]⟩ (.keeper (.stake ⟨9⟩ 100)),
    .call ⟨[⟨5⟩]⟩ (.job (.createJob ⟨5⟩ minutely 50)),
    .advance 1060]

/-- The job before its first run. -/
def newState : JobState where
  nextRun := 1000
  balance := 50
  runs := 0
  failures := 0
  active := true
  leaderRuns := 0

/-- The first keeper can make the run, and the second one has to wait. -/
theorem reserved_for_able_window :
    let c := (machine plainHost).run (deployment ⟨3⟩ 1000 100 10 1000) windowRun
    CanRun c ⟨4⟩ (minutely.toSpec ⟨5⟩) ∧
      (∀ ctx, ∀ reason ∈ keeperErrors, execute plainHost ctx c ⟨4⟩ 0 ≠ .error (.rejected reason)) ∧
      execute plainHost ⟨[⟨9⟩]⟩ c ⟨9⟩ 0 = .error (.rejected .notAssignedKeeper) := by
  intro c
  have hparts : c.reg.jobs.getJobParts 0 = some (minutely.toSpec ⟨5⟩, newState) := rfl
  have hassigned : assignedKeeper plainHost c.reg 0 = some ⟨4⟩ := by decide
  have hready : AtWindow plainHost ⟨[⟨9⟩]⟩ c ⟨9⟩ (minutely.toSpec ⟨5⟩) newState :=
    ⟨⟨_, _, rfl⟩, rfl, by decide, by decide, nofun⟩
  obtain ⟨hcan, hnever, hothers⟩ := (reserved_for_able hparts).1 ⟨4⟩ hassigned
  exact ⟨hcan, hnever, (hothers ⟨[⟨9⟩]⟩ ⟨9⟩ (by decide) hready).mpr (by decide)⟩

end SoroCron
