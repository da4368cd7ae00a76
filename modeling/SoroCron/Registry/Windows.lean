import SoroCron.Registry.Soundness

/-! # Assigned windows

Why a job's window is open since when it is. Seen from any earlier moment of the run, the
window was restarted since then, or nothing happened in between that could have stopped or
reassigned the job's next run.
-/

namespace SoroCron

open Outcome Bounded

variable {World : Type} {host : Host World} {ctx : Ctx} {c c' : Chain World} {jobId : JobId}

/-! ## What can stop or reassign a run -/

/-- A keeper whose stake lets it execute jobs. -/
def Eligible (reg : Registry) (who : Address) : Prop :=
  ∃ stake, reg.keepers.bondOf who = some (stake, none) ∧ reg.config.minStake ≤ stake

/-- A keeper is eligible when its record passes the check of every execution. -/
theorem eligible_iff {reg : Registry} {who : Address} :
    Eligible reg who ↔ ∃ info, reg.keepers.infos.get who = some info ∧
      ensureActiveKeeper reg.config info = .ok () := by
  simp only [Eligible, KeeperTable.bondOf, Option.map_eq_some_iff, Prod.mk.injEq,
    ensureActiveKeeper_eq_ok]
  constructor
  · rintro ⟨stake, ⟨info, hinfo, rfl, hbonded⟩, hstake⟩
    exact ⟨info, hinfo, hbonded, hstake⟩
  · rintro ⟨info, hinfo, hbonded, hstake⟩
    exact ⟨info.stake, ⟨info, hinfo, rfl, hbonded⟩, hstake⟩

/-- Whatever lets a keeper run a job and assigns the run in `later` did so in `earlier`. -/
structure OpenBefore (earlier later : Registry) (spec spec' : JobSpec) : Prop where
  settings : spec' = { spec with owner := spec'.owner }
  gracePeriod : later.config.gracePeriod = earlier.config.gracePeriod
  executor : later.config.executor = earlier.config.executor
  feeToken : later.config.feeToken = earlier.config.feeToken
  stakeToken : later.config.stakeToken = earlier.config.stakeToken
  paused : earlier.config.paused = true → later.config.paused = true
  halted : earlier.isTargetHalted spec.target = true → later.isTargetHalted spec.target = true
  active : later.keepers.active = earlier.keepers.active
  eligible : ∀ who, Eligible later who → Eligible earlier who

section OpenBefore

variable {reg reg' reg'' : Registry} {spec spec' spec'' : JobSpec}

/-- Assignment and permission read settings, halted targets, the rotation and bonds. -/
theorem OpenBefore.congr (spec : JobSpec) (hconfig : reg'.config = reg.config)
    (hhalted : reg'.haltedTargets = reg.haltedTargets)
    (hactive : reg'.keepers.active = reg.keepers.active)
    (hbonds : ∀ who, reg'.keepers.bondOf who = reg.keepers.bondOf who) :
    OpenBefore reg reg' spec spec := by
  refine ⟨rfl, ?_, ?_, ?_, ?_, ?_, ?_, hactive, ?_⟩
  · rw [hconfig]
  · rw [hconfig]
  · rw [hconfig]
  · rw [hconfig]
  · rw [hconfig]
    exact id
  · rw [Registry.isTargetHalted, Registry.isTargetHalted, hhalted]
    exact id
  · rintro who ⟨stake, hbond, hstake⟩
    rw [hbonds] at hbond
    rw [hconfig] at hstake
    exact ⟨stake, hbond, hstake⟩

theorem OpenBefore.trans (h : OpenBefore reg reg' spec spec')
    (h' : OpenBefore reg' reg'' spec' spec'') : OpenBefore reg reg'' spec spec'' := by
  have htarget : spec'.target = spec.target := by rw [h.settings]
  refine ⟨?_, h'.gracePeriod.trans h.gracePeriod, h'.executor.trans h.executor,
    h'.feeToken.trans h.feeToken, h'.stakeToken.trans h.stakeToken, fun hp =>
      h'.paused (h.paused hp),
    ?_, h'.active.trans h.active, fun who hwho => h.eligible who (h'.eligible who hwho)⟩
  · rw [h'.settings, h.settings]
  · intro hhalted
    have hmiddle := h.halted hhalted
    rw [← htarget] at hmiddle ⊢
    exact h'.halted hmiddle

theorem OpenBefore.candidates_eq (h : OpenBefore reg reg' spec spec') :
    candidates reg.keepers spec = candidates reg'.keepers spec' := by
  rw [candidates, candidates, h.active, h.settings]

theorem OpenBefore.due {state : JobState} {now later : Timestamp}
    (h : OpenBefore reg reg' spec spec')
    (hdue : ensureDue spec' state later = .ok ()) (hle : now ≤ later)
    (hnext : state.nextRun ≤ now) : ensureDue spec state now = .ok () := by
  rw [h.settings] at hdue
  obtain ⟨hactive, hruns, hend, hfunded, -⟩ := ensureDue_eq_ok.mp hdue
  exact ensureDue_eq_ok.mpr ⟨hactive, hruns, hend.imp id hle.trans_lt, hfunded, hnext⟩

theorem OpenBefore.assigned {state : JobState} {who : Address} (h : OpenBefore reg reg' spec spec')
    (hassigned : assignedKeeperFor host reg'.config reg'.keepers jobId spec' state = some who) :
    assignedKeeperFor host reg.config reg.keepers jobId spec state = some who := by
  obtain ⟨hgrace, hchosen, heligible⟩ := assignedKeeperFor_eq_some.mp hassigned
  rw [h.gracePeriod] at hgrace
  rw [← h.candidates_eq] at hchosen
  exact assignedKeeperFor_eq_some.mpr ⟨hgrace, hchosen, h.eligible who heligible⟩

/-- The gates of a run by its assigned keeper were open as well. -/
theorem OpenBefore.admitted {keeper who : Address} {now later : Timestamp} {admission : Admission}
    (h : OpenBefore reg reg' spec admission.spec)
    (hadmitted : Admitted host reg' later keeper jobId admission)
    (hassigned : assignedKeeperFor host reg'.config reg'.keepers jobId admission.spec
      admission.state =
      some who)
    (hafter : admission.spec.after = none) (hle : now ≤ later)
    (hnext : admission.state.nextRun ≤ now)
    (hparts : reg.jobs.getJobParts jobId = some (spec, admission.state)) :
    Admitted host reg now who jobId
      { spec, state := admission.state, assigned := none,
        leaderRuns := admission.state.leaderRuns } := by
  refine ⟨hparts, h.due hadmitted.due hle hnext, ?_, ?_, ?_, ?_, ?_, ?_⟩
  · have hpermitted := hadmitted.permitted
    rw [h.settings] at hpermitted
    simpa only [isForbiddenTarget, h.executor, h.feeToken, h.stakeToken] using hpermitted
  · refine Bool.eq_false_iff.mpr fun hhalted => ?_
    have hlater := h.halted hhalted
    have hrunning := hadmitted.running
    rw [h.settings] at hrunning
    rw [hrunning] at hlater
    cases hlater
  · intro allowed hallowed
    obtain ⟨-, hchosen, -⟩ := assignedKeeperFor_eq_some.mp hassigned
    rw [← h.candidates_eq, candidates, hallowed, Option.getD_some] at hchosen
    exact List.mem_of_getElem? hchosen
  · dsimp only
    rw [h.assigned hassigned]
    simp [Option.filter]
  · intro hother
    cases hother
  · rw [h.settings] at hafter
    simp only at hafter
    simp [dependencyMet, hafter]

end OpenBefore

/-! ## Tracing a window -/

/-- Why a job's window is as it is at `now`, seen from the moment `since` at which the
registry was `base`. -/
inductive Traced (jobId : JobId) (base : Registry) (since now : Timestamp) (reg : Registry)
    (spec : JobSpec) (state : JobState) : Prop where
  | restarted (hopened : since ≤ windowOpened reg jobId spec state.nextRun)
  | off (hoff : reg.config.gracePeriod = 0)
  | past (hpast : since + reg.config.gracePeriod ≤ now)
  | standing {before : JobSpec} (hparts : base.jobs.getJobParts jobId = some (before, state))
      (hopen : OpenBefore base reg before spec)

/-- The same of the job as it is stored, if it exists. -/
def WindowTraced (jobId : JobId) (base : Registry) (since now : Timestamp)
    (reg : Registry) : Prop :=
  ∀ spec state, reg.jobs.getJobParts jobId = some (spec, state) →
    Traced jobId base since now reg spec state

section Traced

variable {base reg reg' : Registry} {since now : Timestamp} {spec spec' : JobSpec}
  {state : JobState}

theorem WindowTraced.start (jobId : JobId) (reg : Registry) (now : Timestamp) :
    WindowTraced jobId reg now now reg :=
  fun spec _ hparts => .standing hparts (.congr spec rfl rfl rfl fun _ => rfl)

theorem WindowTraced.later {later : Timestamp} (h : WindowTraced jobId base since now reg)
    (hle : now ≤ later) : WindowTraced jobId base since later reg := by
  intro spec state hparts
  cases h spec state hparts with
  | restarted hopened => exact .restarted hopened
  | off hoff => exact .off hoff
  | past hpast => exact .past (hpast.trans hle)
  | standing hbase hopen => exact .standing hbase hopen

/-- A change that neither stops nor reassigns the run, and moves the start of the window
back only when the window is over. -/
theorem Traced.kept (h : Traced jobId base since now reg spec state)
    (hopen : OpenBefore reg reg' spec spec')
    (hopened : since ≤ windowOpened reg jobId spec state.nextRun →
      since ≤ windowOpened reg' jobId spec' state.nextRun ∨ since + reg'.config.gracePeriod ≤ now) :
    Traced jobId base since now reg' spec' state := by
  cases h with
  | restarted hsince =>
      rcases hopened hsince with hsame | hover
      · exact .restarted hsame
      · exact .past hover
  | off hoff => exact .off (hopen.gracePeriod.trans hoff)
  | past hpast =>
      rw [← hopen.gracePeriod] at hpast
      exact .past hpast
  | standing hbase hbefore => exact .standing hbase (hbefore.trans hopen)

/-- A change that touches neither the job nor its window. -/
theorem WindowTraced.kept (h : WindowTraced jobId base since now reg)
    (hparts : reg'.jobs.getJobParts jobId = reg.jobs.getJobParts jobId)
    (hopen : ∀ spec state, reg.jobs.getJobParts jobId = some (spec, state) →
      OpenBefore reg reg' spec spec)
    (hopened : ∀ spec dueAt, windowOpened reg jobId spec dueAt ≤
      windowOpened reg' jobId spec dueAt) :
    WindowTraced jobId base since now reg' := by
  intro spec state hstored
  rw [hparts] at hstored
  exact (h spec state hstored).kept (hopen spec state hstored)
    fun hsince => .inl (hsince.trans (hopened spec _))

/-- A change that restarts all windows. -/
theorem WindowTraced.reset (hreset : reg.windowsReset = now) (hsince : since ≤ now) :
    WindowTraced jobId base since now reg := by
  intro spec state _
  refine .restarted ?_
  rw [windowOpened, hreset]
  exact hsince.trans ((le_max_right _ _).trans (le_max_left _ _))

/-- A change of one job that restarts its window. -/
theorem WindowTraced.touch {id : JobId} {jobs : JobTable}
    (h : WindowTraced jobId base since now reg) (hsince : since ≤ now)
    (hother : ∀ other, other ≠ id → jobs.getJobParts other = reg.jobs.getJobParts other) :
    WindowTraced jobId base since now ({ reg with jobs }.touch id now) := by
  by_cases heq : jobId = id
  · subst heq
    intro spec state _
    by_cases hgrace : reg.config.gracePeriod = 0
    · exact .off hgrace
    · refine .restarted ?_
      have htouched : ({ reg with jobs }.touch jobId now).touchedAt jobId = now := by
        simp [Registry.touchedAt, Registry.touch, Nat.pos_of_ne_zero hgrace]
      rw [windowOpened, htouched]
      exact hsince.trans
        ((le_max_right _ _).trans ((le_max_left _ _).trans (le_max_left _ _)))
  · refine h.kept (hother jobId heq) (fun spec _ _ => .congr spec rfl rfl rfl fun _ => rfl) ?_
    intro spec dueAt
    have htouched : ({ reg with jobs }.touch id now).touchedAt jobId = reg.touchedAt jobId := by
      unfold Registry.touchedAt Registry.touch
      dsimp only
      split
      · rw [Store.get_set_of_ne _ _ heq]
      · rfl
    rw [windowOpened, windowOpened, htouched]
    exact le_rfl

end Traced

/-! ## Job operations -/

theorem JobTable.getJobParts_congr {jobs jobs' : JobTable} {id : JobId}
    (hspec : jobs'.specs.get id = jobs.specs.get id)
    (hstate : jobs'.states.get id = jobs.states.get id) :
    jobs'.getJobParts id = jobs.getJobParts id := by
  rw [getJobParts, getJobParts, hspec, hstate]

theorem JobTable.getJobParts_setState_of_ne (jobs : JobTable) {id other : JobId} (state : JobState)
    (hne : other ≠ id) : (jobs.setState id state).getJobParts other = jobs.getJobParts other :=
  getJobParts_congr rfl (Store.get_set_of_ne _ _ hne)

section Calls

variable {base : Registry} {since : Timestamp}

theorem insertJobs_traced {owner : Address} {jobs : List (JobParams × ℤ)} {ids : List JobId}
    (h : insertJobs owner jobs c = .ok (ids, c')) (hsince : since ≤ c.now) (hnow : c.now ≤ u64Max)
    (htyped : ∀ pair ∈ jobs, pair.1.WellTyped)
    (htraced : WindowTraced jobId base since c.now c.reg) :
    WindowTraced jobId base since c.now c'.reg := by
  let I : List (JobParams × ℤ) → Chain World → Prop := fun rest middle =>
    (∀ pair ∈ rest, pair.1.WellTyped) ∧ middle.now = c.now ∧
      WindowTraced jobId base since c.now middle.reg
  have hlast : I [] c' := by
    refine insertJobs_invariant ?_ ⟨htyped, rfl, htraced⟩ h
    rintro params deposit rest middle - ⟨hrest, hclock, hmiddle⟩
    refine ⟨fun pair hpair => hrest pair (List.mem_cons_of_mem _ hpair), hclock, ?_⟩
    by_cases hnew : jobId = middle.reg.jobs.nextJobId
    · intro spec state hparts
      have hstate := JobTable.states_get_of_parts hparts
      rw [Chain.withJob_states, hnew, Store.get_set_self, Option.some.injEq] at hstate
      refine .restarted ?_
      have hstart : max params.startAt middle.now ≤ u64Max :=
        max_le (hrest _ List.mem_cons_self).1 (hclock ▸ hnow)
      have hfirst : middle.now ≤ state.nextRun := by
        rw [← hstate]
        exact (le_max_right _ _).trans (le_firstCalendarRun hstart)
      rw [hclock] at hfirst
      exact hsince.trans (hfirst.trans
        ((le_max_left _ _).trans ((le_max_left _ _).trans (le_max_left _ _))))
    · refine hmiddle.kept (JobTable.getJobParts_congr ?_ ?_)
        (fun spec _ _ => .congr spec rfl rfl rfl fun _ => rfl) fun _ _ => le_rfl
      · exact Store.get_set_of_ne _ _ hnew
      · exact Store.get_set_of_ne _ _ hnew
  exact hlast.2.2

theorem jobCall_traced {call : JobCall} (h : jobCall host ctx c call = .ok c')
    (htyped : Call.WellTyped (.job call)) (hsince : since ≤ c.now) (hnow : c.now ≤ u64Max)
    (htraced : WindowTraced jobId base since c.now c.reg) :
    WindowTraced jobId base since c.now c'.reg := by
  cases call with
  | createJob owner params deposit =>
      obtain ⟨created, h⟩ := Result.chain_eq_ok.mp h
      obtain ⟨-, -, -, paid, hpaid, hinsert⟩ := createJob_eq_ok h
      obtain ⟨-, rfl⟩ := Chain.transfer_eq_ok.mp hpaid
      apply insertJobs_traced (insertJobs_one hinsert) hsince hnow ?_ htraced
      intro pair hpair
      cases List.mem_singleton.mp hpair
      exact htyped.1
  | createJobs owner jobs deposits =>
      obtain ⟨created, h⟩ := Result.chain_eq_ok.mp h
      obtain ⟨-, -, -, -, paid, hpaid, hinsert⟩ := createJobs_eq_ok h
      obtain ⟨-, rfl⟩ := Chain.transfer_eq_ok.mp hpaid
      apply insertJobs_traced hinsert hsince hnow ?_ htraced
      intro pair hpair
      exact htyped.1 _ (List.of_mem_zip hpair).1
  | updateJob id update =>
      obtain ⟨-, spec, state, interval, leaderRuns, -, -, -, -, rfl⟩ := updateJob_eq_ok h
      exact htraced.touch hsince fun other hne =>
        JobTable.getJobParts_congr (Store.get_set_of_ne _ _ hne) (Store.get_set_of_ne _ _ hne)
  | fundJob payer id amount =>
      obtain ⟨balance, h⟩ := Result.chain_eq_ok.mp h
      obtain ⟨-, -, state, -, -, -, rfl⟩ := fundJob_eq_ok h
      exact htraced.touch hsince fun other hne => JobTable.getJobParts_setState_of_ne _ _ hne
  | cancelJob id =>
      obtain ⟨refund, h⟩ := Result.chain_eq_ok.mp h
      obtain ⟨spec, state, paid, -, -, hpaid, -, rfl⟩ := cancelJob_eq_ok.mp h
      rw [Chain.payOut_frame hpaid]
      by_cases heq : jobId = id
      -- A cancelled job has no window.
      · subst heq
        intro spec' state' hparts
        have hgone := JobTable.states_get_of_parts hparts
        simp at hgone
      · exact htraced.kept
          (JobTable.getJobParts_congr (Store.get_remove_of_ne _ heq) (Store.get_remove_of_ne _ heq))
          (fun spec _ _ => .congr spec rfl rfl rfl fun _ => rfl) fun _ _ => le_rfl
  | withdrawJobBalance id amount =>
      obtain ⟨balance, h⟩ := Result.chain_eq_ok.mp h
      obtain ⟨spec, state, -, -, -, -, -, -, -, paid, hpaid, rfl⟩ := withdrawJobBalance_eq_ok.mp h
      obtain ⟨-, rfl⟩ := Chain.transfer_eq_ok.mp hpaid
      exact htraced.touch hsince fun other hne => JobTable.getJobParts_setState_of_ne _ _ hne
  | setJobActive id active =>
      obtain ⟨spec, state, -, -, rfl⟩ := setJobActive_eq_ok h
      exact htraced.touch hsince fun other hne => JobTable.getJobParts_setState_of_ne _ _ hne
  | proposeJobOwner id newOwner =>
      obtain ⟨spec, -, -, rfl⟩ := proposeJobOwner_eq_ok h
      refine htraced.kept ?_ (fun spec _ _ => .congr spec rfl rfl rfl fun _ => rfl)
        fun _ _ => le_rfl
      dsimp only [Chain.publish_reg]
      split
      · rfl
      · rfl
  | acceptJobOwner id =>
      obtain ⟨spec, newOwner, hspec, -, -, rfl⟩ := acceptJobOwner_eq_ok h
      by_cases heq : jobId = id
      · subst heq
        intro spec' state hparts
        obtain ⟨hspec', hstate⟩ := JobTable.getJobParts_eq_some.mp hparts
        have hnew : { spec with owner := newOwner } = spec' :=
          Option.some.inj ((Store.get_set_self _ _ _).symm.trans hspec')
        subst hnew
        have hopen : OpenBefore c.reg c.reg spec spec := .congr spec rfl rfl rfl fun _ => rfl
        exact (htraced spec state (JobTable.getJobParts_eq_some.mpr ⟨hspec, hstate⟩)).kept
          ⟨rfl, hopen.gracePeriod, hopen.executor, hopen.feeToken, hopen.stakeToken, hopen.paused,
            hopen.halted, hopen.active, hopen.eligible⟩ .inl
      · exact htraced.kept (JobTable.getJobParts_congr (Store.get_set_of_ne _ _ heq) rfl)
          (fun spec _ _ => .congr spec rfl rfl rfl fun _ => rfl) fun _ _ => le_rfl

/-! ## Runs -/

section Runs

variable {executor keeper : Address} {info : Keeper} {b b' : Batch World} {r : Receipt World}

theorem Ran.traced {ran : JobId} (hran : Ran host executor keeper ran b b' r)
    (hjobs : b.chain.reg.jobs.Sound) (hsince : since ≤ b.chain.now) (hnow : b.chain.now ≤ u64Max)
    (htraced : WindowTraced jobId base since b.chain.now b.chain.reg) :
    WindowTraced jobId base since b.chain.now b'.chain.reg := by
  rw [hran.reg]
  by_cases heq : jobId = ran
  · subst heq
    intro spec state hparts
    have hstate := JobTable.states_get_of_parts hparts
    rw [Receipt.regAfter, JobTable.setState_states, Store.get_set_self, Option.some.injEq] at hstate
    have hspec := hjobs.specs _ _ (JobTable.specs_get_of_parts hran.admitted.parts)
    have hnext := nextRunAfter_eq_some hspec.interval_pos hran.priced.nextRun
    refine .restarted ?_
    have hlater : since ≤ state.nextRun := by
      rw [← hstate, Receipt.state, hnext]
      exact le_min (hsince.trans (Grid.lt_next hspec.interval_pos).le) (hsince.trans hnow)
    exact hlater.trans ((le_max_left _ _).trans ((le_max_left _ _).trans (le_max_left _ _)))
  · refine htraced.kept (JobTable.getJobParts_setState_of_ne _ _ heq) ?_ fun _ _ => le_rfl
    intro spec state _
    refine .congr spec rfl rfl ?_ ?_
    · unfold Receipt.regAfter
      cases r.charged b.chain.reg ran b.chain.now with
      | none => rfl
      | some missed => exact noteMiss_active _ missed
    · intro who
      rw [← hran.reg]
      exact hran.bondOf who

/-- All runs of a call, each seen where it starts, and the call's end. -/
theorem runJobs_traced {jobIds : List JobId} {ran : List Bool} (hsound : c.Sound host)
    (hsince : since ≤ c.now) (htraced : WindowTraced jobId base since c.now c.reg)
    (h : runJobs host executor keeper jobIds (startBatch c keeper info) = .ok (ran, b)) :
    WindowTraced jobId base since c.now b.chain.reg ∧
      ∀ execution ∈ runsOf host executor keeper jobIds (startBatch c keeper info),
        UnderwaySound c info execution.before ∧
        WindowTraced jobId base since c.now execution.before.chain.reg ∧
        ∃ r, Ran host execution.executor execution.keeper execution.jobId execution.before
          execution.after r := by
  let I : List (Execution World) → Batch World → Prop := fun past b =>
    UnderwaySound c info b ∧ WindowTraced jobId base since c.now b.chain.reg ∧
      ∀ execution ∈ past, UnderwaySound c info execution.before ∧
        WindowTraced jobId base since c.now execution.before.chain.reg ∧
        ∃ r, Ran host execution.executor execution.keeper execution.jobId execution.before
          execution.after r
  have hlast : I ([] ++ runsOf host executor keeper jobIds (startBatch c keeper info)) b := by
    refine runJobs_history ?_ ?_ [] ?_ h
    · rintro past b jobId spec ⟨hunder, hmiddle, hpast⟩
      exact ⟨hunder.asked jobId spec, hmiddle, hpast⟩
    · rintro past b b' ran r ⟨hunder, hmiddle, hpast⟩ hran
      refine ⟨hunder.ran hsound.config hran, ?_, ?_⟩
      · rw [← hunder.now] at hmiddle hsince ⊢
        exact hran.traced hunder.jobs hsince (hunder.now ▸ hsound.clock) hmiddle
      · intro execution hexecution
        rcases List.mem_append.mp hexecution with hold | hnew
        · exact hpast execution hold
        · cases List.mem_singleton.mp hnew
          exact ⟨hunder, hmiddle, r, hran⟩
    · refine ⟨UnderwaySound.start hsound.jobs keeper info, htraced, ?_⟩
      intro execution hexecution
      cases hexecution
  exact ⟨hlast.2.1, hlast.2.2⟩

end Runs

/-! ## Keeper and admin operations -/

theorem releaseStake_traced {keeper : Address} {amount : ℤ} {now : Timestamp}
    (h : releaseStake host c keeper = .ok (amount, c'))
    (htraced : WindowTraced jobId base since now c.reg) :
    WindowTraced jobId base since now c'.reg := by
  obtain ⟨-, hbonds⟩ := releaseStake_bondOf h
  obtain ⟨info, release, paid, -, -, -, hpaid, -, rfl⟩ := releaseStake_eq_ok.mp h
  rw [Chain.payOut_frame hpaid] at hbonds ⊢
  refine htraced.kept rfl ?_ fun _ _ => le_rfl
  intro spec _ _
  refine ⟨rfl, rfl, rfl, rfl, rfl, id, id, rfl, ?_⟩
  rintro who ⟨stake, hbond, hstake⟩
  rw [hbonds] at hbond
  split at hbond
  · cases hbond
  · exact ⟨stake, hbond, hstake⟩

/-- The steps that restart the windows they should. A stake misses one when it registers a
keeper that needs no stake outside the rotation, and connecting the executor misses all. -/
def WindowKept (c : Chain World) : Action World → Prop
  | .call _ (.admin (.setExecutor _)) =>
      c.reg.config.gracePeriod = 0 ∨ c.reg.config.executor.isSome = true
  | .call _ (.keeper (.stake keeper _)) =>
      c.reg.keepers.infos.get keeper = none → c.reg.config.minStake ≤ 0 →
        c.reg.keepers.joins keeper maxActiveKeepers = true ∨ c.reg.config.gracePeriod = 0
  | _ => True

theorem stake_traced {keeper : Address} {amount total : ℤ}
    (h : stake host ctx c keeper amount = .ok (total, c'))
    (hkept : WindowKept c (.call ctx (.keeper (.stake keeper amount)))) (hsince : since ≤ c.now)
    (htraced : WindowTraced jobId base since c.now c.reg) :
    WindowTraced jobId base since c.now c'.reg := by
  obtain ⟨-, hbonds⟩ := stake_bondOf h
  obtain ⟨-, -, info, hinfo, hbonded, -, -, rfl⟩ := stake_eq_ok h
  by_cases hreset : (c.reg.keepers.joins keeper maxActiveKeepers ||
      !(ensureActiveKeeper c.reg.config info).isOk) = true
  · exact .reset (if_pos hreset) hsince
  · simp only [Bool.or_eq_true, Bool.not_eq_true', not_or, Bool.not_eq_true,
      Bool.not_eq_false] at hreset
    obtain ⟨hstays, heligible⟩ := hreset
    by_cases hgrace : c.reg.config.gracePeriod = 0
    · exact fun _ _ _ => .off hgrace
    refine htraced.kept rfl ?_ ?_
    · intro spec _ _
      refine ⟨rfl, rfl, rfl, rfl, rfl, id, id, ?_, ?_⟩
      · exact if_neg (Bool.eq_false_iff.mp hstays)
      · rintro who ⟨stake, hbond, hstake⟩
        rw [hbonds] at hbond
        split at hbond
        next heq =>
          subst heq
          have hactive : ensureActiveKeeper c.reg.config info = .ok () := by
            cases hcheck : ensureActiveKeeper c.reg.config info with
            | ok u => rfl
            | error reason =>
                rw [hcheck] at heligible
                cases heligible
          cases hget : c.reg.keepers.infos.get who with
          | some stored =>
              rw [hget, Option.getD_some] at hinfo
              subst hinfo
              exact eligible_iff.mpr ⟨info, hget, hactive⟩
          | none =>
              rw [hget, Option.getD_none] at hinfo
              subst hinfo
              rcases hkept hget (ensureActiveKeeper_eq_ok.mp hactive).2 with hjoins | hoff
              · rw [hstays] at hjoins
                cases hjoins
              · exact absurd hoff hgrace
        next => exact ⟨stake, hbond, hstake⟩
    · intro spec dueAt
      simp [windowOpened, hstays, heligible, Registry.touchedAt, Registry.resumedAt]

theorem keeperCall_traced {call : KeeperCall} (h : keeperCall host ctx c call = .ok c')
    (hkept : WindowKept c (.call ctx (.keeper call))) (hsince : since ≤ c.now)
    (htraced : WindowTraced jobId base since c.now c.reg) :
    WindowTraced jobId base since c.now c'.reg := by
  cases call with
  | stake keeper amount =>
      obtain ⟨total, h⟩ := Result.chain_eq_ok.mp h
      exact stake_traced h hkept hsince htraced
  | beginUnbonding keeper =>
      obtain ⟨release, h⟩ := Result.chain_eq_ok.mp h
      obtain ⟨-, info, -, -, -, rfl⟩ := beginUnbonding_eq_ok.mp h
      exact .reset rfl hsince
  | withdrawStake keeper =>
      obtain ⟨amount, h⟩ := Result.chain_eq_ok.mp h
      exact releaseStake_traced (withdrawStake_eq_ok.mp h).2 htraced
  | withdrawStakes keepers =>
      obtain ⟨amounts, h⟩ := Result.chain_eq_ok.mp h
      refine releaseStakes_history
        (I := fun _ middle => WindowTraced jobId base since c.now middle.reg) ?_ [] htraced
        (withdrawStakes_eq_ok.mp h).2
      rintro - middle after keeper amount hmiddle hrelease
      exact releaseStake_traced hrelease hmiddle

theorem adminCall_traced {call : AdminCall} (haccepted : call.Accepted c.reg c.now)
    (hkept : WindowKept c (.call ctx (.admin call))) (hsince : since ≤ c.now)
    (htraced : WindowTraced jobId base since c.now c.reg) :
    WindowTraced jobId base since c.now (call.regAfter c.reg c.now) := by
  cases call with
  | setExecutor executor =>
      -- Connecting the executor leaves no trace, so it is excluded while windows are on.
      rcases hkept with hoff | hconnected
      · exact fun _ _ _ => .off hoff
      · have hnone : c.reg.config.executor = none := haccepted
        rw [hnone] at hconnected
        cases hconnected
  | setPaused paused =>
      cases paused with
      | true =>
          exact htraced.kept rfl (fun _ _ _ =>
            ⟨rfl, rfl, rfl, rfl, rfl, fun _ => rfl, id, rfl, fun _ => id⟩)
            fun _ _ => le_rfl
      | false => exact .reset rfl hsince
  | setTargetHalted target halted =>
      cases halted with
      | true =>
          refine htraced.kept rfl ?_ fun _ _ => le_rfl
          intro spec _ _
          refine ⟨rfl, rfl, rfl, rfl, rfl, id, ?_, rfl, fun _ => id⟩
          intro hhalted
          simp only [AdminCall.regAfter, Registry.isTargetHalted,
            Registry.setTargetHalted_haltedTargets, if_true, Store.has, Store.get_set] at hhalted ⊢
          split
          · rfl
          · exact hhalted
      | false =>
          intro spec state hparts
          -- Resuming a target restarts the windows of its own jobs only.
          by_cases htarget : spec.target = target
          · refine .restarted ?_
            have hresumed :
                ((AdminCall.setTargetHalted target false).regAfter c.reg c.now).resumedAt
                spec.target = c.now := by
              simp [AdminCall.regAfter, Registry.resumedAt, htarget]
            rw [windowOpened, hresumed]
            exact hsince.trans (le_max_right _ _)
          · refine (htraced spec state hparts).kept
              ⟨rfl, rfl, rfl, rfl, rfl, id, ?_, rfl, fun _ => id⟩ ?_
            · intro hhalted
              simpa [AdminCall.regAfter, Registry.isTargetHalted, Store.has,
                Store.get_remove_of_ne _ htarget] using hhalted
            · intro hopened
              refine .inl ?_
              have hresumed : ((AdminCall.setTargetHalted target false).regAfter c.reg
                  c.now).resumedAt spec.target = c.reg.resumedAt spec.target := by
                simp [AdminCall.regAfter, Registry.resumedAt, Store.get_set_of_ne _ _ htarget]
              rw [windowOpened, hresumed]
              exact hopened
  | setMinStake minStake => exact .reset rfl hsince
  | setKeeperWindows gracePeriod => exact .reset rfl hsince
  | setUnbondingEpoch unbondingEpoch =>
      rw [AdminCall.regAfter, pushBack_eq]
      exact htraced.kept rfl (fun _ _ _ => ⟨rfl, rfl, rfl, rfl, rfl, id, id, rfl, fun _ => id⟩)
        fun _ _ => le_rfl
  | setUpgradeDelay upgradeDelay =>
      rw [AdminCall.regAfter, pushBack_eq]
      exact htraced.kept rfl (fun _ _ _ => ⟨rfl, rfl, rfl, rfl, rfl, id, id, rfl, fun _ => id⟩)
        fun _ _ => le_rfl
  | _ =>
      exact htraced.kept rfl (fun _ _ _ => ⟨rfl, rfl, rfl, rfl, rfl, id, id, rfl, fun _ => id⟩)
        fun _ _ => le_rfl

/-! ## Steps -/

/-- An entry that expires moves the start of a window back only when the window is over. -/
theorem expireTouched_traced {id : JobId}
    (hexpired : c.reg.touchedAt id + c.reg.config.gracePeriod ≤ c.now)
    (htraced : WindowTraced jobId base since c.now c.reg) :
    WindowTraced jobId base since c.now { c.reg with
      jobTouched := c.reg.jobTouched.remove id } := by
  intro spec state hparts
  refine (htraced spec state hparts).kept (.congr spec rfl rfl rfl fun _ => rfl) ?_
  intro hopened
  by_cases htouched : jobId = id ∧ since ≤ c.reg.touchedAt id
  · exact .inr ((Nat.add_le_add_right htouched.2 _).trans hexpired)
  · refine .inl ?_
    by_cases heq : jobId = id
    · subst heq
      have hlast : ¬ since ≤ c.reg.touchedAt jobId := fun hle => htouched ⟨rfl, hle⟩
      simp only [windowOpened, le_max_iff, hlast, or_false] at hopened ⊢
      rcases hopened with (hdue | hreset) | hresumed
      · exact .inl (.inl (.inl hdue))
      · exact .inl (.inr hreset)
      · exact .inr hresumed
    · have hsame :
          ({ c.reg with jobTouched := c.reg.jobTouched.remove id } : Registry).touchedAt jobId =
          c.reg.touchedAt jobId := by
        rw [Registry.touchedAt, Registry.touchedAt, Store.get_remove_of_ne _ heq]
      rw [windowOpened, hsame]
      exact hopened

theorem expireResumed_traced {target : Address}
    (hexpired : c.reg.resumedAt target + c.reg.config.gracePeriod ≤ c.now)
    (htraced : WindowTraced jobId base since c.now c.reg) :
    WindowTraced jobId base since c.now
      { c.reg with targetResumed := c.reg.targetResumed.remove target } := by
  intro spec state hparts
  refine (htraced spec state hparts).kept (.congr spec rfl rfl rfl fun _ => rfl) ?_
  intro hopened
  by_cases hresumed : spec.target = target ∧ since ≤ c.reg.resumedAt target
  · exact .inr ((Nat.add_le_add_right hresumed.2 _).trans hexpired)
  · refine .inl ?_
    by_cases heq : spec.target = target
    · have hlast : ¬ since ≤ c.reg.resumedAt spec.target := by
        rw [heq]
        exact fun hle => hresumed ⟨heq, hle⟩
      rw [windowOpened, le_max_iff] at hopened
      exact (hopened.resolve_right hlast).trans (le_max_left _ _)
    · have hsame : ({ c.reg with targetResumed := c.reg.targetResumed.remove target } :
          Registry).resumedAt spec.target = c.reg.resumedAt spec.target := by
        rw [Registry.resumedAt, Registry.resumedAt, Store.get_remove_of_ne _ heq]
      rw [windowOpened, hsame]
      exact hopened

/-- Every step that restarts the windows it should keeps windows traced. -/
theorem step_traced {action : Action World} (hsound : c.Sound host)
    (hadm : Admissible host c action) (hkept : WindowKept c action) (hsince : since ≤ c.now)
    (htraced : WindowTraced jobId base since c.now c.reg) :
    WindowTraced jobId base since (step host c action).now (step host c action).reg := by
  cases action with
  | call ctx call =>
      rcases step_call_cases host c ctx call with ⟨hcall, -⟩ | ⟨hsame, -⟩
      · rw [call_now hsound hcall]
        cases call with
        | job call => exact jobCall_traced hcall hadm hsince hsound.clock htraced
        | keeper call => exact keeperCall_traced hcall hkept hsince htraced
        | admin call =>
            obtain ⟨-, haccepted, hc⟩ := adminCall_eq_ok hcall
            rw [hc]
            exact adminCall_traced haccepted hkept hsince htraced
        | run call =>
            obtain ⟨executor, info, ran, b, hauth, hruns, hfinish, -⟩ := runCall_eq_ok hcall
            obtain ⟨-, -, -, hinfo, -⟩ := authorizeKeeper_eq_ok.mp hauth
            have hunder := runJobs_underway hsound.config hsound.jobs hruns
            have hlast := (runJobs_traced hsound hsince htraced hruns).1
            rw [finish_eq_ok hunder.keeperFees hunder.protocolFees hfinish]
            refine hlast.kept rfl ?_ fun _ _ => le_rfl
            intro spec state _
            refine .congr spec rfl rfl rfl fun who => ?_
            exact (hunder.bonds_saved hinfo who).trans (hunder.bonds who).symm
      · rw [hsame]
        exact htraced
  | advance now => exact htraced.later (le_max_left _ _)
  | outside world moved => exact htraced
  | expireTouched id => exact expireTouched_traced hadm htraced
  | expireResumed target => exact expireResumed_traced hadm htraced

/-- Seen from any chain of a run whose steps all restart the windows they should, windows
stay traced. -/
theorem run_traced {actions : List (Action World)} (hsound : c.Sound host) (jobId : JobId)
    (halong : (machine host).Along
      (fun c action => Admissible host c action ∧ WindowKept c action) c actions) :
    let last := (machine host).run c actions
    last.Sound host ∧ c.now ≤ last.now ∧ WindowTraced jobId c.reg c.now last.now last.reg := by
  refine Machine.invariant_run
    (I := fun last => last.Sound host ∧ c.now ≤ last.now ∧
      WindowTraced jobId c.reg c.now last.now last.reg)
    ?_ ⟨hsound, le_rfl, .start jobId c.reg c.now⟩ halong
  rintro last action ⟨hlast, hle, htraced⟩ ⟨hadm, hkept⟩
  exact ⟨step_sound hlast hadm, hle.trans (step_now hlast action),
    step_traced hlast hadm hkept hle htraced⟩

end Calls

end SoroCron
