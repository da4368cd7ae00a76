import SoroCron.Guarantees.Pause

/-! # While a target is halted

No job of a halted target runs. For everybody else the halt is not there: every other call,
and every run of another job, succeeds or fails as it would without the halt and leaves the
same chain, and a batch reports of the other jobs what it would if only they were listed.
-/

namespace SoroCron

open Outcome

variable {World : Type} {host : Host World} {ctx : Ctx} {c c' : Chain World} {target : Address}

/-! ## Nothing of the target runs -/

/-- The contract that the job of a run called. -/
def Execution.called (e : Execution World) : Option Address :=
  e.found.map fun parts => parts.1.target

/-- The admin ends the halt of `target`. -/
def Unhalts (host : Host World) (target : Address) (c : Chain World)
    (action : Action World) : Prop :=
  ∃ ctx c', action = .call ctx (.admin (.setTargetHalted target false)) ∧
    adminCall host ctx c (.setTargetHalted target false) = .ok c'

/-- A step under the halt of `target`. -/
def UnderHalt (host : Host World) (target : Address) (c : Chain World)
    (action : Action World) : Prop :=
  Admissible host c action ∧ ¬ Unhalts host target c action

theorem adminCall_halted (call : AdminCall) (reg : Registry) (now : Timestamp)
    (hother : call ≠ .setTargetHalted target false) (hhalted : reg.isTargetHalted target = true) :
    (call.regAfter reg now).isTargetHalted target = true := by
  cases call with
  | setTargetHalted other halted =>
      change Store.has (if halted then reg.haltedTargets.set other true
        else reg.haltedTargets.remove other)
        target = true
      by_cases hsame : target = other
      · subst hsame
        cases halted with
        | true => simp [Store.has]
        | false => exact absurd rfl hother
      · have hkept : reg.haltedTargets.has target = true := hhalted
        cases halted with
        | true => simpa [Store.has, Store.get_set_of_ne _ _ hsame] using hkept
        | false => simpa [Store.has, Store.get_remove_of_ne _ hsame] using hkept
  | setUnbondingEpoch unbondingEpoch =>
      rw [AdminCall.regAfter, pushBack_eq]
      exact hhalted
  | setUpgradeDelay upgradeDelay =>
      rw [AdminCall.regAfter, pushBack_eq]
      exact hhalted
  | _ => exact hhalted

/-- Only the admin ends a halt. -/
theorem step_halted {action : Action World} (hsound : c.Sound host)
    (hhalted : c.reg.isTargetHalted target = true) (hunder : UnderHalt host target c action) :
    (step host c action).reg.isTargetHalted target = true := by
  cases action with
  | call ctx call =>
      rcases step_call_cases host c ctx call with ⟨hcall, -⟩ | ⟨hsame, -⟩
      · cases call with
        | job call =>
            rw [(jobCall_jobsOnly hcall).reg]
            exact hhalted
        | run call =>
            obtain ⟨executor, info, ran, b, -, hruns, hfinish, -⟩ := runCall_eq_ok hcall
            have hmiddle := runJobs_underway hsound.config hsound.jobs hruns
            rw [finish_eq_ok hmiddle.keeperFees hmiddle.protocolFees hfinish]
            change b.chain.reg.haltedTargets.has target = true
            rw [hmiddle.toUnderway.reg]
            exact hhalted
        | keeper call =>
            rw [(keeperCall_keepersOnly hcall).reg]
            exact hhalted
        | admin call =>
            obtain ⟨-, -, hc⟩ := adminCall_eq_ok hcall
            rw [hc, Chain.publish_reg]
            apply adminCall_halted call c.reg c.now _ hhalted
            rintro rfl
            exact hunder.2 ⟨ctx, _, rfl, hcall⟩
      · rw [hsame]
        exact hhalted
  | _ => exact hhalted

/-- One call, whether or not it is a batch. -/
theorem runsOf_running {executor keeper : Address} {info : Keeper} {jobIds : List JobId}
    {ran : List Bool} {b : Batch World} (hhalted : c.reg.isTargetHalted target = true)
    (h : runJobs host executor keeper jobIds (startBatch c keeper info) = .ok (ran, b)) :
    ∀ e ∈ runsOf host executor keeper jobIds (startBatch c keeper info),
      ∃ other, e.called = some other ∧ other ≠ target := by
  let I : List (Execution World) → Batch World → Prop := fun past b =>
    Underway c info b ∧ ∀ e ∈ past, ∃ other, e.called = some other ∧ other ≠ target
  have hlast : I ([] ++ runsOf host executor keeper jobIds (startBatch c keeper info)) b := by
    apply runJobs_history _ _ [] _ h
    · rintro past b jobId spec ⟨hunder, hpast⟩
      exact ⟨hunder.asked jobId spec, hpast⟩
    · rintro past b b' jobId r ⟨hunder, hpast⟩ hran
      refine ⟨hunder.ran hran, ?_⟩
      intro e hmem
      rcases List.mem_append.mp hmem with hold | hnew
      · exact hpast e hold
      · cases List.mem_singleton.mp hnew
        refine ⟨r.admission.spec.target, ?_, ?_⟩
        · exact congrArg (Option.map _) hran.admitted.parts
        · intro htarget
          have hrunning := hran.admitted.running
          rw [htarget, hunder.reg] at hrunning
          exact Bool.noConfusion (hhalted.symm.trans hrunning)
    · exact ⟨Underway.start c keeper info, fun e hmem => absurd hmem List.not_mem_nil⟩
  exact hlast.2

theorem none_called {actions : List (Action World)} (hsound : c.Sound host)
    (hhalted : c.reg.isTargetHalted target = true)
    (halong : (machine host).Along (UnderHalt host target) c actions) :
    ∀ id e, (.job id (.ran e) : Act World) ∈ (machine host).outputs c actions →
      ∃ other, e.called = some other ∧ other ≠ target := by
  intro id e hran
  have hall :=
    Machine.outputs_forall (I := fun c => c.Sound host ∧ c.reg.isTargetHalted target = true)
    (P := fun act => ∀ id e, act = Act.job id (.ran e) → ∃ other, e.called = some other ∧
      other ≠ target)
    ?_ ?_ ⟨hsound, hhalted⟩ halong
  · exact hall _ hran id e rfl
  · rintro c action ⟨hsound, hhalted⟩ hunder
    exact ⟨step_sound hsound hunder.1, step_halted hsound hhalted hunder⟩
  · rintro c action ⟨-, hhalted⟩ - act hact id e rfl
    obtain ⟨ctx, call, executor, info, ran, b, -, -, hruns, hmem, -⟩ := ran_mem_acts hact
    exact runsOf_running hhalted hruns e hmem

/-! ## Runs without the halt -/

/-- The chain without the halt of `target`. -/
def Chain.unhalted (target : Address) (c : Chain World) : Chain World :=
  { c with reg := c.reg.setTargetHalted target false }

def Batch.unhalted (target : Address) (b : Batch World) : Batch World :=
  { b with chain := b.chain.unhalted target }

/-- Whether a job calls `target`. -/
def callsTarget (specs : Store JobId JobSpec) (target : Address) (id : JobId) : Bool :=
  (specs.get id).any fun spec => spec.target == target

section Twin

variable {executor keeper : Address} {jobId : JobId} {b b' : Batch World} {jobIds : List JobId}

theorem isTargetHalted_unhalted (reg : Registry) {other : Address} (hne : other ≠ target) :
    (reg.setTargetHalted target false).isTargetHalted other = reg.isTargetHalted other := by
  simp [Registry.isTargetHalted, Registry.setTargetHalted, Store.has, Store.get_remove_of_ne _ hne]

/-- The gates of a job with another target do not see the halt. -/
theorem runGates_unhalted (reg : Registry) (now : Timestamp)
    (hother : callsTarget reg.jobs.specs target jobId = false) :
    runGates host (reg.setTargetHalted target false) now keeper jobId =
      runGates host reg now keeper jobId := by
  unfold runGates
  cases hparts : reg.jobs.getJobParts jobId with
  | none =>
      rw [Registry.setTargetHalted_jobs, hparts]
      rfl
  | some parts =>
      obtain ⟨spec, state⟩ := parts
      have hne : spec.target ≠ target := by
        simpa [callsTarget, JobTable.specs_get_of_parts hparts] using hother
      rw [Registry.setTargetHalted_jobs, hparts]
      simp only [okOr, bind, Except.bind, isTargetHalted_unhalted reg hne]
      rfl

/-- A job of the halted target stops at a gate. -/
theorem runGates_halted {reg : Registry} (now : Timestamp)
    (hhalted : reg.isTargetHalted target = true)
    (htarget : callsTarget reg.jobs.specs target jobId = true) :
    ∃ reason, runGates host reg now keeper jobId = .error reason := by
  cases hgates : runGates host reg now keeper jobId with
  | error reason => exact ⟨reason, rfl⟩
  | ok admission =>
      have hadmitted := runGates_eq_ok.mp hgates
      have hspec := JobTable.specs_get_of_parts hadmitted.parts
      have hcalls : admission.spec.target = target := by
        simpa [callsTarget, hspec] using htarget
      have hrunning := hadmitted.running
      rw [hcalls, hhalted] at hrunning
      cases hrunning

theorem write_unhalted (r : Receipt World) (c : Chain World) :
    r.write host keeper jobId (c.unhalted target) =
      (r.write host keeper jobId c).unhalted target := by
  rw [r.write_eq, r.write_eq]
  rfl

theorem performRun_unhalted (admission : Admission) (b : Batch World) :
    performRun host executor keeper jobId admission (b.unhalted target) =
      Batch.unhalted target <$> performRun host executor keeper jobId admission b := by
  simp only [performRun, map_bind, map_pure]
  refine bind_congr fun fee => bind_congr fun shares => bind_congr fun balance =>
      bind_congr fun nextRun =>
    bind_congr fun keeperFees => bind_congr fun protocolFees => ?_
  let call := host.tryExecute b.chain.toSurroundings executor admission.spec.target
    admission.spec.function
    admission.spec.args
  let receipt : Receipt World := ⟨admission, call, fee, shares.1, shares.2, balance, nextRun⟩
  exact congrArg (fun chain => pure (Batch.mk chain _ _))
    (write_unhalted receipt (b.chain.afterCall call))

theorem runJob_unhalted (b : Batch World)
    (hother : callsTarget b.chain.reg.jobs.specs target jobId = false) :
    runJob host executor keeper jobId (b.unhalted target) =
      Prod.map id (Batch.unhalted target) <$> runJob host executor keeper jobId b := by
  have hgates : runGates host (b.unhalted target).chain.reg
      (b.unhalted target).chain.now keeper jobId =
      runGates host b.chain.reg b.chain.now keeper jobId :=
        runGates_unhalted b.chain.reg b.chain.now hother
  unfold runJob
  rw [hgates]
  cases runGates host b.chain.reg b.chain.now keeper jobId with
  | error reason => rfl
  | ok admission =>
      change (if (resolverAllows host b.chain.toSurroundings jobId admission.spec).answer = true
        then _ else _) =
        _ <$> (if (resolverAllows host b.chain.toSurroundings jobId admission.spec).answer = true
          then _ else _)
      split
      next =>
        change performRun host executor keeper jobId admission
          ((b.asked host jobId admission.spec).unhalted target)
          >>= _ = _
        rw [performRun_unhalted, bind_map_left, map_bind]
        rfl
      next => rfl

/-- A run leaves specs and halts alone. -/
theorem runJob_kept {outcome : Except Error Unit}
    (h : runJob host executor keeper jobId b = .ok (outcome, b')) :
    b'.chain.reg.jobs.specs = b.chain.reg.jobs.specs ∧
      b'.chain.reg.haltedTargets = b.chain.reg.haltedTargets := by
  cases outcome with
  | ok u =>
      obtain ⟨r, hran⟩ := runJob_eq_ran.mp h
      rw [hran.reg]
      exact ⟨rfl, rfl⟩
  | error reason =>
      rcases runJob_rejected h with rfl | ⟨spec, rfl⟩
      · exact ⟨rfl, rfl⟩
      · exact ⟨rfl, rfl⟩

/-- The listed jobs with other targets. -/
def othersOf (specs : Store JobId JobSpec) (target : Address) (jobIds : List JobId) : List JobId :=
  jobIds.filter fun id => !callsTarget specs target id

/-- What a batch reports of the jobs with other targets. -/
def othersFlags (specs : Store JobId JobSpec) (target : Address) (jobIds : List JobId)
    (ran : List Bool) : List Bool :=
  ((jobIds.zip ran).filter fun reported => !callsTarget specs target reported.1).map Prod.snd

theorem runJobs_cons {outcome : Except Error Unit} {middle : Batch World}
    (hjob : runJob host executor keeper jobId b = .ok (outcome, middle)) (rest : List JobId) :
    runJobs host executor keeper (jobId :: rest) b =
      Prod.map (outcome.isOk :: ·) id <$> runJobs host executor keeper rest middle := by
  rw [runJobs, hjob]
  rfl

/-- With the jobs of a halted target left out, a batch needs no halt. -/
theorem runJobs_unhalted {specs : Store JobId JobSpec} (hspecs : b.chain.reg.jobs.specs = specs)
    (hhalted : b.chain.reg.isTargetHalted target = true) (jobIds : List JobId) :
    runJobs host executor keeper (othersOf specs target jobIds) (b.unhalted target) =
      Prod.map (othersFlags specs target jobIds) (Batch.unhalted target) <$>
        runJobs host executor keeper jobIds b := by
  induction jobIds generalizing b with
  | nil => rfl
  | cons jobId rest ih =>
      cases hcalls : callsTarget specs target jobId with
      | true =>
          -- The batch skips the job that the other one never lists.
          obtain ⟨reason, hskip⟩ : ∃ reason, runJob host executor keeper jobId b =
              .ok (.error reason, b) := by
            obtain ⟨reason, hgates⟩ : ∃ reason, runGates host b.chain.reg b.chain.now keeper jobId =
                .error reason :=
              runGates_halted b.chain.now hhalted (hspecs ▸ hcalls)
            exact ⟨reason, by rw [runJob, hgates]⟩
          have hothers : othersOf specs target (jobId :: rest) = othersOf specs target rest := by
            simp [othersOf, hcalls]
          have hflags : ∀ ran : List Bool, othersFlags specs target (jobId :: rest) (false :: ran) =
              othersFlags specs target rest ran := by
            simp [othersFlags, hcalls]
          rw [hothers, ih hspecs hhalted, runJobs_cons hskip, Functor.map_map]
          congr 1
          funext result
          exact Prod.ext (hflags _).symm rfl
      | false =>
          have hothers : othersOf specs target (jobId :: rest) =
              jobId :: othersOf specs target rest := by
            simp [othersOf, hcalls]
          have hflags : ∀ first (ran : List Bool),
              othersFlags specs target (jobId :: rest) (first :: ran) =
              first :: othersFlags specs target rest ran := by
            simp [othersFlags, hcalls]
          -- Both look at the same job, and the halt outlasts its run.
          have htwin : runJob host executor keeper jobId (b.unhalted target) = _ :=
            runJob_unhalted b (hspecs ▸ hcalls)
          rw [hothers]
          cases hjob : runJob host executor keeper jobId b with
          | error why =>
              rw [hjob] at htwin
              rw [runJobs, runJobs, hjob, htwin]
              rfl
          | ok result =>
              obtain ⟨outcome, middle⟩ := result
              rw [hjob] at htwin
              obtain ⟨hmiddle, hstill⟩ := runJob_kept hjob
              have hstays : middle.chain.reg.isTargetHalted target = true := by
                rw [Registry.isTargetHalted, hstill]
                exact hhalted
              rw [runJobs_cons hjob, runJobs_cons htwin, ih (hmiddle.trans hspecs) hstays,
                Functor.map_map, Functor.map_map]
              congr 1
              funext result
              exact Prod.ext (hflags _ _).symm rfl

theorem transfer_unhalted (c : Chain World) (token sender receiver : Address) (amount : ℤ) :
    (c.unhalted target).transfer host token sender receiver amount =
      Chain.unhalted target <$> c.transfer host token sender receiver amount := by
  unfold Chain.transfer
  rw [map_bind]
  rfl

theorem payOut_unhalted (c : Chain World) (token receiver : Address) (amount : ℤ) :
    (c.unhalted target).payOut host token receiver amount =
      Chain.unhalted target <$> c.payOut host token receiver amount := by
  unfold Chain.payOut
  split
  · exact transfer_unhalted c token host.registry receiver amount
  · rfl

theorem settle_unhalted (c : Chain World) (payout : Payout) :
    settle host (c.unhalted target) keeper payout =
      Chain.unhalted target <$> settle host c keeper payout := by
  unfold settle
  rw [payOut_unhalted, bind_map_left, map_bind]
  refine bind_congr fun paid => ?_
  have hconfig : (paid.unhalted target).reg.config = paid.reg.config := rfl
  rw [hconfig]
  cases htreasury : paid.reg.config.treasury with
  | none => rfl
  | some treasury => exact payOut_unhalted paid _ _ _

theorem finish_unhalted (b : Batch World) :
    finish host keeper (b.unhalted target) = Chain.unhalted target <$> finish host keeper b :=
  settle_unhalted { b.chain with reg := { b.chain.reg with
    keepers := b.record.save b.chain.reg.keepers keeper } } b.payout

theorem execute_unhalted (ctx : Ctx) (c : Chain World) (keeper : Address)
    (hother : callsTarget c.reg.jobs.specs target jobId = false) :
    execute host ctx (c.unhalted target) keeper jobId =
      Chain.unhalted target <$> execute host ctx c keeper jobId := by
  have hauth : authorizeKeeper host ctx (c.unhalted target).reg keeper =
      authorizeKeeper host ctx c.reg keeper := rfl
  unfold execute
  rw [hauth, map_bind]
  refine bind_congr fun ⟨executor, info⟩ => ?_
  change (runJob host executor keeper jobId ((startBatch c keeper info).unhalted target) >>= _) = _
  rw [runJob_unhalted _ hother, bind_map_left, map_bind]
  refine bind_congr fun ⟨outcome, b⟩ => ?_
  rw [map_bind]
  refine bind_congr fun _ => ?_
  exact finish_unhalted b

theorem executeBatch_unhalted (ctx : Ctx) (c : Chain World) (keeper : Address) (jobIds : List JobId)
    (hhalted : c.reg.isTargetHalted target = true) (hsize : jobIds.length ≤ maxBatch)
    (hothers : othersOf c.reg.jobs.specs target jobIds ≠ []) :
    executeBatch host ctx (c.unhalted target) keeper (othersOf c.reg.jobs.specs target jobIds) =
      Prod.map (othersFlags c.reg.jobs.specs target jobIds) (Chain.unhalted target) <$>
        executeBatch host ctx c keeper jobIds := by
  have hauth : authorizeKeeper host ctx (c.unhalted target).reg keeper =
      authorizeKeeper host ctx c.reg keeper := rfl
  have hsome : jobIds ≠ [] := by
    rintro rfl
    exact hothers rfl
  have hfewer : (othersOf c.reg.jobs.specs target jobIds).length ≤ maxBatch :=
    (List.length_filter_le _ _).trans hsize
  have hallowed : ∀ ids : List JobId, ids ≠ [] → ids.length ≤ maxBatch →
      rejectIf (ids = [] ∨ maxBatch < ids.length) Error.invalidBatchSize = .ok () := by
    intro ids hids hlength
    rw [rejectIf_eq_ok]
    rintro (hnil | hlong)
    · exact hids hnil
    · exact absurd hlength (Nat.not_le.mpr hlong)
  unfold executeBatch
  rw [hallowed _ hothers hfewer, hallowed _ hsome hsize, hauth, map_bind]
  refine bind_congr fun _ => ?_
  rw [map_bind]
  refine bind_congr fun ⟨executor, info⟩ => ?_
  have hruns : runJobs host executor keeper (othersOf c.reg.jobs.specs target jobIds)
      (startBatch (c.unhalted target) keeper info) =
        Prod.map (othersFlags c.reg.jobs.specs target jobIds) (Batch.unhalted target) <$>
          runJobs host executor keeper jobIds (startBatch c keeper info) :=
    runJobs_unhalted (b := startBatch c keeper info) rfl hhalted jobIds
  dsimp only
  rw [hruns, bind_map_left, map_bind]
  refine bind_congr fun ⟨ran, b⟩ => ?_
  dsimp only [Prod.map]
  rw [map_bind, finish_unhalted, bind_map_left]
  rfl

/-! ## Other calls without the halt -/

/-- Payments neither read nor write the registry's storage. -/
theorem transfer_reg (c : Chain World) (reg : Registry) (token sender receiver : Address)
    (amount : ℤ) : Chain.transfer host { c with reg } token sender receiver amount =
      (fun paid => { paid with reg }) <$> c.transfer host token sender receiver amount := by
  unfold Chain.transfer
  rw [map_bind]
  rfl

theorem payOut_reg (c : Chain World) (reg : Registry) (token receiver : Address) (amount : ℤ) :
    Chain.payOut host { c with reg } token receiver amount =
      (fun paid => { paid with reg }) <$> c.payOut host token receiver amount := by
  unfold Chain.payOut
  split
  · exact transfer_reg c reg token host.registry receiver amount
  · rfl

theorem insertJob_unhalted (c : Chain World) (owner : Address) (params : JobParams) (deposit : ℤ) :
    insertJob (c.unhalted target) owner params deposit =
      Prod.map id (Chain.unhalted target) <$> insertJob c owner params deposit := by
  unfold insertJob
  rw [map_bind]
  rfl

theorem insertJobs_unhalted (c : Chain World) (owner : Address) (jobs : List (JobParams × ℤ)) :
    insertJobs owner jobs (c.unhalted target) =
      Prod.map id (Chain.unhalted target) <$> insertJobs owner jobs c := by
  induction jobs generalizing c with
  | nil => rfl
  | cons pair rest ih =>
      obtain ⟨params, deposit⟩ := pair
      unfold insertJobs
      rw [insertJob_unhalted, bind_map_left, map_bind]
      refine bind_congr fun inserted => ?_
      obtain ⟨id, c⟩ := inserted
      dsimp only [Prod.map]
      rw [ih, bind_map_left, map_bind]
      rfl

theorem jobCall_unhalted (c : Chain World) (call : JobCall) :
    jobCall host ctx (c.unhalted target) call =
      Chain.unhalted target <$> jobCall host ctx c call := by
  cases call with
  | createJob owner params deposit =>
      simp only [jobCall, Result.chain, createJob, map_bind, transfer_unhalted, bind_map_left,
        insertJob_unhalted, Functor.map_map]
      rfl
  | createJobs owner jobs deposits =>
      have hvalid : ∀ pairs total, validateJobs host (c.unhalted target).reg pairs total =
          validateJobs host c.reg pairs total := by
        intro pairs total
        induction pairs generalizing total with
        | nil => rfl
        | cons pair rest ih =>
            obtain ⟨params, deposit⟩ := pair
            simp only [validateJobs, ih]
            rfl
      simp only [jobCall, Result.chain, createJobs, map_bind, transfer_unhalted, bind_map_left,
        insertJobs_unhalted, Functor.map_map, hvalid]
      rfl
  | updateJob jobId update =>
      simp only [jobCall, updateJob, map_bind, map_pure]
      rfl
  | fundJob payer jobId amount =>
      simp only [jobCall, Result.chain, fundJob, map_bind, map_pure, transfer_unhalted,
        bind_map_left]
      rfl
  | cancelJob jobId =>
      simp only [jobCall, Result.chain, cancelJob, map_bind, map_pure, payOut_reg, payOut_unhalted,
        bind_map_left]
      rfl
  | withdrawJobBalance jobId amount =>
      simp only [jobCall, Result.chain, withdrawJobBalance, map_bind, map_pure, transfer_reg,
        transfer_unhalted, bind_map_left]
      rfl
  | setJobActive jobId active =>
      simp only [jobCall, setJobActive, map_bind, map_pure]
      rfl
  | proposeJobOwner jobId newOwner =>
      simp only [jobCall, proposeJobOwner, map_bind, map_pure]
      rfl
  | acceptJobOwner jobId =>
      simp only [jobCall, acceptJobOwner, map_bind, map_pure]
      rfl

theorem releaseStake_unhalted (c : Chain World) (keeper : Address) :
    releaseStake host (c.unhalted target) keeper =
      Prod.map id (Chain.unhalted target) <$> releaseStake host c keeper := by
  simp only [releaseStake, map_bind, map_pure, payOut_reg, payOut_unhalted, bind_map_left]
  rfl

theorem releaseStakes_unhalted (c : Chain World) (keepers : List Address) :
    releaseStakes host keepers (c.unhalted target) =
      Prod.map id (Chain.unhalted target) <$> releaseStakes host keepers c := by
  induction keepers generalizing c with
  | nil => rfl
  | cons keeper rest ih =>
      have hlater : ∀ (amount : ℤ) (c : Chain World), (do
            let left ← releaseStakes host rest (c.unhalted target)
            return (amount :: left.1, left.2) : Result (List ℤ × Chain World)) =
          Prod.map id (Chain.unhalted target) <$> (do
            let left ← releaseStakes host rest c
            return (amount :: left.1, left.2) : Result (List ℤ × Chain World)) := by
        intro amount c
        rw [ih, bind_map_left, map_bind]
        rfl
      unfold releaseStakes
      rw [releaseStake_unhalted]
      cases releaseStake host c keeper with
      | ok released => exact hlater released.1 released.2
      | error why =>
          cases why with
          | rejected reason => exact hlater 0 c
          | trap reason => rfl

theorem keeperCall_unhalted (c : Chain World) (call : KeeperCall) :
    keeperCall host ctx (c.unhalted target) call =
      Chain.unhalted target <$> keeperCall host ctx c call := by
  cases call with
  | stake keeper amount =>
      simp only [keeperCall, Result.chain, stake, map_bind, map_pure, transfer_unhalted,
        bind_map_left]
      rfl
  | beginUnbonding keeper =>
      simp only [keeperCall, Result.chain, beginUnbonding, map_bind, map_pure]
      rfl
  | withdrawStake keeper =>
      simp only [keeperCall, Result.chain, withdrawStake, map_bind, releaseStake_unhalted,
        Functor.map_map]
      rfl
  | withdrawStakes keepers =>
      simp only [keeperCall, Result.chain, withdrawStakes, map_bind, releaseStakes_unhalted,
        Functor.map_map]
      rfl

theorem pushBack_unhalted (reg : Registry) :
    pushBackPendingUpgrade (reg.setTargetHalted target false) =
    (pushBackPendingUpgrade reg).setTargetHalted target false := by
  unfold pushBackPendingUpgrade
  rw [Registry.setTargetHalted_pendingUpgrade]
  cases reg.pendingUpgrade with
  | none => rfl
  | some pending =>
      change (if _ then _ else _) = Registry.setTargetHalted (if _ then _ else _) target false
      rw [apply_ite (fun reg => Registry.setTargetHalted reg target false)]
      rfl

/-- Two targets are halted and resumed independently. -/
theorem setTargetHalted_comm (reg : Registry) {other : Address} (halted : Bool)
    (hne : other ≠ target) : (reg.setTargetHalted target false).setTargetHalted other halted =
      (reg.setTargetHalted other halted).setTargetHalted target false := by
  have hstore : (if halted then (reg.haltedTargets.remove target).set other true
      else (reg.haltedTargets.remove target).remove other) =
      (if halted then reg.haltedTargets.set other true
        else reg.haltedTargets.remove other).remove target := by
    ext who
    cases halted with
    | true =>
        simp only [if_pos, Store.get_set, Store.get_remove]
        grind
    | false =>
        simp only [Bool.false_eq_true, if_false, Store.get_remove]
        grind
  simp only [Registry.setTargetHalted, Bool.false_eq_true, if_false, hstore]

theorem adminCall_unhalted (c : Chain World) (call : AdminCall)
    (hother : ∀ halted, call ≠ .setTargetHalted target halted) :
    adminCall host ctx (c.unhalted target) call =
      Chain.unhalted target <$> adminCall host ctx c call := by
  cases call with
  | setTargetHalted other halted =>
      have hne : other ≠ target := by
        rintro rfl
        exact hother halted rfl
      simp only [adminCall, setTargetHalted, map_bind, map_pure, Chain.unhalted,
        setTargetHalted_comm _ _ hne]
      cases halted with
      | true => rfl
      | false => rfl
  | setPaused paused =>
      simp only [adminCall, setPaused, map_bind, map_pure]
      cases paused with
      | true => rfl
      | false => rfl
  | setUnbondingEpoch unbondingEpoch =>
      simp only [adminCall, setUnbondingEpoch, map_bind, map_pure]
      refine bind_congr fun _ => bind_congr fun _ => ?_
      exact congrArg (fun reg => pure (Chain.publish { c with reg } _))
        (pushBack_unhalted { c.reg with config := { c.reg.config with unbondingEpoch } })
  | setUpgradeDelay upgradeDelay =>
      simp only [adminCall, setUpgradeDelay, map_bind, map_pure]
      refine bind_congr fun _ => bind_congr fun _ => ?_
      exact congrArg (fun reg => pure (Chain.publish { c with reg } _))
        (pushBack_unhalted { c.reg with upgradeDelay })
  | _ =>
      simp only [adminCall, Result.chain, setExecutor, proposeAdmin, acceptAdmin,
        cancelAdminProposal,
        setMinStake, setMinInterval, setMaxArgs, setProtocolFee, setMaxFailures, setKeeperWindows,
          proposeUpgrade,
        applyUpgrade, cancelUpgrade, map_bind, map_pure]
      rfl

/-- No call that runs no jobs sees the halt. -/
theorem call_unhalted (ctx : Ctx) (c : Chain World) {call : Call} (hruns : ∀ run, call ≠ .run run)
    (hhalts : ∀ halted, call ≠ .admin (.setTargetHalted target halted)) :
    call.perform host ctx (c.unhalted target) =
      Chain.unhalted target <$> call.perform host ctx c := by
  cases call with
  | job call => exact jobCall_unhalted c call
  | run run => exact absurd rfl (hruns run)
  | keeper call => exact keeperCall_unhalted c call
  | admin call =>
      apply adminCall_unhalted c call
      rintro halted rfl
      exact hhalts halted rfl

end Twin

/-! ## Until the halt ends -/

/-- What holds from the start of a halt of `target` until it ends. -/
structure HaltHolds (host : Host World) (target : Address) (c : Chain World)
    (actions : List (Action World)) : Prop where
  stopped : ∀ id e, (.job id (.ran e) : Act World) ∈ (machine host).outputs c actions →
    ∃ other, e.called = some other ∧ other ≠ target
  unseen : ∀ ctx (call : Call), (∀ run, call ≠ .run run) →
    (∀ halted, call ≠ .admin (.setTargetHalted target halted)) →
    let last := (machine host).run c actions
    call.perform host ctx (last.unhalted target) =
      Chain.unhalted target <$> call.perform host ctx last
  alone : ∀ ctx keeper jobId, let last := (machine host).run c actions
    callsTarget last.reg.jobs.specs target jobId = false →
      execute host ctx (last.unhalted target) keeper jobId =
        Chain.unhalted target <$> execute host ctx last keeper jobId
  batched : ∀ ctx keeper jobIds, let last := (machine host).run c actions
    let others := othersOf last.reg.jobs.specs target jobIds
    others ≠ [] → jobIds.length ≤ maxBatch →
      executeBatch host ctx (last.unhalted target) keeper others =
        Prod.map (othersFlags last.reg.jobs.specs target jobIds) (Chain.unhalted target) <$>
          executeBatch host ctx last keeper jobIds

theorem halt_holds {actions : List (Action World)} (hsound : c.Sound host)
    (hhalted : c.reg.isTargetHalted target = true)
    (halong : (machine host).Along (UnderHalt host target) c actions) :
    HaltHolds host target c actions := by
  have hlast : ((machine host).run c actions).Sound host ∧
      ((machine host).run c actions).reg.isTargetHalted target = true := by
    refine Machine.invariant_run (I := fun c =>
      c.Sound host ∧ c.reg.isTargetHalted target = true) ?_
      ⟨hsound, hhalted⟩ halong
    rintro c action ⟨hsound, hhalted⟩ hunder
    exact ⟨step_sound hsound hunder.1, step_halted hsound hhalted hunder⟩
  refine ⟨none_called hsound hhalted halong, ?_, ?_, ?_⟩
  · intro ctx call hruns hhalts last
    exact call_unhalted ctx last hruns hhalts
  · intro ctx keeper jobId last hother
    exact execute_unhalted ctx last keeper hother
  · intro ctx keeper jobIds last others hothers hsize
    exact executeBatch_unhalted ctx last keeper jobIds hlast.2 hsize hothers

/-- Pause and halt stop what they are for, until the admin ends them, whatever anyone calls. -/
theorem pause_and_halt_stop (hreach : Reachable host c) :
    (c.reg.config.paused = true → ∀ actions, (machine host).Along (UnderPause host) c actions →
      PauseHolds host c actions) ∧
    ∀ target, c.reg.isTargetHalted target = true → ∀ actions,
      (machine host).Along (UnderHalt host target) c actions → HaltHolds host target c actions := by
  refine ⟨?_, ?_⟩
  · intro hpaused actions halong
    exact pause_holds hreach.sound hpaused halong
  · intro target hhalted actions halong
    exact halt_holds hreach.sound hhalted halong

/-- After the first run, the admin halts its target and then pauses the registry. -/
def stoppedRun : List (Action Unit) :=
  firstRun ++ [.call ⟨[⟨3⟩]⟩ (.admin (.setTargetHalted ⟨7⟩ true)),
    .call ⟨[⟨3⟩]⟩ (.admin (.setPaused true))]

/-- Then the job's owner takes some of its balance back, and the keeper tries to run the job. -/
def afterStop : List (Action Unit) :=
  [.call ⟨[⟨5⟩]⟩ (.job (.withdrawJobBalance 0 15)), .advance 1120,
    .call ⟨[⟨4⟩]⟩ (.run (.execute ⟨4⟩ 0))]

theorem pause_and_halt_stop_firstRun :
    let c := (machine plainHost).run (deployment ⟨3⟩ 1000 100 10 1000) stoppedRun
    PauseHolds plainHost c afterStop ∧ HaltHolds plainHost ⟨7⟩ c afterStop := by
  intro c
  have hadmissible : (machine plainHost).Along (Admissible plainHost)
      (deployment ⟨3⟩ 1000 100 10 1000)
      stoppedRun :=
    Machine.along_append.mpr ⟨firstRun_admissible _, trivial, trivial, trivial⟩
  have hreach : Reachable plainHost c :=
    ⟨_, _, deployment_deployed ⟨3⟩ 10 1000 (by decide) (by decide), hadmissible, rfl⟩
  obtain ⟨hpause, hhalt⟩ := pause_and_halt_stop hreach
  refine ⟨hpause (by decide) afterStop ?_, hhalt ⟨7⟩ (by decide) afterStop ?_⟩
  · refine ⟨⟨trivial, ?_⟩, ⟨(by decide : 1120 ≤ u64Max), ?_⟩, ⟨trivial, ?_⟩, trivial⟩
    all_goals
      rintro ⟨ctx, c', hcall, -⟩
      cases hcall
  · refine ⟨⟨trivial, ?_⟩, ⟨(by decide : 1120 ≤ u64Max), ?_⟩, ⟨trivial, ?_⟩, trivial⟩
    all_goals
      rintro ⟨ctx, c', hcall, -⟩
      cases hcall

end SoroCron
