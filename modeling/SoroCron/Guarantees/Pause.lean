import Mathlib.Algebra.BigOperators.Pi
import SoroCron.Guarantees.Settlement

/-! # While the registry is paused

A paused registry lets people leave and nothing else: owners withdraw, pause, hand over and
cancel their jobs, keepers unbond and are paid their stakes, and no job runs or appears.
-/

namespace SoroCron

open Outcome

variable {World : Type} {host : Host World} {ctx : Ctx} {c c' : Chain World}

/-! ## One call -/

/-- What a call can do while the registry is paused, and who must have signed it. -/
inductive ExitAct (ctx : Ctx) (c : Chain World) : Act World → Prop where
  | withdrawn {id : JobId} {spec : JobSpec} {state : JobState} (amount : ℤ)
      (hparts : c.reg.jobs.getJobParts id = some (spec, state))
        (hsigned : spec.owner ∈ ctx.signers) :
      ExitAct ctx c (.job id (.withdrawn amount))
  | activeSet {id : JobId} {spec : JobSpec} {state : JobState} (active : Bool)
      (hparts : c.reg.jobs.getJobParts id = some (spec, state))
        (hsigned : spec.owner ∈ ctx.signers) :
      ExitAct ctx c (.job id (.activeSet active))
  | cancelled {id : JobId} {spec : JobSpec} {state : JobState}
      (hparts : c.reg.jobs.getJobParts id = some (spec, state))
        (hsigned : spec.owner ∈ ctx.signers) :
      ExitAct ctx c (.job id .cancelled)
  | handedOver {id : JobId} {newOwner : Address}
      (hoffered : c.reg.jobs.pendingOwners.get id = some newOwner)
      (hsigned : newOwner ∈ ctx.signers) : ExitAct ctx c (.job id .handedOver)
  | unbonding {keeper : Address} (hsigned : keeper ∈ ctx.signers) :
      ExitAct ctx c (.keeper keeper .unbonding)
  | released {keeper : Address} (hready : Matured c keeper) :
      ExitAct ctx c (.keeper keeper .withdrawn)

/-- What a call can pay while the registry is paused: part of a job's balance to its owner, or
finished stakes to their keepers. -/
inductive ExitPayment (host : Host World) (c : Chain World) : Balances → Prop where
  | nothing : ExitPayment host c 0
  | refund {id : JobId} {spec : JobSpec} {state : JobState} {amount : ℤ}
      (hparts : c.reg.jobs.getJobParts id = some (spec, state)) (hnonneg : 0 ≤ amount)
      (hle : amount ≤ state.balance) :
      ExitPayment host c (movedBy c.reg.config.feeToken host.registry spec.owner amount)
  | stakes (listed : Finset Address) :
      ExitPayment host c (∑ who ∈ listed,
        movedBy c.reg.config.stakeToken host.registry who (releasable c who))

/-- A call that stops at the pause, or only lets somebody leave. -/
structure Stopped (host : Host World) (ctx : Ctx) (c : Chain World) (call : Call) : Prop where
  did : ∀ act ∈ acts host c (.call ctx call), ExitAct ctx c act
  world : (step host c (.call ctx call)).world = c.world
  issued : (step host c (.call ctx call)).reg.jobs.nextJobId = c.reg.jobs.nextJobId
  paid : ∃ moved, ExitPayment host c moved ∧ (step host c (.call ctx call)).balances =
    c.balances + moved
  refused : ∀ run, call = .run run → ∃ why, runCall host ctx c run = .error why

theorem releasable_nonneg (hsound : c.Sound host) (who : Address) : 0 ≤ releasable c who := by
  by_cases hready : Matured c who
  · exact (releasable_pos hsound hready).le
  · exact (releasable_of_not_matured hready).ge

/-- The registry never gains from such a payment. -/
theorem ExitPayment.registry_nonpos {moved : Balances} (hsound : c.Sound host)
    (h : ExitPayment host c moved) (token : Address) : moved token host.registry ≤ 0 := by
  have hmoved : ∀ asset receiver (amount : ℤ), 0 ≤ amount →
      movedBy asset host.registry receiver amount token host.registry ≤ 0 := by
    intro asset receiver amount hnonneg
    rw [movedBy_apply]
    by_cases hreceiver : token = asset ∧ host.registry = receiver
    · rw [if_pos hreceiver, if_pos ⟨hreceiver.1, rfl⟩, sub_self]
    · rw [if_neg hreceiver]
      split <;> omega
  cases h with
  | nothing => exact le_rfl
  | refund hparts hnonneg hle => exact hmoved _ _ _ hnonneg
  | stakes listed =>
      rw [Finset.sum_apply, Finset.sum_apply]
      apply Finset.sum_nonpos
      intro who _
      exact hmoved _ _ _ (releasable_nonneg hsound who)

/-- A call that does nothing and leaves the chain as it was. -/
theorem Stopped.idle {call : Call} (hacts : acts host c (.call ctx call) = [])
    (hsame : step host c (.call ctx call) = c) (hrefused : ∀ run, call = .run run →
      ∃ why, runCall host ctx c run = .error why) : Stopped host ctx c call := by
  refine ⟨?_, ?_, ?_, ⟨0, .nothing, ?_⟩, hrefused⟩
  · rw [hacts]
    intro act hact
    cases hact
  · rw [hsame]
  · rw [hsame]
  · rw [hsame, add_zero]

theorem runCall_paused (hpaused : c.reg.config.paused = true) (run : RunCall) :
    ∃ why, runCall host ctx c run = .error why := by
  cases hrun : runCall host ctx c run with
  | error why => exact ⟨why, rfl⟩
  | ok c' =>
      obtain ⟨executor, info, ran, b, hauth, -⟩ := runCall_eq_ok hrun
      obtain ⟨hlive, -⟩ := authorizeKeeper_eq_ok.mp hauth
      rw [hlive] at hpaused
      cases hpaused

/-- The keepers that a list releases were ready before. -/
theorem releasesOf_matured {keepers : List Address} {amounts : List ℤ}
    (h : releaseStakes host keepers c = .ok (amounts, c')) :
    ∀ who ∈ releasesOf host keepers c, Matured c who := by
  have hlast := releaseStakes_history
    (I := fun past middle => (∀ who ∈ past, Matured c who) ∧ ∀ who, Matured middle who →
      Matured c who) ?_
    [] ⟨by simp, fun _ => id⟩ h
  · rw [List.nil_append] at hlast
    exact hlast.1
  · rintro past middle after keeper amount ⟨hpast, hready⟩ hrelease
    refine ⟨?_, fun who hwho => hready who ((matured_after hrelease).mp hwho).2⟩
    intro who hwho
    rcases List.mem_append.mp hwho with hold | hnew
    · exact hpast who hold
    · obtain ⟨info, release, -, hinfo, hbond, hle, -⟩ := releaseStake_eq_ok.mp hrelease
      rw [List.mem_singleton.mp hnew]
      exact hready keeper ⟨info, release, hinfo, hbond, hle⟩

theorem Call.job_ne_run (call : JobCall) (run : RunCall) : Call.job call ≠ .run run := nofun

theorem Stopped.of_ok {call : Call} (hcall : call.perform host ctx c = .ok c')
    (hdid : ∀ act ∈ actsOf host ctx c call, ExitAct ctx c act) (hworld : c'.world = c.world)
    (hissued : c'.reg.jobs.nextJobId = c.reg.jobs.nextJobId) {moved : Balances}
    (hmoved : ExitPayment host c moved) (hpaid : c'.balances = c.balances + moved)
    (hrefused : ∀ run, call ≠ .run run) : Stopped host ctx c call := by
  have hstep := step_call_ok hcall
  have hacts : SoroCron.acts host c (.call ctx call) = actsOf host ctx c call := by
    simp [SoroCron.acts, hcall]
  refine ⟨?_, ?_, ?_, ⟨moved, hmoved, ?_⟩, fun run hrun => absurd hrun (hrefused run)⟩
  · rw [hacts]
    exact hdid
  · rw [hstep, hworld]
  · rw [hstep, hissued]
  · rw [hstep, hpaid]

/-- Job operations that succeed while the registry is paused. -/
theorem jobCall_stopped (hsound : c.Sound host) (hpaused : c.reg.config.paused = true)
    {call : JobCall} (h : jobCall host ctx c call = .ok c') : Stopped host ctx c (.job call) := by
  have hlive : c.reg.config.paused ≠ false := by
    rw [hpaused]
    exact Bool.noConfusion
  have hone : ∀ {act : Act World}, ExitAct ctx c act → ∀ other ∈ [act], ExitAct ctx c other := by
    intro act hact other hother
    rw [List.mem_singleton.mp hother]
    exact hact
  have hframe := jobCall_jobsOnly h
  cases call with
  | createJob owner params deposit =>
      obtain ⟨created, h⟩ := Result.chain_eq_ok.mp h
      exact absurd (createJob_eq_ok h).1 hlive
  | createJobs owner jobs deposits =>
      obtain ⟨created, h⟩ := Result.chain_eq_ok.mp h
      exact absurd (createJobs_eq_ok h).1 hlive
  | updateJob jobId update => exact absurd (updateJob_eq_ok h).1 hlive
  | fundJob payer jobId amount =>
      obtain ⟨balance, h⟩ := Result.chain_eq_ok.mp h
      exact absurd (fundJob_eq_ok h).1.1 hlive
  | cancelJob jobId =>
      obtain ⟨refund, hcancel⟩ := Result.chain_eq_ok.mp h
      obtain ⟨spec, state, paid, hparts, hauth, hpaid, -, rfl⟩ := cancelJob_eq_ok.mp hcancel
      have hnonneg := (hsound.jobs.states _ _ (JobTable.states_get_of_parts hparts)).balance_nonneg
      have hmoved := Chain.payOut_eq_ok hnonneg hpaid
      refine .of_ok h (hone (.cancelled hparts hauth.1)) hframe.world ?_
        (.refund hparts hnonneg le_rfl) ?_ (Call.job_ne_run _)
      · rw [hmoved]
        rfl
      · rw [hmoved]
        rfl
  | withdrawJobBalance jobId amount =>
      obtain ⟨balance, hwithdraw⟩ := Result.chain_eq_ok.mp h
      obtain ⟨spec, state, hparts, hauth, hpos, hle, -, -, -, paid, hpaid, rfl⟩ :=
        withdrawJobBalance_eq_ok.mp hwithdraw
      obtain ⟨-, rfl⟩ := Chain.transfer_eq_ok.mp hpaid
      exact .of_ok h (hone (.withdrawn amount hparts hauth.1)) rfl rfl
        (.refund hparts hpos.le hle) rfl (Call.job_ne_run _)
  | setJobActive jobId active =>
      obtain ⟨spec, state, hparts, hauth, rfl⟩ := setJobActive_eq_ok h
      exact .of_ok h (hone (.activeSet active hparts hauth.1)) rfl rfl .nothing (add_zero _).symm
        (Call.job_ne_run _)
  | proposeJobOwner jobId newOwner =>
      obtain ⟨spec, -, -, rfl⟩ := proposeJobOwner_eq_ok h
      refine .of_ok h (by simp [actsOf]) rfl ?_ .nothing (add_zero _).symm (Call.job_ne_run _)
      dsimp only [Chain.publish_reg]
      split
      · rfl
      · rfl
  | acceptJobOwner jobId =>
      obtain ⟨spec, newOwner, -, hoffered, hauth, rfl⟩ := acceptJobOwner_eq_ok h
      exact .of_ok h (hone (.handedOver hoffered hauth.1)) rfl rfl .nothing (add_zero _).symm
        (Call.job_ne_run _)

theorem keeperCall_stopped (hsound : c.Sound host) (hpaused : c.reg.config.paused = true)
    {call : KeeperCall}
    (h : keeperCall host ctx c call = .ok c') : Stopped host ctx c (.keeper call) := by
  have hframe := keeperCall_keepersOnly h
  have hissued : c'.reg.jobs.nextJobId = c.reg.jobs.nextJobId := by rw [hframe.reg]
  cases call with
  | stake keeper amount =>
      obtain ⟨total, h⟩ := Result.chain_eq_ok.mp h
      have hlive := (stake_eq_ok h).1.1
      rw [hpaused] at hlive
      cases hlive
  | beginUnbonding keeper =>
      obtain ⟨release, hbegin⟩ := Result.chain_eq_ok.mp h
      obtain ⟨hauth, info, -, -, -, rfl⟩ := beginUnbonding_eq_ok.mp hbegin
      refine .of_ok h ?_ rfl rfl .nothing (add_zero _).symm nofun
      intro act hact
      rw [List.mem_singleton.mp hact]
      exact .unbonding hauth.1
  | withdrawStake keeper =>
      obtain ⟨amount, hwithdraw⟩ := Result.chain_eq_ok.mp h
      have hrelease := (withdrawStake_eq_ok.mp hwithdraw).2
      obtain ⟨-, hpaid⟩ := releaseStake_pays hsound.keepers hrelease
      obtain ⟨info, release, -, hinfo, hbond, hle, -⟩ := releaseStake_eq_ok.mp hrelease
      have hmoved : ExitPayment host c
        (∑ who ∈ {keeper}, movedBy c.reg.config.stakeToken host.registry who
        (releasable c who)) := .stakes {keeper}
      rw [Finset.sum_singleton] at hmoved
      refine .of_ok h ?_ hframe.world hissued hmoved hpaid nofun
      intro act hact
      rw [List.mem_singleton.mp hact]
      exact .released ⟨info, release, hinfo, hbond, hle⟩
  | withdrawStakes keepers =>
      obtain ⟨amounts, hwithdraw⟩ := Result.chain_eq_ok.mp h
      have hreleases := (withdrawStakes_eq_ok.mp hwithdraw).2
      have hsettled := releaseStakes_settledOnce hsound.keepers hreleases
      refine .of_ok h ?_ hframe.world hissued (.stakes keepers.toFinset) hsettled.paid nofun
      intro act hact
      obtain ⟨keeper, hkeeper, rfl⟩ := List.mem_map.mp hact
      exact .released (releasesOf_matured hreleases keeper hkeeper)

/-- Every call is stopped while the registry is paused. -/
theorem call_stopped (hsound : c.Sound host) (hpaused : c.reg.config.paused = true) (ctx : Ctx)
    (call : Call) : Stopped host ctx c call := by
  rcases step_call_cases host c ctx call with ⟨hcall, -⟩ | ⟨hsame, hacts⟩
  · cases call with
    | job call => exact jobCall_stopped hsound hpaused hcall
    | run call =>
        obtain ⟨why, hfails⟩ := runCall_paused hpaused call
        rw [Call.perform, hfails] at hcall
        cases hcall
    | keeper call => exact keeperCall_stopped hsound hpaused hcall
    | admin call =>
        have hdone := hcall
        obtain ⟨-, -, hc⟩ := adminCall_eq_ok hdone
        rw [hc] at hcall
        refine .of_ok hcall (by simp [actsOf]) rfl ?_ .nothing (add_zero _).symm nofun
        rw [Chain.publish_reg, (adminCall_settingsOnly call c.reg c.now).jobs]
  · exact .idle hacts hsame fun run _ => runCall_paused hpaused run

/-! ## Until the pause ends -/

/-- The admin ends the pause. -/
def Unpauses (host : Host World) (c : Chain World) (action : Action World) : Prop :=
  ∃ ctx c', action = .call ctx (.admin (.setPaused false)) ∧
    adminCall host ctx c (.setPaused false) = .ok c'

/-- A step under the pause. -/
def UnderPause (host : Host World) (c : Chain World) (action : Action World) : Prop :=
  Admissible host c action ∧ ¬ Unpauses host c action

theorem adminCall_paused (call : AdminCall) (reg : Registry) (now : Timestamp)
    (hother : call ≠ .setPaused false) :
    reg.config.paused = true → (call.regAfter reg now).config.paused = true := by
  intro hpaused
  cases call with
  | setPaused paused =>
      cases paused with
      | false => exact absurd rfl hother
      | true => rfl
  | setUnbondingEpoch unbondingEpoch =>
      rw [AdminCall.regAfter, pushBack_eq]
      exact hpaused
  | setUpgradeDelay upgradeDelay =>
      rw [AdminCall.regAfter, pushBack_eq]
      exact hpaused
  | _ => exact hpaused

theorem step_paused {action : Action World} (hsound : c.Sound host)
    (hpaused : c.reg.config.paused = true)
    (hunder : UnderPause host c action) : (step host c action).reg.config.paused = true := by
  rcases step_settings hsound action with hkept | ⟨ctx, call, rfl, hcall, hreg⟩
  · rw [hkept.config]
    exact hpaused
  · rw [hreg]
    apply adminCall_paused call c.reg c.now _ hpaused
    rintro rfl
    exact hunder.2 ⟨ctx, _, rfl, hcall⟩

/-- What outsiders send to the registry on the way. -/
def gifts (host : Host World) (token : Address) (actions : List (Action World)) : ℤ :=
  (actions.map fun
    | .outside _ moved => moved token host.registry
    | _ => 0).sum

/-- An action under which every call is stopped. -/
structure StoppedStep (host : Host World) (c : Chain World) (action : Action World) : Prop where
  sound : c.Sound host
  admissible : Admissible host c action
  stopped : ∀ ctx call, action = .call ctx call → Stopped host ctx c call

section Run

variable {actions : List (Action World)}

/-- Along a pause every call is stopped. -/
theorem run_stopped (hsound : c.Sound host) (hpaused : c.reg.config.paused = true)
    (halong : (machine host).Along (UnderPause host) c actions) :
    (machine host).Along (StoppedStep host) c actions := by
  induction actions generalizing c with
  | nil => exact trivial
  | cons action rest ih =>
      obtain ⟨hunder, halong⟩ := halong
      refine ⟨⟨hsound, hunder.1, fun ctx call _ => call_stopped hsound hpaused ctx call⟩, ?_⟩
      exact ih (step_sound hsound hunder.1) (step_paused hsound hpaused hunder) halong

theorem holdings_le (hstopped : (machine host).Along (StoppedStep host) c actions)
    (token : Address) : ((machine host).run c actions).balances token host.registry ≤
      c.balances token host.registry + gifts host token actions := by
  induction actions generalizing c with
  | nil => simp [gifts]
  | cons action rest ih =>
      obtain ⟨⟨hsound, -, hone⟩, hrest⟩ := hstopped
      have hlater := ih hrest
      have hgifts : gifts host token (action :: rest) =
          gifts host token [action] + gifts host token rest := by
        simp [gifts]
      have hstep : ((machine host).step c action).balances token host.registry ≤
          c.balances token host.registry + gifts host token [action] := by
        cases action with
        | call ctx call =>
            obtain ⟨moved, hpayment, hpaid⟩ := (hone ctx call rfl).paid
            have hle := hpayment.registry_nonpos hsound token
            change (step host c (.call ctx call)).balances token host.registry ≤ _
            rw [hpaid, Pi.add_apply, Pi.add_apply]
            simp only [gifts, List.map_cons, List.map_nil, List.sum_cons, List.sum_nil]
            omega
        | outside world moved =>
            simp only [machine, step, gifts, List.map_cons, List.map_nil, List.sum_cons,
              List.sum_nil, add_zero]
            exact le_rfl
        | _ => simp [machine, step, gifts]
      rw [Machine.run_cons, hgifts]
      omega

/-- Everything done under a pause lets somebody leave. -/
def Act.Exits : Act World → Prop
  | .job _ (.withdrawn _) | .job _ (.activeSet _) | .job _ .handedOver | .job _ .cancelled => True
  | .keeper _ .unbonding | .keeper _ .withdrawn => True
  | _ => False

theorem outputs_exit (hstopped : (machine host).Along (StoppedStep host) c actions) :
    ∀ act ∈ (machine host).outputs c actions, act.Exits := by
  refine Machine.outputs_forall (I := fun _ => True) (fun _ _ _ _ => trivial) ?_ trivial hstopped
  rintro c action - ⟨-, -, hone⟩ act hact
  cases action with
  | call ctx call =>
      cases (hone ctx call rfl).did act hact with
      | _ => trivial
  | _ => cases hact

/-! ## Jobs and keepers that are still there -/

/-- What is left of a job after everything `done` to it. -/
structure Survives (done : List (JobAct World)) (spec : JobSpec) (state : JobState)
    (spec' : JobSpec) (state' : JobState) : Prop where
  settings : spec' = { spec with owner := spec'.owner }
  owner : spec'.owner = spec.owner ∨ .handedOver ∈ done
  runs : state'.runs = state.runs
  nextRun : state'.nextRun = state.nextRun
  leaderRuns : state'.leaderRuns = state.leaderRuns
  active : state'.active = state.active ∨ .activeSet state'.active ∈ done
  failures : state'.failures = state.failures ∨ (state'.failures = 0 ∧ .activeSet true ∈ done)
  balance : state'.balance = state.balance + jobLedger done
  withdrawn : state'.balance ≤ state.balance

def JobPhase.Survives (start : JobPhase) (done : List (JobAct World)) : JobPhase → Prop
  | .live spec' state' =>
      ∃ spec state, start = .live spec state ∧ SoroCron.Survives done spec state spec' state'
  | _ => True

/-- What was done stays done. -/
theorem Survives.later {done : List (JobAct World)} {spec spec' : JobSpec} {state state' : JobState}
    (h : SoroCron.Survives done spec state spec' state') (act : JobAct World) :
    (spec'.owner = spec.owner ∨ .handedOver ∈ done ++ [act]) ∧
      (state'.active = state.active ∨ .activeSet state'.active ∈ done ++ [act]) ∧
      (state'.failures = state.failures ∨
        (state'.failures = 0 ∧ .activeSet true ∈ done ++ [act])) := by
  refine ⟨h.owner.imp_right (List.mem_append_left _),
    h.active.imp_right (List.mem_append_left _), ?_⟩
  rcases h.failures with hsame | ⟨hzero, hset⟩
  · exact .inl hsame
  · exact .inr ⟨hzero, List.mem_append_left _ hset⟩

theorem JobChange.survives {start before after : JobPhase} {now : Timestamp}
    {done : List (JobAct World)}
    {act : JobAct World} (hexits : ∀ id, (Act.job id act : Act World).Exits)
    (hbefore : start.Survives done before) (h : JobChange host now act before after) :
    start.Survives (done ++ [act]) after := by
  cases h with
  | created => exact (hexits 0).elim
  | updated => exact (hexits 0).elim
  | funded => exact (hexits 0).elim
  | ran => exact (hexits 0).elim
  | cancelled => trivial
  | @withdrawn amount spec' state' hpos hle =>
      obtain ⟨spec, state, hstart, hkept⟩ := hbefore
      obtain ⟨howner, hactive, hfailures⟩ := hkept.later (.withdrawn amount)
      have hless := hkept.withdrawn
      refine ⟨spec, state, hstart, hkept.settings, howner, hkept.runs, hkept.nextRun,
        hkept.leaderRuns, hactive, hfailures, ?_, ?_⟩
      · rw [jobLedger_append, ← add_assoc, ← hkept.balance]
        rfl
      · dsimp only
        omega
  | @activeSet active spec' state' =>
      obtain ⟨spec, state, hstart, hkept⟩ := hbefore
      obtain ⟨howner, -, hfailures⟩ := hkept.later (.activeSet active)
      refine ⟨spec, state, hstart, hkept.settings, howner, hkept.runs, hkept.nextRun,
        hkept.leaderRuns, .inr (by simp), ?_, ?_, hkept.withdrawn⟩
      · cases active with
        | true => exact .inr ⟨rfl, by simp⟩
        | false => exact hfailures
      · rw [jobLedger_append]
        exact hkept.balance.trans (by simp [JobAct.credit])
  | @handedOver newOwner spec' state' =>
      obtain ⟨spec, state, hstart, hkept⟩ := hbefore
      obtain ⟨-, hactive, hfailures⟩ := hkept.later .handedOver
      refine ⟨spec, state, hstart, ?_, .inr (by simp), hkept.runs, hkept.nextRun, hkept.leaderRuns,
        hactive, hfailures, ?_, hkept.withdrawn⟩
      · rw [hkept.settings]
      · rw [jobLedger_append]
        exact hkept.balance.trans (by simp [JobAct.credit])

theorem exits_of_jobActs {id : JobId} {done : List (Act World)} (hexits : ∀ act ∈ done, act.Exits)
    {act : JobAct World} (hact : act ∈ jobActs id done) :
    ∀ other, (Act.job other act : Act World).Exits := by
  intro other
  obtain ⟨one, hmem, hone⟩ := List.mem_filterMap.mp hact
  have hexit := hexits one hmem
  cases one with
  | keeper who act => cases hone
  | job owner stored =>
      dsimp only at hone
      split at hone
      next =>
        cases hone
        cases act with
        | _ => exact hexit
      next => cases hone

/-- A job that is live after a pause was live before, and survived it. -/
theorem jobs_survive (hsound : c.Sound host)
    (halong : (machine host).Along (Admissible host) c actions)
    (hexits : ∀ act ∈ (machine host).outputs c actions, act.Exits) {id : JobId} {spec' : JobSpec}
    {state' : JobState}
    (hparts : ((machine host).run c actions).reg.jobs.getJobParts id = some (spec', state')) :
    ∃ spec state, c.reg.jobs.getJobParts id = some (spec, state) ∧
      Survives (jobActs id ((machine host).outputs c actions)) spec state spec' state' := by
  obtain ⟨now, -, hlife⟩ := job_life hsound id halong
  have hstart : (c.reg.jobs.phase id).Survives ([] : List (JobAct World))
      (c.reg.jobs.phase id) := by
    cases hphase : c.reg.jobs.phase id with
    | live spec state =>
        exact ⟨spec, state, rfl, rfl, .inl rfl, rfl, rfl, rfl, .inl rfl, .inl rfl,
          by simp [jobLedger], le_rfl⟩
    | _ => trivial
  have hlast := (hlife.restrict fun act hact => exits_of_jobActs hexits hact).history
    (J := fun past phase => (c.reg.jobs.phase id).Survives past phase.2) ?_ [] hstart
  · rw [List.nil_append] at hlast
    dsimp only at hlast
    rw [phase_of_parts hparts] at hlast
    obtain ⟨spec, state, hphase, hsurvives⟩ := hlast
    exact ⟨spec, state, parts_of_phase hphase, hsurvives⟩
  · rintro past act before after hpast ⟨hexit, -, hchange⟩
    exact hchange.survives hexit hpast

/-- So was a keeper, with the same stake. -/
theorem stakes_kept (hsound : c.Sound host)
    (halong : (machine host).Along (Admissible host) c actions)
    (hexits : ∀ act ∈ (machine host).outputs c actions, act.Exits) {who : Address} {info' : Keeper}
    (hinfo : ((machine host).run c actions).reg.keepers.infos.get who = some info') :
    ∃ info, c.reg.keepers.infos.get who = some info ∧ info'.stake = info.stake := by
  have hlast := keeper_history
    (J := fun past _ bond => (∀ act ∈ past, ∀ amount, act ≠ .staked amount) →
      ∀ stake release, bond = some (stake, release) →
        ∃ before, c.reg.keepers.bondOf who = some (stake, before)) ?_ ?_ [] hsound who ?_ halong
  · rw [List.nil_append] at hlast
    have hnone : ∀ act ∈ keeperActs who ((machine host).outputs c actions), ∀ amount, act ≠
        .staked amount := by
      rintro act hact amount rfl
      obtain ⟨one, hmem, hone⟩ := List.mem_filterMap.mp hact
      have hexit := hexits one hmem
      cases one with
      | job owner stored => cases hone
      | keeper other stored =>
          dsimp only at hone
          split at hone
          next =>
            cases hone
            exact hexit
          next => cases hone
    obtain ⟨before, hbefore⟩ := hlast hnone _ _ (bondOf_of_info hinfo)
    obtain ⟨info, hfound, hfields⟩ := Option.map_eq_some_iff.mp hbefore
    exact ⟨info, hfound, (Prod.mk.inj hfields).1.symm⟩
  · intro past now act before after hpast hchange hnone stake release hafter
    have hearlier := hpast fun act hact => hnone act (List.mem_append_left _ hact)
    cases hchange with
    | registered =>
        exact absurd rfl (hnone _ (List.mem_append_right _ (List.mem_singleton.mpr rfl)) _)
    | added => exact absurd rfl (hnone _ (List.mem_append_right _ (List.mem_singleton.mpr rfl)) _)
    | unbonding =>
        cases hafter
        exact hearlier _ _ rfl
    | withdrawn => cases hafter
  · intro past now later bond _ hpast
    exact hpast
  · intro _ stake release hbond
    exact ⟨release, hbond⟩

/-- What holds from the start of a pause until it ends. -/
structure PauseHolds (host : Host World) (c : Chain World) (actions : List (Action World)) :
    Prop where
  calls : (machine host).Along
    (fun c action => ∀ ctx call, action = .call ctx call → Stopped host ctx c call)
    c actions
  jobs : ∀ id spec' state', ((machine host).run c actions).reg.jobs.getJobParts id =
    some (spec', state') →
    ∃ spec state, c.reg.jobs.getJobParts id = some (spec, state) ∧
      Survives (jobActs id ((machine host).outputs c actions)) spec state spec' state'
  runs : ∀ id execution, (.job id (.ran execution) : Act World) ∉ (machine host).outputs c actions
  stakes : ∀ who info', ((machine host).run c actions).reg.keepers.infos.get who = some info' →
    ∃ info, c.reg.keepers.infos.get who = some info ∧ info'.stake = info.stake
  holdings : ∀ token, ((machine host).run c actions).balances token host.registry ≤
    c.balances token host.registry + gifts host token actions

theorem pause_holds (hsound : c.Sound host) (hpaused : c.reg.config.paused = true)
    (halong : (machine host).Along (UnderPause host) c actions) : PauseHolds host c actions := by
  have hstopped := run_stopped hsound hpaused halong
  have hexits := outputs_exit hstopped
  have hadmissible : (machine host).Along (Admissible host) c actions :=
    Machine.along_mono (fun _ _ hunder => hunder.1) halong
  refine ⟨Machine.along_mono (fun _ _ hone => hone.stopped) hstopped, ?_, ?_, ?_,
    holdings_le hstopped⟩
  · intro id spec' state' hparts
    exact jobs_survive hsound hadmissible hexits hparts
  · intro id execution hran
    exact hexits _ hran
  · intro who info' hinfo
    exact stakes_kept hsound hadmissible hexits hinfo

end Run

end SoroCron
