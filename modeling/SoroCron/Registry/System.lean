import SoroCron.Foundation.Machine
import SoroCron.Registry.Admin
import SoroCron.Registry.KeeperLaws

/-! # The registry as a system

Every entry point is a `Call`, carried out with any set of signers. Between calls the clock
advances, other contracts do what they like, and temporary entries expire. A call that fails
in either way leaves the chain as it was.
-/

namespace SoroCron

open Outcome

variable {World : Type}

/-! ## Calls -/

inductive JobCall where
  | createJob (owner : Address) (params : JobParams) (deposit : ℤ)
  | createJobs (owner : Address) (jobs : List JobParams) (deposits : List ℤ)
  | updateJob (jobId : JobId) (update : JobUpdate)
  | fundJob (payer : Address) (jobId : JobId) (amount : ℤ)
  | cancelJob (jobId : JobId)
  | withdrawJobBalance (jobId : JobId) (amount : ℤ)
  | setJobActive (jobId : JobId) (active : Bool)
  | proposeJobOwner (jobId : JobId) (newOwner : Address)
  | acceptJobOwner (jobId : JobId)

inductive RunCall where
  | execute (keeper : Address) (jobId : JobId)
  | executeBatch (keeper : Address) (jobIds : List JobId)

def RunCall.keeper : RunCall → Address
  | .execute keeper _ => keeper
  | .executeBatch keeper _ => keeper

def RunCall.jobIds : RunCall → List JobId
  | .execute _ jobId => [jobId]
  | .executeBatch _ jobIds => jobIds

inductive KeeperCall where
  | stake (keeper : Address) (amount : ℤ)
  | beginUnbonding (keeper : Address)
  | withdrawStake (keeper : Address)
  | withdrawStakes (keepers : List Address)

inductive AdminCall where
  | setExecutor (executor : Address)
  | proposeAdmin (newAdmin : Address)
  | acceptAdmin
  | cancelAdminProposal
  | setPaused (paused : Bool)
  | setTargetHalted (target : Address) (halted : Bool)
  | setMinStake (minStake : ℤ)
  | setMinInterval (minInterval : ℕ)
  | setMaxArgs (maxArgs : ℕ)
  | setProtocolFee (protocolFeeBps : ℕ) (treasury : Option Address)
  | setMaxFailures (maxFailures : ℕ)
  | setKeeperWindows (gracePeriod : ℕ)
  | setUnbondingEpoch (unbondingEpoch : ℕ)
  | proposeUpgrade (wasmHash : Digest)
  | applyUpgrade
  | cancelUpgrade
  | setUpgradeDelay (upgradeDelay : ℕ)

inductive Call where
  | job (call : JobCall)
  | run (call : RunCall)
  | keeper (call : KeeperCall)
  | admin (call : AdminCall)

/-! ## Carrying out a call -/

/-- The chain a call leaves, without what the call returns. -/
def Result.chain {α : Type} (result : Result (α × Chain World)) : Result (Chain World) :=
  Prod.snd <$> result

def jobCall (host : Host World) (ctx : Ctx) (c : Chain World) :
    JobCall → Result (Chain World)
  | .createJob owner params deposit => (createJob host ctx c owner params deposit).chain
  | .createJobs owner jobs deposits => (createJobs host ctx c owner jobs deposits).chain
  | .updateJob jobId update => updateJob host ctx c jobId update
  | .fundJob payer jobId amount => (fundJob host ctx c payer jobId amount).chain
  | .cancelJob jobId => (cancelJob host ctx c jobId).chain
  | .withdrawJobBalance jobId amount => (withdrawJobBalance host ctx c jobId amount).chain
  | .setJobActive jobId active => setJobActive host ctx c jobId active
  | .proposeJobOwner jobId newOwner => proposeJobOwner host ctx c jobId newOwner
  | .acceptJobOwner jobId => acceptJobOwner host ctx c jobId

def runCall (host : Host World) (ctx : Ctx) (c : Chain World) :
    RunCall → Result (Chain World)
  | .execute keeper jobId => execute host ctx c keeper jobId
  | .executeBatch keeper jobIds => (executeBatch host ctx c keeper jobIds).chain

def keeperCall (host : Host World) (ctx : Ctx) (c : Chain World) :
    KeeperCall → Result (Chain World)
  | .stake keeper amount => (stake host ctx c keeper amount).chain
  | .beginUnbonding keeper => (beginUnbonding host ctx c keeper).chain
  | .withdrawStake keeper => (withdrawStake host ctx c keeper).chain
  | .withdrawStakes keepers => (withdrawStakes host c keepers).chain

def adminCall (host : Host World) (ctx : Ctx) (c : Chain World) :
    AdminCall → Result (Chain World)
  | .setExecutor executor => setExecutor host ctx c executor
  | .proposeAdmin newAdmin => proposeAdmin host ctx c newAdmin
  | .acceptAdmin => acceptAdmin host ctx c
  | .cancelAdminProposal => cancelAdminProposal host ctx c
  | .setPaused paused => setPaused host ctx c paused
  | .setTargetHalted target halted => setTargetHalted host ctx c target halted
  | .setMinStake minStake => setMinStake host ctx c minStake
  | .setMinInterval minInterval => setMinInterval host ctx c minInterval
  | .setMaxArgs maxArgs => setMaxArgs host ctx c maxArgs
  | .setProtocolFee protocolFeeBps treasury => setProtocolFee host ctx c protocolFeeBps treasury
  | .setMaxFailures maxFailures => setMaxFailures host ctx c maxFailures
  | .setKeeperWindows gracePeriod => setKeeperWindows host ctx c gracePeriod
  | .setUnbondingEpoch unbondingEpoch => setUnbondingEpoch host ctx c unbondingEpoch
  | .proposeUpgrade wasmHash => (proposeUpgrade host ctx c wasmHash).chain
  | .applyUpgrade => applyUpgrade host ctx c
  | .cancelUpgrade => cancelUpgrade host ctx c
  | .setUpgradeDelay upgradeDelay => setUpgradeDelay host ctx c upgradeDelay

def Call.perform (host : Host World) (ctx : Ctx) (c : Chain World) : Call → Result (Chain World)
  | .job call => jobCall host ctx c call
  | .run call => runCall host ctx c call
  | .keeper call => keeperCall host ctx c call
  | .admin call => adminCall host ctx c call

/-! ## Steps -/

/-- Anything that happens to the chain. -/
inductive Action (World : Type) where
  | call (ctx : Ctx) (call : Call)
  | advance (now : Timestamp)
  | outside (world : World) (moved : Balances)
  | expireTouched (jobId : JobId)
  | expireResumed (target : Address)

/-- The chain after a call: what the call left, or the chain as it was if it failed. -/
def Chain.after (c : Chain World) (result : Result (Chain World)) : Chain World :=
  match result with
  | .ok c' => c'
  | .error _ => c

def step (host : Host World) (c : Chain World) : Action World → Chain World
  | .call ctx call => c.after (call.perform host ctx c)
  | .advance now => { c with now := max c.now now }
  | .outside world moved => { c with world, balances := c.balances + moved }
  | .expireTouched jobId =>
      { c with reg := { c.reg with jobTouched := c.reg.jobTouched.remove jobId } }
  | .expireResumed target =>
      { c with reg := { c.reg with targetResumed := c.reg.targetResumed.remove target } }

/-! ## What a step did

The outputs of the system are what its successful calls did to jobs and to keepers' stakes,
read off the calls and their arguments alone.
-/

inductive JobAct (World : Type) where
  | created (owner : Address) (params : JobParams) (deposit : ℤ)
  | updated (update : JobUpdate)
  | funded (amount : ℤ)
  | withdrawn (amount : ℤ)
  | activeSet (active : Bool)
  | handedOver
  | cancelled
  | ran (execution : Execution World)

inductive KeeperAct where
  | staked (amount : ℤ)
  | unbonding
  | withdrawn

inductive Act (World : Type) where
  | job (jobId : JobId) (act : JobAct World)
  | keeper (keeper : Address) (act : KeeperAct)

/-- The jobs a batch creates take consecutive ids. -/
def creationsOf (owner : Address) : List (JobParams × ℤ) → JobId → List (Act World)
  | [], _ => []
  | (params, deposit) :: rest, id =>
      .job id (.created owner params deposit) :: creationsOf owner rest (id + 1)

/-- The runs of a call by `keeper`, which passes the shared checks. -/
def runsBy (host : Host World) (ctx : Ctx) (c : Chain World) (keeper : Address)
    (jobIds : List JobId) : List (Act World) :=
  match authorizeKeeper host ctx c.reg keeper with
  | .ok (executor, info) =>
      (runsOf host executor keeper jobIds (startBatch c keeper info)).map
        fun execution => .job execution.jobId (.ran execution)
  | .error _ => []

/-- What a call does when it succeeds. -/
def actsOf (host : Host World) (ctx : Ctx) (c : Chain World) : Call → List (Act World)
  | .job (.createJob owner params deposit) =>
      creationsOf owner [(params, deposit)] c.reg.jobs.nextJobId
  | .job (.createJobs owner jobs deposits) =>
      creationsOf owner (jobs.zip deposits) c.reg.jobs.nextJobId
  | .job (.updateJob jobId update) => [.job jobId (.updated update)]
  | .job (.fundJob _ jobId amount) => [.job jobId (.funded amount)]
  | .job (.cancelJob jobId) => [.job jobId .cancelled]
  | .job (.withdrawJobBalance jobId amount) => [.job jobId (.withdrawn amount)]
  | .job (.setJobActive jobId active) => [.job jobId (.activeSet active)]
  | .job (.proposeJobOwner _ _) => []
  | .job (.acceptJobOwner jobId) => [.job jobId .handedOver]
  | .run call => runsBy host ctx c call.keeper call.jobIds
  | .keeper (.stake keeper amount) => [.keeper keeper (.staked amount)]
  | .keeper (.beginUnbonding keeper) => [.keeper keeper .unbonding]
  | .keeper (.withdrawStake keeper) => [.keeper keeper .withdrawn]
  | .keeper (.withdrawStakes keepers) =>
      (releasesOf host keepers c).map fun keeper => .keeper keeper .withdrawn
  | .admin _ => []

def acts (host : Host World) (c : Chain World) : Action World → List (Act World)
  | .call ctx call =>
      match call.perform host ctx c with
      | .ok _ => actsOf host ctx c call
      | .error _ => []
  | _ => []

/-- What was done to one job, in order. -/
def jobActs (jobId : JobId) (done : List (Act World)) : List (JobAct World) :=
  done.filterMap fun
    | .job id act => if id = jobId then some act else none
    | .keeper _ _ => none

/-- What was done to one keeper's stake, in order. -/
def keeperActs (keeper : Address) (done : List (Act World)) : List KeeperAct :=
  done.filterMap fun
    | .job _ _ => none
    | .keeper who act => if who = keeper then some act else none

/-- The registry and everything around it. -/
def machine (host : Host World) : Machine (Chain World) (Action World) (Act World) where
  step := step host
  out := acts host

/-! ## What can happen -/

/-- The bounds that the argument types give and that no check repeats. -/
def JobParams.WellTyped (params : JobParams) : Prop :=
  params.startAt ≤ u64Max ∧ params.feePerRun ≤ i128Max ∧ params.maxFeePerRun ≤ i128Max

def JobUpdate.WellTyped (update : JobUpdate) : Prop :=
  update.feePerRun ≤ i128Max ∧ update.maxFeePerRun ≤ i128Max

def Call.WellTyped : Call → Prop
  | .job (.createJob _ params deposit) => params.WellTyped ∧ deposit ≤ i128Max
  | .job (.createJobs _ jobs deposits) =>
      (∀ params ∈ jobs, params.WellTyped) ∧ ∀ deposit ∈ deposits, deposit ≤ i128Max
  | .job (.updateJob _ update) => update.WellTyped
  | _ => True

/-- What can happen next. Temporary entries outlive the window they were written for. -/
def Admissible (host : Host World) (c : Chain World) : Action World → Prop
  | .call _ call => call.WellTyped
  | .advance now => now ≤ u64Max
  | .outside _ moved => Spares host.registry c.balances moved
  | .expireTouched jobId => c.reg.touchedAt jobId + c.reg.config.gracePeriod ≤ c.now
  | .expireResumed target => c.reg.resumedAt target + c.reg.config.gracePeriod ≤ c.now

/-- The chain right after the registry's constructor ran. -/
structure Deployed (host : Host World) (c : Chain World) : Prop where
  constructed : ∃ admin feeToken stakeToken minStake unbondingPeriod,
    construct admin feeToken stakeToken minStake unbondingPeriod = .ok c.reg
  clock : c.now ≤ u64Max
  holding : ∀ token, 0 ≤ c.balances token host.registry ∧ c.balances token host.registry ≤ i128Max
  silent : c.log = []

/-- A chain that some run from a deployment leads to. -/
def Reachable (host : Host World) (c : Chain World) : Prop :=
  ∃ start actions, Deployed host start ∧ (machine host).Along (Admissible host) start actions ∧
    c = (machine host).run start actions

/-! ## Rules -/

section Rules

variable {host : Host World} {c c' : Chain World} {ctx : Ctx} {call : Call}

@[simp] theorem Result.chain_eq_ok {α : Type} {result : Result (α × Chain World)} :
    result.chain = .ok c ↔ ∃ value, result = .ok (value, c) := by
  cases result with
  | error reason => simp [Result.chain, Functor.map, Except.map]
  | ok pair =>
      obtain ⟨value, c₁⟩ := pair
      simp [Result.chain, Functor.map, Except.map]

theorem step_call_ok (h : call.perform host ctx c = .ok c') :
    step host c (.call ctx call) = c' := by
  simp [step, Chain.after, h]

/-- A call either succeeds with the chain it leaves or changes nothing and did nothing. -/
theorem step_call_cases (host : Host World) (c : Chain World) (ctx : Ctx) (call : Call) :
    (call.perform host ctx c = .ok (step host c (.call ctx call)) ∧
        acts host c (.call ctx call) = actsOf host ctx c call) ∨
      (step host c (.call ctx call) = c ∧ acts host c (.call ctx call) = []) := by
  cases hcall : call.perform host ctx c with
  | ok c' => exact .inl (by simp [step, acts, Chain.after, hcall])
  | error reason => exact .inr (by simp [step, acts, Chain.after, hcall])

/-- A successful `execute` or `executeBatch`: the shared checks, the runs, the payout. -/
theorem runCall_eq_ok {call : RunCall} (h : runCall host ctx c call = .ok c') :
    ∃ executor info ran b,
      authorizeKeeper host ctx c.reg call.keeper = .ok (executor, info) ∧
      runJobs host executor call.keeper call.jobIds (startBatch c call.keeper info) = .ok (ran, b) ∧
      finish host call.keeper b = .ok c' ∧
      actsOf host ctx c (.run call) =
        (runsOf host executor call.keeper call.jobIds (startBatch c call.keeper info)).map
          fun execution => .job execution.jobId (.ran execution) := by
  have hacts : ∀ executor info, authorizeKeeper host ctx c.reg call.keeper = .ok (executor, info) →
      actsOf host ctx c (.run call) =
        (runsOf host executor call.keeper call.jobIds (startBatch c call.keeper info)).map
          fun execution => .job execution.jobId (.ran execution) := by
    intro executor info hauth
    simp only [actsOf, runsBy, hauth]
  cases call with
  | execute keeper jobId =>
      obtain ⟨executor, info, b, hauth, hrun, hfinish⟩ := execute_eq_ok.mp h
      refine ⟨executor, info, [true], b, hauth, ?_, hfinish, hacts executor info hauth⟩
      simp only [RunCall.jobIds, RunCall.keeper, runJobs, hrun, bind_eq_ok, Prod.exists]
      exact ⟨_, _, rfl, _, _, rfl, rfl⟩
  | executeBatch keeper jobIds =>
      obtain ⟨ran, hbatch⟩ := Result.chain_eq_ok.mp h
      obtain ⟨-, executor, info, b, hauth, hruns, hfinish⟩ := executeBatch_eq_ok.mp hbatch
      exact ⟨executor, info, ran, b, hauth, hruns, hfinish, hacts executor info hauth⟩

/-- Only a successful call that runs jobs makes runs. -/
theorem ran_mem_acts {action : Action World} {id : JobId} {e : Execution World}
    (h : .job id (.ran e) ∈ acts host c action) :
    ∃ ctx call executor info ran b, action = .call ctx (.run call) ∧
      authorizeKeeper host ctx c.reg call.keeper = .ok (executor, info) ∧
      runJobs host executor call.keeper call.jobIds (startBatch c call.keeper info) = .ok (ran, b) ∧
      e ∈ runsOf host executor call.keeper call.jobIds (startBatch c call.keeper info) ∧
      e.jobId = id := by
  have hcreations : ∀ owner (jobs : List (JobParams × ℤ)) next,
      (.job id (.ran e) : Act World) ∉ creationsOf owner jobs next := by
    intro owner jobs
    induction jobs with
    | nil => exact fun next => List.not_mem_nil
    | cons pair rest ih =>
        intro next hmem
        rcases List.mem_cons.mp hmem with hhead | htail
        · cases hhead
        · exact ih (next + 1) htail
  cases action with
  | call ctx call =>
      rcases step_call_cases host c ctx call with ⟨hcall, hacts⟩ | ⟨-, hacts⟩
      · rw [hacts] at h
        cases call with
        | run call =>
            obtain ⟨executor, info, ran, b, hauth, hruns, -, hmade⟩ := runCall_eq_ok hcall
            rw [hmade, List.mem_map] at h
            obtain ⟨stored, hmem, heq⟩ := h
            simp only [Act.job.injEq, JobAct.ran.injEq] at heq
            obtain ⟨rfl, rfl⟩ := heq
            exact ⟨ctx, call, executor, info, ran, b, rfl, hauth, hruns, hmem, rfl⟩
        | job call =>
            cases call with
            | createJob owner params deposit => exact absurd h (hcreations _ _ _)
            | createJobs owner jobs deposits => exact absurd h (hcreations _ _ _)
            | _ => simp [actsOf] at h
        | keeper call => cases call <;> simp [actsOf] at h
        | admin call => simp [actsOf] at h
      · rw [hacts] at h
        cases h
  | _ => cases h

theorem Deployed.reachable (h : Deployed host c) : Reachable host c := ⟨c, [], h, trivial, rfl⟩

theorem Reachable.step (hreach : Reachable host c) {action : Action World}
    (hadm : Admissible host c action) : Reachable host (step host c action) := by
  obtain ⟨start, actions, hstart, halong, rfl⟩ := hreach
  refine ⟨start, actions ++ [action], hstart, ?_, ?_⟩
  · exact Machine.along_append.mpr ⟨halong, hadm, trivial⟩
  · rw [Machine.run_append]
    rfl

theorem Reachable.run (hreach : Reachable host c) {actions : List (Action World)}
    (halong : (machine host).Along (Admissible host) c actions) :
    Reachable host ((machine host).run c actions) :=
  Machine.invariant_run (fun _ _ hreach hadm => hreach.step hadm) hreach halong

/-- What a deployment has and every admitted step from a reachable chain preserves holds of every
reachable chain. -/
theorem Reachable.invariant {I : Chain World → Prop} (hstart : ∀ c, Deployed host c → I c)
    (hstep : ∀ c action, Reachable host c → Admissible host c action → I c →
      I (SoroCron.step host c action))
    (hreach : Reachable host c) : I c := by
  obtain ⟨start, actions, hdeployed, halong, rfl⟩ := hreach
  have hlast := Machine.invariant_run (m := machine host) (I := fun c => Reachable host c ∧ I c) ?_
    ⟨hdeployed.reachable, hstart start hdeployed⟩ halong
  · exact hlast.2
  · rintro c action ⟨hreach, hkept⟩ hadm
    exact ⟨hreach.step hadm, hstep c action hreach hadm hkept⟩

end Rules

end SoroCron
