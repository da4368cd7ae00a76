import SoroCron.Registry.Deployment
import SoroCron.Registry.Ledger
import SoroCron.Registry.Payroll

/-! # The log is a ledger

Whoever reads the registry's events from the constructor on knows every live job, every
registered keeper and every fee that was transferred, and each event carries the values that
were stored with it.
-/

namespace SoroCron

open Outcome Bounded

variable {World : Type} {host : Host World} {c c' : Chain World} {now : Timestamp}
  {notice : Notice World} {p p' : Picture}

/-! ## Values -/

/-- The values an event carries are those stored right after its change. What it says was
given back is what was stored before. -/
def Event.Reports (before after : Picture) : Event → Prop
  | .jobCreated id owner target interval feePerRun deposit =>
      ∃ spec state, after.jobs.getJobParts id = some (spec, state) ∧ spec.owner = owner ∧
        spec.target = target ∧ spec.interval = interval ∧ spec.feePerRun = feePerRun ∧
        state.balance = deposit
  | .jobUpdated id interval feePerRun maxRuns endAt =>
      ∃ spec, after.jobs.specs.get id = some spec ∧ spec.interval = interval ∧
        spec.feePerRun = feePerRun ∧ spec.maxRuns = maxRuns ∧ spec.endAt = endAt
  | .jobFunded id _ _ balance =>
      ∃ state, after.jobs.states.get id = some state ∧ state.balance = balance
  | .jobWithdrawn id _ balance =>
      ∃ state, after.jobs.states.get id = some state ∧ state.balance = balance
  | .jobExhausted id balance =>
      ∃ state, after.jobs.states.get id = some state ∧ state.balance = balance
  | .jobDeactivated id failures =>
      ∃ state, after.jobs.states.get id = some state ∧ state.active = false ∧
        state.failures = failures
  | .jobExecuted id _ _ _ _ run nextRun _ failures _ =>
      ∃ state, after.jobs.states.get id = some state ∧ state.runs = run ∧ state.nextRun = nextRun ∧
        state.failures = failures
  | .jobActiveSet id active =>
      ∃ state, after.jobs.states.get id = some state ∧ state.active = active
  | .jobOwnerProposed id owner proposed =>
      (∃ spec, after.jobs.specs.get id = some spec ∧ spec.owner = owner) ∧
        after.jobs.pendingOwners.get id = if proposed = owner then none else some proposed
  | .jobOwnerChanged id previous newOwner =>
      (∃ spec, before.jobs.specs.get id = some spec ∧ spec.owner = previous) ∧
        (∃ spec, after.jobs.specs.get id = some spec ∧ spec.owner = newOwner) ∧
        after.jobs.pendingOwners.get id = none
  | .jobCancelled id refund =>
      (∃ state, before.jobs.states.get id = some state ∧ state.balance = refund) ∧
        after.jobs.getJobParts id = none
  | .keeperStaked keeper _ total =>
      ∃ record, after.records keeper = some record ∧ record.info.stake = total
  | .keeperUnbonding keeper withdrawableAt =>
      ∃ record, after.records keeper = some record ∧ record.info.unbondingAt = some withdrawableAt
  | .keeperWithdrawn keeper amount =>
      (∃ record, before.records keeper = some record ∧ record.info.stake = amount) ∧
        after.records keeper = none
  | .protocolFeeSet _ treasury => after.treasury = treasury
  | _ => True

/-- The events of a run report what the run stored. -/
theorem Ran.reports {e : Execution World} {r : Receipt World}
    (hran : Ran host e.executor e.keeper e.jobId e.before e.after r) :
    ∀ event ∈ r.events host e.before.chain.reg e.before.chain.now e.keeper e.jobId,
      event.Reports (e.before.picture e.keeper) (e.after.picture e.keeper) := by
  have hstored : e.after.chain.reg.jobs.states.get e.jobId =
      some (r.state e.before.chain.reg.config) := by
    rw [hran.reg]
    exact Store.get_set_self _ _ _
  intro event hmem
  simp only [Receipt.events, List.mem_append] at hmem
  rcases hmem with ((hdeactivated | hexhausted) | hmissed) | hexecuted
  · split at hdeactivated
    next hstops =>
      cases List.mem_singleton.mp hdeactivated
      exact ⟨_, hstored, if_pos hstops, rfl⟩
    next => cases hdeactivated
  · split at hexhausted
    · cases List.mem_singleton.mp hexhausted
      exact ⟨_, hstored, rfl⟩
    · cases hexhausted
  · cases hcharged : r.charged e.before.chain.reg e.jobId e.before.chain.now with
    | none =>
        rw [hcharged] at hmissed
        cases hmissed
    | some missed =>
        rw [hcharged, missEvents] at hmissed
        split at hmissed
        · cases List.mem_singleton.mp hmissed
          exact trivial
        · cases hmissed
  · cases List.mem_singleton.mp hexecuted
    exact ⟨_, hstored, rfl, rfl, rfl⟩

theorem Told.reports (h : Told host now notice p p') :
    ∀ event ∈ notice.events, event.Reports p p' := by
  intro event hmem
  cases h with
  | @ran execution r hnow hjobs hconfig hran =>
      rw [hran.notice_events] at hmem
      exact hran.reports event hmem
  | @created _ owner params deposit hsound hunoffered =>
      cases List.mem_singleton.mp hmem
      refine ⟨params.toSpec owner, params.toState p.jobs now deposit, ?_, rfl, rfl, rfl, rfl, rfl⟩
      exact JobTable.getJobParts_eq_some.mpr ⟨Store.get_set_self _ _ _, Store.get_set_self _ _ _⟩
  | updated hparts =>
      cases List.mem_singleton.mp hmem
      exact ⟨_, Store.get_set_self _ _ _, rfl, rfl, rfl, rfl⟩
  | funded hparts =>
      cases List.mem_singleton.mp hmem
      exact ⟨_, Store.get_set_self _ _ _, rfl⟩
  | withdrawn hparts =>
      cases List.mem_singleton.mp hmem
      exact ⟨_, Store.get_set_self _ _ _, rfl⟩
  | activeSet hparts =>
      cases List.mem_singleton.mp hmem
      exact ⟨_, Store.get_set_self _ _ _, rfl⟩
  | offered hparts =>
      cases List.mem_singleton.mp hmem
      have hspec := JobTable.specs_get_of_parts hparts
      simp only [Event.Reports]
      split
      · exact ⟨⟨_, hspec, rfl⟩, Store.get_remove_self _ _⟩
      · exact ⟨⟨_, hspec, rfl⟩, Store.get_set_self _ _ _⟩
  | handedOver hparts =>
      cases List.mem_singleton.mp hmem
      exact ⟨⟨_, JobTable.specs_get_of_parts hparts, rfl⟩, ⟨_, Store.get_set_self _ _ _, rfl⟩,
        Store.get_remove_self _ _⟩
  | cancelled hparts =>
      cases List.mem_singleton.mp hmem
      refine ⟨⟨_, JobTable.states_get_of_parts hparts, rfl⟩, ?_⟩
      simp [JobTable.getJobParts]
  | registered habsent hfresh =>
      cases List.mem_singleton.mp hmem
      refine ⟨_, Function.update_self .., ?_⟩
      rw [hfresh]
  | staked hfound =>
      cases List.mem_singleton.mp hmem
      exact ⟨_, Function.update_self .., rfl⟩
  | unbonded hfound =>
      cases List.mem_singleton.mp hmem
      exact ⟨_, Function.update_self .., rfl⟩
  | released hfound =>
      cases List.mem_singleton.mp hmem
      exact ⟨⟨_, hfound, rfl⟩, Function.update_self ..⟩
  | @configured _ call reg htreasury =>
      cases List.mem_singleton.mp hmem
      cases call with
      | setProtocolFee bps treasury => exact rfl
      | _ => exact trivial

/-! ## The log -/

/-- A change, what was published with it, and that this reports what the change stored. -/
def Published (host : Host World) (now : Timestamp) (notice : Notice World)
    (p p' : Picture) : Prop :=
  Told host now notice p p' ∧ ∀ event ∈ notice.events, event.Reports p p'

/-- What the log of a chain is worth after the payments made so far, which changed balances by
`moved`. -/
structure FaithfulLog (host : Host World) (c : Chain World) (paid : List Payment)
    (moved : Balances) : Prop where
  /-- Reading the log gives the jobs, the keepers and the treasury as stored. -/
  ledger : Ledger.ofLog c.log = c.reg.picture.ledger
  /-- The receipts tell what everybody was paid. -/
  fees : ∀ role who, total role who (feesTold none (c.log.map Prod.snd)) = total role who paid
  /-- So much did the balances of everybody rise at the ends of calls, and in no other token. -/
  received : ∀ token who, who ≠ host.registry → moved token who =
    if token = c.reg.config.feeToken then
      total .keeper who (feesTold none (c.log.map Prod.snd)) +
        total .treasury who (feesTold none (c.log.map Prod.snd))
    else
      0
  /-- Every step is a sequence of changes, and publishes exactly the events of these. -/
  published : ∀ action, Admissible host c action → ∃ notices,
    LogGrew c.now notices c.log (step host c action).log ∧
      notices.filterMap Notice.run = runsMade (acts host c action) ∧
      Life (Published host c.now) notices c.reg.picture (step host c action).reg.picture
  /-- A job that is rejected publishes nothing. -/
  rejected : ∀ executor keeper jobId (b b' : Batch World) reason,
    runJob host executor keeper jobId b = .ok (.error reason, b') → b'.chain.log = b.chain.log
  /-- A call ends with the transfers of its fees, after its runs and the last of its events. -/
  pays : ∀ ctx call c', runCall host ctx c call = .ok c' →
    ∃ b, runsEnd host ctx c call = .ok b ∧ c'.log = b.chain.log ∧
      (paymentsOf host ctx c call).foldlM (Chain.pay host c.reg.config.feeToken)
        (b.recorded call.keeper) = .ok c'

/-- What a reader of the log needs to have kept so far. -/
structure ReadSoFar (host : Host World) (c : Chain World) (paid : List Payment) : Prop where
  reachable : Reachable host c
  ledger : Ledger.ofLog c.log = c.reg.picture.ledger
  fees : ∀ role who rest, total role who (feesTold none (c.log.map Prod.snd ++ rest)) =
    total role who paid + total role who (feesTold c.reg.config.treasury rest)

theorem Deployed.read (hstart : Deployed host c) : ReadSoFar host c [] := by
  obtain ⟨config, hreg, -, htreasury⟩ := hstart.fresh
  refine ⟨hstart.reachable, ?_, ?_⟩
  · rw [hstart.silent, hreg]
    change Ledger.empty = ⟨_, _, config.treasury⟩
    rw [htreasury]
    rfl
  · intro role who rest
    rw [hstart.silent, hreg, htreasury, total_nil, zero_add]
    rfl

theorem ReadSoFar.step {paid : List Payment} (h : ReadSoFar host c paid) (action : Action World)
    (hadm : Admissible host c action) :
    ReadSoFar host (SoroCron.step host c action) (paid ++ payments host c action) := by
  obtain ⟨notices, ⟨hlife, hlog⟩, hruns⟩ := h.reachable.tells action hadm
  refine ⟨h.reachable.step hadm, ?_, ?_⟩
  · have hread := h.ledger
    rw [Ledger.ofLog] at hread ⊢
    rw [hlog.events, List.foldl_append, hread]
    exact hlife.replay Ledger.apply Notice.events Picture.ledger fun _ _ _ htold => htold.replayed
  · intro role who rest
    have hfees := h.fees role who (notices.flatMap Notice.events ++ rest)
    have htold : feesTold c.reg.config.treasury (notices.flatMap Notice.events ++ rest) =
        (notices.filterMap Notice.run).flatMap Execution.shares ++
          feesTold (SoroCron.step host c action).reg.config.treasury rest :=
            life_feesTold hlife rest
    rw [hlog.events, List.append_assoc, hfees, htold, hruns, total_append, total_append,
      step_payments role who action h.reachable.sound, add_assoc]

/-- The token of the fees stays what the constructor set. -/
theorem run_feeToken {actions : List (Action World)} (hsound : c.Sound host)
    (halong : (machine host).Along (Admissible host) c actions) :
    ((machine host).run c actions).reg.config.feeToken = c.reg.config.feeToken := by
  have hlast := Machine.invariant_run (m := machine host)
    (I := fun later => later.Sound host ∧ later.reg.config.feeToken = c.reg.config.feeToken)
    ?_ ⟨hsound, rfl⟩ halong
  · exact hlast.2
  · rintro later action ⟨hlater, htoken⟩ hadm
    exact ⟨step_sound hlater hadm, (step_feeToken hlater action).trans htoken⟩

/-- From the constructor on, reading the log rebuilds every live job, every registered keeper
and all fees transferred, and every step publishes exactly the changes it makes, with the values
they store. -/
theorem log_is_faithful {start : Chain World} {actions : List (Action World)}
    (hstart : Deployed host start) (halong : (machine host).Along (Admissible host) start actions) :
    FaithfulLog host ((machine host).run start actions) ((payroll host).outputs start actions)
      ((transfers host).outputs start actions).sum := by
  have hread : ReadSoFar host ((payroll host).run start actions)
      ((payroll host).outputs start actions) := by
    have hsame : (payroll host).step = (machine host).step := rfl
    have hpaid := (Machine.along_congr hsame).mpr halong
    refine Machine.history_run (J := fun paid c => ReadSoFar host c paid) ?_ [] hstart.read hpaid
    intro paid c action hread hadm
    exact hread.step action hadm
  have hfees : ∀ role who, total role who
      (feesTold none (((machine host).run start actions).log.map Prod.snd)) =
        total role who ((payroll host).outputs start actions) := by
    intro role who
    have hrest := hread.fees role who []
    rw [List.append_nil] at hrest
    exact hrest.trans (add_zero _)
  refine ⟨hread.ledger, hfees, ?_, ?_, ?_, ?_⟩
  · intro token who hwho
    rw [transferred_run hstart.sound halong token hwho, run_feeToken hstart.sound halong, hfees,
      hfees]
  · intro action hadm
    obtain ⟨notices, ⟨hlife, hlog⟩, hruns⟩ := hread.reachable.tells action hadm
    refine ⟨notices, hlog, hruns, hlife.map id ?_⟩
    intro notice p p' htold
    exact ⟨htold, htold.reports⟩
  · intro executor keeper jobId b b' reason hrejected
    rcases runJob_rejected hrejected with rfl | ⟨spec, rfl⟩
    · rfl
    · rfl
  · intro ctx call c' hcall
    exact runCall_pays hread.reachable.sound hcall

/-- After a first run its receipt tells what the keeper and the treasury got, and the log what
is left of the job. -/
theorem log_is_faithful_firstRun :
    let log := ((machine plainHost).run (deployment ⟨3⟩ 1000 100 10 1000) firstRun).log
    let moved := ((transfers plainHost).outputs (deployment ⟨3⟩ 1000 100 10 1000) firstRun).sum
    total .keeper ⟨4⟩ (feesTold none (log.map Prod.snd)) = 9 ∧
      total .treasury ⟨8⟩ (feesTold none (log.map Prod.snd)) = 1 ∧
      moved feeAsset ⟨4⟩ = 9 ∧ moved feeAsset ⟨8⟩ = 1 ∧ moved stakeAsset ⟨4⟩ = 0 ∧
      ((Ledger.ofLog log).jobs 0).map LedgerJob.balance = some 40 := by
  have hdeployed : Deployed plainHost (deployment ⟨3⟩ 1000 100 10 1000) :=
    deployment_deployed ⟨3⟩ 10 1000 (by decide) (by decide)
  have hfaithful := log_is_faithful hdeployed (firstRun_admissible _)
  refine ⟨?_, ?_, ?_, ?_, ?_, ?_⟩
  · rw [hfaithful.fees]
    decide
  · rw [hfaithful.fees]
    decide
  · rw [hfaithful.received _ _ (by decide), hfaithful.fees, hfaithful.fees]
    decide
  · rw [hfaithful.received _ _ (by decide), hfaithful.fees, hfaithful.fees]
    decide
  · rw [hfaithful.received _ _ (by decide), hfaithful.fees, hfaithful.fees]
    decide
  · rw [hfaithful.ledger]
    decide

end SoroCron
