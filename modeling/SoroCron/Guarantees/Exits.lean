import SoroCron.Registry.Deployment
import SoroCron.Registry.Lives
import SoroCron.Registry.Payments

/-! # Exits are open and pay in full

A job's balance is what its ledger adds up to, a keeper's stake is what it staked since it
last registered, and nothing an admin can set stands between either and its owner.
-/

namespace SoroCron

open Outcome Bounded

variable {World : Type} {host : Host World} {ctx : Ctx} {c c' : Chain World}

/-! ## Ledgers -/

/-- What a job gains from something done to it. -/
def JobAct.credit : JobAct World → ℤ
  | .created _ _ deposit => deposit
  | .funded amount => amount
  | .withdrawn amount => -amount
  | .ran execution => -execution.fee
  | .updated _ | .activeSet _ | .handedOver | .cancelled => 0

/-- The deposit and all fundings less all fees and withdrawals. -/
def jobLedger (done : List (JobAct World)) : ℤ := (done.map JobAct.credit).sum

/-- What a keeper staked since it last registered. -/
def stakeLedger (done : List KeeperAct) : ℤ :=
  done.foldl (fun total act =>
    match act with
    | .staked amount => total + amount
    | .unbonding => total
    | .withdrawn => 0) 0

@[simp] theorem jobLedger_append (past : List (JobAct World)) (act : JobAct World) :
    jobLedger (past ++ [act]) = jobLedger past + act.credit := by
  simp [jobLedger]

/-- What a job's phase says about everything done to it. -/
def JobPhase.Balanced (host : Host World) (past : List (JobAct World)) : JobPhase → Prop
  | .future => past = []
  | .live spec state => state.balance = jobLedger past ∧ spec.owner ≠ host.registry
  | .gone => True

theorem JobChange.balanced {past : List (JobAct World)} {now : Timestamp} {act : JobAct World}
    {before after : JobPhase} (hbefore : before.Balanced host past)
    (hchange : JobChange host now act before after) : after.Balanced host (past ++ [act]) := by
  cases hchange with
  | created howner hspec =>
      subst hbefore
      exact ⟨by simp [JobParams.toState, jobLedger, JobAct.credit], howner⟩
  | cancelled => trivial
  | handedOver howner =>
      obtain ⟨hbalance, -⟩ := hbefore
      exact ⟨by simp [hbalance, JobAct.credit], howner⟩
  | ran hnow hlive hconfig hjobs hran =>
      obtain ⟨hbalance, howner⟩ := hbefore
      refine ⟨?_, howner⟩
      simp only [Receipt.state, hran.balance_eq, jobLedger_append, JobAct.credit,
        hran.fee hjobs hconfig, ← hbalance]
      omega
  | _ =>
      obtain ⟨hbalance, howner⟩ := hbefore
      exact ⟨by simp [JobAct.credit, hbalance, sub_eq_add_neg], howner⟩

/-- A bond is worth what the keeper staked since it registered. -/
theorem KeeperChange.ledger {past : List KeeperAct} {now : Timestamp} {act : KeeperAct}
    {before after : Bond} (hbefore : stakeLedger past = (before.map Prod.fst).getD 0)
    (hchange : KeeperChange now act before after) :
    stakeLedger (past ++ [act]) = (after.map Prod.fst).getD 0 := by
  unfold stakeLedger at *
  rw [List.foldl_append, hbefore]
  cases hchange with
  | registered hpos => simp
  | added hpos => rfl
  | unbonding => rfl
  | withdrawn hready => rfl

section Run

variable {start : Chain World} {actions : List (Action World)}

theorem job_balanced (hstart : Deployed host start)
    (halong : (machine host).Along (Admissible host) start actions) {id : JobId} {spec : JobSpec}
    {state : JobState}
    (hparts : ((machine host).run start actions).reg.jobs.getJobParts id = some (spec, state)) :
    state.balance = jobLedger (jobActs id ((machine host).outputs start actions)) ∧
      spec.owner ≠ host.registry := by
  have hlast := job_history (J := fun past _ phase => phase.Balanced host past) ?_ ?_ []
    hstart.sound id ((hstart.phase_eq id).symm ▸ rfl) halong
  · rw [phase_of_parts hparts, List.nil_append] at hlast
    exact hlast
  · intro _ _ _ _ _ hpast hchange
    exact hchange.balanced hpast
  · intro _ _ _ _ _ hpast
    exact hpast

theorem bond_ledger (hstart : Deployed host start)
    (halong : (machine host).Along (Admissible host) start actions) (keeper : Address) :
    stakeLedger (keeperActs keeper ((machine host).outputs start actions)) =
      ((((machine host).run start actions).reg.keepers.bondOf keeper).map Prod.fst).getD 0 := by
  refine keeper_history (J := fun past _ bond =>
    stakeLedger past = (bond.map Prod.fst).getD 0) ?_ ?_
    [] hstart.sound keeper ((hstart.bondOf_eq keeper).symm ▸ rfl) halong
  · intro _ _ _ _ _ hpast hchange
    exact hchange.ledger hpast
  · intro _ _ _ _ _ hpast
    exact hpast

end Run

/-! ## Leaving a job -/

section Jobs

variable {jobId : JobId} {spec : JobSpec} {state : JobState}

theorem cancelJob_pays (hpays : PaysOut host) (hsolvent : Solvent host c)
    (hparts : c.reg.jobs.getJobParts jobId = some (spec, state))
    (howner : spec.owner ≠ host.registry) (hsigned : spec.owner ∈ ctx.signers) :
    ∃ c', cancelJob host ctx c jobId = .ok (state.balance, c') ∧
      c'.balances = c.balances +
        movedBy c.reg.config.feeToken host.registry spec.owner state.balance := by
  have hget := JobTable.states_get_of_parts hparts
  have hnonneg := (hsolvent.sound.jobs.states _ _ hget).balance_nonneg
  have hpaid := payOut_succeeds { c with reg := { c.reg with
    jobs := (c.reg.jobs.removeJob jobId).removeOwnerJob spec.owner jobId } } spec.owner
      hpays hnonneg
    (hsolvent.balance_le hget)
  exact ⟨_, cancelJob_eq_ok.mpr ⟨spec, state, _, hparts, ⟨hsigned, howner⟩, hpaid, rfl, rfl⟩, rfl⟩

theorem withdrawJobBalance_pays {amount : ℤ} (hpays : PaysOut host) (hsolvent : Solvent host c)
    (hparts : c.reg.jobs.getJobParts jobId = some (spec, state))
    (howner : spec.owner ≠ host.registry)
    (hsigned : spec.owner ∈ ctx.signers) (hpos : 1 ≤ amount) (hle : amount ≤ state.balance) :
    ∃ c', withdrawJobBalance host ctx c jobId amount = .ok (state.balance - amount, c') ∧
      c'.balances = c.balances + movedBy c.reg.config.feeToken host.registry spec.owner amount := by
  have hget := JobTable.states_get_of_parts hparts
  have hfits := (hsolvent.sound.jobs.states _ _ hget).balance_fits
  have hlow : i128Min ≤ 0 := by decide
  have hholds := hsolvent.balance_le hget
  refine ⟨_, withdrawJobBalance_eq_ok.mpr
    ⟨spec, state, hparts, ⟨hsigned, howner⟩, by omega, hle, rfl,
    by omega, by omega, _, transfer_succeeds _ _ hpays (by omega) (hle.trans hholds), rfl⟩, rfl⟩

end Jobs

/-! ## Leaving as a keeper -/

section Keepers

variable {keeper : Address} {info : Keeper}

/-- A release time is at most one epoch later than without epochs. -/
theorem unbondingRelease_le (now period : ℕ) {epoch : ℕ} (hepoch : epoch ≤ maxUnbondingEpoch) :
    unbondingRelease now period epoch ≤ satAdd64 now (satAdd64 period maxUnbondingEpoch) := by
  have hself : SameEpoch epoch now now := by
    unfold SameEpoch
    split <;> rfl
  exact (unbondingRelease_le_delay hself).trans (satAdd_mono le_rfl (satAdd_mono le_rfl hepoch))

theorem beginUnbonding_succeeds (hsound : c.Sound host)
    (hinfo : c.reg.keepers.infos.get keeper = some info) (hbonded : info.unbondingAt = none)
    (hsigned : keeper ∈ ctx.signers) :
    ∃ release c', beginUnbonding host ctx c keeper = .ok (release, c') ∧
      release ≤ satAdd64 c.now (satAdd64 c.reg.config.unbondingPeriod maxUnbondingEpoch) := by
  refine ⟨_, _, beginUnbonding_eq_ok.mpr
    ⟨⟨hsigned, hsound.keeper_ne hinfo⟩, info, hinfo, hbonded, rfl,
    rfl⟩, ?_⟩
  exact unbondingRelease_le _ _ hsound.config.unbondingEpoch

/-- What a release of this keeper's stake would pay now. -/
def releasable (c : Chain World) (who : Address) : ℤ :=
  match c.reg.keepers.bondOf who with
  | some (stake, some release) => if release ≤ c.now then stake else 0
  | _ => 0

/-- A release pays what is releasable; it is rejected only when there is nothing to release. -/
theorem releaseStake_cases (hpays : PaysOut host) (hsolvent : Solvent host c) (who : Address) :
    (∃ c', releaseStake host c who = .ok (releasable c who, c') ∧
        c'.balances = c.balances +
          movedBy c.reg.config.stakeToken host.registry who (releasable c who)) ∨
      ∃ reason, releaseStake host c who = .error (.rejected reason) ∧ releasable c who = 0 := by
  cases hinfo : c.reg.keepers.infos.get who with
  | none =>
      refine .inr ⟨.keeperNotFound, ?_, ?_⟩
      · simp [releaseStake, hinfo, okOr, raise, bind, Except.bind]
      · simp [releasable, KeeperTable.bondOf, hinfo]
  | some info =>
      have hbond := bondOf_of_info hinfo
      cases hrelease : info.unbondingAt with
      | none =>
          refine .inr ⟨.unbondingNotStarted, ?_, ?_⟩
          · simp [releaseStake, hinfo, hrelease, okOr, raise, bind, Except.bind]
          · simp [releasable, hbond, hrelease]
      | some release =>
          by_cases hready : release ≤ c.now
          · have hworth : releasable c who = info.stake := by
              simp [releasable, hbond, hrelease, hready]
            have hnonneg := (hsolvent.sound.keepers.stakes _ _ _ hbond).1.le
            have hpaid := payOut_succeeds
              { c with reg := { c.reg with keepers := c.reg.keepers.removeKeeper who } } who hpays
              hnonneg (hsolvent.stake_le hinfo)
            refine .inl
              ⟨_, releaseStake_eq_ok.mpr ⟨info, release, _, hinfo, hrelease, hready, hpaid,
              hworth, rfl⟩, ?_⟩
            rw [hworth]
            rfl
          · refine .inr ⟨.unbondingNotFinished, ?_, ?_⟩
            · simp [releaseStake, hinfo, hrelease, okOr, raise, bind, Except.bind, rejectIf,
                Nat.lt_of_not_le hready]
            · simp [releasable, hbond, hrelease, hready]

theorem releasable_after {amount : ℤ} (h : releaseStake host c keeper = .ok (amount, c'))
    (who : Address) : releasable c' who = if who = keeper then 0 else releasable c who := by
  obtain ⟨-, hbonds⟩ := releaseStake_bondOf h
  rw [releasable, hbonds, (releaseStake_keepersOnly h).1.now]
  by_cases heq : who = keeper
  · rw [if_pos heq, if_pos heq]
  · rw [if_neg heq, if_neg heq, releasable]

/-- Releasing a list of keepers pays each listed keeper what is releasable, once. -/
theorem releaseStakes_pays (hpays : PaysOut host) (hsolvent : Solvent host c)
    (keepers : List Address) : ∃ amounts c', releaseStakes host keepers c = .ok (amounts, c') ∧
      ∀ who, who ≠ host.registry →
        c'.balances c.reg.config.stakeToken who = c.balances c.reg.config.stakeToken who +
          if who ∈ keepers then releasable c who else 0 := by
  induction keepers generalizing c with
  | nil => exact ⟨[], c, rfl, fun who _ => by simp⟩
  | cons keeper rest ih =>
      rcases releaseStake_cases hpays hsolvent keeper with ⟨middle, hone, hpaid⟩ |
        ⟨reason, hone, hzero⟩
      · obtain ⟨amounts, c', hrest, hbalances⟩ := ih (releaseStake_solvent hsolvent hone)
        refine ⟨releasable c keeper :: amounts, c', ?_, ?_⟩
        · simp [releaseStakes, hone, hrest, bind, Except.bind, pure, Except.pure]
        · intro who hwho
          have htoken : middle.reg.config.stakeToken = c.reg.config.stakeToken := by
            rw [(releaseStake_keepersOnly hone).1.reg]
          have hafter := hbalances who hwho
          rw [htoken, hpaid, releasable_after hone] at hafter
          rw [hafter, Pi.add_apply, Pi.add_apply, movedBy_apply]
          by_cases heq : who = keeper
          · subst heq
            simp [hwho]
          · simp [heq, hwho]
      · obtain ⟨amounts, c', hrest, hbalances⟩ := ih hsolvent
        refine ⟨0 :: amounts, c', ?_, ?_⟩
        · simp [releaseStakes, hone, hrest, bind, Except.bind, pure, Except.pure]
        · intro who hwho
          rw [hbalances who hwho]
          by_cases heq : who = keeper
          · subst heq
            simp [hzero]
          · simp [heq]

end Keepers

/-! ## Every exit -/

/-- A withdrawal by the keeper itself, or by anyone for a list of keepers, pays the keeper
exactly `amount`. -/
structure PaysStake (host : Host World) (c : Chain World) (keeper : Address) (amount : ℤ) :
    Prop where
  withdrawStake : ∀ ctx : Ctx, keeper ∈ ctx.signers →
    ∃ c', withdrawStake host ctx c keeper = .ok (amount, c') ∧
      c'.balances = c.balances + movedBy c.reg.config.stakeToken host.registry keeper amount
  withdrawStakes : ∀ keepers, keeper ∈ keepers → keepers.length ≤ maxBatch →
    ∃ amounts c', withdrawStakes host c keepers = .ok (amounts, c') ∧
      c'.balances c.reg.config.stakeToken keeper =
        c.balances c.reg.config.stakeToken keeper + amount

theorem paysStake_of_bond {keeper : Address} {stake : ℤ} {release : Timestamp}
    (hpays : PaysOut host)
    (hsolvent : Solvent host c) (hbond : c.reg.keepers.bondOf keeper = some (stake, some release))
    (hready : release ≤ c.now) : PaysStake host c keeper stake := by
  have hworth : releasable c keeper = stake := by simp [releasable, hbond, hready]
  have hother : keeper ≠ host.registry := by
    rintro rfl
    rw [hsolvent.sound.keepers.outsider] at hbond
    cases hbond
  refine ⟨?_, ?_⟩
  · intro ctx hsigned
    have hpos := (hsolvent.sound.keepers.stakes _ _ _ hbond).1
    rcases releaseStake_cases hpays hsolvent keeper with ⟨c', hone, hpaid⟩ | ⟨reason, -, hzero⟩
    · rw [hworth] at hone hpaid
      exact ⟨c', withdrawStake_eq_ok.mpr ⟨⟨hsigned, hother⟩, hone⟩, hpaid⟩
    · omega
  · intro keepers hlisted hsize
    obtain ⟨amounts, c', hrelease, hbalances⟩ := releaseStakes_pays hpays hsolvent keepers
    refine ⟨amounts, c', withdrawStakes_eq_ok.mpr ⟨⟨?_, hsize⟩, hrelease⟩, ?_⟩
    · exact List.ne_nil_of_mem hlisted
    · rw [hbalances keeper hother, if_pos hlisted, hworth]

/-- Until it is withdrawn, the stake of an unbonding keeper and its release time stay as they
are. -/
theorem bond_kept {later : List (Action World)} {keeper : Address} {stake : ℤ} {release : Timestamp}
    (hsound : c.Sound host) (hbond : c.reg.keepers.bondOf keeper = some (stake, some release))
    (halong : (machine host).Along (Admissible host) c later)
    (hstays : .withdrawn ∉ keeperActs keeper ((machine host).outputs c later)) :
    ((machine host).run c later).reg.keepers.bondOf keeper = some (stake, some release) := by
  have hlast := keeper_history
    (J := fun past _ after => .withdrawn ∈ past ∨ after = some (stake, some release)) ?_
      ?_ [] hsound
    keeper (.inr hbond) halong
  · rw [List.nil_append] at hlast
    exact hlast.resolve_left hstays
  · intro past _ act before after hpast hchange
    rcases hpast with hleft | rfl
    · exact .inl (List.mem_append_left _ hleft)
    · cases hchange with
      | withdrawn hready => exact .inl (List.mem_append_right _ (List.mem_singleton.mpr rfl))
  · intro _ _ _ _ _ hpast
    exact hpast

/-- After any run, owners can cancel their jobs and withdraw from them, keepers can unbond,
and once the release time has come they are paid, whatever happened in between. -/
theorem exits_open {start : Chain World} {actions : List (Action World)} (hpays : PaysOut host)
    (hstart : Deployed host start) (halong : (machine host).Along (Admissible host) start actions) :
    let c := (machine host).run start actions
    let done := (machine host).outputs start actions
    (∀ jobId spec state (ctx : Ctx), c.reg.jobs.getJobParts jobId = some (spec, state) →
      spec.owner ∈ ctx.signers →
      (∃ c', cancelJob host ctx c jobId = .ok (jobLedger (jobActs jobId done), c') ∧
        c'.balances = c.balances + movedBy c.reg.config.feeToken host.registry spec.owner
          (jobLedger (jobActs jobId done))) ∧
      ∀ amount, 1 ≤ amount → amount ≤ state.balance →
        ∃ c', withdrawJobBalance host ctx c jobId amount = .ok (state.balance - amount, c') ∧
          c'.balances =
            c.balances + movedBy c.reg.config.feeToken host.registry spec.owner amount) ∧
    ∀ keeper info (ctx : Ctx), c.reg.keepers.infos.get keeper = some info →
      info.unbondingAt = none →
      keeper ∈ ctx.signers →
      ∃ release c', beginUnbonding host ctx c keeper = .ok (release, c') ∧
        release ≤ satAdd64 c.now (satAdd64 c.reg.config.unbondingPeriod maxUnbondingEpoch) ∧
        ∀ later, (machine host).Along (Admissible host) c' later →
          .withdrawn ∉ keeperActs keeper ((machine host).outputs c' later) →
          release ≤ ((machine host).run c' later).now →
          PaysStake host ((machine host).run c' later) keeper
            (stakeLedger (keeperActs keeper ((machine host).outputs start
              (actions ++ .call ctx (.keeper (.beginUnbonding keeper)) :: later)))) := by
  intro c done
  have hreach : Reachable host c := ⟨start, actions, hstart, halong, rfl⟩
  have hsolvent := hreach.solvent
  refine ⟨?_, ?_⟩
  · intro jobId spec state ctx hparts hsigned
    obtain ⟨hledger, howner⟩ := job_balanced hstart halong hparts
    refine ⟨?_, fun amount hpos hle => ?_⟩
    · rw [← hledger]
      exact cancelJob_pays hpays hsolvent hparts howner hsigned
    · exact withdrawJobBalance_pays hpays hsolvent hparts howner hsigned hpos hle
  · intro keeper info ctx hinfo hbonded hsigned
    obtain ⟨release, c', hbegin, hle⟩ :=
      beginUnbonding_succeeds hsolvent.sound hinfo hbonded hsigned
    refine ⟨release, c', hbegin, hle, ?_⟩
    intro later halong' hstays hready
    have hstep : (machine host).step ((machine host).run start actions)
        (.call ctx (.keeper (.beginUnbonding keeper))) = c' :=
      step_call_ok (Result.chain_eq_ok.mpr ⟨release, hbegin⟩)
    have hadm : Admissible host c (.call ctx (.keeper (.beginUnbonding keeper))) := trivial
    have hreach' : Reachable host c' := hstep ▸ hreach.step hadm
    have hbond : c'.reg.keepers.bondOf keeper = some (info.stake, some release) := by
      obtain ⟨before, hbefore, hbonds⟩ := beginUnbonding_bondOf hbegin
      rw [bondOf_of_info hinfo, hbonded] at hbefore
      cases hbefore
      rw [hbonds, if_pos rfl]
    -- Nothing but its own withdrawal touches a bond that is being released.
    have hkept := bond_kept hreach'.sound hbond halong' hstays
    have hwhole : (machine host).Along (Admissible host) start
        (actions ++ .call ctx (.keeper (.beginUnbonding keeper)) :: later) := by
      refine Machine.along_append.mpr ⟨halong, hadm, ?_⟩
      rw [hstep]
      exact halong'
    have hrun : (machine host).run start
        (actions ++ .call ctx (.keeper (.beginUnbonding keeper)) :: later) =
        (machine host).run c' later := by
      rw [Machine.run_append, Machine.run_cons, hstep]
    -- The bond is what the keeper put in over its whole history.
    have hledger := bond_ledger hstart hwhole keeper
    rw [hrun, hkept] at hledger
    rw [hledger]
    exact paysStake_of_bond hpays (hreach'.run halong').solvent hkept hready

/-- The admin pauses the registry after the first run. -/
def pausedRun : List (Action Unit) := firstRun ++ [.call ⟨[⟨3⟩]⟩ (.admin (.setPaused true))]

def pausedStart : Chain Unit := deployment ⟨3⟩ 1000 100 10 1000

def pausedChain : Chain Unit := (machine plainHost).run pausedStart pausedRun

theorem pausedChain_job :
    (pausedChain.reg.jobs.getJobParts 0).map (fun parts => (parts.1.owner, parts.2.balance)) =
      some (⟨5⟩, 40) := by decide

theorem pausedChain_keeper :
    (pausedChain.reg.keepers.infos.get ⟨4⟩).map Keeper.unbondingAt = some none := by decide

theorem exits_open_paused :
    (∃ c', cancelJob plainHost ⟨[⟨5⟩]⟩ pausedChain 0 = .ok (40, c')) ∧
      (∃ c', withdrawJobBalance plainHost ⟨[⟨5⟩]⟩ pausedChain 0 15 = .ok (25, c')) ∧
      ∃ release c', beginUnbonding plainHost ⟨[⟨4⟩]⟩ pausedChain ⟨4⟩ = .ok (release, c') ∧
        PaysStake plainHost ((machine plainHost).run c' [.advance 3000000]) ⟨4⟩ 100 := by
  have halong : (machine plainHost).Along (Admissible plainHost) pausedStart pausedRun :=
    Machine.along_append.mpr ⟨firstRun_admissible _, trivial, trivial⟩
  obtain ⟨hjobs, hkeepers⟩ := exits_open plainHost_paysOut
    (deployment_deployed ⟨3⟩ 10 1000 (by decide) (by decide)) halong
  obtain ⟨⟨spec, state⟩, hparts, hfields⟩ := Option.map_eq_some_iff.mp pausedChain_job
  obtain ⟨howner, hbalance⟩ := Prod.mk.inj hfields
  dsimp only at howner hbalance
  obtain ⟨⟨c', hcancel, -⟩, hwithdraw⟩ :=
    hjobs 0 spec state ⟨[⟨5⟩]⟩ hparts (List.mem_singleton.mpr howner)
  obtain ⟨c₁, hpart, -⟩ := hwithdraw 15 (by decide) (by omega)
  have hledger : jobLedger (jobActs 0 ((machine plainHost).outputs pausedStart pausedRun)) =
      40 := by
    decide
  have hrest : state.balance - 15 = 25 := by omega
  obtain ⟨info, hinfo, hbonded⟩ := Option.map_eq_some_iff.mp pausedChain_keeper
  obtain ⟨release, c₂, hbegin, hle, hpaid⟩ := hkeepers ⟨4⟩ info ⟨[⟨4⟩]⟩ hinfo hbonded (by simp)
  have hstake : stakeLedger (keeperActs ⟨4⟩ ((machine plainHost).outputs pausedStart
      (pausedRun ++ [.call ⟨[⟨4⟩]⟩ (.keeper (.beginUnbonding ⟨4⟩)), .advance 3000000]))) = 100 := by
    decide
  have hclock : release ≤ 3000000 := hle.trans (by decide)
  have hend := hpaid [.advance 3000000] ⟨(by decide : 3000000 ≤ u64Max), trivial⟩
    (by simp [machine, acts, keeperActs]) (hclock.trans (le_max_right _ _))
  exact ⟨⟨c', hledger ▸ hcancel⟩, ⟨c₁, hrest ▸ hpart⟩, release, c₂, hbegin, hstake ▸ hend⟩

end SoroCron
