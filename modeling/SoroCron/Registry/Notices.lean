import Mathlib.Logic.Function.Basic
import SoroCron.Registry.Index
import SoroCron.Registry.Records

/-! # What events tell

The registry publishes every change of a job, of a keeper or of its settings at the moment it
makes it. A step is a sequence of such changes, each with its events, and the log grows by
exactly these.
-/

namespace SoroCron

open Outcome Bounded

variable {World : Type} {host : Host World} {ctx : Ctx} {c c' : Chain World} {now : Timestamp}

/-! ## Pictures -/

/-- The part of the registry that its events speak of. -/
structure Picture where
  jobs : JobTable
  records : Address → Option KeeperRecord
  treasury : Option Address

def Registry.picture (reg : Registry) : Picture where
  jobs := reg.jobs
  records := reg.keepers.recordOf
  treasury := reg.config.treasury

/-- A call in progress, with its keeper's record as it will be written back. -/
def Batch.picture (keeper : Address) (b : Batch World) : Picture where
  jobs := b.chain.reg.jobs
  records := Function.update b.chain.reg.keepers.recordOf keeper (some b.record)
  treasury := b.chain.reg.config.treasury

/-! ## Notices -/

/-- The events of one change, and the run that made it if a run did. -/
structure Notice (World : Type) where
  events : List Event
  run : Option (Execution World) := none

def Execution.notice (execution : Execution World) : Notice World where
  events := execution.published.map Prod.snd
  run := some execution

theorem Ran.notice_events {e : Execution World} {r : Receipt World}
    (hran : Ran host e.executor e.keeper e.jobId e.before e.after r) :
    e.notice.events = r.events host e.before.chain.reg e.before.chain.now e.keeper e.jobId := by
  rw [Execution.notice, Execution.published, hran.published, List.map_map]
  exact List.map_id _

/-- A change at time `now` and what the registry published with it. -/
inductive Told (host : Host World) (now : Timestamp) : Notice World → Picture → Picture → Prop where
  | created {p : Picture} {owner : Address} {params : JobParams} {deposit : ℤ}
      (hsound : p.jobs.Sound)
      (hunoffered : p.jobs.pendingOwners.get p.jobs.nextJobId = none) :
      Told host now
        { events := [.jobCreated p.jobs.nextJobId owner params.target (params.toSpec owner).interval
          params.feePerRun deposit] }
        p { p with jobs := p.jobs.withJob now owner params deposit }
  | updated {p : Picture} {id : JobId} {update : JobUpdate} {spec : JobSpec} {state : JobState}
      {interval leaderRuns : ℕ} (hparts : p.jobs.getJobParts id = some (spec, state)) :
      Told host now
        { events := [.jobUpdated id interval update.feePerRun update.maxRuns update.endAt] }
        p { p with
          jobs := (p.jobs.setSpec id (update.applyTo spec interval)).setState id { state with
          nextRun := update.nextRun spec state now, leaderRuns } }
  | funded {p : Picture} {id : JobId} {payer : Address} {amount : ℤ} {spec : JobSpec}
      {state : JobState}
      (hparts : p.jobs.getJobParts id = some (spec, state)) :
      Told host now { events := [.jobFunded id payer amount (state.balance + amount)] }
        p { p with jobs := p.jobs.setState id { state with balance := state.balance + amount } }
  | withdrawn {p : Picture} {id : JobId} {amount : ℤ} {spec : JobSpec} {state : JobState}
      (hparts : p.jobs.getJobParts id = some (spec, state)) :
      Told host now { events := [.jobWithdrawn id amount (state.balance - amount)] }
        p { p with jobs := p.jobs.setState id { state with balance := state.balance - amount } }
  | activeSet {p : Picture} {id : JobId} {active : Bool} {spec : JobSpec} {state : JobState}
      (hparts : p.jobs.getJobParts id = some (spec, state)) :
      Told host now { events := [.jobActiveSet id active] }
        p { p with jobs := p.jobs.setState id { state with
          active, failures := if active then 0 else state.failures } }
  | offered {p : Picture} {id : JobId} {newOwner : Address} {spec : JobSpec} {state : JobState}
      (hparts : p.jobs.getJobParts id = some (spec, state)) :
      Told host now { events := [.jobOwnerProposed id spec.owner newOwner] }
        p { p with jobs := if newOwner = spec.owner then p.jobs.removePendingOwner id
            else p.jobs.setPendingOwner id newOwner }
  | handedOver {p : Picture} {id : JobId} {newOwner : Address} {spec : JobSpec} {state : JobState}
      (hparts : p.jobs.getJobParts id = some (spec, state)) :
      Told host now { events := [.jobOwnerChanged id spec.owner newOwner] }
        p { p with
          jobs := (((p.jobs.removePendingOwner id).removeOwnerJob spec.owner id).addOwnerJob
          newOwner id).setSpec id { spec with owner := newOwner } }
  | cancelled {p : Picture} {id : JobId} {spec : JobSpec} {state : JobState}
      (hparts : p.jobs.getJobParts id = some (spec, state)) :
      Told host now { events := [.jobCancelled id state.balance] }
        p { p with jobs := (p.jobs.removeJob id).removeOwnerJob spec.owner id }
  | ran {execution : Execution World} {r : Receipt World} (hnow : execution.before.chain.now = now)
      (hjobs : execution.before.chain.reg.jobs.Sound)
      (hconfig : execution.before.chain.reg.config.Sound)
      (hran : Ran host execution.executor execution.keeper execution.jobId execution.before
        execution.after r) :
      Told host now execution.notice (execution.before.picture execution.keeper)
        (execution.after.picture execution.keeper)
  | registered {p : Picture} {who : Address} {amount : ℤ} {record : KeeperRecord}
      (habsent : p.records who = none)
        (hfresh : record.info = { Keeper.fresh with stake := amount }) :
      Told host now { events := [.keeperStaked who amount amount] }
        p { p with records := Function.update p.records who (some record) }
  | staked {p : Picture} {who : Address} {amount : ℤ} {record : KeeperRecord}
      (hfound : p.records who = some record) :
      Told host now { events := [.keeperStaked who amount (record.info.stake + amount)] }
        p { p with records := Function.update p.records who (some { record with
          info := { record.info with stake := record.info.stake + amount } }) }
  | unbonded {p : Picture} {who : Address} {release : Timestamp} {record : KeeperRecord}
      (hfound : p.records who = some record) :
      Told host now { events := [.keeperUnbonding who release] }
        p { p with records := Function.update p.records who (some { record with
          info := { record.info with unbondingAt := some release } }) }
  | released {p : Picture} {who : Address} {record : KeeperRecord}
      (hfound : p.records who = some record) :
      Told host now { events := [.keeperWithdrawn who record.info.stake] }
        p { p with records := Function.update p.records who none }
  | configured {p : Picture} {call : AdminCall} {reg : Registry}
      (htreasury : p.treasury = reg.config.treasury) :
      Told host now { events := [call.event reg now] }
        p { p with treasury := (call.regAfter reg now).config.treasury }

/-- The log grew by what was told. -/
def LogGrew (now : Timestamp) (notices : List (Notice World))
    (before after : List (Timestamp × Event)) : Prop :=
  after = before ++ (notices.flatMap Notice.events).map (now, ·)

theorem LogGrew.append {first second : List (Notice World)}
    {before middle after : List (Timestamp × Event)}
    (hfirst : LogGrew now first before middle) (hsecond : LogGrew now second middle after) :
    LogGrew now (first ++ second) before after := by
  unfold LogGrew
  rw [hsecond, hfirst, List.append_assoc, ← List.map_append, ← List.flatMap_append]

theorem LogGrew.nil (log : List (Timestamp × Event)) :
    LogGrew now ([] : List (Notice World)) log log :=
  (List.append_nil log).symm

theorem LogGrew.one (event : Event) (log : List (Timestamp × Event)) :
    LogGrew now [({ events := [event] } : Notice World)] log (log ++ [(now, event)]) := rfl

theorem LogGrew.events {notices : List (Notice World)} {before after : List (Timestamp × Event)}
    (h : LogGrew now notices before after) :
    after.map Prod.snd = before.map Prod.snd ++ notices.flatMap Notice.events := by
  rw [h, List.map_append, List.map_map]
  congr 1
  exact List.map_id _

/-- Everything a call or step told on the way from `c` to `c'`. -/
structure TellsOf (host : Host World) (c c' : Chain World) (notices : List (Notice World)) :
    Prop where
  life : Life (Told host c.now) notices c.reg.picture c'.reg.picture
  log : LogGrew c.now notices c.log c'.log

theorem TellsOf.none (hpicture : c'.reg.picture = c.reg.picture) (hlog : c'.log = c.log) :
    TellsOf host c c' [] := by
  refine ⟨?_, ?_⟩
  · rw [hpicture]
    exact .nil _
  · rw [hlog]
    exact .nil _

/-- What is told depends on the time, the registry and the log only. -/
theorem TellsOf.of_same {c₁ : Chain World} {notices : List (Notice World)}
    (h : TellsOf host c₁ c' notices)
    (hnow : c₁.now = c.now) (hreg : c₁.reg = c.reg) (hlog : c₁.log = c.log) :
    TellsOf host c c' notices := by
  obtain ⟨hlife, hgrew⟩ := h
  rw [hnow, hreg] at hlife
  rw [hnow, hlog] at hgrew
  exact ⟨hlife, hgrew⟩

theorem TellsOf.one {event : Event}
    (hlog : c'.log = c.log ++ [(c.now, event)])
    (htold : Told host c.now { events := [event] } c.reg.picture c'.reg.picture) :
    TellsOf host c c' [{ events := [event] }] := by
  refine ⟨.single htold, ?_⟩
  rw [hlog]
  exact .one event c.log

/-! ## Jobs -/

theorem insertJobs_tells (host : Host World) {owner : Address} {jobs : List (JobParams × ℤ)}
    {ids : List JobId}
    (h : insertJobs owner jobs c = .ok (ids, c')) (hjobs : c.reg.jobs.Sound) (hnow : c.now ≤ u64Max)
    (hunoffered : ∀ id, c.reg.jobs.nextJobId ≤ id → c.reg.jobs.pendingOwners.get id = none)
    (hvalid : ∀ pair ∈ jobs, (pair.1.WellTyped ∧ pair.2 ≤ i128Max) ∧
      ∃ reg, validateJob host reg pair.1 pair.2 = .ok ()) :
    ∃ notices, TellsOf host c c' notices ∧ notices.filterMap Notice.run = [] := by
  induction jobs generalizing c ids with
  | nil =>
      simp only [insertJobs, Except.ok.injEq, Prod.mk.injEq] at h
      exact ⟨[], .none (by rw [h.2]) (by rw [h.2]), rfl⟩
  | cons pair rest ih =>
      obtain ⟨params, deposit⟩ := pair
      simp only [insertJobs, bind_eq_ok, Prod.exists, insertJob_eq_ok, pure_eq_ok,
        Prod.mk.injEq] at h
      obtain ⟨_, next, ⟨-, rfl, rfl⟩, others, last, hrest, -, rfl⟩ := h
      obtain ⟨⟨htyped, hdeposit⟩, reg, hchecked⟩ := hvalid _ List.mem_cons_self
      have hsound := withJob_sound owner hjobs hnow htyped hchecked hdeposit
      have htail := ih hrest hsound hnow ?_ ?_
      · obtain ⟨notices, htells, hruns⟩ := htail
        have hfirst : Told host c.now _ c.reg.picture
            { c.reg.picture with jobs := c.reg.picture.jobs.withJob c.now owner params deposit } :=
          .created hjobs (hunoffered _ le_rfl)
        exact ⟨_ :: notices, ⟨.cons hfirst htells.life, (LogGrew.one _ c.log).append htells.log⟩,
          hruns⟩
      · intro id hid
        exact hunoffered id (Nat.le_of_succ_le hid)
      · intro pair hpair
        exact hvalid pair (List.mem_cons_of_mem _ hpair)

theorem jobCall_tells {call : JobCall} (h : jobCall host ctx c call = .ok c')
    (htyped : Call.WellTyped (.job call)) (hsound : c.Sound host)
    (hunoffered : ∀ id, c.reg.jobs.nextJobId ≤ id → c.reg.jobs.pendingOwners.get id = none) :
    ∃ notices, TellsOf host c c' notices ∧ notices.filterMap Notice.run = [] := by
  have hjobs := hsound.jobs
  cases call with
  | createJob owner params deposit =>
      obtain ⟨created, h⟩ := Result.chain_eq_ok.mp h
      obtain ⟨-, -, hvalid, paid, hpaid, hinsert⟩ := createJob_eq_ok h
      obtain ⟨-, rfl⟩ := Chain.transfer_eq_ok.mp hpaid
      have hinserted := insertJobs_tells host
        (insertJobs_one hinsert) hjobs hsound.clock hunoffered ?_
      · obtain ⟨notices, htells, hruns⟩ := hinserted
        exact ⟨notices, htells.of_same rfl rfl rfl, hruns⟩
      · intro pair hpair
        cases List.mem_singleton.mp hpair
        exact ⟨htyped, c.reg, hvalid⟩
  | createJobs owner jobs deposits =>
      obtain ⟨created, h⟩ := Result.chain_eq_ok.mp h
      obtain ⟨-, -, -, hvalid, paid, hpaid, hinsert⟩ := createJobs_eq_ok h
      obtain ⟨-, rfl⟩ := Chain.transfer_eq_ok.mp hpaid
      have hinserted := insertJobs_tells host hinsert hjobs hsound.clock hunoffered ?_
      · obtain ⟨notices, htells, hruns⟩ := hinserted
        exact ⟨notices, htells.of_same rfl rfl rfl, hruns⟩
      · intro pair hpair
        obtain ⟨hparams, hdeposit⟩ := List.of_mem_zip hpair
        exact ⟨⟨htyped.1 _ hparams, htyped.2 _ hdeposit⟩, c.reg, hvalid pair hpair⟩
  | updateJob jobId update =>
      obtain ⟨-, spec, state, interval, leaderRuns, hparts, -, -, -, rfl⟩ := updateJob_eq_ok h
      exact ⟨_, .one rfl (.updated hparts), rfl⟩
  | fundJob payer jobId amount =>
      obtain ⟨balance, h⟩ := Result.chain_eq_ok.mp h
      obtain ⟨-, -, state, hstate, rfl, -, rfl⟩ := fundJob_eq_ok h
      obtain ⟨spec, hspec⟩ := hjobs.spec_of_state hstate
      exact ⟨_, .one rfl (.funded (JobTable.getJobParts_eq_some.mpr ⟨hspec, hstate⟩)), rfl⟩
  | cancelJob jobId =>
      obtain ⟨refund, h⟩ := Result.chain_eq_ok.mp h
      obtain ⟨spec, state, paid, hparts, -, hpaid, -, rfl⟩ := cancelJob_eq_ok.mp h
      have hframe := Chain.payOut_frame hpaid
      refine ⟨_, .one (by rw [hframe]; rfl) ?_, rfl⟩
      rw [hframe]
      exact .cancelled hparts
  | withdrawJobBalance jobId amount =>
      obtain ⟨balance, h⟩ := Result.chain_eq_ok.mp h
      obtain ⟨spec, state, hparts, -, -, -, rfl, -, -, paid, hpaid, rfl⟩ :=
        withdrawJobBalance_eq_ok.mp h
      obtain ⟨-, rfl⟩ := Chain.transfer_eq_ok.mp hpaid
      exact ⟨_, .one rfl (.withdrawn hparts), rfl⟩
  | setJobActive jobId active =>
      obtain ⟨spec, state, hparts, -, rfl⟩ := setJobActive_eq_ok h
      exact ⟨_, .one rfl (.activeSet hparts), rfl⟩
  | proposeJobOwner jobId newOwner =>
      obtain ⟨spec, hspec, -, rfl⟩ := proposeJobOwner_eq_ok h
      obtain ⟨state, hstate⟩ := hjobs.state_of_spec hspec
      exact ⟨_, .one rfl (.offered (JobTable.getJobParts_eq_some.mpr ⟨hspec, hstate⟩)), rfl⟩
  | acceptJobOwner jobId =>
      obtain ⟨spec, newOwner, hspec, -, -, rfl⟩ := acceptJobOwner_eq_ok h
      obtain ⟨state, hstate⟩ := hjobs.state_of_spec hspec
      exact ⟨_, .one rfl (.handedOver (JobTable.getJobParts_eq_some.mpr ⟨hspec, hstate⟩)), rfl⟩

/-! ## Keepers -/

section Keepers

variable {keepers : KeeperTable} {who : Address}

theorem recordOf_setKeeper_eq (info : Keeper) : (keepers.setKeeper who info).recordOf =
    Function.update keepers.recordOf who (some (KeeperRecord.load keepers who info)) := by
  funext other
  rw [recordOf_setKeeper, Function.update_apply]

theorem recordOf_removeKeeper_eq : (keepers.removeKeeper who).recordOf =
    Function.update keepers.recordOf who none := by
  funext other
  rw [recordOf_removeKeeper, Function.update_apply]

theorem recordOf_save_eq (record : KeeperRecord) : (record.save keepers who).recordOf =
    Function.update keepers.recordOf who (some record) := by
  funext other
  rw [recordOf_save, Function.update_apply]

theorem releaseStake_tells {amount : ℤ} (h : releaseStake host c who = .ok (amount, c')) :
    TellsOf host c c' [{ events := [.keeperWithdrawn who amount] }] := by
  obtain ⟨info, release, paid, hinfo, -, -, hpaid, rfl, rfl⟩ := releaseStake_eq_ok.mp h
  have hframe := Chain.payOut_frame hpaid
  have hfound : c.reg.picture.records who = some (KeeperRecord.load c.reg.keepers who info) := by
    change (c.reg.keepers.infos.get who).map _ = _
    rw [hinfo, Option.map_some]
  have hreleased : (paid.publish (.keeperWithdrawn who info.stake)).reg.picture =
      { c.reg.picture with records := Function.update c.reg.picture.records who none } := by
    rw [hframe]
    exact congrArg (fun records => ({ c.reg.picture with records } : Picture))
      recordOf_removeKeeper_eq
  refine .one (by rw [hframe]; rfl) ?_
  rw [hreleased]
  exact .released hfound

/-- A list of releases tells each of them. -/
theorem releaseStakes_tells {keepers : List Address} {amounts : List ℤ}
    (h : releaseStakes host keepers c = .ok (amounts, c')) :
    ∃ notices, TellsOf host c c' notices ∧ notices.filterMap Notice.run = [] := by
  have hlast := releaseStakes_history
    (I := fun _ middle => middle.now = c.now ∧
      ∃ notices, TellsOf host c middle notices ∧ notices.filterMap Notice.run = []) ?_ []
    ⟨rfl, [], .none rfl rfl, rfl⟩ h
  · exact hlast.2
  · rintro past middle after keeper amount ⟨hnow, notices, htells, hruns⟩ hrelease
    obtain ⟨hlife, hlog⟩ := releaseStake_tells hrelease
    rw [hnow] at hlife hlog
    refine ⟨(releaseStake_keepersOnly hrelease).1.now.trans hnow, _,
      ⟨htells.life.append hlife, htells.log.append hlog⟩, ?_⟩
    rw [List.filterMap_append, hruns]
    rfl

theorem keeperCall_tells {call : KeeperCall} (h : keeperCall host ctx c call = .ok c') :
    ∃ notices, TellsOf host c c' notices ∧ notices.filterMap Notice.run = [] := by
  cases call with
  | stake keeper amount =>
      obtain ⟨total, h⟩ := Result.chain_eq_ok.mp h
      obtain ⟨-, -, info, hinfo, -, rfl, -, rfl⟩ := stake_eq_ok h
      refine ⟨_, .one rfl ?_, rfl⟩
      change Told host c.now _ _ { c.reg.picture with
        records := (c.reg.keepers.setKeeper keeper _).recordOf }
      rw [recordOf_setKeeper_eq]
      cases hget : c.reg.keepers.infos.get keeper with
      | none =>
          rw [hget, Option.getD_none] at hinfo
          subst hinfo
          have habsent : c.reg.picture.records keeper = none := by
            change (c.reg.keepers.infos.get keeper).map _ = _
            rw [hget, Option.map_none]
          have hstake : Keeper.fresh.stake + amount = amount := zero_add amount
          rw [hstake]
          exact .registered habsent rfl
      | some stored =>
          rw [hget, Option.getD_some] at hinfo
          subst hinfo
          have hfound : c.reg.picture.records keeper =
              some (KeeperRecord.load c.reg.keepers keeper info) := by
            change (c.reg.keepers.infos.get keeper).map _ = _
            rw [hget, Option.map_some]
          exact .staked hfound
  | beginUnbonding keeper =>
      obtain ⟨release, h⟩ := Result.chain_eq_ok.mp h
      obtain ⟨-, info, hinfo, -, -, rfl⟩ := beginUnbonding_eq_ok.mp h
      have hfound : c.reg.picture.records keeper =
          some (KeeperRecord.load c.reg.keepers keeper info) := by
        change (c.reg.keepers.infos.get keeper).map _ = _
        rw [hinfo, Option.map_some]
      refine ⟨_, .one rfl ?_, rfl⟩
      change Told host c.now _ _ { c.reg.picture with
        records := (c.reg.keepers.setKeeper keeper _).recordOf }
      rw [recordOf_setKeeper_eq]
      exact .unbonded hfound
  | withdrawStake keeper =>
      obtain ⟨amount, h⟩ := Result.chain_eq_ok.mp h
      exact ⟨_, releaseStake_tells (withdrawStake_eq_ok.mp h).2, rfl⟩
  | withdrawStakes keepers =>
      obtain ⟨amounts, h⟩ := Result.chain_eq_ok.mp h
      exact releaseStakes_tells (withdrawStakes_eq_ok.mp h).2

end Keepers

/-! ## Runs -/

section Runs

variable {executor keeper : Address} {info : Keeper} {b : Batch World}

theorem runJobs_tells {jobIds : List JobId} {ran : List Bool} (hsound : c.Sound host)
    (hinfo : c.reg.keepers.infos.get keeper = some info)
    (h : runJobs host executor keeper jobIds (startBatch c keeper info) = .ok (ran, b)) :
    Life (Told host c.now)
        ((runsOf host executor keeper jobIds (startBatch c keeper info)).map Execution.notice)
        c.reg.picture (b.picture keeper) ∧
      LogGrew c.now
        ((runsOf host executor keeper jobIds (startBatch c keeper info)).map Execution.notice)
        c.log b.chain.log := by
  let I : List (Execution World) → Batch World → Prop := fun past b => UnderwaySound c info b ∧
    Life (Told host c.now) (past.map Execution.notice) c.reg.picture (b.picture keeper) ∧
    LogGrew c.now (past.map Execution.notice) c.log b.chain.log
  have hlast : I ([] ++ runsOf host executor keeper jobIds (startBatch c keeper info)) b := by
    refine runJobs_history ?_ ?_ [] ?_ h
    · rintro past b jobId spec ⟨hunder, hlife, hlog⟩
      exact ⟨hunder.asked jobId spec, hlife, hlog⟩
    · rintro past b b' jobId r ⟨hunder, hlife, hlog⟩ hran
      let execution : Execution World := { jobId, executor, keeper, before := b, after := b' }
      have htold : Told host c.now execution.notice (b.picture keeper) (b'.picture keeper) :=
        .ran hunder.now hunder.jobs (hunder.toUnderway.config ▸ hsound.config) hran
      have hpublished : LogGrew c.now [execution.notice] b.chain.log b'.chain.log := by
        change b'.chain.log = b.chain.log ++
          ([execution.notice].flatMap Notice.events).map (c.now, ·)
        rw [List.flatMap_singleton, Execution.notice, Execution.published, hran.published,
          List.map_map, List.map_map, hran.log, hunder.now]
        rfl
      refine ⟨hunder.ran hsound.config hran, ?_, ?_⟩
      · rw [List.map_append]
        exact hlife.append (.single htold)
      · rw [List.map_append]
        exact hlog.append hpublished
    · refine ⟨UnderwaySound.start hsound.jobs keeper info, ?_, .nil _⟩
      have hloaded : c.reg.keepers.recordOf keeper =
          some (KeeperRecord.load c.reg.keepers keeper info) := by
        rw [KeeperTable.recordOf, hinfo, Option.map_some]
      have hrecords : Function.update c.reg.keepers.recordOf keeper
          (some (KeeperRecord.load c.reg.keepers keeper info)) = c.reg.keepers.recordOf := by
        rw [← hloaded, Function.update_eq_self]
      have hsame : (startBatch c keeper info).picture keeper = c.reg.picture :=
        congrArg (fun records => (⟨c.reg.jobs, records, c.reg.config.treasury⟩ : Picture)) hrecords
      rw [hsame]
      exact .nil _
  exact hlast.2

/-- The runs among everything done. -/
def runsMade (done : List (Act World)) : List (Execution World) :=
  runsIn ((jobSteps done).map Prod.snd)

theorem runsMade_ran (runs : List (Execution World)) :
    runsMade (runs.map fun execution => .job execution.jobId (.ran execution)) = runs := by
  induction runs with
  | nil => rfl
  | cons execution rest ih => exact congrArg (execution :: ·) ih

theorem mem_runsMade {done : List (Act World)} {execution : Execution World} :
    execution ∈ runsMade done ↔ ∃ id, .job id (.ran execution) ∈ done := by
  simp only [runsMade, runsIn, jobSteps, List.mem_filterMap, List.mem_map, Prod.exists]
  constructor
  · rintro ⟨_, ⟨id, act, ⟨found, hmem, hsome⟩, rfl⟩, hran⟩
    cases act with
    | ran e =>
        cases hran
        cases found with
        | keeper who act => cases hsome
        | job other act =>
            cases hsome
            exact ⟨_, hmem⟩
    | _ => cases hran
  · rintro ⟨id, hmem⟩
    exact ⟨.ran execution, ⟨id, .ran execution, ⟨_, hmem, rfl⟩, rfl⟩, rfl⟩

/-- Only calls that run jobs make runs. -/
theorem runsMade_eq_nil {action : Action World} (h : ∀ ctx call, action ≠ .call ctx (.run call)) :
    runsMade (acts host c action) = [] := by
  apply List.eq_nil_iff_forall_not_mem.mpr
  intro execution hmem
  obtain ⟨id, hran⟩ := mem_runsMade.mp hmem
  obtain ⟨ctx, call, -, -, -, -, rfl, -⟩ := ran_mem_acts hran
  exact h ctx call rfl

theorem runCall_tells {call : RunCall} (hsound : c.Sound host)
    (h : runCall host ctx c call = .ok c') : ∃ notices, TellsOf host c c' notices ∧
      notices = (runsMade (actsOf host ctx c (.run call))).map Execution.notice := by
  obtain ⟨executor, info, ran, b, hauth, hruns, hfinish, hacts⟩ := runCall_eq_ok h
  obtain ⟨-, -, -, hinfo, -⟩ := authorizeKeeper_eq_ok.mp hauth
  have hunder := runJobs_underway hsound.config hsound.jobs hruns
  obtain ⟨hlife, hlog⟩ := runJobs_tells hsound hinfo hruns
  refine ⟨_, ⟨?_, ?_⟩, rfl⟩
  · rw [hacts, runsMade_ran, finish_eq_ok hunder.keeperFees hunder.protocolFees hfinish]
    have hsaved : ({ b.chain.reg with keepers := b.record.save b.chain.reg.keepers call.keeper } :
        Registry).picture = b.picture call.keeper :=
      congrArg (fun records => (⟨b.chain.reg.jobs, records, b.chain.reg.config.treasury⟩ : Picture))
        (recordOf_save_eq b.record)
    exact hsaved ▸ hlife
  · rw [hacts, runsMade_ran, finish_eq_ok hunder.keeperFees hunder.protocolFees hfinish]
    exact hlog

end Runs

/-! ## Steps -/

/-- No job is offered before its id is issued. -/
theorem Reachable.unoffered (hreach : Reachable host c) {id : JobId}
    (hid : c.reg.jobs.nextJobId ≤ id) : c.reg.jobs.pendingOwners.get id = none := by
  obtain ⟨past, hindexed⟩ := hreach.indexed
  cases hoffered : c.reg.jobs.pendingOwners.get id with
  | none => rfl
  | some newOwner =>
      obtain ⟨owner, howner, -⟩ := hindexed.offered id newOwner hoffered
      rw [JobTable.ownerOf, (hreach.sound.jobs.fresh hid).1] at howner
      cases howner

/-- Every step tells all it changes, and only its runs tell of runs. -/
theorem step_tells (action : Action World) (hsound : c.Sound host) (hadm : Admissible host c action)
    (hunoffered : ∀ id, c.reg.jobs.nextJobId ≤ id → c.reg.jobs.pendingOwners.get id = none) :
    ∃ notices, TellsOf host c (step host c action) notices ∧
      notices.filterMap Notice.run = runsMade (acts host c action) := by
  cases action with
  | call ctx call =>
      rcases step_call_cases host c ctx call with ⟨hcall, hacts⟩ | ⟨hsame, hacts⟩
      · cases call with
        | job call =>
            obtain ⟨notices, htells, hruns⟩ := jobCall_tells hcall hadm hsound hunoffered
            exact ⟨notices, htells, hruns.trans (runsMade_eq_nil (by simp)).symm⟩
        | run call =>
            obtain ⟨notices, htells, rfl⟩ := runCall_tells hsound hcall
            refine ⟨_, htells, ?_⟩
            rw [hacts, List.filterMap_map]
            exact List.filterMap_some
        | keeper call =>
            obtain ⟨notices, htells, hruns⟩ := keeperCall_tells hcall
            exact ⟨notices, htells, hruns.trans (runsMade_eq_nil (by simp)).symm⟩
        | admin call =>
            obtain ⟨-, -, hreg⟩ := adminCall_eq_ok hcall
            have hframe := adminCall_settingsOnly call c.reg c.now
            have hpicture : (call.regAfter c.reg c.now).picture =
                { c.reg.picture with treasury := (call.regAfter c.reg c.now).config.treasury } := by
              rw [Registry.picture, hframe.jobs, hframe.keepers]
              rfl
            have htold : Told host c.now { events := [call.event c.reg c.now] } c.reg.picture
                (call.regAfter c.reg c.now).picture := by
              rw [hpicture]
              exact .configured rfl
            rw [hreg]
            exact ⟨_, .one rfl htold, (runsMade_eq_nil (by simp)).symm⟩
      · rw [hacts]
        exact ⟨[], .none (by rw [hsame]) (by rw [hsame]), rfl⟩
  | _ => exact ⟨[], .none rfl rfl, rfl⟩

theorem Reachable.tells (hreach : Reachable host c) (action : Action World)
    (hadm : Admissible host c action) :
    ∃ notices, TellsOf host c (SoroCron.step host c action) notices ∧
      notices.filterMap Notice.run = runsMade (acts host c action) :=
  step_tells action hreach.sound hadm fun _ => hreach.unoffered

end SoroCron
