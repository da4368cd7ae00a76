import SoroCron.Foundation.Replay
import SoroCron.Registry.Entries
import SoroCron.Registry.Notices

/-! # A ledger kept from events

What a reader of the registry's events can know of its jobs and keepers. Every change brings the
ledger up to date with what is stored.
-/

namespace SoroCron

open Outcome Bounded Replay

variable {World : Type} {host : Host World} {now : Timestamp} {notice : Notice World}
  {p p' : Picture}

/-! ## The ledger -/

structure LedgerJob where
  owner : Address
  pendingOwner : Option Address
  balance : ℤ
  runs : ℕ
  failures : ℕ
  active : Bool

structure LedgerKeeper where
  stake : ℤ
  withdrawableAt : Option Timestamp
  executions : ℕ
  totalLateness : ℕ
  missed : ℕ

def LedgerJob.created (owner : Address) (deposit : ℤ) : LedgerJob where
  owner := owner
  pendingOwner := none
  balance := deposit
  runs := 0
  failures := 0
  active := true

/-- A keeper after it staked; its first stake registers it. -/
def LedgerKeeper.staked (found : Option LedgerKeeper) (amount : ℤ) : LedgerKeeper :=
  match found with
  | some record => { record with stake := record.stake + amount }
  | none =>
      { stake := amount, withdrawableAt := none, executions := 0, totalLateness := 0, missed := 0 }

structure Ledger where
  jobs : JobId → Option LedgerJob
  keepers : Address → Option LedgerKeeper
  treasury : Option Address

namespace Ledger

def empty : Ledger where
  jobs _ := none
  keepers _ := none
  treasury := none

/-- The ledger after one more event. -/
def apply (ledger : Ledger) : Event → Ledger
  | .jobCreated id owner _ _ _ deposit =>
      { ledger with jobs := Function.update ledger.jobs id (some (.created owner deposit)) }
  | .jobFunded id _ amount _ =>
      { ledger with
        jobs := amend ledger.jobs id fun job => { job with balance := job.balance + amount } }
  | .jobWithdrawn id amount _ =>
      { ledger with
        jobs := amend ledger.jobs id fun job => { job with balance := job.balance - amount } }
  | .jobExecuted id keeper _ fee _ run _ lateness failures _ =>
      { ledger with
        jobs := amend ledger.jobs id fun job =>
          { job with balance := job.balance - fee, runs := run, failures }
        keepers := amend ledger.keepers keeper fun record =>
          { record with
            executions := satAdd32 record.executions 1
            totalLateness := satAdd64 record.totalLateness lateness } }
  | .jobDeactivated id failures =>
      { ledger with jobs := amend ledger.jobs id fun job => { job with active := false, failures } }
  | .jobActiveSet id active =>
      { ledger with jobs := amend ledger.jobs id fun job =>
          { job with active, failures := if active then 0 else job.failures } }
  | .jobOwnerProposed id owner proposed =>
      { ledger with jobs := amend ledger.jobs id fun job =>
          { job with pendingOwner := if proposed = owner then none else some proposed } }
  | .jobOwnerChanged id _ newOwner =>
      { ledger with jobs := amend ledger.jobs id fun job =>
          { job with owner := newOwner, pendingOwner := none } }
  | .jobCancelled id _ => { ledger with jobs := Function.update ledger.jobs id none }
  | .keeperMissedWindow keeper _ _ =>
      { ledger with keepers := amend ledger.keepers keeper fun record =>
          { record with missed := satAdd32 record.missed 1 } }
  | .keeperStaked keeper amount _ =>
      let staked := LedgerKeeper.staked (ledger.keepers keeper) amount
      { ledger with keepers := Function.update ledger.keepers keeper (some staked) }
  | .keeperUnbonding keeper withdrawableAt =>
      { ledger with keepers := amend ledger.keepers keeper fun record =>
          { record with withdrawableAt := some withdrawableAt } }
  | .keeperWithdrawn keeper _ =>
      { ledger with keepers := Function.update ledger.keepers keeper none }
  | .protocolFeeSet _ treasury => { ledger with treasury }
  | _ => ledger

/-- The ledger that a log tells. -/
def ofLog (log : List (Timestamp × Event)) : Ledger := (log.map Prod.snd).foldl apply empty

end Ledger

/-! ## What is stored -/

/-- What the ledger should say about a job. -/
def JobTable.ledgerJob (jobs : JobTable) (id : JobId) : Option LedgerJob :=
  (jobs.getJobParts id).map fun (spec, state) =>
    { owner := spec.owner
      pendingOwner := jobs.pendingOwners.get id
      balance := state.balance
      runs := state.runs
      failures := state.failures
      active := state.active }

def KeeperRecord.ledgerKeeper (record : KeeperRecord) : LedgerKeeper where
  stake := record.info.stake
  withdrawableAt := record.info.unbondingAt
  executions := record.info.executions
  totalLateness := record.info.totalLateness
  missed := record.info.missed

def Picture.ledger (p : Picture) : Ledger where
  jobs := p.jobs.ledgerJob
  keepers who := (p.records who).map KeeperRecord.ledgerKeeper
  treasury := p.treasury

section Entries

variable {jobs jobs' : JobTable} {id other : JobId} {spec : JobSpec} {state : JobState}

/-- An entry depends on what is stored under its id. -/
theorem ledgerJob_congr (h : jobs'.entries id = jobs.entries id) :
    jobs'.ledgerJob id = jobs.ledgerJob id := by
  simp only [JobTable.entries, Prod.mk.injEq] at h
  obtain ⟨hspec, hstate, hpending⟩ := h
  simp only [JobTable.ledgerJob, JobTable.getJobParts, hspec, hstate, hpending]

theorem ledgerJob_of_parts (hparts : jobs.getJobParts id = some (spec, state)) :
    jobs.ledgerJob id = some
      { owner := spec.owner
        pendingOwner := jobs.pendingOwners.get id
        balance := state.balance
        runs := state.runs
        failures := state.failures
        active := state.active } := by
  rw [JobTable.ledgerJob, hparts, Option.map_some]

theorem ledgerJob_of_entries {pending : Option Address}
    (h : jobs.entries id = (some spec, some state, pending)) :
    jobs.ledgerJob id = some
      { owner := spec.owner
        pendingOwner := pending
        balance := state.balance
        runs := state.runs
        failures := state.failures
        active := state.active } := by
  simp only [JobTable.entries, Prod.mk.injEq] at h
  obtain ⟨hspec, hstate, rfl⟩ := h
  exact ledgerJob_of_parts (JobTable.getJobParts_eq_some.mpr ⟨hspec, hstate⟩)

theorem entries_of_parts (hparts : jobs.getJobParts id = some (spec, state)) :
    jobs.entries id = (some spec, some state, jobs.pendingOwners.get id) := by
  rw [JobTable.entries, JobTable.specs_get_of_parts hparts, JobTable.states_get_of_parts hparts]

theorem entries_setState (jobs : JobTable) (id other : JobId) (state : JobState) :
    (jobs.setState id state).entries other =
      if other = id then (jobs.specs.get id, some state, jobs.pendingOwners.get id)
        else jobs.entries other := by
  simp only [JobTable.entries, JobTable.setState_specs, JobTable.setState_states,
    JobTable.setState_pendingOwners, Store.get_set]
  split
  next heq => rw [heq]
  next => rfl

/-- The ledger of a table in which one job's state changed. -/
theorem ledgerJob_setState (hparts : jobs.getJobParts id = some (spec, state)) {state' : JobState}
    {change : LedgerJob → LedgerJob}
    (hchange : ∀ pendingOwner,
      change ⟨spec.owner, pendingOwner, state.balance, state.runs, state.failures,
      state.active⟩ = ⟨spec.owner, pendingOwner, state'.balance, state'.runs, state'.failures,
        state'.active⟩) :
    amend jobs.ledgerJob id change = (jobs.setState id state').ledgerJob := by
  have hentries := entries_of_parts hparts
  apply amend_eq
  · rw [ledgerJob_of_parts hparts, Option.map_some, hchange]
    apply ledgerJob_of_entries
    rw [entries_setState, if_pos rfl, JobTable.specs_get_of_parts hparts]
  · intro other hne
    apply ledgerJob_congr
    rw [entries_setState, if_neg hne]

theorem ledgerJob_withJob {owner : Address} {params : JobParams} {deposit : ℤ}
    (hunoffered : jobs.pendingOwners.get jobs.nextJobId = none) :
    Function.update jobs.ledgerJob jobs.nextJobId (some (LedgerJob.created owner deposit)) =
      (jobs.withJob now owner params deposit).ledgerJob := by
  apply update_eq
  · have hentries : (jobs.withJob now owner params deposit).entries jobs.nextJobId =
        (some (params.toSpec owner), some (params.toState jobs now deposit), none) := by
      simp [JobTable.entries, JobTable.withJob, hunoffered]
    exact ledgerJob_of_entries hentries
  · intro other hne
    apply ledgerJob_congr
    simp [JobTable.entries, JobTable.withJob, Store.get_set_of_ne _ _ hne]

/-- An update changes nothing the ledger keeps. -/
theorem ledgerJob_update {update : JobUpdate} {interval leaderRuns : ℕ} {nextRun : Timestamp}
    (hparts : jobs.getJobParts id = some (spec, state)) :
    ((jobs.setSpec id (update.applyTo spec interval)).setState id
      { state with nextRun, leaderRuns }).ledgerJob = jobs.ledgerJob := by
  funext other
  by_cases heq : other = id
  · subst heq
    have hentries : ((jobs.setSpec other (update.applyTo spec interval)).setState other
        { state with nextRun, leaderRuns }).entries other = (some (update.applyTo spec interval),
          some { state with nextRun, leaderRuns }, jobs.pendingOwners.get other) := by
      simp [JobTable.entries]
    have hentry := ledgerJob_of_entries hentries
    rw [ledgerJob_of_parts hparts]
    exact hentry
  · apply ledgerJob_congr
    simp [JobTable.entries, Store.get_set_of_ne _ _ heq]

theorem ledgerJob_offer {newOwner : Address} (hparts : jobs.getJobParts id = some (spec, state)) :
    amend jobs.ledgerJob id (fun job =>
        { job with pendingOwner := if newOwner = spec.owner then none else some newOwner }) =
      (if newOwner = spec.owner then jobs.removePendingOwner id
        else jobs.setPendingOwner id newOwner).ledgerJob := by
  have hspec := JobTable.specs_get_of_parts hparts
  have hstate := JobTable.states_get_of_parts hparts
  apply amend_eq
  · rw [ledgerJob_of_parts hparts, Option.map_some]
    split
    · apply ledgerJob_of_entries
      simp [JobTable.entries, hspec, hstate]
    · apply ledgerJob_of_entries
      simp [JobTable.entries, hspec, hstate]
  · intro other hne
    apply ledgerJob_congr
    split
    · simp [JobTable.entries, Store.get_remove_of_ne _ hne]
    · simp [JobTable.entries, Store.get_set_of_ne _ _ hne]

theorem ledgerJob_handOver {newOwner : Address}
    (hparts : jobs.getJobParts id = some (spec, state)) :
    amend jobs.ledgerJob id (fun job => { job with owner := newOwner, pendingOwner := none }) =
      ((((jobs.removePendingOwner id).removeOwnerJob spec.owner id).addOwnerJob newOwner id).setSpec
        id { spec with owner := newOwner }).ledgerJob := by
  have hstate := JobTable.states_get_of_parts hparts
  apply amend_eq
  · have hentries :
        ((((jobs.removePendingOwner id).removeOwnerJob spec.owner id).addOwnerJob newOwner id
          ).setSpec id { spec with owner := newOwner }).entries id =
          (some { spec with owner := newOwner }, some state, none) := by
      simp [JobTable.entries, hstate]
    rw [ledgerJob_of_parts hparts, Option.map_some]
    exact ledgerJob_of_entries hentries
  · intro other hne
    apply ledgerJob_congr
    simp [JobTable.entries, Store.get_set_of_ne _ _ hne, Store.get_remove_of_ne _ hne]

theorem ledgerJob_remove (owner : Address) : Function.update jobs.ledgerJob id none =
    ((jobs.removeJob id).removeOwnerJob owner id).ledgerJob := by
  apply update_eq
  · simp [JobTable.ledgerJob, JobTable.getJobParts]
  · intro other hne
    apply ledgerJob_congr
    simp [JobTable.entries, Store.get_remove_of_ne _ hne]

end Entries

/-- A keeper's entry follows its record. -/
theorem ledgerKeeper_update (records : Address → Option KeeperRecord) (who : Address)
    (found : Option KeeperRecord) :
    Function.update (fun other => (records other).map KeeperRecord.ledgerKeeper) who
        (found.map KeeperRecord.ledgerKeeper) =
      fun other => (Function.update records who found other).map KeeperRecord.ledgerKeeper := by
  apply update_eq
  · rw [Function.update_self]
  · intro other hne
    rw [Function.update_of_ne hne]

/-! ## One change -/

section Replay

/-- A change of jobs in the ledger. -/
theorem ledger_jobs {book : JobId → Option LedgerJob} {jobs : JobTable}
    (h : book = jobs.ledgerJob) :
    ({ p.ledger with jobs := book } : Ledger) = ({ p with jobs } : Picture).ledger := by
  rw [h]
  rfl

/-- A change of one keeper in the ledger. -/
theorem ledger_records {who : Address} {found : Option KeeperRecord} {entry : Option LedgerKeeper}
    (h : entry = found.map KeeperRecord.ledgerKeeper) :
    ({ p.ledger with keepers := Function.update p.ledger.keepers who entry } : Ledger) =
      ({ p with records := Function.update p.records who found } : Picture).ledger := by
  rw [h]
  exact congrArg (fun keepers => (⟨p.jobs.ledgerJob, keepers, p.treasury⟩ : Ledger))
    (ledgerKeeper_update p.records who found)

theorem keeper_of_record {who : Address} {found : Option KeeperRecord} (h : p.records who = found) :
    p.ledger.keepers who = found.map KeeperRecord.ledgerKeeper :=
  congrArg (Option.map KeeperRecord.ledgerKeeper) h

section Run

variable {executor keeper : Address} {jobId : JobId} {b b' : Batch World} {r : Receipt World}
  (ledger : Ledger)

theorem read_deactivated (condition : Prop) [Decidable condition] (failures : ℕ) :
    (if condition then [Event.jobDeactivated jobId failures] else []).foldl Ledger.apply ledger =
      { ledger with jobs := amend ledger.jobs jobId fun job =>
          if condition then { job with active := false, failures } else job } := by
  split
  · rfl
  · rw [amend_id]
    rfl

theorem read_exhausted (condition : Prop) [Decidable condition] (balance : ℤ) :
    (if condition then [Event.jobExhausted jobId balance] else []).foldl Ledger.apply ledger =
      ledger := by
  split
  · rfl
  · rfl

/-- One more missed window. -/
def LedgerKeeper.miss (record : LedgerKeeper) : LedgerKeeper :=
  { record with missed := satAdd32 record.missed 1 }

theorem read_miss (keepers : KeeperTable) (jobId : JobId) (ranBy : Address)
    {charged : Option Address} (hknown : ∀ missed ∈ charged, ledger.keepers missed =
      (keepers.recordOf missed).map KeeperRecord.ledgerKeeper) :
    (missEvents keepers jobId ranBy charged).foldl Ledger.apply ledger =
      { ledger with
        keepers := charged.elim ledger.keepers fun missed =>
          amend ledger.keepers missed LedgerKeeper.miss } := by
  cases charged with
  | none => rfl
  | some missed =>
      have hentry := hknown missed rfl
      simp only [missEvents]
      cases hinfo : keepers.infos.get missed with
      | some info => rfl
      | none =>
          -- Nobody is there to be charged, in the table or in the ledger.
          have hsame : amend ledger.keepers missed LedgerKeeper.miss = ledger.keepers := by
            apply amend_eq
            · rw [hentry, KeeperTable.recordOf, hinfo]
              rfl
            · exact fun _ _ => rfl
          rw [Option.elim_some, hsame]
          rfl

/-- The caller's record is credited, and the record of a charged keeper counts a miss. -/
theorem Ran.replayed_keepers (hran : Ran host executor keeper jobId b b' r) :
    amend ((r.charged b.chain.reg jobId b.chain.now).elim (b.picture keeper).ledger.keepers
        fun missed => amend (b.picture keeper).ledger.keepers missed LedgerKeeper.miss) keeper
      (fun record => { record with
        executions := satAdd32 record.executions 1
        totalLateness := satAdd64 record.totalLateness
          (b.chain.now - r.admission.state.nextRun) }) =
      (b'.picture keeper).ledger.keepers := by
  have hcaller : (b.picture keeper).ledger.keepers keeper =
      (some b.record).map KeeperRecord.ledgerKeeper :=
    keeper_of_record (Function.update_self ..)
  have hothers : ∀ other, other ≠ keeper → (b.picture keeper).ledger.keepers other =
      (b.chain.reg.keepers.recordOf other).map KeeperRecord.ledgerKeeper :=
    fun other hne => keeper_of_record (Function.update_of_ne hne ..)
  have hothers' : ∀ other, other ≠ keeper → (b'.picture keeper).ledger.keepers other =
      (b'.chain.reg.keepers.recordOf other).map KeeperRecord.ledgerKeeper :=
    fun other hne => keeper_of_record (Function.update_of_ne hne ..)
  apply amend_eq
  · have hcaller' : (b'.picture keeper).ledger.keepers keeper =
        (some b'.record).map KeeperRecord.ledgerKeeper :=
      keeper_of_record (Function.update_self ..)
    rw [hcaller', hran.record]
    cases hcharged : r.charged b.chain.reg jobId b.chain.now with
    | none =>
        rw [Option.elim_none, hcaller]
        rfl
    | some missed =>
        rw [Option.elim_some, amend_of_ne (hran.charged_ne hcharged).symm, hcaller]
        rfl
  · intro other hne
    rw [hothers' other hne, hran.reg, Receipt.regAfter]
    cases r.charged b.chain.reg jobId b.chain.now with
    | none => exact (hothers other hne).symm
    | some missed =>
        rw [Option.elim_some, Option.elim_some, recordOf_noteMiss]
        split
        next heq =>
          rw [← heq, amend_self, hothers other hne, Option.map_map, Option.map_map]
          rfl
        next hother => rw [amend_of_ne hother, hothers other hne]

/-- The events of a run, read one after another. -/
theorem Ran.replayed (hran : Ran host executor keeper jobId b b' r) :
    (r.events host b.chain.reg b.chain.now keeper jobId).foldl Ledger.apply
      (b.picture keeper).ledger =
      (b'.picture keeper).ledger := by
  have hknown : ∀ missed ∈ r.charged b.chain.reg jobId b.chain.now,
      (b.picture keeper).ledger.keepers missed =
      (b.chain.reg.keepers.recordOf missed).map KeeperRecord.ledgerKeeper :=
    fun missed hcharged => keeper_of_record (Function.update_of_ne (hran.charged_ne hcharged) ..)
  have hjobs : amend (amend b.chain.reg.jobs.ledgerJob jobId fun job =>
        if deactivates b.chain.reg.config r.admission.state r.call.answer.success = true then
          { job with active := false, failures := (r.state b.chain.reg.config).failures }
        else job) jobId (fun job =>
        { job with
          balance := job.balance - r.fee
          runs := (r.state b.chain.reg.config).runs
          failures := (r.state b.chain.reg.config).failures }) =
      b'.chain.reg.jobs.ledgerJob := by
    rw [amend_amend, hran.reg]
    apply ledgerJob_setState hran.admitted.parts
    intro pendingOwner
    have hbalance := hran.balance_eq
    simp only [Function.comp_apply, Receipt.state]
    split
    · rw [hbalance]
    · rw [hbalance]
  have hkeepers := hran.replayed_keepers
  have htreasury : b'.chain.reg.config.treasury = b.chain.reg.config.treasury := by
    rw [hran.reg]
    rfl
  have hmiss := fun jobs =>
    read_miss { (b.picture keeper).ledger with jobs } b.chain.reg.keepers jobId keeper hknown
  rw [Receipt.events, List.foldl_append, List.foldl_append, List.foldl_append, read_deactivated,
    read_exhausted, hmiss]
  change (⟨_, _, b.chain.reg.config.treasury⟩ : Ledger) =
    ⟨b'.chain.reg.jobs.ledgerJob, (b'.picture keeper).ledger.keepers, b'.chain.reg.config.treasury⟩
  rw [← hjobs, ← hkeepers, htreasury]
  rfl

end Run

/-- Reading the events of a change keeps the ledger up to date. -/
theorem Told.replayed (h : Told host now notice p p') :
    notice.events.foldl Ledger.apply p.ledger = p'.ledger := by
  cases h with
  | created hsound hunoffered => exact ledger_jobs (ledgerJob_withJob hunoffered)
  | updated hparts => exact ledger_jobs (ledgerJob_update hparts).symm
  | funded hparts => exact ledger_jobs (ledgerJob_setState hparts fun _ => rfl)
  | withdrawn hparts => exact ledger_jobs (ledgerJob_setState hparts fun _ => rfl)
  | activeSet hparts => exact ledger_jobs (ledgerJob_setState hparts fun _ => rfl)
  | offered hparts => exact ledger_jobs (ledgerJob_offer hparts)
  | handedOver hparts => exact ledger_jobs (ledgerJob_handOver hparts)
  | @cancelled _ _ spec => exact ledger_jobs (ledgerJob_remove spec.owner)
  | @ran execution r hnow hjobs hconfig hran =>
      rw [hran.notice_events]
      exact hran.replayed
  | registered habsent hfresh =>
      apply ledger_records
      rw [keeper_of_record habsent, Option.map_some, KeeperRecord.ledgerKeeper, hfresh]
      rfl
  | staked hfound =>
      apply ledger_records
      rw [keeper_of_record hfound]
      rfl
  | unbonded hfound =>
      apply ledger_records
      rw [keeper_of_record hfound]
      rfl
  | released hfound => exact ledger_records rfl
  | @configured _ call reg htreasury =>
      have hset : ∀ treasury, ({ p.ledger with treasury } : Ledger) =
          ({ p with treasury } : Picture).ledger :=
        fun _ => rfl
      cases call with
      | setProtocolFee bps treasury => exact hset treasury
      | setUnbondingEpoch unbondingEpoch =>
          rw [AdminCall.regAfter, pushBack_eq]
          exact htreasury ▸ rfl
      | setUpgradeDelay upgradeDelay =>
          rw [AdminCall.regAfter, pushBack_eq]
          exact htreasury ▸ rfl
      | _ => exact htreasury ▸ rfl

end Replay

end SoroCron
