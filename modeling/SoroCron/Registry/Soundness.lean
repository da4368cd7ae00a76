import SoroCron.Registry.AdminLaws
import SoroCron.Registry.JobLaws

/-! # Soundness of reachable chains

What the tables of a registry satisfy in every reachable chain: both entries of a job exist
together under an id already issued, settings passed validation, balances and stakes are
never negative and fit their types, and the registry itself is nobody's keeper.
-/

namespace SoroCron

open Outcome Bounded

variable {World : Type} {host : Host World} {ctx : Ctx} {c c' : Chain World}

/-! ## Jobs -/

structure JobState.Sound (state : JobState) : Prop where
  balance_nonneg : 0 ≤ state.balance
  balance_fits : state.balance ≤ i128Max
  nextRun_fits : state.nextRun ≤ u64Max
  runs_fits : state.runs ≤ u32Max

structure JobTable.Sound (jobs : JobTable) : Prop where
  paired : jobs.specs.keys = jobs.states.keys
  issued : ∀ id ∈ jobs.states.keys, id < jobs.nextJobId
  specs : ∀ id spec, jobs.specs.get id = some spec → spec.Sound
  states : ∀ id state, jobs.states.get id = some state → state.Sound

namespace JobTable

variable {jobs : JobTable} {id : JobId}

theorem states_get_of_parts {spec : JobSpec} {state : JobState}
    (hparts : jobs.getJobParts id = some (spec, state)) : jobs.states.get id = some state :=
  (getJobParts_eq_some.mp hparts).2

theorem specs_get_of_parts {spec : JobSpec} {state : JobState}
    (hparts : jobs.getJobParts id = some (spec, state)) : jobs.specs.get id = some spec :=
  (getJobParts_eq_some.mp hparts).1

theorem mem_states_keys {state : JobState} (hstate : jobs.states.get id = some state) :
    id ∈ jobs.states.keys := by
  rw [Store.mem_keys, hstate]
  rfl

/-- Soundness speaks of the two entry stores and the next id only. -/
theorem Sound.congr {jobs' : JobTable} (h : jobs.Sound) (hspecs : jobs'.specs = jobs.specs)
    (hstates : jobs'.states = jobs.states) (hnext : jobs'.nextJobId = jobs.nextJobId) :
    jobs'.Sound := by
  obtain ⟨hpaired, hissued, hspec, hstate⟩ := h
  refine ⟨?_, ?_, ?_, ?_⟩
  · rw [hspecs, hstates, hpaired]
  · rw [hstates, hnext]
    exact hissued
  · rw [hspecs]
    exact hspec
  · rw [hstates]
    exact hstate

theorem Sound.setState (h : jobs.Sound) {old state : JobState}
    (hold : jobs.states.get id = some old) (hsound : state.Sound) :
    (jobs.setState id state).Sound := by
  have hkeys : (jobs.states.set id state).keys = jobs.states.keys := by
    rw [Store.keys_set, Finset.insert_eq_self]
    exact mem_states_keys hold
  refine ⟨?_, ?_, h.specs, ?_⟩
  · rw [setState_states, hkeys]
    exact h.paired
  · rw [setState_states, hkeys]
    exact h.issued
  · intro other state' hget
    rw [setState_states, Store.get_set] at hget
    split at hget
    · cases hget
      exact hsound
    · exact h.states other state' hget

theorem Sound.setSpec (h : jobs.Sound) {old spec : JobSpec}
    (hold : jobs.specs.get id = some old) (hsound : spec.Sound) :
    (jobs.setSpec id spec).Sound := by
  have hkeys : (jobs.specs.set id spec).keys = jobs.specs.keys := by
    rw [Store.keys_set, Finset.insert_eq_self, Store.mem_keys, hold]
    rfl
  refine ⟨?_, h.issued, ?_, h.states⟩
  · rw [setSpec_specs, hkeys]
    exact h.paired
  · intro other spec' hget
    rw [setSpec_specs, Store.get_set] at hget
    split at hget
    · cases hget
      exact hsound
    · exact h.specs other spec' hget

theorem Sound.removeJob (h : jobs.Sound) (id : JobId) : (jobs.removeJob id).Sound := by
  refine ⟨?_, ?_, ?_, ?_⟩
  · rw [removeJob_specs, removeJob_states, Store.keys_remove, Store.keys_remove, h.paired]
  · intro other hother
    rw [removeJob_states, Store.keys_remove] at hother
    exact h.issued other (Finset.mem_of_mem_erase hother)
  · intro other spec hget
    rw [removeJob_specs, Store.get_remove] at hget
    split at hget
    · cases hget
    · exact h.specs other spec hget
  · intro other state hget
    rw [removeJob_states, Store.get_remove] at hget
    split at hget
    · cases hget
    · exact h.states other state hget

/-- A job's two entries are there or missing together. -/
theorem Sound.state_of_spec (h : jobs.Sound) {spec : JobSpec}
    (hspec : jobs.specs.get id = some spec) : ∃ state, jobs.states.get id = some state := by
  rw [← Option.isSome_iff_exists, ← Store.mem_keys, ← h.paired, Store.mem_keys, hspec]
  rfl

theorem Sound.spec_of_state (h : jobs.Sound) {state : JobState}
    (hstate : jobs.states.get id = some state) : ∃ spec, jobs.specs.get id = some spec := by
  rw [← Option.isSome_iff_exists, ← Store.mem_keys, h.paired, Store.mem_keys, hstate]
  rfl

/-- An id that was not issued yet has no entries. -/
theorem Sound.fresh (h : jobs.Sound) (hid : jobs.nextJobId ≤ id) :
    jobs.specs.get id = none ∧ jobs.states.get id = none := by
  have hstates : id ∉ jobs.states.keys := by
    intro hmem
    exact Nat.not_lt.mpr hid (h.issued id hmem)
  refine ⟨?_, Store.notMem_keys.mp hstates⟩
  rw [← Store.notMem_keys, h.paired]
  exact hstates

end JobTable

theorem withJob_sound {reg : Registry} (owner : Address) {params : JobParams} {deposit : ℤ}
    (h : c.reg.jobs.Sound) (hnow : c.now ≤ u64Max) (htyped : params.WellTyped)
    (hvalid : validateJob host reg params deposit = .ok ()) (hdeposit : deposit ≤ i128Max) :
    (c.withJob owner params deposit).reg.jobs.Sound := by
  obtain ⟨hstart, hfee, hceiling⟩ := htyped
  have hspec := JobParams.toSpec_sound owner hvalid hfee hceiling
  obtain ⟨-, hfunded, -, -⟩ := validateJob_eq_ok hvalid
  have hfeePos : 0 < params.feePerRun := hspec.fee_pos
  have hstate : (params.toState c.reg.jobs c.now deposit).Sound :=
    ⟨(hfeePos.trans_le hfunded).le, hdeposit, firstCalendarRun_fits (max_le hstart hnow),
      Nat.zero_le _⟩
  refine ⟨?_, ?_, ?_, ?_⟩
  · rw [Chain.withJob_specs, Chain.withJob_states, Store.keys_set, Store.keys_set, h.paired]
  · intro id hid
    rw [Chain.withJob_states, Store.keys_set, Finset.mem_insert] at hid
    rw [Chain.withJob_nextJobId]
    rcases hid with rfl | hid
    · exact Nat.lt_succ_self _
    · exact Nat.lt_succ_of_lt (h.issued id hid)
  · intro id spec hget
    rw [Chain.withJob_specs, Store.get_set] at hget
    split at hget
    · cases hget
      exact hspec
    · exact h.specs id spec hget
  · intro id state hget
    rw [Chain.withJob_states, Store.get_set] at hget
    split at hget
    · cases hget
      exact hstate
    · exact h.states id state hget

/-! ## Job operations -/

/-- Two chains that differ at most in jobs, balances and the log. -/
structure JobsOnly (c c' : Chain World) : Prop where
  now : c'.now = c.now
  world : c'.world = c.world
  reg : c'.reg = { c.reg with jobs := c'.reg.jobs, jobTouched := c'.reg.jobTouched }

theorem JobsOnly.config (h : JobsOnly c c') : c'.reg.config = c.reg.config := by rw [h.reg]

theorem JobsOnly.keepers (h : JobsOnly c c') : c'.reg.keepers = c.reg.keepers := by rw [h.reg]

theorem insertJobs_jobsOnly {owner : Address} {jobs : List (JobParams × ℤ)} {ids : List JobId}
    (h : insertJobs owner jobs c = .ok (ids, c')) : JobsOnly c c' := by
  apply insertJobs_invariant (I := fun _ => JobsOnly c) ?_ ⟨rfl, rfl, rfl⟩ h
  rintro params deposit rest middle - ⟨hnow, hworld, hreg⟩
  refine ⟨hnow, hworld, ?_⟩
  simp only [Chain.withJob, Chain.publish_reg]
  rw [hreg]

theorem jobCall_jobsOnly {call : JobCall} (h : jobCall host ctx c call = .ok c') :
    JobsOnly c c' := by
  cases call with
  | createJob owner params deposit =>
      obtain ⟨id, h⟩ := Result.chain_eq_ok.mp h
      obtain ⟨-, -, -, paid, hpaid, hinsert⟩ := createJob_eq_ok h
      obtain ⟨-, rfl⟩ := Chain.transfer_eq_ok.mp hpaid
      obtain ⟨-, -, rfl⟩ := insertJob_eq_ok.mp hinsert
      exact ⟨rfl, rfl, rfl⟩
  | createJobs owner jobs deposits =>
      obtain ⟨ids, h⟩ := Result.chain_eq_ok.mp h
      obtain ⟨-, -, -, -, paid, hpaid, hinsert⟩ := createJobs_eq_ok h
      obtain ⟨-, rfl⟩ := Chain.transfer_eq_ok.mp hpaid
      have hinserted := insertJobs_jobsOnly hinsert
      exact ⟨hinserted.now, hinserted.world, hinserted.reg⟩
  | updateJob jobId update =>
      obtain ⟨-, spec, state, interval, leaderRuns, -, -, -, -, rfl⟩ := updateJob_eq_ok h
      exact ⟨rfl, rfl, rfl⟩
  | fundJob payer jobId amount =>
      obtain ⟨balance, h⟩ := Result.chain_eq_ok.mp h
      obtain ⟨-, -, state, -, -, -, rfl⟩ := fundJob_eq_ok h
      exact ⟨rfl, rfl, rfl⟩
  | cancelJob jobId =>
      obtain ⟨refund, h⟩ := Result.chain_eq_ok.mp h
      obtain ⟨spec, state, paid, -, -, hpaid, -, rfl⟩ := cancelJob_eq_ok.mp h
      rw [Chain.payOut_frame hpaid]
      exact ⟨rfl, rfl, rfl⟩
  | withdrawJobBalance jobId amount =>
      obtain ⟨balance, h⟩ := Result.chain_eq_ok.mp h
      obtain ⟨spec, state, -, -, -, -, -, -, -, paid, hpaid, rfl⟩ := withdrawJobBalance_eq_ok.mp h
      obtain ⟨-, rfl⟩ := Chain.transfer_eq_ok.mp hpaid
      exact ⟨rfl, rfl, rfl⟩
  | setJobActive jobId active =>
      obtain ⟨spec, state, -, -, rfl⟩ := setJobActive_eq_ok h
      exact ⟨rfl, rfl, rfl⟩
  | proposeJobOwner jobId newOwner =>
      obtain ⟨spec, -, -, rfl⟩ := proposeJobOwner_eq_ok h
      exact ⟨rfl, rfl, rfl⟩
  | acceptJobOwner jobId =>
      obtain ⟨spec, newOwner, -, -, -, rfl⟩ := acceptJobOwner_eq_ok h
      exact ⟨rfl, rfl, rfl⟩

theorem insertJobs_sound (host : Host World) {owner : Address} {jobs : List (JobParams × ℤ)}
    {ids : List JobId}
    (hjobs : c.reg.jobs.Sound) (hnow : c.now ≤ u64Max)
    (hvalid : ∀ pair ∈ jobs, pair.1.WellTyped ∧ pair.2 ≤ i128Max ∧
      ∃ reg, validateJob host reg pair.1 pair.2 = .ok ())
    (h : insertJobs owner jobs c = .ok (ids, c')) : c'.reg.jobs.Sound := by
  let I : List (JobParams × ℤ) → Chain World → Prop := fun rest middle =>
    middle.reg.jobs.Sound ∧ middle.now ≤ u64Max ∧ ∀ pair ∈ rest, pair ∈ jobs
  have hlast : I [] c' := by
    refine insertJobs_invariant ?_ ⟨hjobs, hnow, fun _ hmem => hmem⟩ h
    rintro params deposit rest middle - ⟨hsound, hclock, hrest⟩
    obtain ⟨htyped, hdeposit, reg, hchecked⟩ := hvalid _ (hrest _ List.mem_cons_self)
    exact ⟨withJob_sound owner hsound hclock htyped hchecked hdeposit, hclock,
      fun pair hmem => hrest pair (List.mem_cons_of_mem _ hmem)⟩
  exact hlast.1

theorem jobCall_sound {call : JobCall} (h : jobCall host ctx c call = .ok c')
    (htyped : Call.WellTyped (.job call)) (hnow : c.now ≤ u64Max) (hjobs : c.reg.jobs.Sound) :
    c'.reg.jobs.Sound := by
  cases call with
  | createJob owner params deposit =>
      obtain ⟨id, h⟩ := Result.chain_eq_ok.mp h
      obtain ⟨-, -, hvalid, paid, hpaid, hinsert⟩ := createJob_eq_ok h
      obtain ⟨-, rfl⟩ := Chain.transfer_eq_ok.mp hpaid
      obtain ⟨-, -, rfl⟩ := insertJob_eq_ok.mp hinsert
      exact withJob_sound owner hjobs hnow htyped.1 hvalid htyped.2
  | createJobs owner jobs deposits =>
      obtain ⟨ids, h⟩ := Result.chain_eq_ok.mp h
      obtain ⟨-, -, -, hvalid, paid, hpaid, hinsert⟩ := createJobs_eq_ok h
      obtain ⟨-, rfl⟩ := Chain.transfer_eq_ok.mp hpaid
      apply insertJobs_sound host ?_ ?_ ?_ hinsert
      · exact hjobs
      · exact hnow
      intro pair hpair
      obtain ⟨hparams, hdeposit⟩ := List.of_mem_zip hpair
      exact ⟨htyped.1 _ hparams, htyped.2 _ hdeposit, c.reg, hvalid pair hpair⟩
  | updateJob jobId update =>
      obtain ⟨-, spec, state, interval, leaderRuns, hparts, -, hinterval, -, rfl⟩ :=
        updateJob_eq_ok h
      obtain ⟨hspec, hstate⟩ := JobTable.getJobParts_eq_some.mp hparts
      have hold := hjobs.states jobId state hstate
      refine (hjobs.setSpec hspec
        (JobUpdate.applyTo_sound hinterval htyped.1 htyped.2)).setState hstate
        ⟨hold.balance_nonneg, hold.balance_fits, ?_, hold.runs_fits⟩
      -- Only another calendar gives the job a new time.
      dsimp only [JobUpdate.nextRun]
      split
      · exact firstCalendarRun_fits hnow
      · exact hold.nextRun_fits
  | fundJob payer jobId amount =>
      obtain ⟨balance, h⟩ := Result.chain_eq_ok.mp h
      obtain ⟨⟨-, -, hpos⟩, -, state, hstate, rfl, hfits, rfl⟩ := fundJob_eq_ok h
      have hold := hjobs.states jobId state hstate
      exact hjobs.setState hstate ⟨Int.add_nonneg hold.balance_nonneg hpos.le, hfits,
        hold.nextRun_fits, hold.runs_fits⟩
  | cancelJob jobId =>
      obtain ⟨refund, h⟩ := Result.chain_eq_ok.mp h
      obtain ⟨spec, state, paid, -, -, hpaid, -, rfl⟩ := cancelJob_eq_ok.mp h
      rw [Chain.payOut_frame hpaid]
      exact (hjobs.removeJob jobId).congr rfl rfl rfl
  | withdrawJobBalance jobId amount =>
      obtain ⟨balance, h⟩ := Result.chain_eq_ok.mp h
      obtain ⟨spec, state, hparts, -, hpos, hle, rfl, -, hfits, paid, hpaid, rfl⟩ :=
        withdrawJobBalance_eq_ok.mp h
      obtain ⟨-, rfl⟩ := Chain.transfer_eq_ok.mp hpaid
      have hstate := JobTable.states_get_of_parts hparts
      have hold := hjobs.states jobId state hstate
      exact hjobs.setState hstate ⟨Int.sub_nonneg.mpr hle, hfits, hold.nextRun_fits, hold.runs_fits⟩
  | setJobActive jobId active =>
      obtain ⟨spec, state, hparts, -, rfl⟩ := setJobActive_eq_ok h
      have hstate := JobTable.states_get_of_parts hparts
      have hold := hjobs.states jobId state hstate
      exact hjobs.setState hstate
        ⟨hold.balance_nonneg, hold.balance_fits, hold.nextRun_fits, hold.runs_fits⟩
  | proposeJobOwner jobId newOwner =>
      obtain ⟨spec, -, -, rfl⟩ := proposeJobOwner_eq_ok h
      dsimp only [Chain.publish_reg]
      split
      · exact hjobs.congr rfl rfl rfl
      · exact hjobs.congr rfl rfl rfl
  | acceptJobOwner jobId =>
      obtain ⟨spec, newOwner, hspec, -, -, rfl⟩ := acceptJobOwner_eq_ok h
      have hold := hjobs.specs jobId spec hspec
      have hnew : JobSpec.Sound { spec with owner := newOwner } :=
        ⟨hold.interval_pos, hold.calendar, hold.fields, hold.fee_pos, hold.fee_fits, hold.ceiling,
          hold.ceiling_fits⟩
      exact (hjobs.setSpec hspec hnew).congr rfl rfl rfl

/-! ## Runs -/

section Runs

variable {executor keeper : Address} {jobId : JobId} {b b' : Batch World} {r : Receipt World}
  {info : Keeper}

/-- What a call that runs jobs leaves alone until it pays out: `c` is the chain it began
with and `info` the keeper's record as it was loaded. -/
structure Underway (c : Chain World) (info : Keeper) (b : Batch World) : Prop where
  now : b.chain.now = c.now
  reg : b.chain.reg = { c.reg with
    jobs := { c.reg.jobs with states := b.chain.reg.jobs.states }
    keepers := b.chain.reg.keepers }
  bonds : ∀ who, b.chain.reg.keepers.bondOf who = c.reg.keepers.bondOf who
  active : b.chain.reg.keepers.active = c.reg.keepers.active
  stake : b.record.info.stake = info.stake
  unbondingAt : b.record.info.unbondingAt = info.unbondingAt

theorem Underway.start (c : Chain World) (keeper : Address) (info : Keeper) :
    Underway c info (startBatch c keeper info) :=
  ⟨rfl, rfl, fun _ => rfl, rfl, rfl, rfl⟩

theorem Underway.asked (h : Underway c info b) (jobId : JobId) (spec : JobSpec) :
    Underway c info (b.asked host jobId spec) :=
  ⟨h.now, h.reg, h.bonds, h.active, h.stake, h.unbondingAt⟩

theorem Underway.ran (h : Underway c info b) (hran : Ran host executor keeper jobId b b' r) :
    Underway c info b' := by
  refine ⟨hran.now.trans h.now, ?_, ?_, ?_, ?_, ?_⟩
  · rw [hran.reg, Receipt.regAfter, h.reg]
    rfl
  · intro who
    rw [hran.bondOf, h.bonds]
  · rw [← h.active, hran.reg, Receipt.regAfter]
    cases r.charged b.chain.reg jobId b.chain.now with
    | none => rfl
    | some missed => exact noteMiss_active _ missed
  · rw [hran.record]
    exact h.stake
  · rw [hran.record]
    exact h.unbondingAt

theorem Underway.config (h : Underway c info b) : b.chain.reg.config = c.reg.config := by rw [h.reg]

theorem Underway.specs (h : Underway c info b) : b.chain.reg.jobs.specs = c.reg.jobs.specs := by
  rw [h.reg]

/-- Writing the caller's record back keeps every stake and release time. -/
theorem Underway.bonds_saved (h : Underway c info b)
    (hinfo : c.reg.keepers.infos.get keeper = some info)
    (who : Address) : (b.record.save b.chain.reg.keepers keeper).bondOf who =
      c.reg.keepers.bondOf who := by
  unfold KeeperRecord.save
  rw [bondOf_setKeeperRecent, bondOf_setKeeper_same, h.bonds]
  rw [h.bonds, KeeperTable.bondOf, hinfo, Option.map_some, h.stake, h.unbondingAt]

/-- The job's state after a run. -/
theorem Ran.state_sound (hran : Ran host executor keeper jobId b b' r)
    (hjobs : b.chain.reg.jobs.Sound) : (r.state b.chain.reg.config).Sound := by
  have hold := hjobs.states _ _ (JobTable.states_get_of_parts hran.admitted.parts)
  have hspec := hjobs.specs _ _ (JobTable.specs_get_of_parts hran.admitted.parts)
  obtain ⟨hbase, hle⟩ := hran.fee_bounds
  have hbalance := hran.balance_eq
  have hnext := nextRunAfter_eq_some hspec.interval_pos hran.priced.nextRun
  have hpos := hspec.fee_pos
  have hfits := hold.balance_fits
  refine ⟨?_, ?_, ?_, ?_⟩
  · simp only [Receipt.state]
    omega
  · simp only [Receipt.state]
    omega
  · simp only [Receipt.state, hnext]
    exact Nat.min_le_right _ _
  · simp only [Receipt.state]
    exact satAdd_le_top _ _

theorem Ran.jobs_sound (hran : Ran host executor keeper jobId b b' r)
    (hjobs : b.chain.reg.jobs.Sound) : b'.chain.reg.jobs.Sound := by
  rw [hran.reg]
  exact hjobs.setState (JobTable.states_get_of_parts hran.admitted.parts) (hran.state_sound hjobs)

/-- A run's fee is split in two parts, neither negative. -/
theorem Ran.parts (hran : Ran host executor keeper jobId b b' r) (hjobs : b.chain.reg.jobs.Sound)
    (hconfig : b.chain.reg.config.Sound) :
    0 ≤ r.keeperFee ∧ 0 ≤ r.protocolFee ∧ r.keeperFee + r.protocolFee = r.fee := by
  have hspec := hjobs.specs _ _ (JobTable.specs_get_of_parts hran.admitted.parts)
  have hpos : 0 < r.fee := hspec.fee_pos.trans_le hran.fee_bounds.1
  have hbps : b.chain.reg.config.protocolFeeBps ≤ 10000 := hconfig.protocolFee.trans (by decide)
  exact splitFee_parts hpos hbps hran.priced.split

/-- What all calls that run jobs keep until they pay out. -/
structure UnderwaySound (c : Chain World) (info : Keeper) (b : Batch World) : Prop
    extends Underway c info b where
  jobs : b.chain.reg.jobs.Sound
  keeperFees : 0 ≤ b.payout.keeperFees
  protocolFees : 0 ≤ b.payout.protocolFees

theorem UnderwaySound.start (hjobs : c.reg.jobs.Sound) (keeper : Address) (info : Keeper) :
    UnderwaySound c info (startBatch c keeper info) :=
  ⟨Underway.start c keeper info, hjobs, le_rfl, le_rfl⟩

theorem UnderwaySound.asked (h : UnderwaySound c info b) (jobId : JobId) (spec : JobSpec) :
    UnderwaySound c info (b.asked host jobId spec) :=
  ⟨h.toUnderway.asked jobId spec, h.jobs, h.keeperFees, h.protocolFees⟩

theorem UnderwaySound.ran (h : UnderwaySound c info b) (hconfig : c.reg.config.Sound)
    (hran : Ran host executor keeper jobId b b' r) : UnderwaySound c info b' := by
  have hconfig' : b.chain.reg.config.Sound := h.toUnderway.config ▸ hconfig
  obtain ⟨hkeeper, hprotocol, -⟩ := hran.parts h.jobs hconfig'
  refine ⟨h.toUnderway.ran hran, hran.jobs_sound h.jobs, ?_, ?_⟩
  · rw [hran.payout.1]
    exact Int.add_nonneg h.keeperFees hkeeper
  · rw [hran.payout.2]
    exact Int.add_nonneg h.protocolFees hprotocol

theorem runJobs_underway {jobIds : List JobId} {ran : List Bool} (hconfig : c.reg.config.Sound)
    (hjobs : c.reg.jobs.Sound)
    (h : runJobs host executor keeper jobIds (startBatch c keeper info) = .ok (ran, b)) :
    UnderwaySound c info b := by
  refine runJobs_invariant ?_ ?_ (UnderwaySound.start hjobs keeper info) h
  · intro b jobId spec hunder
    exact hunder.asked jobId spec
  · intro b b' jobId r hunder hran
    exact hunder.ran hconfig hran

/-- Every run of a call finds what the call keeps until it pays out. -/
theorem runsOf_underway {jobIds : List JobId} {ran : List Bool} (hconfig : c.reg.config.Sound)
    (hjobs : c.reg.jobs.Sound)
    (h : runJobs host executor keeper jobIds (startBatch c keeper info) = .ok (ran, b)) :
    ∀ execution ∈ runsOf host executor keeper jobIds (startBatch c keeper info),
      UnderwaySound c info execution.before := by
  let I : List (Execution World) → Batch World → Prop := fun past b =>
    UnderwaySound c info b ∧ ∀ execution ∈ past, UnderwaySound c info execution.before
  have hlast : I ([] ++ runsOf host executor keeper jobIds (startBatch c keeper info)) b := by
    refine runJobs_history ?_ ?_ [] ?_ h
    · rintro past b jobId spec ⟨hunder, hpast⟩
      exact ⟨hunder.asked jobId spec, hpast⟩
    · rintro past b b' jobId r ⟨hunder, hpast⟩ hran
      refine ⟨hunder.ran hconfig hran, ?_⟩
      intro execution hmem
      rcases List.mem_append.mp hmem with hold | hnew
      · exact hpast execution hold
      · cases List.mem_singleton.mp hnew
        exact hunder
    · exact ⟨UnderwaySound.start hjobs keeper info, fun execution hmem =>
        absurd hmem List.not_mem_nil⟩
  exact hlast.2

end Runs

/-! ## Keepers -/

structure KeeperTable.Sound (registry : Address) (keepers : KeeperTable) : Prop where
  stakes : ∀ who stake release, keepers.bondOf who = some (stake, release) →
    0 < stake ∧ stake ≤ i128Max
  outsider : keepers.bondOf registry = none

/-- Soundness speaks of stakes only. -/
theorem KeeperTable.Sound.congr {registry : Address} {keepers keepers' : KeeperTable}
    (h : keepers.Sound registry) (hbonds : ∀ who, keepers'.bondOf who = keepers.bondOf who) :
    keepers'.Sound registry := by
  obtain ⟨hstakes, houtsider⟩ := h
  refine ⟨?_, ?_⟩
  · intro who stake release hbond
    rw [hbonds] at hbond
    exact hstakes who stake release hbond
  · rw [hbonds]
    exact houtsider

theorem bondOf_removeKeeper (keepers : KeeperTable) (who other : Address) :
    (keepers.removeKeeper who).bondOf other = if other = who then none
      else keepers.bondOf other := by
  simp only [KeeperTable.bondOf, KeeperTable.removeKeeper_infos, Store.get_remove]
  split <;> rfl

section Bonds

variable {keeper : Address}

theorem bondOf_of_info {keepers : KeeperTable} {info : Keeper}
    (hinfo : keepers.infos.get keeper = some info) :
    keepers.bondOf keeper = some (info.stake, info.unbondingAt) := by
  rw [KeeperTable.bondOf, hinfo, Option.map_some]

/-- The stake a new stake adds to, and how it changes the keeper's bond. -/
theorem stake_bondOf {amount total : ℤ} (h : stake host ctx c keeper amount = .ok (total, c')) :
    (c.reg.keepers.bondOf keeper = none ∧ total = amount ∨
        ∃ before, c.reg.keepers.bondOf keeper = some (before, none) ∧ total = before + amount) ∧
      ∀ who, c'.reg.keepers.bondOf who =
        if who = keeper then some (total, none) else c.reg.keepers.bondOf who := by
  obtain ⟨-, -, info, hinfo, hbonded, rfl, -, rfl⟩ := stake_eq_ok h
  refine ⟨?_, ?_⟩
  · cases hget : c.reg.keepers.infos.get keeper with
    | none =>
        rw [hget, Option.getD_none] at hinfo
        subst hinfo
        exact .inl ⟨by rw [KeeperTable.bondOf, hget, Option.map_none], zero_add amount⟩
    | some stored =>
        rw [hget, Option.getD_some] at hinfo
        subst hinfo
        exact .inr ⟨info.stake, by rw [bondOf_of_info hget, hbonded], rfl⟩
  · intro who
    rw [← hbonded]
    exact bondOf_setKeeper _ keeper who _

theorem beginUnbonding_bondOf {release : Timestamp}
    (h : beginUnbonding host ctx c keeper = .ok (release, c')) :
    ∃ before, c.reg.keepers.bondOf keeper = some (before, none) ∧
      ∀ who, c'.reg.keepers.bondOf who =
        if who = keeper then some (before, some release) else c.reg.keepers.bondOf who := by
  obtain ⟨-, info, hinfo, hbonded, -, rfl⟩ := beginUnbonding_eq_ok.mp h
  refine ⟨info.stake, by rw [bondOf_of_info hinfo, hbonded], ?_⟩
  intro who
  exact bondOf_setKeeper _ keeper who _

theorem releaseStake_bondOf {amount : ℤ} (h : releaseStake host c keeper = .ok (amount, c')) :
    (∃ release, c.reg.keepers.bondOf keeper = some (amount, some release) ∧ release ≤ c.now) ∧
      ∀ who, c'.reg.keepers.bondOf who =
        if who = keeper then none else c.reg.keepers.bondOf who := by
  obtain ⟨info, release, paid, hinfo, hrelease, hready, hpaid, rfl, rfl⟩ := releaseStake_eq_ok.mp h
  refine ⟨⟨release, by rw [bondOf_of_info hinfo, hrelease], hready⟩, ?_⟩
  intro who
  rw [Chain.payOut_frame hpaid]
  exact bondOf_removeKeeper _ keeper who

end Bonds

/-- Two chains that differ at most in keepers, windows, balances and the log. -/
structure KeepersOnly (c c' : Chain World) : Prop where
  now : c'.now = c.now
  world : c'.world = c.world
  reg : c'.reg = { c.reg with keepers := c'.reg.keepers, windowsReset := c'.reg.windowsReset }

theorem releaseStake_keepersOnly {keeper : Address} {amount : ℤ}
    (h : releaseStake host c keeper = .ok (amount, c')) :
    KeepersOnly c c' ∧ c'.reg.windowsReset = c.reg.windowsReset := by
  obtain ⟨info, release, paid, -, -, -, hpaid, -, rfl⟩ := releaseStake_eq_ok.mp h
  rw [Chain.payOut_frame hpaid]
  exact ⟨⟨rfl, rfl, rfl⟩, rfl⟩

theorem KeepersOnly.trans {c₁ c₂ c₃ : Chain World} (h : KeepersOnly c₁ c₂)
    (h' : KeepersOnly c₂ c₃) : KeepersOnly c₁ c₃ := by
  refine ⟨h'.now.trans h.now, h'.world.trans h.world, ?_⟩
  rw [h'.reg, h.reg]

theorem keeperCall_keepersOnly {call : KeeperCall} (h : keeperCall host ctx c call = .ok c') :
    KeepersOnly c c' := by
  cases call with
  | stake keeper amount =>
      obtain ⟨total, h⟩ := Result.chain_eq_ok.mp h
      obtain ⟨-, -, info, -, -, -, -, rfl⟩ := stake_eq_ok h
      exact ⟨rfl, rfl, rfl⟩
  | beginUnbonding keeper =>
      obtain ⟨release, h⟩ := Result.chain_eq_ok.mp h
      obtain ⟨-, info, -, -, -, rfl⟩ := beginUnbonding_eq_ok.mp h
      exact ⟨rfl, rfl, rfl⟩
  | withdrawStake keeper =>
      obtain ⟨amount, h⟩ := Result.chain_eq_ok.mp h
      exact (releaseStake_keepersOnly (withdrawStake_eq_ok.mp h).2).1
  | withdrawStakes keepers =>
      obtain ⟨amounts, h⟩ := Result.chain_eq_ok.mp h
      refine releaseStakes_history (I := fun _ => KeepersOnly c) ?_ [] ⟨rfl, rfl, rfl⟩
        (withdrawStakes_eq_ok.mp h).2
      rintro - middle c' keeper amount hmiddle hrelease
      exact hmiddle.trans (releaseStake_keepersOnly hrelease).1

theorem releaseStake_sound {keeper : Address} {amount : ℤ}
    (h : releaseStake host c keeper = .ok (amount, c'))
    (hkeepers : c.reg.keepers.Sound host.registry) : c'.reg.keepers.Sound host.registry := by
  obtain ⟨-, hbonds⟩ := releaseStake_bondOf h
  refine ⟨?_, ?_⟩
  · intro who stake release hbond
    rw [hbonds] at hbond
    split at hbond
    · cases hbond
    · exact hkeepers.stakes who stake release hbond
  · rw [hbonds, hkeepers.outsider, ite_self]

theorem keeperCall_sound {call : KeeperCall} (h : keeperCall host ctx c call = .ok c')
    (hkeepers : c.reg.keepers.Sound host.registry) : c'.reg.keepers.Sound host.registry := by
  cases call with
  | stake keeper amount =>
      obtain ⟨total, h⟩ := Result.chain_eq_ok.mp h
      obtain ⟨⟨-, ⟨-, hother⟩, hpos⟩, -, info, -, -, -, hfits, -⟩ := stake_eq_ok h
      obtain ⟨hbefore, hbonds⟩ := stake_bondOf h
      refine ⟨?_, ?_⟩
      · intro who stake release hbond
        rw [hbonds] at hbond
        split at hbond
        · cases hbond
          rcases hbefore with ⟨-, rfl⟩ | ⟨before, hbefore, rfl⟩
          · exact ⟨hpos, hfits⟩
          · exact ⟨Int.add_pos (hkeepers.stakes _ _ _ hbefore).1 hpos, hfits⟩
        · exact hkeepers.stakes who stake release hbond
      · rw [hbonds, if_neg hother.symm]
        exact hkeepers.outsider
  | beginUnbonding keeper =>
      obtain ⟨release, h⟩ := Result.chain_eq_ok.mp h
      obtain ⟨⟨-, hother⟩, -⟩ := beginUnbonding_eq_ok.mp h
      obtain ⟨before, hbefore, hbonds⟩ := beginUnbonding_bondOf h
      refine ⟨?_, ?_⟩
      · intro who stake release hbond
        rw [hbonds] at hbond
        split at hbond
        · cases hbond
          exact hkeepers.stakes keeper before none hbefore
        · exact hkeepers.stakes who stake release hbond
      · rw [hbonds, if_neg hother.symm]
        exact hkeepers.outsider
  | withdrawStake keeper =>
      obtain ⟨amount, h⟩ := Result.chain_eq_ok.mp h
      exact releaseStake_sound (withdrawStake_eq_ok.mp h).2 hkeepers
  | withdrawStakes keepers =>
      obtain ⟨amounts, h⟩ := Result.chain_eq_ok.mp h
      refine releaseStakes_history (I := fun _ middle =>
        middle.reg.keepers.Sound host.registry) ?_ []
        hkeepers (withdrawStakes_eq_ok.mp h).2
      rintro - middle c' keeper amount hmiddle hrelease
      exact releaseStake_sound hrelease hmiddle

/-! ## Reachable chains -/

structure Chain.Sound (host : Host World) (c : Chain World) : Prop where
  clock : c.now ≤ u64Max
  config : c.reg.config.Sound
  jobs : c.reg.jobs.Sound
  keepers : c.reg.keepers.Sound host.registry

/-- A deployed registry has sound settings, no treasury, and nothing else yet. -/
theorem Deployed.fresh (h : Deployed host c) :
    ∃ config : Config, c.reg = { config } ∧ config.Sound ∧ config.treasury = none := by
  obtain ⟨admin, feeToken, stakeToken, minStake, unbondingPeriod, hreg⟩ := h.constructed
  simp only [construct, bind_eq_ok, rejectIf_eq_ok, exists_unit, pure_eq_ok, not_lt] at hreg
  obtain ⟨hstake, hreg⟩ := hreg
  exact ⟨_, hreg.symm, ⟨Nat.zero_le _, fun h => absurd h (Nat.lt_irrefl 0), Nat.zero_le _,
    Nat.zero_le _, hstake⟩, rfl⟩

theorem Deployed.sound (h : Deployed host c) : c.Sound host := by
  obtain ⟨config, hreg, hconfig, -⟩ := h.fresh
  refine ⟨h.clock, ?_, ?_, ?_⟩
  · rw [hreg]
    exact hconfig
  · rw [hreg]
    refine ⟨rfl, ?_, ?_, ?_⟩
    · intro id hid
      rw [Store.mem_keys, Store.get_empty] at hid
      cases hid
    · intro id spec hget
      rw [Store.get_empty] at hget
      cases hget
    · intro id state hget
      rw [Store.get_empty] at hget
      cases hget
  · rw [hreg]
    have hnone : ∀ who, ({} : KeeperTable).bondOf who = none := by
      intro who
      rw [KeeperTable.bondOf, Store.get_empty, Option.map_none]
    refine ⟨?_, hnone _⟩
    intro who stake release hbond
    rw [hnone] at hbond
    cases hbond

theorem call_sound {call : Call} (hsound : c.Sound host) (htyped : call.WellTyped)
    (h : call.perform host ctx c = .ok c') : c'.Sound host := by
  obtain ⟨hclock, hconfig, hjobs, hkeepers⟩ := hsound
  cases call with
  | job call =>
      have hframe := jobCall_jobsOnly h
      refine ⟨hframe.now ▸ hclock, hframe.config ▸ hconfig, jobCall_sound h htyped hclock hjobs, ?_⟩
      rw [hframe.keepers]
      exact hkeepers
  | run call =>
      obtain ⟨executor, info, ran, b, hauth, hruns, hfinish, -⟩ := runCall_eq_ok h
      have hunder := runJobs_underway hconfig hjobs hruns
      obtain ⟨-, -, -, hinfo, -⟩ := authorizeKeeper_eq_ok.mp hauth
      have hend := finish_eq_ok hunder.keeperFees hunder.protocolFees hfinish
      subst hend
      refine ⟨hunder.now ▸ hclock, hunder.toUnderway.config ▸ hconfig, hunder.jobs, ?_⟩
      exact hkeepers.congr (hunder.bonds_saved hinfo)
  | keeper call =>
      have hframe := keeperCall_keepersOnly h
      refine ⟨hframe.now ▸ hclock, ?_, ?_, keeperCall_sound h hkeepers⟩
      · rw [hframe.reg]
        exact hconfig
      · rw [hframe.reg]
        exact hjobs
  | admin call =>
      obtain ⟨-, haccepted, rfl⟩ := adminCall_eq_ok h
      have hframe := adminCall_settingsOnly call c.reg c.now
      refine ⟨hclock, adminCall_config_sound haccepted hconfig, ?_, ?_⟩
      · rw [Chain.publish_reg, hframe.jobs]
        exact hjobs
      · rw [Chain.publish_reg, hframe.keepers]
        exact hkeepers

/-- A call takes no time. -/
theorem call_now {call : Call} (hsound : c.Sound host) (h : call.perform host ctx c = .ok c') :
    c'.now = c.now := by
  cases call with
  | job call => exact (jobCall_jobsOnly h).now
  | run call =>
      obtain ⟨executor, info, ran, b, -, hruns, hfinish, -⟩ := runCall_eq_ok h
      have hunder := runJobs_underway hsound.config hsound.jobs hruns
      have hend := finish_eq_ok hunder.keeperFees hunder.protocolFees hfinish
      subst hend
      exact hunder.now
  | keeper call => exact (keeperCall_keepersOnly h).now
  | admin call =>
      obtain ⟨-, -, rfl⟩ := adminCall_eq_ok h
      rfl

/-- Two registries with the same settings, pending admin and pending upgrade. -/
structure SameSettings (reg reg' : Registry) : Prop where
  config : reg'.config = reg.config
  pendingAdmin : reg'.pendingAdmin = reg.pendingAdmin
  upgradeDelay : reg'.upgradeDelay = reg.upgradeDelay
  pendingUpgrade : reg'.pendingUpgrade = reg.pendingUpgrade

/-- Only admin calls change settings. -/
theorem call_settings {call : Call} (hsound : c.Sound host) (h : call.perform host ctx c = .ok c') :
    SameSettings c.reg c'.reg ∨
      ∃ admin, call = .admin admin ∧ adminCall host ctx c admin = .ok c' ∧
        c'.reg = admin.regAfter c.reg c.now := by
  cases call with
  | job call =>
      rw [(jobCall_jobsOnly h).reg]
      exact .inl ⟨rfl, rfl, rfl, rfl⟩
  | run call =>
      obtain ⟨executor, info, ran, b, -, hruns, hfinish, -⟩ := runCall_eq_ok h
      have hunder := runJobs_underway hsound.config hsound.jobs hruns
      have hframe := hunder.toUnderway.reg
      rw [finish_eq_ok hunder.keeperFees hunder.protocolFees hfinish]
      refine .inl ⟨?_, ?_, ?_, ?_⟩
      all_goals exact hframe ▸ rfl
  | keeper call =>
      rw [(keeperCall_keepersOnly h).reg]
      exact .inl ⟨rfl, rfl, rfl, rfl⟩
  | admin call =>
      obtain ⟨-, -, hc⟩ := adminCall_eq_ok h
      exact .inr ⟨call, rfl, h, by rw [hc, Chain.publish_reg]⟩

/-- A step changes settings only by a successful admin call. -/
theorem step_settings (hsound : c.Sound host) (action : Action World) :
    SameSettings c.reg (step host c action).reg ∨
      ∃ ctx call, action = .call ctx (.admin call) ∧
        adminCall host ctx c call = .ok (step host c action) ∧
        (step host c action).reg = call.regAfter c.reg c.now := by
  cases action with
  | call ctx call =>
      rcases step_call_cases host c ctx call with ⟨hcall, -⟩ | ⟨hsame, -⟩
      · rcases call_settings hsound hcall with hkept | ⟨admin, rfl, hadmin, hreg⟩
        · exact .inl hkept
        · exact .inr ⟨ctx, admin, rfl, hadmin, hreg⟩
      · rw [hsame]
        exact .inl ⟨rfl, rfl, rfl, rfl⟩
  | _ => exact .inl ⟨rfl, rfl, rfl, rfl⟩

theorem step_sound {action : Action World} (hsound : c.Sound host)
    (hadm : Admissible host c action) : (step host c action).Sound host := by
  cases action with
  | call ctx call =>
      rcases step_call_cases host c ctx call with ⟨hcall, -⟩ | ⟨hsame, -⟩
      · exact call_sound hsound hadm hcall
      · rw [hsame]
        exact hsound
  | advance now => exact ⟨max_le hsound.clock hadm, hsound.config, hsound.jobs, hsound.keepers⟩
  | outside world moved => exact ⟨hsound.clock, hsound.config, hsound.jobs, hsound.keepers⟩
  | expireTouched jobId => exact ⟨hsound.clock, hsound.config, hsound.jobs, hsound.keepers⟩
  | expireResumed target => exact ⟨hsound.clock, hsound.config, hsound.jobs, hsound.keepers⟩

/-- Time never goes back. -/
theorem step_now (hsound : c.Sound host) (action : Action World) :
    c.now ≤ (step host c action).now := by
  cases action with
  | call ctx call =>
      rcases step_call_cases host c ctx call with ⟨hcall, -⟩ | ⟨hsame, -⟩
      · exact (call_now hsound hcall).ge
      · rw [hsame]
  | advance now => exact le_max_left _ _
  | _ => exact le_rfl

/-- Only runs and the calls of keepers change anything stored of keepers. -/
theorem step_keepers {I : KeeperTable → Prop} (hkept : I c.reg.keepers) (action : Action World)
    (hrun : ∀ ctx call c', runCall host ctx c call = .ok c' → I c'.reg.keepers)
    (hkeeper : ∀ ctx call c', keeperCall host ctx c call = .ok c' → I c'.reg.keepers) :
    I (step host c action).reg.keepers := by
  cases action with
  | call ctx call =>
      rcases step_call_cases host c ctx call with ⟨hcall, -⟩ | ⟨hsame, -⟩
      · cases call with
        | job call =>
            rw [(jobCall_jobsOnly hcall).keepers]
            exact hkept
        | run call => exact hrun ctx call _ hcall
        | keeper call => exact hkeeper ctx call _ hcall
        | admin call =>
            obtain ⟨-, -, hreg⟩ := adminCall_eq_ok hcall
            rw [hreg, Chain.publish_reg, (adminCall_settingsOnly call c.reg c.now).keepers]
            exact hkept
      · rw [hsame]
        exact hkept
  | _ => exact hkept

/-- The runs of a step happen under the settings the step found. -/
theorem ran_config (hsound : c.Sound host) {action : Action World} {id : JobId}
    {execution : Execution World} (h : .job id (.ran execution) ∈ acts host c action) :
    execution.before.chain.reg.config = c.reg.config := by
  obtain ⟨ctx, call, executor, info, ran, b, -, -, hruns, hmem, -⟩ := ran_mem_acts h
  exact (runsOf_underway hsound.config hsound.jobs hruns execution hmem).toUnderway.config

theorem Reachable.sound (hreach : Reachable host c) : c.Sound host :=
  hreach.invariant (fun _ => Deployed.sound) fun _ _ _ hadm hsound => step_sound hsound hadm

end SoroCron
