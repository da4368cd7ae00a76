import SoroCron.Registry.Execution

/-! # What runs do

The gates a run passes, what one run changes, and what a call around several runs leaves.
-/

namespace SoroCron

open Outcome Bounded

variable {World : Type} {host : Host World} {ctx : Ctx} {c c' : Chain World}
  {executor keeper : Address} {jobId : JobId} {b b' : Batch World}

/-! ## Gates -/

theorem ensureActiveKeeper_eq_ok {config : Config} {info : Keeper} :
    ensureActiveKeeper config info = .ok () ↔
      info.unbondingAt = none ∧ config.minStake ≤ info.stake := by
  simp [ensureActiveKeeper, bind_eq_ok]

theorem ensureDue_eq_ok {spec : JobSpec} {state : JobState} {now : Timestamp} :
    ensureDue spec state now = .ok () ↔
      state.active = true ∧ (spec.maxRuns = 0 ∨ state.runs < spec.maxRuns) ∧
        (spec.endAt = 0 ∨ now < spec.endAt) ∧ spec.feePerRun ≤ state.balance ∧
        state.nextRun ≤ now := by
  simp only [ensureDue, bind_eq_ok, rejectIf_eq_ok, exists_const, Bool.not_eq_false, not_and,
    not_le, not_lt]
  constructor
  · rintro ⟨hactive, hruns, hend, hfunded, hdue⟩
    exact ⟨hactive, by by_cases h : spec.maxRuns = 0 <;> simp_all,
      by by_cases h : spec.endAt = 0 <;> simp_all, hfunded, hdue⟩
  · rintro ⟨hactive, hruns, hend, hfunded, hdue⟩
    exact ⟨hactive, fun h => hruns.resolve_left h, fun h => hend.resolve_left h, hfunded, hdue⟩

theorem authorizeKeeper_eq_ok {reg : Registry} {info : Keeper} :
    authorizeKeeper host ctx reg keeper = .ok (executor, info) ↔
      reg.config.paused = false ∧ reg.config.executor = some executor ∧
        (keeper ∈ ctx.signers ∧ keeper ≠ host.registry) ∧ reg.keepers.infos.get keeper = some info ∧
        ensureActiveKeeper reg.config info = .ok () := by
  simp only [authorizeKeeper, ensureNotPaused, bind_eq_ok, raise_eq_ok, rejectIf_eq_ok, okOr_eq_ok,
    requireAuth_eq_ok, exists_unit, pure_eq_ok, Prod.mk.injEq, Bool.not_eq_true]
  constructor
  · rintro ⟨hlive, _, hexecutor, hauth, _, hinfo, hactive, rfl, rfl⟩
    exact ⟨hlive, hexecutor, hauth, hinfo, hactive⟩
  · rintro ⟨hlive, hexecutor, hauth, hinfo, hactive⟩
    exact ⟨hlive, _, hexecutor, hauth, _, hinfo, hactive, rfl, rfl⟩

/-- Everything the gates before the resolver establish. -/
structure Admitted (host : Host World) (reg : Registry) (now : Timestamp) (keeper : Address)
    (jobId : JobId) (admission : Admission) : Prop where
  parts : reg.jobs.getJobParts jobId = some (admission.spec, admission.state)
  due : ensureDue admission.spec admission.state now = .ok ()
  permitted : isForbiddenTarget host reg.config admission.spec.target = false
  running : reg.isTargetHalted admission.spec.target = false
  listed : ∀ allowed ∈ admission.spec.keepers, keeper ∈ allowed
  assigned : admission.assigned = (assignedKeeperFor host reg.config reg.keepers jobId
    admission.spec admission.state).filter (· ≠ keeper)
  window : admission.assigned.isSome = true →
    satAdd64 admission.state.nextRun reg.config.gracePeriod ≤ now
  dependency : dependencyMet reg.jobs admission.spec admission.state = .ok admission.leaderRuns

theorem runGates_eq_ok {reg : Registry} {now : Timestamp} {admission : Admission} :
    runGates host reg now keeper jobId = .ok admission ↔
      Admitted host reg now keeper jobId admission := by
  simp only [runGates, bind_eq_ok, okOr_eq_ok, rejectIf_eq_ok, exists_unit, Prod.exists, pure_eq_ok,
    Bool.not_eq_true, not_exists, not_and, not_not, not_lt]
  constructor
  · rintro ⟨spec, state, hparts, hdue, hallowed, hrunning, hlisted, hwindow, leaderRuns,
      hleader, rfl⟩
    exact ⟨hparts, hdue, hallowed, hrunning, hlisted, rfl, hwindow, hleader⟩
  · rintro ⟨hparts, hdue, hallowed, hrunning, hlisted, hassigned, hwindow, hleader⟩
    obtain ⟨spec, state, assigned, leaderRuns⟩ := admission
    dsimp only at hassigned
    subst hassigned
    exact ⟨spec, state, hparts, hdue, hallowed, hrunning, hlisted, hwindow, leaderRuns,
      hleader, rfl⟩

/-! ## One run -/

/-- The keeper table after `missed` missed a window. -/
def KeeperTable.noteMiss (keepers : KeeperTable) (missed : Address) : KeeperTable :=
  match keepers.infos.get missed with
  | none => keepers
  | some info =>
      let recent := keepers.getKeeperRecent missed
      (keepers.setKeeper missed { info with
        missed := satAdd32 info.missed 1 }).setKeeperRecent missed
        { recent with misses := smooth recent.misses maxBpsScale }

/-- The keeper charged with a run that was reserved for `assigned`. -/
def chargedOf (reg : Registry) (assigned : Option Address) (jobId : JobId) (spec : JobSpec)
    (dueAt now : Timestamp) : Option Address :=
  assigned.filter fun _ => hadWholeWindow reg reg.config jobId spec dueAt now

/-- The events of charging a run to a keeper. -/
def missEvents (keepers : KeeperTable) (jobId : JobId) (ranBy : Address) :
    Option Address → List Event
  | some missed =>
      if (keepers.infos.get missed).isSome then [.keeperMissedWindow missed jobId ranBy] else []
  | none => []

theorem chargeAssigned_eq (c : Chain World) (assigned : Option Address) (jobId : JobId)
    (spec : JobSpec) (dueAt : Timestamp) (ranBy : Address) :
    chargeAssigned c assigned jobId spec dueAt ranBy =
      { c with
        reg := { c.reg with
          keepers := (chargedOf c.reg assigned jobId spec dueAt c.now).elim c.reg.keepers
            c.reg.keepers.noteMiss }
        log := c.log ++ (missEvents c.reg.keepers jobId ranBy
          (chargedOf c.reg assigned jobId spec dueAt c.now)).map (c.now, ·) } := by
  cases assigned with
  | none => simp [chargeAssigned, chargedOf, missEvents]
  | some missed =>
      unfold chargeAssigned
      cases hwhole : hadWholeWindow c.reg c.reg.config jobId spec dueAt c.now with
      | false =>
          have hcharged : chargedOf c.reg (some missed) jobId spec dueAt c.now = none := by
            simp [chargedOf, Option.filter, hwhole]
          simp [hcharged, missEvents]
      | true =>
          have hcharged : chargedOf c.reg (some missed) jobId spec dueAt c.now = some missed := by
            simp [chargedOf, Option.filter, hwhole]
          unfold recordMiss KeeperTable.noteMiss
          cases hinfo : c.reg.keepers.infos.get missed with
          | none => simp [hcharged, missEvents, hinfo]
          | some info => simp [hcharged, missEvents, hinfo, Chain.publish]

namespace Receipt

variable (r : Receipt World)

/-- The keeper the run records a miss against. -/
def charged (reg : Registry) (jobId : JobId) (now : Timestamp) : Option Address :=
  chargedOf reg r.admission.assigned jobId r.admission.spec r.admission.state.nextRun now

/-- The registry after the run. -/
def regAfter (reg : Registry) (jobId : JobId) (now : Timestamp) : Registry :=
  { reg with
    jobs := reg.jobs.setState jobId (r.state reg.config)
    keepers := (r.charged reg jobId now).elim reg.keepers reg.keepers.noteMiss }

/-- The events of the run. -/
def events (host : Host World) (reg : Registry) (now : Timestamp) (keeper : Address)
    (jobId : JobId) : List Event :=
  (if deactivates reg.config r.admission.state r.call.answer.success = true then
    [.jobDeactivated jobId (r.state reg.config).failures] else []) ++
  (if r.balance < r.admission.spec.feePerRun then [.jobExhausted jobId r.balance] else []) ++
  missEvents reg.keepers jobId keeper (r.charged reg jobId now) ++
  [.jobExecuted jobId keeper r.call.answer.success r.fee r.protocolFee (r.state reg.config).runs
    r.nextRun (now - r.admission.state.nextRun) (r.state reg.config).failures
    (host.sha256 r.call.answer.payload)]

theorem write_eq (c : Chain World) :
    r.write host keeper jobId c =
      { c with
        reg := r.regAfter c.reg jobId c.now
        log := c.log ++ (r.events host c.reg c.now keeper jobId).map (c.now, ·) } := by
  unfold write
  dsimp only
  rw [chargeAssigned_eq]
  have hcharged : ∀ state, chargedOf { c.reg with jobs := c.reg.jobs.setState jobId state }
      r.admission.assigned jobId r.admission.spec r.admission.state.nextRun c.now =
      r.charged c.reg jobId c.now := fun _ => rfl
  simp [Chain.publishIf, Chain.publish, regAfter, events, hcharged, state]

end Receipt

/-- The target call and the amounts of a run whose arithmetic does not overflow. -/
structure Priced (host : Host World) (executor : Address) (b : Batch World) (r : Receipt World) :
    Prop where
  call : r.call = host.tryExecute b.chain.toSurroundings executor r.admission.spec.target
    r.admission.spec.function r.admission.spec.args
  fee : rampedFee r.admission.spec r.admission.state b.chain.now = some r.fee
  split : splitFee r.fee b.chain.reg.config.protocolFeeBps = some (r.keeperFee, r.protocolFee)
  balance : i128 (r.admission.state.balance - r.fee) = some r.balance
  nextRun : nextRunAfter r.admission.state.nextRun r.admission.spec.interval b.chain.now =
    some r.nextRun

/-- The call in progress after a run. -/
def Receipt.after (host : Host World) (keeper : Address) (jobId : JobId) (r : Receipt World)
    (b : Batch World) : Batch World where
  chain := r.write host keeper jobId (b.chain.afterCall r.call)
  record := b.record.credit (b.chain.now - r.admission.state.nextRun)
  payout :=
    { keeperFees := b.payout.keeperFees + r.keeperFee
      protocolFees := b.payout.protocolFees + r.protocolFee }

theorem performRun_eq_ok {admission : Admission} :
    performRun host executor keeper jobId admission b = .ok b' ↔
      ∃ r, r.admission = admission ∧ Priced host executor b r ∧
        i128 (b.payout.keeperFees + r.keeperFee) = some b'.payout.keeperFees ∧
        i128 (b.payout.protocolFees + r.protocolFee) = some b'.payout.protocolFees ∧
        b' = r.after host keeper jobId b := by
  simp only [performRun, bind_eq_ok, orTrap_eq_ok, Prod.exists, pure_eq_ok]
  constructor
  · rintro ⟨fee, hfee, keeperFee, protocolFee, hsplit, balance, hbalance, nextRun, hnext,
      keeperFees, hkeeper, protocolFees, hprotocol, rfl⟩
    let call := host.tryExecute b.chain.toSurroundings executor admission.spec.target
      admission.spec.function admission.spec.args
    refine ⟨⟨admission, call, fee, keeperFee, protocolFee, balance, nextRun⟩, rfl,
      ⟨rfl, hfee, hsplit, hbalance, hnext⟩, hkeeper, hprotocol, ?_⟩
    obtain ⟨-, rfl⟩ := checkedInt_eq_some.mp hkeeper
    obtain ⟨-, rfl⟩ := checkedInt_eq_some.mp hprotocol
    rfl
  · rintro ⟨r, rfl, ⟨hcall, hfee, hsplit, hbalance, hnext⟩, hkeeper, hprotocol, rfl⟩
    refine ⟨_, hfee, _, _, hsplit, _, hbalance, _, hnext, _, hkeeper, _, hprotocol, ?_⟩
    rw [← hcall]
    rfl

/-- The call in progress once the job's resolver was asked. -/
def Batch.asked (host : Host World) (jobId : JobId) (spec : JobSpec) (b : Batch World) :
    Batch World :=
  { b with chain := b.chain.afterCall (resolverAllows host b.chain.toSurroundings jobId spec) }

/-- A run of one job that took the call in progress from `b` to `b'`. -/
structure Ran (host : Host World) (executor keeper : Address) (jobId : JobId) (b b' : Batch World)
    (r : Receipt World) : Prop where
  admitted : Admitted host b.chain.reg b.chain.now keeper jobId r.admission
  allowed : (resolverAllows host b.chain.toSurroundings jobId r.admission.spec).answer = true
  priced : Priced host executor (b.asked host jobId r.admission.spec) r
  keeperFees : i128 (b.payout.keeperFees + r.keeperFee) = some b'.payout.keeperFees
  protocolFees : i128 (b.payout.protocolFees + r.protocolFee) = some b'.payout.protocolFees
  result : b' = r.after host keeper jobId (b.asked host jobId r.admission.spec)

theorem runJob_eq_ran :
    runJob host executor keeper jobId b = .ok (.ok (), b') ↔
      ∃ r, Ran host executor keeper jobId b b' r := by
  unfold runJob
  cases hgates : runGates host b.chain.reg b.chain.now keeper jobId with
  | error reason =>
      simp only [Except.ok.injEq, Prod.mk.injEq, reduceCtorEq, false_and, false_iff, not_exists]
      intro r hran
      rw [runGates_eq_ok.mpr hran.admitted] at hgates
      cases hgates
  | ok admission =>
      dsimp only
      split
      next hallowed =>
        simp only [bind_eq_ok, performRun_eq_ok, pure_eq_ok, Prod.mk.injEq, true_and,
          exists_eq_right]
        constructor
        · rintro ⟨r, rfl, hpriced, hkeeper, hprotocol, hresult⟩
          exact ⟨r, runGates_eq_ok.mp hgates, hallowed, hpriced, hkeeper, hprotocol, hresult⟩
        · rintro ⟨r, hran⟩
          have hsame := hgates.symm.trans (runGates_eq_ok.mpr hran.admitted)
          cases hsame
          exact ⟨r, rfl, hran.priced, hran.keeperFees, hran.protocolFees, hran.result⟩
      next hrejected =>
        simp only [Except.ok.injEq, Prod.mk.injEq, reduceCtorEq, false_and, false_iff, not_exists]
        intro r hran
        have hsame := hgates.symm.trans (runGates_eq_ok.mpr hran.admitted)
        cases hsame
        exact hrejected hran.allowed

/-- A rejected run changes at most what its resolver wrote elsewhere. -/
theorem runJob_rejected {reason : Error}
    (h : runJob host executor keeper jobId b = .ok (.error reason, b')) :
    b' = b ∨ ∃ spec, b' = b.asked host jobId spec := by
  unfold runJob at h
  split at h
  · simp only [Except.ok.injEq, Prod.mk.injEq] at h
    exact .inl h.2.symm
  next admission _ =>
    dsimp only at h
    split at h
    · simp only [bind_eq_ok, pure_eq_ok, Prod.mk.injEq, reduceCtorEq, false_and, and_false,
        exists_false] at h
    · simp only [Except.ok.injEq, Prod.mk.injEq] at h
      exact .inr ⟨admission.spec, h.2.symm⟩

namespace Ran

variable {r : Receipt World} (h : Ran host executor keeper jobId b b' r)

include h

theorem reg : b'.chain.reg = r.regAfter b.chain.reg jobId b.chain.now := by
  rw [h.result, Receipt.after, Receipt.write_eq]
  rfl

theorem now : b'.chain.now = b.chain.now := by
  rw [h.result, Receipt.after, Receipt.write_eq]
  rfl

theorem world : b'.chain.world = r.call.world := by
  rw [h.result, Receipt.after, Receipt.write_eq]
  rfl

theorem log : b'.chain.log = b.chain.log ++
    (r.events host b.chain.reg b.chain.now keeper jobId).map (b.chain.now, ·) := by
  rw [h.result, Receipt.after, Receipt.write_eq]
  rfl

theorem balances : b'.chain.balances = b.chain.balances +
    (resolverAllows host b.chain.toSurroundings jobId r.admission.spec).moved + r.call.moved := by
  rw [h.result, Receipt.after, Receipt.write_eq]
  rfl

theorem record : b'.record = b.record.credit (b.chain.now - r.admission.state.nextRun) := by
  rw [h.result]
  rfl

theorem payout : b'.payout.keeperFees = b.payout.keeperFees + r.keeperFee ∧
    b'.payout.protocolFees = b.payout.protocolFees + r.protocolFee := by
  rw [h.result]
  exact ⟨rfl, rfl⟩

theorem balance_eq : r.balance = r.admission.state.balance - r.fee :=
  (checkedInt_eq_some.mp h.priced.balance).2

/-- The caller is never charged with a miss. -/
theorem charged_ne {missed : Address}
    (hcharged : r.charged b.chain.reg jobId b.chain.now = some missed) : missed ≠ keeper := by
  have hassigned := (Option.filter_eq_some_iff.mp hcharged).1
  rw [h.admitted.assigned, Option.filter_eq_some_iff] at hassigned
  simpa using hassigned.2

/-- A run costs at least the base fee and at most what the job has. -/
theorem fee_bounds : r.admission.spec.feePerRun ≤ r.fee ∧ r.fee ≤ r.admission.state.balance := by
  obtain ⟨-, -, -, hfunded, -⟩ := ensureDue_eq_ok.mp h.admitted.due
  exact rampedFee_bounds hfunded h.priced.fee

end Ran

/-! ## Keepers during runs -/

section Bonds

variable (keepers : KeeperTable)

theorem bondOf_setKeeper (who other : Address) (info : Keeper) :
    (keepers.setKeeper who info).bondOf other =
      if other = who then some (info.stake, info.unbondingAt) else keepers.bondOf other := by
  simp only [KeeperTable.bondOf, KeeperTable.setKeeper_infos, Store.get_set]
  split <;> rfl

@[simp] theorem bondOf_setKeeperRecent (who other : Address) (recent : KeeperRecent) :
    (keepers.setKeeperRecent who recent).bondOf other = keepers.bondOf other := rfl

/-- A keeper's record may change as long as its stake and release time stay. -/
theorem bondOf_setKeeper_same {who : Address} {info : Keeper}
    (hbond : keepers.bondOf who = some (info.stake, info.unbondingAt)) (other : Address) :
    (keepers.setKeeper who info).bondOf other = keepers.bondOf other := by
  rw [bondOf_setKeeper]
  split
  next heq => rw [heq, hbond]
  next => rfl

/-- A miss never touches stake. -/
theorem bondOf_noteMiss (missed other : Address) :
    (keepers.noteMiss missed).bondOf other = keepers.bondOf other := by
  unfold KeeperTable.noteMiss
  split
  · rfl
  next info hinfo =>
    apply bondOf_setKeeper_same
    simp [KeeperTable.bondOf, hinfo]

theorem noteMiss_active (missed : Address) : (keepers.noteMiss missed).active = keepers.active := by
  unfold KeeperTable.noteMiss
  split
  · rfl
  · rfl

end Bonds

section Assignment

variable {config : Config} {keepers keepers' : KeeperTable} {spec : JobSpec} {state : JobState}

/-- A run is assigned to the chosen candidate if that keeper's bond allows it to run jobs. -/
theorem assignedKeeperFor_eq_some {who : Address} :
    assignedKeeperFor host config keepers jobId spec state = some who ↔
      config.gracePeriod ≠ 0 ∧
        (candidates keepers spec)[host.sha256Head jobId state.runs %
          (candidates keepers spec).length]? = some who ∧
        ∃ stake, keepers.bondOf who = some (stake, none) ∧ config.minStake ≤ stake := by
  unfold assignedKeeperFor
  by_cases hgrace : config.gracePeriod = 0
  · simp [hgrace]
  · rw [if_neg hgrace]
    simp only [Option.bind_eq_bind, Option.bind_eq_some_iff, ne_eq, hgrace, not_false_eq_true,
      true_and, KeeperTable.bondOf, Option.map_eq_some_iff, Prod.mk.injEq]
    constructor
    · rintro ⟨chosen, hchosen, info, hinfo, hactive⟩
      cases hcheck : ensureActiveKeeper config info with
      | error reason =>
          rw [hcheck] at hactive
          cases hactive
      | ok u =>
          rw [hcheck] at hactive
          cases hactive
          obtain ⟨hbonded, hstake⟩ := ensureActiveKeeper_eq_ok.mp hcheck
          exact ⟨hchosen, info.stake, ⟨info, hinfo, rfl, hbonded⟩, hstake⟩
    · rintro ⟨hchosen, stake, ⟨info, hinfo, rfl, hbonded⟩, hstake⟩
      refine ⟨who, hchosen, info, hinfo, ?_⟩
      rw [ensureActiveKeeper_eq_ok.mpr ⟨hbonded, hstake⟩]

/-- The assignment depends on the rotation and on bonds only. -/
theorem assignedKeeperFor_congr (hactive : keepers'.active = keepers.active)
    (hbonds : ∀ who, keepers'.bondOf who = keepers.bondOf who) :
    assignedKeeperFor host config keepers' jobId spec state =
      assignedKeeperFor host config keepers jobId spec state := by
  ext who
  rw [assignedKeeperFor_eq_some, assignedKeeperFor_eq_some, candidates, candidates, hactive, hbonds]

/-- So do the gates of a run. -/
theorem runGates_congr {reg : Registry} {now : Timestamp}
    (hactive : keepers'.active = reg.keepers.active)
    (hbonds : ∀ who, keepers'.bondOf who = reg.keepers.bondOf who) :
    runGates host { reg with keepers := keepers' } now keeper jobId =
      runGates host reg now keeper jobId := by
  have hassigned : ∀ spec state, assignedKeeperFor host reg.config keepers' jobId spec state =
      assignedKeeperFor host reg.config reg.keepers jobId spec state :=
    fun _ _ => assignedKeeperFor_congr hactive hbonds
  simp only [runGates, hassigned]
  rfl

end Assignment

/-- What a miss does to one keeper's record and averages depends on that keeper alone. -/
theorem noteMiss_infos (keepers : KeeperTable) (missed who : Address) :
    (keepers.noteMiss missed).infos.get who =
      if who = missed then
        (keepers.infos.get who).map fun info => { info with missed := satAdd32 info.missed 1 }
      else
        keepers.infos.get who := by
  unfold KeeperTable.noteMiss
  by_cases heq : who = missed
  · subst heq
    cases hinfo : keepers.infos.get who with
    | none => simp [hinfo]
    | some info => simp
  · rw [if_neg heq]
    split
    · rfl
    · exact Store.get_set_of_ne _ _ heq

theorem noteMiss_recents (keepers : KeeperTable) (missed who : Address) :
    (keepers.noteMiss missed).getKeeperRecent who =
      if who = missed ∧ (keepers.infos.get who).isSome = true then
        { keepers.getKeeperRecent who with
          misses := smooth (keepers.getKeeperRecent who).misses maxBpsScale }
      else
        keepers.getKeeperRecent who := by
  unfold KeeperTable.noteMiss
  by_cases heq : who = missed
  · subst heq
    cases hinfo : keepers.infos.get who with
    | none => simp
    | some info => simp [KeeperTable.getKeeperRecent]
  · rw [if_neg (fun h => heq h.1)]
    split
    · rfl
    · rw [KeeperTable.getKeeperRecent, KeeperTable.getKeeperRecent,
        KeeperTable.setKeeperRecent_recents, Store.get_set_of_ne _ _ heq]
      rfl

/-- A run leaves every keeper's stake and release time as they were. -/
theorem Ran.bondOf {r : Receipt World} (h : Ran host executor keeper jobId b b' r) (who : Address) :
    b'.chain.reg.keepers.bondOf who = b.chain.reg.keepers.bondOf who := by
  rw [h.reg, Receipt.regAfter]
  cases r.charged b.chain.reg jobId b.chain.now with
  | none => rfl
  | some missed => exact bondOf_noteMiss _ missed who

/-! ## Runs of one call -/

/-- One run of a job: the call in progress just before and just after it. -/
structure Execution (World : Type) where
  jobId : JobId
  executor : Address
  keeper : Address
  before : Batch World
  after : Batch World

/-- The runs that `runJobs` makes, in order. -/
def runsOf (host : Host World) (executor keeper : Address) :
    List JobId → Batch World → List (Execution World)
  | [], _ => []
  | jobId :: rest, b =>
      match runJob host executor keeper jobId b with
      | .ok (.ok (), after) =>
          { jobId, executor, keeper, before := b, after } :: runsOf host executor keeper rest after
      | .ok (.error _, after) => runsOf host executor keeper rest after
      | .error _ => []

/-- What asking a resolver and running a job preserve, relative to the runs made so far,
holds after all jobs of a call. -/
theorem runJobs_history {I : List (Execution World) → Batch World → Prop}
    (hasked : ∀ past b jobId spec, I past b → I past (b.asked host jobId spec))
    (hran : ∀ past b b' jobId r, I past b → Ran host executor keeper jobId b b' r →
      I (past ++ [{ jobId, executor, keeper, before := b, after := b' }]) b')
    {jobIds : List JobId} {ran : List Bool} (past : List (Execution World)) (hstart : I past b)
    (h : runJobs host executor keeper jobIds b = .ok (ran, b')) :
    I (past ++ runsOf host executor keeper jobIds b) b' := by
  induction jobIds generalizing past b ran with
  | nil =>
      simp only [runJobs, Except.ok.injEq, Prod.mk.injEq] at h
      rw [← h.2, runsOf, List.append_nil]
      exact hstart
  | cons jobId rest ih =>
      simp only [runJobs, bind_eq_ok, Prod.exists, pure_eq_ok, Prod.mk.injEq] at h
      obtain ⟨outcome, middle, hjob, others, last, hrest, -, rfl⟩ := h
      unfold runsOf
      rw [hjob]
      cases outcome with
      | ok u =>
          obtain ⟨r, hr⟩ := runJob_eq_ran.mp hjob
          have hmiddle := ih _ (hran past b middle jobId r hstart hr) hrest
          rw [List.append_assoc] at hmiddle
          exact hmiddle
      | error reason =>
          rcases runJob_rejected hjob with rfl | ⟨spec, rfl⟩
          · exact ih past hstart hrest
          · exact ih past (hasked past b jobId spec hstart) hrest

/-- The same without the runs made so far. -/
theorem runJobs_invariant {I : Batch World → Prop}
    (hasked : ∀ b jobId spec, I b → I (b.asked host jobId spec))
    (hran : ∀ b b' jobId r, I b → Ran host executor keeper jobId b b' r → I b')
    {jobIds : List JobId} {ran : List Bool} (hstart : I b)
    (h : runJobs host executor keeper jobIds b = .ok (ran, b')) : I b' :=
  runJobs_history (I := fun _ => I) (fun _ => hasked) (fun _ => hran) [] hstart h

end SoroCron
