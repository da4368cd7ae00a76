import SoroCron.Registry.Soundness

/-! # Funds

What the registry holds against what it owes: the balances of its live jobs in the fee
token and the stakes of its keepers in the stake token. Every operation changes both sides
alike; a run leaves its fee in the registry until the call pays out. What others transfer to
the registry unasked only adds to a surplus.
-/

namespace SoroCron

open Outcome Bounded

variable {World : Type} {host : Host World} {ctx : Ctx} {c c' : Chain World}

/-! ## What is owed -/

/-- The balances of all live jobs, those that have both entries. -/
def JobTable.liveBalances (jobs : JobTable) : ℤ :=
  ∑ id ∈ jobs.states.keys with jobs.specs.has id = true, jobs.states.amount JobState.balance id

/-- The stakes of all registered keepers. -/
def KeeperTable.stakes (keepers : KeeperTable) : ℤ := keepers.infos.total Keeper.stake

/-- What the registry owes in a token, which can be both the fee and the stake token. -/
def owed (reg : Registry) (token : Address) : ℤ :=
  (if token = reg.config.feeToken then reg.jobs.liveBalances else 0) +
    (if token = reg.config.stakeToken then reg.keepers.stakes else 0)

/-- What the registry holds beyond what its entries add up to. -/
def surplus (host : Host World) (c : Chain World) (token : Address) : ℤ :=
  c.balances token host.registry -
    ((if token = c.reg.config.feeToken then c.reg.jobs.states.total JobState.balance else 0) +
      (if token = c.reg.config.stakeToken then c.reg.keepers.stakes else 0))

theorem JobTable.Sound.liveBalances_eq {jobs : JobTable} (h : jobs.Sound) :
    jobs.liveBalances = jobs.states.total JobState.balance := by
  have hlive : jobs.states.keys.filter (fun id => jobs.specs.has id = true) = jobs.states.keys := by
    rw [Finset.filter_eq_self]
    intro id hid
    rw [← h.paired, Store.mem_keys] at hid
    exact hid
  rw [JobTable.liveBalances, hlive, Store.total]

theorem surplus_eq (hjobs : c.reg.jobs.Sound) (token : Address) :
    surplus host c token = c.balances token host.registry - owed c.reg token := by
  rw [surplus, owed, hjobs.liveBalances_eq]

/-- The stakes depend on bonds only. -/
theorem stakes_congr {keepers keepers' : KeeperTable}
    (hbonds : ∀ who, keepers'.bondOf who = keepers.bondOf who) :
    keepers'.stakes = keepers.stakes := by
  have hstake : ∀ (table : KeeperTable) who,
      table.infos.amount Keeper.stake who = ((table.bondOf who).map Prod.fst).getD 0 := by
    intro table who
    rw [Store.amount, KeeperTable.bondOf, Option.map_map]
    rfl
  apply Store.total_congr
  · intro who
    rw [hstake, hstake, hbonds]
  · ext who
    have hsome : ∀ table : KeeperTable, (table.infos.get who).isSome =
        (table.bondOf who).isSome := by
      intro table
      rw [KeeperTable.bondOf, Option.isSome_map]
    rw [Store.mem_keys, Store.mem_keys, hsome, hsome, hbonds]

/-! ## Operations that move both sides alike -/

/-- Jobs grew by `fees` and stakes by `stakes`, and the registry's holdings with them. -/
structure Settles (host : Host World) (c c' : Chain World) (fees stakes : ℤ) : Prop where
  tokens : SameTokens c.reg c'.reg
  escrow : c'.reg.jobs.states.total JobState.balance =
    c.reg.jobs.states.total JobState.balance + fees
  bonds : c'.reg.keepers.stakes = c.reg.keepers.stakes + stakes
  holding : ∀ token, c'.balances token host.registry = c.balances token host.registry +
    (if token = c.reg.config.feeToken then fees else 0) +
    (if token = c.reg.config.stakeToken then stakes else 0)

theorem Settles.surplus {fees stakes : ℤ} (h : Settles host c c' fees stakes) (token : Address) :
    surplus host c' token = surplus host c token := by
  rw [SoroCron.surplus, SoroCron.surplus, h.tokens.feeToken, h.tokens.stakeToken, h.escrow, h.bonds,
    h.holding]
  split <;> split <;> omega

theorem Settles.trans {c₁ c₂ c₃ : Chain World} {fees stakes fees' stakes' : ℤ}
    (h : Settles host c₁ c₂ fees stakes) (h' : Settles host c₂ c₃ fees' stakes') :
    Settles host c₁ c₃ (fees + fees') (stakes + stakes') := by
  have htokens := h.tokens
  refine ⟨⟨h'.tokens.feeToken.trans htokens.feeToken, h'.tokens.stakeToken.trans htokens.stakeToken,
    h'.tokens.unbondingPeriod.trans htokens.unbondingPeriod⟩, ?_, ?_, ?_⟩
  · rw [h'.escrow, h.escrow, Int.add_assoc]
  · rw [h'.bonds, h.bonds, Int.add_assoc]
  · intro token
    rw [h'.holding, h.holding, htokens.feeToken, htokens.stakeToken]
    split <;> split <;> omega

section Transfers

variable {token token' sender receiver : Address} {amount : ℤ}

theorem movedBy_in (hsender : sender ≠ receiver) :
    movedBy token sender receiver amount token' receiver = if token' = token then amount
      else 0 := by
  rw [movedBy_apply]
  by_cases htoken : token' = token <;> simp [htoken, hsender.symm]

theorem movedBy_out (hreceiver : receiver ≠ sender) :
    movedBy token sender receiver amount token' sender = if token' = token then -amount else 0 := by
  rw [movedBy_apply]
  by_cases htoken : token' = token <;> simp [htoken, hreceiver.symm]

end Transfers

theorem total_setState {jobs : JobTable} {id : JobId} {old state : JobState}
    (hold : jobs.states.get id = some old) :
    (jobs.setState id state).states.total JobState.balance =
      jobs.states.total JobState.balance + (state.balance - old.balance) := by
  rw [JobTable.setState_states, Store.total_set, Store.amount_of_get hold]
  omega

/-- A list of new jobs adds their deposits. -/
theorem insertJobs_settles {owner : Address} {jobs : List (JobParams × ℤ)} {ids : List JobId}
    (h : insertJobs owner jobs c = .ok (ids, c'))
    (hfresh : ∀ id, c.reg.jobs.nextJobId ≤ id → c.reg.jobs.states.get id = none) :
    c'.reg.jobs.states.total JobState.balance =
        c.reg.jobs.states.total JobState.balance + (jobs.map Prod.snd).sum ∧
      c'.balances = c.balances := by
  let I : List (JobParams × ℤ) → Chain World → Prop := fun rest middle =>
    (∀ id, middle.reg.jobs.nextJobId ≤ id → middle.reg.jobs.states.get id = none) ∧
      middle.reg.jobs.states.total JobState.balance + (rest.map Prod.snd).sum =
        c.reg.jobs.states.total JobState.balance + (jobs.map Prod.snd).sum ∧
      middle.balances = c.balances
  have hlast : I [] c' := by
    refine insertJobs_invariant ?_ ⟨hfresh, rfl, rfl⟩ h
    rintro params deposit rest middle - ⟨hfresh, htotal, hbalances⟩
    refine ⟨?_, ?_, hbalances⟩
    · intro id hid
      rw [Chain.withJob_nextJobId] at hid
      rw [Chain.withJob_states, Store.get_set_of_ne _ _ (Nat.ne_of_gt hid)]
      exact hfresh id (Nat.le_of_succ_le hid)
    · rw [Chain.withJob_states, Store.total_set, Store.amount_of_none (hfresh _ le_rfl), ← htotal,
        List.map_cons, List.sum_cons]
      simp only [JobParams.toState]
      omega
  obtain ⟨-, htotal, hbalances⟩ := hlast
  refine ⟨?_, hbalances⟩
  rw [← htotal, List.map_nil, List.sum_nil, add_zero]

theorem jobCall_settles {call : JobCall} (hsound : c.Sound host)
    (h : jobCall host ctx c call = .ok c') : ∃ fees, Settles host c c' fees 0 := by
  have hframe := jobCall_jobsOnly h
  have htokens : SameTokens c.reg c'.reg := by
    rw [hframe.reg]
    exact ⟨rfl, rfl, rfl⟩
  have hbonds : c'.reg.keepers.stakes = c.reg.keepers.stakes + 0 := by
    rw [hframe.keepers, add_zero]
  -- A new id has no balance that storing the job could overwrite.
  have hfresh : ∀ id, c.reg.jobs.nextJobId ≤ id → c.reg.jobs.states.get id = none :=
    fun id hid => (hsound.jobs.fresh hid).2
  cases call with
  | createJob owner params deposit =>
      obtain ⟨id, h⟩ := Result.chain_eq_ok.mp h
      obtain ⟨-, ⟨-, howner⟩, -, paid, hpaid, hinsert⟩ := createJob_eq_ok h
      obtain ⟨-, rfl⟩ := Chain.transfer_eq_ok.mp hpaid
      obtain ⟨-, -, rfl⟩ := insertJob_eq_ok.mp hinsert
      refine ⟨deposit, htokens, ?_, hbonds, fun token => ?_⟩
      · rw [Chain.withJob_states, Store.total_set, Store.amount_of_none (hfresh _ le_rfl)]
        simp only [JobParams.toState, Int.sub_zero]
      · simp [movedBy_in howner]
  | createJobs owner jobs deposits =>
      obtain ⟨ids, h⟩ := Result.chain_eq_ok.mp h
      obtain ⟨-, ⟨-, howner⟩, -, -, paid, hpaid, hinsert⟩ := createJobs_eq_ok h
      obtain ⟨-, rfl⟩ := Chain.transfer_eq_ok.mp hpaid
      obtain ⟨htotal, hbalances⟩ := insertJobs_settles hinsert hfresh
      refine ⟨_, htokens, htotal, hbonds, fun token => ?_⟩
      rw [hbalances]
      simp [movedBy_in howner]
  | updateJob jobId update =>
      obtain ⟨-, spec, state, interval, leaderRuns, hparts, -, -, -, rfl⟩ := updateJob_eq_ok h
      refine ⟨0, htokens, ?_, hbonds, fun token => by simp⟩
      have hstate := JobTable.states_get_of_parts hparts
      simp only [Chain.publish_reg, Registry.touch_jobs, JobTable.setState_states,
        JobTable.setSpec_states, Store.total_set, Store.amount_of_get hstate]
      omega
  | fundJob payer jobId amount =>
      obtain ⟨balance, h⟩ := Result.chain_eq_ok.mp h
      obtain ⟨⟨-, ⟨-, hpayer⟩, -⟩, -, state, hstate, rfl, -, rfl⟩ := fundJob_eq_ok h
      refine ⟨amount, htokens, ?_, hbonds, fun token => ?_⟩
      · refine (total_setState hstate).trans ?_
        dsimp only
        omega
      · simp [movedBy_in hpayer]
  | cancelJob jobId =>
      obtain ⟨refund, h⟩ := Result.chain_eq_ok.mp h
      obtain ⟨spec, state, paid, hparts, ⟨-, howner⟩, hpaid, -, rfl⟩ := cancelJob_eq_ok.mp h
      have hstate := JobTable.states_get_of_parts hparts
      have hnonneg := (hsound.jobs.states _ _ hstate).balance_nonneg
      -- An empty balance is not transferred, which leaves the same as transferring it.
      have hpaid := Chain.payOut_eq_ok hnonneg hpaid
      subst hpaid
      refine ⟨-state.balance, htokens, ?_, hbonds, fun token => ?_⟩
      · simp only [Chain.publish_reg, JobTable.removeOwnerJob_states, JobTable.removeJob_states,
          Store.total_remove, Store.amount_of_get hstate]
        omega
      · simp [movedBy_out howner]
  | withdrawJobBalance jobId amount =>
      obtain ⟨balance, h⟩ := Result.chain_eq_ok.mp h
      obtain ⟨spec, state, hparts, ⟨-, howner⟩, -, -, rfl, -, -, paid, hpaid, rfl⟩ :=
        withdrawJobBalance_eq_ok.mp h
      obtain ⟨-, rfl⟩ := Chain.transfer_eq_ok.mp hpaid
      refine ⟨-amount, htokens, ?_, hbonds, fun token => ?_⟩
      · refine (total_setState (JobTable.states_get_of_parts hparts)).trans ?_
        dsimp only
        omega
      · simp [movedBy_out howner]
  | setJobActive jobId active =>
      obtain ⟨spec, state, hparts, -, rfl⟩ := setJobActive_eq_ok h
      refine ⟨0, htokens, ?_, hbonds, fun token => by simp⟩
      refine (total_setState (JobTable.states_get_of_parts hparts)).trans ?_
      dsimp only
      omega
  | proposeJobOwner jobId newOwner =>
      obtain ⟨spec, -, -, rfl⟩ := proposeJobOwner_eq_ok h
      refine ⟨0, htokens, ?_, hbonds, fun token => by simp⟩
      simp only [Chain.publish_reg, add_zero]
      split <;> rfl
  | acceptJobOwner jobId =>
      obtain ⟨spec, newOwner, -, -, -, rfl⟩ := acceptJobOwner_eq_ok h
      refine ⟨0, htokens, ?_, hbonds, fun token => by simp⟩
      exact (add_zero _).symm

theorem stakes_setKeeper (keepers : KeeperTable) (who : Address) (info : Keeper) :
    (keepers.setKeeper who info).stakes =
      keepers.stakes + (info.stake - ((keepers.bondOf who).map Prod.fst).getD 0) := by
  have hold : keepers.infos.amount Keeper.stake who =
      ((keepers.bondOf who).map Prod.fst).getD 0 := by
    rw [Store.amount, KeeperTable.bondOf, Option.map_map]
    rfl
  rw [KeeperTable.stakes, KeeperTable.setKeeper_infos, Store.total_set, hold, KeeperTable.stakes]
  omega

theorem releaseStake_settles {keeper : Address} {amount : ℤ}
    (hkeepers : c.reg.keepers.Sound host.registry)
    (h : releaseStake host c keeper = .ok (amount, c')) : Settles host c c' 0 (-amount) := by
  obtain ⟨info, release, paid, hinfo, hrelease, -, hpaid, rfl, rfl⟩ := releaseStake_eq_ok.mp h
  have hbond := bondOf_of_info hinfo
  have hnonneg := (hkeepers.stakes _ _ _ hbond).1.le
  have hother : keeper ≠ host.registry := by
    rintro rfl
    rw [hkeepers.outsider] at hbond
    cases hbond
  have hpaid := Chain.payOut_eq_ok hnonneg hpaid
  subst hpaid
  refine ⟨⟨rfl, rfl, rfl⟩, (add_zero _).symm, ?_, fun token => ?_⟩
  · simp only [Chain.publish_reg, KeeperTable.stakes, KeeperTable.removeKeeper_infos,
      Store.total_remove, Store.amount_of_get hinfo]
    omega
  · simp [movedBy_out hother]

theorem keeperCall_settles {call : KeeperCall} (hkeepers : c.reg.keepers.Sound host.registry)
    (h : keeperCall host ctx c call = .ok c') : ∃ stakes, Settles host c c' 0 stakes := by
  cases call with
  | stake keeper amount =>
      obtain ⟨total, h⟩ := Result.chain_eq_ok.mp h
      obtain ⟨hbefore, -⟩ := stake_bondOf h
      obtain ⟨⟨-, ⟨-, hother⟩, -⟩, -, info, -, -, -, -, rfl⟩ := stake_eq_ok h
      refine ⟨amount, ⟨rfl, rfl, rfl⟩, (add_zero _).symm, ?_, fun token => ?_⟩
      · refine (stakes_setKeeper c.reg.keepers keeper { info with stake := total }).trans ?_
        rcases hbefore with ⟨hnone, rfl⟩ | ⟨before, hbefore, rfl⟩
        · rw [hnone]
          simp
        · rw [hbefore]
          simp
      · simp [movedBy_in hother]
  | beginUnbonding keeper =>
      obtain ⟨release, h⟩ := Result.chain_eq_ok.mp h
      obtain ⟨-, info, hinfo, -, -, rfl⟩ := beginUnbonding_eq_ok.mp h
      refine ⟨0, ⟨rfl, rfl, rfl⟩, (add_zero _).symm, ?_, fun token => by simp⟩
      refine (stakes_setKeeper c.reg.keepers keeper
        { info with unbondingAt := some release }).trans ?_
      rw [bondOf_of_info hinfo]
      simp
  | withdrawStake keeper =>
      obtain ⟨amount, h⟩ := Result.chain_eq_ok.mp h
      exact ⟨_, releaseStake_settles hkeepers (withdrawStake_eq_ok.mp h).2⟩
  | withdrawStakes keepers =>
      obtain ⟨amounts, h⟩ := Result.chain_eq_ok.mp h
      let I : List Address → Chain World → Prop := fun _ middle =>
        middle.reg.keepers.Sound host.registry ∧ ∃ stakes, Settles host c middle 0 stakes
      have hlast := releaseStakes_history (I := I) ?_ [] ⟨hkeepers, 0, ⟨rfl, rfl, rfl⟩,
        (add_zero _).symm, (add_zero _).symm, fun token => by simp⟩ (withdrawStakes_eq_ok.mp h).2
      · exact hlast.2
      · rintro - middle c' keeper amount ⟨hmiddle, stakes, hsettles⟩ hrelease
        have hone := releaseStake_settles hmiddle hrelease
        exact ⟨releaseStake_sound hrelease hmiddle, _, hsettles.trans hone⟩

theorem adminCall_settles {call : AdminCall} (h : adminCall host ctx c call = .ok c') :
    Settles host c c' 0 0 := by
  obtain ⟨-, -, rfl⟩ := adminCall_eq_ok h
  have hframe := adminCall_settingsOnly call c.reg c.now
  refine ⟨hframe.toSameTokens, ?_, ?_, fun token => by simp⟩
  · rw [Chain.publish_reg, hframe.jobs, add_zero]
  · rw [Chain.publish_reg, hframe.keepers, add_zero]

/-! ## Runs -/

/-- No target and no resolver transfers tokens to the registry. -/
def NoGifts (host : Host World) : Prop :=
  (∀ around resolver jobId token,
      (host.shouldRun around resolver jobId).moved token host.registry = 0) ∧
    ∀ around executor target function args token,
      (host.tryExecute around executor target function args).moved token host.registry = 0

/-- `after` is no less than `before`, and no more either if `closed`. -/
def Grows (closed : Prop) (before after : ℤ) : Prop := before ≤ after ∧ (closed → after = before)

theorem Grows.refl (closed : Prop) (x : ℤ) : Grows closed x x := ⟨le_rfl, fun _ => rfl⟩

theorem Grows.trans {closed : Prop} {x y z : ℤ} (h : Grows closed x y) (h' : Grows closed y z) :
    Grows closed x z :=
  ⟨h.1.trans h'.1, fun hclosed => (h'.2 hclosed).trans (h.2 hclosed)⟩

theorem Grows.add {closed : Prop} {x y u v : ℤ} (h : Grows closed x y) (h' : Grows closed u v) :
    Grows closed (x + u) (y + v) :=
  ⟨Int.add_le_add h.1 h'.1, fun hclosed => by rw [h.2 hclosed, h'.2 hclosed]⟩

theorem resolver_moved (host : Host World) (around : Surroundings World) (jobId : JobId)
    (spec : JobSpec) (token : Address) :
    Grows (NoGifts host) 0 ((resolverAllows host around jobId spec).moved token host.registry) := by
  unfold resolverAllows
  split
  · exact Grows.refl _ 0
  next resolver _ =>
    exact ⟨(host.shouldRun_spares around resolver jobId token).1,
      fun hgifts => hgifts.1 around resolver jobId token⟩

section Runs

variable {executor keeper : Address} {jobId : JobId} {b b' : Batch World} {r : Receipt World}
  {info : Keeper}

/-- Earnings that a call has not paid out yet. -/
def unpaid (config : Config) (payout : Payout) (token : Address) : ℤ :=
  if token = config.feeToken then payout.keeperFees + payout.protocolFees else 0

/-- A run frees its fee from the job's balance: it becomes surplus until it is paid out. -/
theorem Ran.surplus (hran : Ran host executor keeper jobId b b' r) (hjobs : b.chain.reg.jobs.Sound)
    (hconfig : b.chain.reg.config.Sound) (token : Address) :
    Grows (NoGifts host)
      (surplus host b.chain token +
        (unpaid b.chain.reg.config b'.payout token - unpaid b.chain.reg.config b.payout token))
      (surplus host b'.chain token) := by
  obtain ⟨-, -, hparts⟩ := hran.parts hjobs hconfig
  have hcall : Grows (NoGifts host) 0 (r.call.moved token host.registry) := by
    rw [hran.priced.call]
    exact ⟨(host.tryExecute_spares _ _ _ _ _ token).1, fun hgifts => hgifts.2 _ _ _ _ _ token⟩
  have hmoved := (resolver_moved host b.chain.toSurroundings jobId r.admission.spec token).add hcall
  have hstate := JobTable.states_get_of_parts hran.admitted.parts
  have htotal : b'.chain.reg.jobs.states.total JobState.balance =
      b.chain.reg.jobs.states.total JobState.balance - r.fee := by
    rw [hran.reg]
    refine (total_setState hstate).trans ?_
    simp only [Receipt.state, hran.balance_eq]
    omega
  have hstakes : b'.chain.reg.keepers.stakes = b.chain.reg.keepers.stakes :=
    stakes_congr hran.bondOf
  have hconfig' : b'.chain.reg.config = b.chain.reg.config := by
    rw [hran.reg]
    rfl
  have hafter : SoroCron.surplus host b'.chain token = SoroCron.surplus host b.chain token +
      (unpaid b.chain.reg.config b'.payout token - unpaid b.chain.reg.config b.payout token) +
      ((resolverAllows host b.chain.toSurroundings jobId r.admission.spec).moved token
        host.registry +
        r.call.moved token host.registry) := by
    obtain ⟨hkeeper, hprotocol⟩ := hran.payout
    rw [SoroCron.surplus, SoroCron.surplus, hconfig', htotal, hstakes, hran.balances,
      unpaid, unpaid, hkeeper, hprotocol]
    simp only [Pi.add_apply]
    split <;> omega
  rw [hafter]
  exact ⟨by linarith [hmoved.1], fun hgifts => by linarith [hmoved.2 hgifts]⟩

theorem runJobs_surplus {jobIds : List JobId} {ran : List Bool} (hconfig : c.reg.config.Sound)
    (hjobs : c.reg.jobs.Sound)
    (h : runJobs host executor keeper jobIds (startBatch c keeper info) = .ok (ran, b)) :
    (c.reg.config.protocolFeeBps = 0 → b.payout.protocolFees = 0) ∧ ∀ token,
      Grows (NoGifts host) (surplus host c token + unpaid c.reg.config b.payout token)
        (surplus host b.chain token) := by
  let I : Batch World → Prop := fun b =>
    UnderwaySound c info b ∧ (c.reg.config.protocolFeeBps = 0 → b.payout.protocolFees = 0) ∧
      ∀ token, Grows (NoGifts host) (surplus host c token + unpaid c.reg.config b.payout token)
        (surplus host b.chain token)
  have hstart : I (startBatch c keeper info) := by
    refine ⟨UnderwaySound.start hjobs keeper info, fun _ => rfl, fun token => ?_⟩
    have hnothing : unpaid c.reg.config (startBatch c keeper info).payout token = 0 := by
      simp [unpaid, startBatch]
    rw [hnothing, add_zero]
    exact Grows.refl _ _
  have hlast : I b := by
    refine runJobs_invariant ?_ ?_ hstart h
    · rintro b jobId spec ⟨hunder, hnone, hgrows⟩
      refine ⟨hunder.asked jobId spec, hnone, fun token => (hgrows token).trans ?_⟩
      have hmoved := resolver_moved host b.chain.toSurroundings jobId spec token
      have hafter : surplus host (b.asked host jobId spec).chain token =
          surplus host b.chain token +
          (resolverAllows host b.chain.toSurroundings jobId spec).moved token host.registry := by
        exact add_sub_right_comm _ _ _
      rw [hafter]
      exact ⟨by linarith [hmoved.1], fun hgifts => by linarith [hmoved.2 hgifts]⟩
    · rintro b b' jobId r ⟨hunder, hnone, hgrows⟩ hran
      have hsame := hunder.toUnderway.config
      have hconfig' : b.chain.reg.config.Sound := hsame ▸ hconfig
      refine ⟨hunder.ran hconfig hran, ?_, fun token => ?_⟩
      · intro hzero
        have hfee : 0 < r.fee := by
          have hspec := hunder.jobs.specs _ _ (JobTable.specs_get_of_parts hran.admitted.parts)
          exact hspec.fee_pos.trans_le hran.fee_bounds.1
        obtain ⟨hshare, -⟩ := splitFee_eq_some hfee hran.priced.split
        have hbps : (b.asked host jobId r.admission.spec).chain.reg.config.protocolFeeBps = 0 := by
          rw [← hzero, ← hsame]
          rfl
        rw [hran.payout.2, hnone hzero, hshare, hbps]
        simp
      · have hrun := hran.surplus hunder.jobs hconfig' token
        rw [hsame] at hrun
        obtain ⟨hle, heq⟩ := hgrows token
        exact ⟨by linarith [hrun.1], fun hgifts => by linarith [hrun.2 hgifts, heq hgifts]⟩
  exact hlast.2

/-- A call that ran jobs pays out exactly what its runs freed. -/
theorem runCall_surplus {call : RunCall} (hsound : c.Sound host)
    (h : runCall host ctx c call = .ok c') (token : Address) :
    Grows (NoGifts host ∧ c.reg.config.treasury ≠ some host.registry) (surplus host c token)
      (surplus host c' token) := by
  obtain ⟨executor, info, ran, b, hauth, hruns, hfinish, -⟩ := runCall_eq_ok h
  obtain ⟨-, -, ⟨-, hother⟩, hinfo, -⟩ := authorizeKeeper_eq_ok.mp hauth
  have hunder := runJobs_underway hsound.config hsound.jobs hruns
  obtain ⟨hnone, hgrows⟩ := runJobs_surplus hsound.config hsound.jobs hruns
  have hend := finish_eq_ok hunder.keeperFees hunder.protocolFees hfinish
  have hsame := hunder.toUnderway.config
  have hstakes : c'.reg.keepers.stakes = b.chain.reg.keepers.stakes := by
    rw [hend]
    exact (stakes_congr (hunder.bonds_saved hinfo)).trans (stakes_congr hunder.bonds).symm
  have hbalances : c'.balances =
      b.chain.balances + settled host c.reg.config call.keeper b.payout := by rw [hend, hsame]
  have hconfig : c'.reg.config = c.reg.config := by rw [hend, ← hsame]
  have hjobs : c'.reg.jobs = b.chain.reg.jobs := by rw [hend]
  have hafter : surplus host c' token =
      surplus host b.chain token +
        settled host c.reg.config call.keeper b.payout token host.registry := by
    rw [surplus, surplus, hstakes, hjobs, hconfig, hbalances, hsame, Pi.add_apply, Pi.add_apply]
    omega
  -- The keeper is paid in full; so is the treasury, unless it is the registry itself.
  have hpaid : Grows (c.reg.config.treasury ≠ some host.registry)
      (-unpaid c.reg.config b.payout token)
      (settled host c.reg.config call.keeper b.payout token host.registry) := by
    have hprotocol := hunder.protocolFees
    unfold settled
    rw [Pi.add_apply, Pi.add_apply, movedBy_out hother, unpaid]
    cases htreasury : c.reg.config.treasury with
    | none =>
        have hzero : c.reg.config.protocolFeeBps = 0 := by
          by_contra hpos
          exact hsound.config.treasury (Nat.pos_of_ne_zero hpos) htreasury
        rw [hnone hzero, Option.elim_none]
        simp only [Pi.zero_apply, add_zero]
        split
        · exact Grows.refl _ _
        · exact Grows.refl _ _
    | some treasury =>
        rw [Option.elim_some]
        by_cases hself : treasury = host.registry
        · subst hself
          simp only [movedBy_apply, sub_self, add_zero]
          refine ⟨by split <;> omega, fun hclosed => absurd rfl hclosed⟩
        · rw [movedBy_out hself]
          split
          · exact ⟨by omega, fun _ => by omega⟩
          · exact Grows.refl _ _
  rw [hafter]
  obtain ⟨hle, heq⟩ := hgrows token
  exact ⟨by linarith [hpaid.1], fun hclosed => by linarith [heq hclosed.1, hpaid.2 hclosed.2]⟩

end Runs

/-! ## Calls -/

theorem call_surplus {call : Call} (hsound : c.Sound host) (h : call.perform host ctx c = .ok c')
    (token : Address) :
    Grows (NoGifts host ∧ c.reg.config.treasury ≠ some host.registry) (surplus host c token)
      (surplus host c' token) := by
  cases call with
  | job call =>
      obtain ⟨fees, hsettles⟩ := jobCall_settles hsound h
      rw [hsettles.surplus]
      exact Grows.refl _ _
  | run call => exact runCall_surplus hsound h token
  | keeper call =>
      obtain ⟨stakes, hsettles⟩ := keeperCall_settles hsound.keepers h
      rw [hsettles.surplus]
      exact Grows.refl _ _
  | admin call =>
      rw [(adminCall_settles h).surplus]
      exact Grows.refl _ _

/-! ## Solvency -/

/-- What the registry holds of every token fits a token balance. -/
def HoldingFits (host : Host World) (c : Chain World) : Prop :=
  ∀ token, c.balances token host.registry ≤ i128Max

theorem transfer_in_fits {token sender : Address} {amount : ℤ}
    (haccepts : host.acceptsTransfer c.toSurroundings token sender host.registry amount = true)
    (hsender : sender ≠ host.registry) (hfits : HoldingFits host c) (token' : Address) :
    (c.balances + movedBy token sender host.registry amount) token' host.registry ≤ i128Max := by
  rw [Pi.add_apply, Pi.add_apply, movedBy_in hsender]
  split
  next heq =>
    subst heq
    exact host.accepts_fits _ _ _ _ hsender haccepts
  next => exact (add_zero _).le.trans (hfits token')

theorem transfer_out_fits {token receiver : Address} {amount : ℤ} (hnonneg : 0 ≤ amount)
    (hfits : HoldingFits host c) (token' : Address) :
    (c.balances + movedBy token host.registry receiver amount) token' host.registry ≤ i128Max := by
  have hold := hfits token'
  rw [Pi.add_apply, Pi.add_apply, movedBy_apply]
  by_cases htoken : token' = token
  · simp only [htoken, and_true, true_and, if_true] at hold ⊢
    split <;> omega
  · simp only [htoken, false_and, if_false, sub_self, add_zero]
    exact hold

theorem jobCall_fits {call : JobCall} (hsound : c.Sound host) (hfits : HoldingFits host c)
    (h : jobCall host ctx c call = .ok c') : HoldingFits host c' := by
  cases call with
  | createJob owner params deposit =>
      obtain ⟨id, h⟩ := Result.chain_eq_ok.mp h
      obtain ⟨-, ⟨-, howner⟩, -, paid, hpaid, hinsert⟩ := createJob_eq_ok h
      obtain ⟨⟨-, -, haccepts⟩, rfl⟩ := Chain.transfer_eq_ok.mp hpaid
      obtain ⟨-, -, rfl⟩ := insertJob_eq_ok.mp hinsert
      exact transfer_in_fits haccepts howner hfits
  | createJobs owner jobs deposits =>
      obtain ⟨ids, h⟩ := Result.chain_eq_ok.mp h
      obtain ⟨-, ⟨-, howner⟩, -, -, paid, hpaid, hinsert⟩ := createJobs_eq_ok h
      obtain ⟨⟨-, -, haccepts⟩, rfl⟩ := Chain.transfer_eq_ok.mp hpaid
      have hbalances := (insertJobs_settles hinsert fun id hid => (hsound.jobs.fresh hid).2).2
      intro token
      rw [hbalances]
      exact transfer_in_fits haccepts howner hfits token
  | updateJob jobId update =>
      obtain ⟨-, spec, state, interval, leaderRuns, -, -, -, -, rfl⟩ := updateJob_eq_ok h
      exact hfits
  | fundJob payer jobId amount =>
      obtain ⟨balance, h⟩ := Result.chain_eq_ok.mp h
      obtain ⟨⟨-, ⟨-, hpayer⟩, -⟩, haccepts, state, -, -, -, rfl⟩ := fundJob_eq_ok h
      exact transfer_in_fits haccepts hpayer hfits
  | cancelJob jobId =>
      obtain ⟨refund, h⟩ := Result.chain_eq_ok.mp h
      obtain ⟨spec, state, paid, hparts, -, hpaid, -, rfl⟩ := cancelJob_eq_ok.mp h
      have hnonneg := (hsound.jobs.states _ _ (JobTable.states_get_of_parts hparts)).balance_nonneg
      rw [Chain.payOut_eq_ok hnonneg hpaid]
      exact transfer_out_fits hnonneg hfits
  | withdrawJobBalance jobId amount =>
      obtain ⟨balance, h⟩ := Result.chain_eq_ok.mp h
      obtain ⟨spec, state, -, -, hpos, -, -, -, -, paid, hpaid, rfl⟩ :=
        withdrawJobBalance_eq_ok.mp h
      obtain ⟨-, rfl⟩ := Chain.transfer_eq_ok.mp hpaid
      exact transfer_out_fits hpos.le hfits
  | setJobActive jobId active =>
      obtain ⟨spec, state, -, -, rfl⟩ := setJobActive_eq_ok h
      exact hfits
  | proposeJobOwner jobId newOwner =>
      obtain ⟨spec, -, -, rfl⟩ := proposeJobOwner_eq_ok h
      exact hfits
  | acceptJobOwner jobId =>
      obtain ⟨spec, newOwner, -, -, -, rfl⟩ := acceptJobOwner_eq_ok h
      exact hfits

theorem resolver_fits (host : Host World) (jobId : JobId) (spec : JobSpec)
    (hfits : HoldingFits host c) :
    HoldingFits host (c.afterCall (resolverAllows host c.toSurroundings jobId spec)) := by
  intro token
  unfold resolverAllows
  split
  · exact (add_zero _).le.trans (hfits token)
  next resolver _ =>
    exact (host.shouldRun_spares c.toSurroundings resolver jobId token).2 (hfits token)

theorem runJobs_fits {executor keeper : Address} {jobIds : List JobId} {ran : List Bool}
    {b b' : Batch World} (hfits : HoldingFits host b.chain)
    (h : runJobs host executor keeper jobIds b = .ok (ran, b')) : HoldingFits host b'.chain := by
  refine runJobs_invariant (I := fun b => HoldingFits host b.chain) ?_ ?_ hfits h
  · intro b jobId spec hfits
    exact resolver_fits host jobId spec hfits
  · intro b b' jobId r hfits hran token
    have hasked := resolver_fits host jobId r.admission.spec hfits
    rw [hran.balances, hran.priced.call]
    exact (host.tryExecute_spares _ _ _ _ _ token).2 (hasked token)

theorem releaseStake_fits {keeper : Address} {amount : ℤ}
    (hkeepers : c.reg.keepers.Sound host.registry) (hfits : HoldingFits host c)
    (h : releaseStake host c keeper = .ok (amount, c')) : HoldingFits host c' := by
  obtain ⟨info, release, paid, hinfo, -, -, hpaid, -, rfl⟩ := releaseStake_eq_ok.mp h
  have hnonneg := (hkeepers.stakes _ _ _ (bondOf_of_info hinfo)).1.le
  rw [Chain.payOut_eq_ok hnonneg hpaid]
  exact transfer_out_fits hnonneg hfits

theorem keeperCall_fits {call : KeeperCall} (hkeepers : c.reg.keepers.Sound host.registry)
    (hfits : HoldingFits host c) (h : keeperCall host ctx c call = .ok c') :
    HoldingFits host c' := by
  cases call with
  | stake keeper amount =>
      obtain ⟨total, h⟩ := Result.chain_eq_ok.mp h
      obtain ⟨⟨-, ⟨-, hother⟩, -⟩, haccepts, info, -, -, -, -, rfl⟩ := stake_eq_ok h
      exact transfer_in_fits haccepts hother hfits
  | beginUnbonding keeper =>
      obtain ⟨release, h⟩ := Result.chain_eq_ok.mp h
      obtain ⟨-, info, -, -, -, rfl⟩ := beginUnbonding_eq_ok.mp h
      exact hfits
  | withdrawStake keeper =>
      obtain ⟨amount, h⟩ := Result.chain_eq_ok.mp h
      exact releaseStake_fits hkeepers hfits (withdrawStake_eq_ok.mp h).2
  | withdrawStakes keepers =>
      obtain ⟨amounts, h⟩ := Result.chain_eq_ok.mp h
      let I : List Address → Chain World → Prop := fun _ middle =>
        middle.reg.keepers.Sound host.registry ∧ HoldingFits host middle
      have hlast := releaseStakes_history (I := I) ?_ [] ⟨hkeepers, hfits⟩
        (withdrawStakes_eq_ok.mp h).2
      · exact hlast.2
      · rintro - middle c' keeper amount ⟨hmiddle, hfits⟩ hrelease
        exact ⟨releaseStake_sound hrelease hmiddle, releaseStake_fits hmiddle hfits hrelease⟩

theorem call_fits {call : Call} (hsound : c.Sound host) (hfits : HoldingFits host c)
    (h : call.perform host ctx c = .ok c') : HoldingFits host c' := by
  cases call with
  | job call => exact jobCall_fits hsound hfits h
  | run call =>
      obtain ⟨executor, info, ran, b, -, hruns, hfinish, -⟩ := runCall_eq_ok h
      have hunder := runJobs_underway hsound.config hsound.jobs hruns
      have hend := finish_eq_ok hunder.keeperFees hunder.protocolFees hfinish
      subst hend
      have hruns := runJobs_fits (b := startBatch c call.keeper info) hfits hruns
      have hkeeper : HoldingFits host
          { b.chain with
            balances := b.chain.balances +
              movedBy b.chain.reg.config.feeToken host.registry call.keeper
              b.payout.keeperFees } :=
        transfer_out_fits hunder.keeperFees hruns
      intro token
      dsimp only [settled]
      cases htreasury : b.chain.reg.config.treasury with
      | none =>
          rw [Option.elim_none, add_zero]
          exact hkeeper token
      | some treasury =>
          rw [Option.elim_some, ← add_assoc]
          exact transfer_out_fits hunder.protocolFees hkeeper token
  | keeper call => exact keeperCall_fits hsound.keepers hfits h
  | admin call =>
      obtain ⟨-, -, rfl⟩ := adminCall_eq_ok h
      exact hfits

/-- A registry that can pay everything it owes, in tokens whose balances fit. -/
structure Solvent (host : Host World) (c : Chain World) : Prop where
  sound : c.Sound host
  surplus_nonneg : ∀ token, 0 ≤ surplus host c token
  fits : HoldingFits host c

theorem Deployed.surplus_eq (h : Deployed host c) (token : Address) :
    surplus host c token = c.balances token host.registry := by
  obtain ⟨config, hreg, -, -⟩ := h.fresh
  simp [surplus, hreg, KeeperTable.stakes]

theorem step_solvent {action : Action World} (h : Solvent host c)
    (hadm : Admissible host c action) : Solvent host (step host c action) := by
  obtain ⟨hsound, hsurplus, hfits⟩ := h
  refine ⟨step_sound hsound hadm, ?_, ?_⟩
  · intro token
    cases action with
    | call ctx call =>
        rcases step_call_cases host c ctx call with ⟨hcall, -⟩ | ⟨hsame, -⟩
        · exact (hsurplus token).trans (call_surplus hsound hcall token).1
        · rw [hsame]
          exact hsurplus token
    | outside world moved =>
        have hsum : surplus host (step host c (.outside world moved)) token =
            surplus host c token + moved token host.registry := add_sub_right_comm _ _ _
        rw [hsum]
        exact Int.add_nonneg (hsurplus token) (hadm token).1
    | _ => exact hsurplus token
  · cases action with
    | call ctx call =>
        rcases step_call_cases host c ctx call with ⟨hcall, -⟩ | ⟨hsame, -⟩
        · exact call_fits hsound hfits hcall
        · rw [hsame]
          exact hfits
    | outside world moved => exact fun token => (hadm token).2 (hfits token)
    | _ => exact hfits

theorem Reachable.solvent (hreach : Reachable host c) : Solvent host c := by
  refine hreach.invariant ?_ fun _ _ _ hadm hsolvent => step_solvent hsolvent hadm
  intro c hstart
  refine ⟨hstart.sound, fun token => ?_, fun token => (hstart.holding token).2⟩
  rw [hstart.surplus_eq]
  exact (hstart.holding token).1

end SoroCron
