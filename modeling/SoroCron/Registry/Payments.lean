import SoroCron.Registry.Funds

/-! # Payments that cannot fail

With tokens that accept every transfer the registry can cover, a solvent registry can make
every payment it owes. A call that runs jobs then fails only at a gate, or at the one point
where the next run cannot be computed.
-/

namespace SoroCron

open Outcome Bounded

variable {World : Type} {host : Host World} {ctx : Ctx} {c c' : Chain World}

/-! ## Payments -/

/-- Every token accepts a transfer that the registry can cover. -/
def PaysOut (host : Host World) : Prop :=
  ∀ around token receiver amount, 0 ≤ amount → amount ≤ around.balances token host.registry →
    host.acceptsTransfer around token host.registry receiver amount = true

section Payments

variable {token : Address} {amount : ℤ}

theorem transfer_succeeds (c : Chain World) (receiver : Address) (hpays : PaysOut host)
    (hnonneg : 0 ≤ amount) (hle : amount ≤ c.balances token host.registry) :
    c.transfer host token host.registry receiver amount =
      .ok { c with balances := c.balances + movedBy token host.registry receiver amount } :=
  Chain.transfer_eq_ok.mpr
    ⟨⟨hnonneg, hle, hpays c.toSurroundings token receiver amount hnonneg hle⟩, rfl⟩

theorem payOut_succeeds (c : Chain World) (receiver : Address) (hpays : PaysOut host)
    (hnonneg : 0 ≤ amount) (hle : amount ≤ c.balances token host.registry) :
    c.payOut host token receiver amount =
      .ok { c with balances := c.balances + movedBy token host.registry receiver amount } := by
  unfold Chain.payOut
  split
  · exact transfer_succeeds c receiver hpays hnonneg hle
  · have hzero : amount = 0 := by omega
    subst hzero
    simp

/-- A payment fails only when the token refuses it. -/
theorem payOut_eq_error {receiver : Address} {why : Failure}
    (h : c.payOut host token receiver amount = .error why) : why = .trap .tokenRefused := by
  unfold Chain.payOut at h
  split at h
  · rw [Chain.transfer, bind_eq_error] at h
    rcases h with hrefused | ⟨balances, -, hpaid⟩
    · exact (orTrap_eq_error.mp hrefused).2
    · cases hpaid
  · cases h

/-- So does everything a call does after its runs. -/
theorem finish_eq_error {keeper : Address} {b : Batch World} {why : Failure}
    (h : finish host keeper b = .error why) : why = .trap .tokenRefused := by
  unfold finish settle at h
  simp only [bind, Except.bind] at h
  split at h
  next hpaid =>
    cases h
    exact payOut_eq_error hpaid
  next =>
    split at h
    · exact payOut_eq_error h
    · cases h

end Payments

/-! ## What a solvent registry can cover -/

theorem Chain.Sound.escrow_nonneg (h : c.Sound host) :
    0 ≤ c.reg.jobs.states.total JobState.balance := by
  apply Store.total_nonneg
  intro id state hstate
  exact (h.jobs.states id state hstate).balance_nonneg

theorem Chain.Sound.stakes_nonneg (h : c.Sound host) : 0 ≤ c.reg.keepers.stakes := by
  apply Store.total_nonneg
  intro who info hinfo
  exact (h.keepers.stakes _ _ _ (bondOf_of_info hinfo)).1.le

theorem Solvent.balance_le (h : Solvent host c) {id : JobId} {state : JobState}
    (hstate : c.reg.jobs.states.get id = some state) :
    state.balance ≤ c.balances c.reg.config.feeToken host.registry := by
  have hsurplus := h.surplus_nonneg c.reg.config.feeToken
  have hstakes := h.sound.stakes_nonneg
  have hle : state.balance ≤ c.reg.jobs.states.total JobState.balance :=
    Store.le_total (fun id state hget => (h.sound.jobs.states id state hget).balance_nonneg) hstate
  rw [surplus, if_pos rfl] at hsurplus
  split at hsurplus <;> omega

theorem Solvent.stake_le (h : Solvent host c) {who : Address} {info : Keeper}
    (hinfo : c.reg.keepers.infos.get who = some info) :
    info.stake ≤ c.balances c.reg.config.stakeToken host.registry := by
  have hsurplus := h.surplus_nonneg c.reg.config.stakeToken
  have hescrow := h.sound.escrow_nonneg
  have hle : info.stake ≤ c.reg.keepers.stakes :=
    Store.le_total (fun who info hget =>
      (h.sound.keepers.stakes _ _ _ (bondOf_of_info hget)).1.le) hinfo
  rw [surplus, if_pos rfl] at hsurplus
  split at hsurplus <;> omega

/-- A registered keeper is never the registry itself. -/
theorem Chain.Sound.keeper_ne (h : c.Sound host) {who : Address} {info : Keeper}
    (hinfo : c.reg.keepers.infos.get who = some info) : who ≠ host.registry := by
  rintro rfl
  have hbond := bondOf_of_info hinfo
  rw [h.keepers.outsider] at hbond
  cases hbond

theorem releaseStake_solvent {keeper : Address} {amount : ℤ} (h : Solvent host c)
    (hrelease : releaseStake host c keeper = .ok (amount, c')) : Solvent host c' := by
  obtain ⟨hsound, hsurplus, hfits⟩ := h
  have hframe := (releaseStake_keepersOnly hrelease).1
  refine ⟨⟨hframe.now ▸ hsound.clock, ?_, ?_, releaseStake_sound hrelease hsound.keepers⟩, ?_,
    releaseStake_fits hsound.keepers hfits hrelease⟩
  · rw [hframe.reg]
    exact hsound.config
  · rw [hframe.reg]
    exact hsound.jobs
  · intro token
    rw [(releaseStake_settles hsound.keepers hrelease).surplus]
    exact hsurplus token

/-! ## Runs that cannot fail -/

section Runs

variable {executor keeper : Address} {jobId : JobId} {info : Keeper} {b b' : Batch World}

/-- A call in progress whose registry still covers what it owes and what the call earned. -/
structure UnderwaySolvent (host : Host World) (c : Chain World) (info : Keeper) (b : Batch World) :
    Prop extends UnderwaySound c info b where
  covered : ∀ token, unpaid c.reg.config b.payout token ≤ surplus host b.chain token
  fits : HoldingFits host b.chain

theorem UnderwaySolvent.start (h : Solvent host c) (keeper : Address) (info : Keeper) :
    UnderwaySolvent host c info (startBatch c keeper info) := by
  refine ⟨UnderwaySound.start h.sound.jobs keeper info, ?_, h.fits⟩
  intro token
  have hnothing : unpaid c.reg.config (startBatch c keeper info).payout token = 0 := by
    simp [unpaid, startBatch]
  rw [hnothing]
  exact h.surplus_nonneg token

theorem UnderwaySolvent.ran {r : Receipt World} (h : UnderwaySolvent host c info b)
    (hconfig : c.reg.config.Sound) (hran : Ran host executor keeper jobId b b' r) :
    UnderwaySolvent host c info b' := by
  have hsame := h.toUnderway.config
  refine ⟨h.toUnderwaySound.ran hconfig hran, ?_, ?_⟩
  · intro token
    have hrun := (hran.surplus h.jobs (hsame ▸ hconfig) token).1
    have hcovered := h.covered token
    rw [hsame] at hrun
    omega
  · intro token
    have hasked := resolver_fits host jobId r.admission.spec h.fits
    rw [hran.balances, hran.priced.call]
    exact (host.tryExecute_spares _ _ _ _ _ token).2 (hasked token)

/-- The one case in which a run's next time cannot be computed: a job every second, due since
time `0`, at the last representable moment. -/
def StepOverflows (spec : JobSpec) (state : JobState) (now : Timestamp) : Prop :=
  spec.interval = 1 ∧ state.nextRun = 0 ∧ now = u64Max

instance (spec : JobSpec) (state : JobState) (now : Timestamp) :
    Decidable (StepOverflows spec state now) :=
  inferInstanceAs (Decidable (_ ∧ _ ∧ _))

/-- Nothing else in the arithmetic of a run can overflow. -/
theorem priced_exists (host : Host World) (executor : Address) (b : Batch World)
    {admission : Admission} (hspec : admission.spec.Sound)
    (hstate : admission.state.Sound) (hconfig : b.chain.reg.config.Sound)
    (hnow : b.chain.now ≤ u64Max)
    (hdue : ensureDue admission.spec admission.state b.chain.now = .ok ())
    (hsteps : ¬ StepOverflows admission.spec admission.state b.chain.now) :
    ∃ r, r.admission = admission ∧ Priced host executor b r := by
  obtain ⟨-, -, -, hfunded, -⟩ := ensureDue_eq_ok.mp hdue
  obtain ⟨fee, hfee⟩ := Option.isSome_iff_exists.mp
    (rampedFee_isSome admission.state b.chain.now hspec.fee_pos hspec.ceiling_fits)
  obtain ⟨hbase, hle⟩ := rampedFee_bounds hfunded hfee
  have hpos := hspec.fee_pos
  have hfits := hstate.balance_fits
  have hrate : b.chain.reg.config.protocolFeeBps ≤ 10000 := hconfig.protocolFee.trans (by decide)
  obtain ⟨⟨keeperFee, protocolFee⟩, hsplit⟩ := Option.isSome_iff_exists.mp
    (splitFee_isSome (show 0 < fee by omega) (by omega) hrate)
  have hbalance : i128 (admission.state.balance - fee) = some (admission.state.balance - fee) := by
    have hlow : i128Min ≤ 0 := by decide
    exact checkedInt_of_mem (by omega) (by omega)
  obtain ⟨nextRun, hnext⟩ := Option.ne_none_iff_exists'.mp
    (fun hnone => hsteps ((nextRunAfter_eq_none hnow).mp hnone))
  let call := host.tryExecute b.chain.toSurroundings executor admission.spec.target
    admission.spec.function admission.spec.args
  exact ⟨⟨admission, call, fee, keeperFee, protocolFee, _, nextRun⟩, rfl,
    ⟨rfl, hfee, hsplit, hbalance, hnext⟩⟩

/-- What a run adds to the payout still fits, since the registry holds it. -/
theorem UnderwaySolvent.payout_fits {r : Receipt World} (hsound : c.Sound host)
    (h : UnderwaySolvent host c info b) (hkeeper : 0 ≤ r.keeperFee) (hprotocol : 0 ≤ r.protocolFee)
    (hparts : r.keeperFee + r.protocolFee ≤ r.admission.state.balance)
    (hstate : b.chain.reg.jobs.states.get jobId = some r.admission.state) :
    i128 (b.payout.keeperFees + r.keeperFee) = some (b.payout.keeperFees + r.keeperFee) ∧
      i128 (b.payout.protocolFees + r.protocolFee) =
        some (b.payout.protocolFees + r.protocolFee) := by
  have hlow : i128Min ≤ 0 := by decide
  have hcovered := h.covered c.reg.config.feeToken
  have hfits := h.fits c.reg.config.feeToken
  have hle : r.admission.state.balance ≤ b.chain.reg.jobs.states.total JobState.balance :=
    Store.le_total (fun id state hget => (h.jobs.states id state hget).balance_nonneg) hstate
  have hpaid := h.keeperFees
  have hshared := h.protocolFees
  have hstakes : 0 ≤ b.chain.reg.keepers.stakes := by
    rw [stakes_congr h.bonds]
    exact hsound.stakes_nonneg
  rw [unpaid, if_pos rfl, surplus, h.toUnderway.config, if_pos rfl] at hcovered
  refine ⟨checkedInt_of_mem (by omega) ?_, checkedInt_of_mem (by omega) ?_⟩
  · split at hcovered <;> omega
  · split at hcovered <;> omega

/-- A run that passes every gate goes through, unless its next time cannot be computed. -/
theorem runJob_succeeds (executor : Address) (hsound : c.Sound host)
    (h : UnderwaySolvent host c info b) {admission : Admission}
    (hadmitted : Admitted host b.chain.reg b.chain.now keeper jobId admission)
    (hallowed : (resolverAllows host b.chain.toSurroundings jobId admission.spec).answer = true)
    (hsteps : ¬ StepOverflows admission.spec admission.state b.chain.now) :
    ∃ b' r, r.admission = admission ∧ Ran host executor keeper jobId b b' r := by
  have hconfig : b.chain.reg.config.Sound := h.toUnderway.config ▸ hsound.config
  have hspec := h.jobs.specs _ _ (JobTable.specs_get_of_parts hadmitted.parts)
  have hget := JobTable.states_get_of_parts hadmitted.parts
  have hnow : b.chain.now ≤ u64Max := h.now ▸ hsound.clock
  obtain ⟨r, hadmission, hpriced⟩ := priced_exists host executor
    (b.asked host jobId admission.spec) hspec (h.jobs.states _ _ hget) hconfig hnow
    hadmitted.due hsteps
  subst hadmission
  obtain ⟨-, -, -, hfunded, -⟩ := ensureDue_eq_ok.mp hadmitted.due
  obtain ⟨hbase, hle⟩ := rampedFee_bounds hfunded hpriced.fee
  have hrate : b.chain.reg.config.protocolFeeBps ≤ 10000 := hconfig.protocolFee.trans (by decide)
  obtain ⟨hkeeper, hprotocol, hsum⟩ :=
    splitFee_parts (hspec.fee_pos.trans_le hbase) hrate hpriced.split
  obtain ⟨hkeeperFees, hprotocolFees⟩ :=
    h.payout_fits hsound hkeeper hprotocol (hsum.trans_le hle) hget
  exact ⟨_, r, rfl, hadmitted, hallowed, hpriced, hkeeperFees, hprotocolFees, rfl⟩

theorem Ran.steps_fit {r : Receipt World} (h : Ran host executor keeper jobId b b' r)
    (hnow : b.chain.now ≤ u64Max) :
    ¬ StepOverflows r.admission.spec r.admission.state b.chain.now := by
  intro hsteps
  have hnone := (nextRunAfter_eq_none hnow).mpr hsteps
  have hsome := h.priced.nextRun
  rw [show (b.asked host jobId r.admission.spec).chain.now = b.chain.now from rfl, hnone] at hsome
  cases hsome

/-- A solvent registry can pay what the call earned. -/
theorem finish_succeeds (keeper : Address) (hpays : PaysOut host) (hsound : c.Sound host)
    (h : UnderwaySolvent host c info b) :
    finish host keeper b = .ok { b.chain with
      reg := { b.chain.reg with keepers := b.record.save b.chain.reg.keepers keeper }
      balances := b.chain.balances + settled host b.chain.reg.config keeper b.payout } := by
  have hkeeper := h.keeperFees
  have hprotocol := h.protocolFees
  have hholds : b.payout.keeperFees + b.payout.protocolFees ≤
      b.chain.balances b.chain.reg.config.feeToken host.registry := by
    have hcovered := h.covered c.reg.config.feeToken
    have hescrow : 0 ≤ b.chain.reg.jobs.states.total JobState.balance :=
      Store.total_nonneg fun id state hget => (h.jobs.states id state hget).balance_nonneg
    have hstakes : 0 ≤ b.chain.reg.keepers.stakes := by
      rw [stakes_congr h.bonds]
      exact hsound.stakes_nonneg
    rw [unpaid, if_pos rfl, surplus, h.toUnderway.config, if_pos rfl] at hcovered
    rw [h.toUnderway.config]
    split at hcovered <;> omega
  unfold finish settle settled
  dsimp only
  rw [payOut_succeeds _ _ hpays hkeeper (by dsimp only; omega)]
  cases htreasury : b.chain.reg.config.treasury with
  | none =>
      simp only [bind, Except.bind, htreasury, Option.elim_none, add_zero]
      rfl
  | some treasury =>
      simp only [bind, Except.bind, htreasury, Option.elim_some]
      rw [payOut_succeeds _ _ hpays hprotocol]
      · rw [add_assoc]
      · have hself : movedBy b.chain.reg.config.feeToken host.registry keeper b.payout.keeperFees
            b.chain.reg.config.feeToken host.registry ≥ -b.payout.keeperFees := by
          rw [movedBy_apply]
          simp only [and_self, if_true, true_and]
          split <;> omega
        dsimp only [Pi.add_apply]
        omega

/-- When an `execute` succeeds, said of the chain it finds. -/
theorem execute_succeeds_iff (hpays : PaysOut host) (hsolvent : Solvent host c) :
    (∃ c', execute host ctx c keeper jobId = .ok c') ↔
      ∃ executor info admission, authorizeKeeper host ctx c.reg keeper = .ok (executor, info) ∧
        Admitted host c.reg c.now keeper jobId admission ∧
        (resolverAllows host c.toSurroundings jobId admission.spec).answer = true ∧
        ¬ StepOverflows admission.spec admission.state c.now := by
  constructor
  · rintro ⟨c', h⟩
    obtain ⟨executor, info, b, hauth, hrun, -⟩ := execute_eq_ok.mp h
    obtain ⟨r, hran⟩ := runJob_eq_ran.mp hrun
    exact ⟨executor, info, r.admission, hauth, hran.admitted, hran.allowed,
      hran.steps_fit hsolvent.sound.clock⟩
  · rintro ⟨executor, info, admission, hauth, hadmitted, hallowed, hsteps⟩
    have hunder := UnderwaySolvent.start hsolvent keeper info
    obtain ⟨b, r, rfl, hran⟩ :=
      runJob_succeeds executor hsolvent.sound hunder hadmitted hallowed hsteps
    have hfinish := finish_succeeds keeper hpays hsolvent.sound
      (hunder.ran hsolvent.sound.config hran)
    exact ⟨_, execute_eq_ok.mpr ⟨executor, info, b, hauth, runJob_eq_ran.mpr ⟨r, hran⟩, hfinish⟩⟩

end Runs

end SoroCron
