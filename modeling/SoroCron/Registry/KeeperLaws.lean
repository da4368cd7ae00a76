import SoroCron.Registry.Keepers
import SoroCron.Registry.RunLaws

/-! # What keeper operations do

Inversion lemmas for staking, unbonding and withdrawing, and for the payout at the end of a
call that ran jobs.
-/

namespace SoroCron

open Outcome Bounded

variable {World : Type} {host : Host World} {ctx : Ctx} {c c' : Chain World} {keeper : Address}

/-! ## Stake -/

theorem stake_eq_ok {amount total : ℤ} (h : stake host ctx c keeper amount = .ok (total, c')) :
    (c.reg.config.paused = false ∧ (keeper ∈ ctx.signers ∧ keeper ≠ host.registry) ∧ 0 < amount) ∧
      host.acceptsTransfer c.toSurroundings c.reg.config.stakeToken keeper host.registry amount =
        true ∧
      ∃ info, info = (c.reg.keepers.infos.get keeper).getD Keeper.fresh ∧ info.unbondingAt = none ∧
        total = info.stake + amount ∧ total ≤ i128Max ∧
        c' = ({ c with
          balances := c.balances + movedBy c.reg.config.stakeToken keeper host.registry amount
          reg := { c.reg with
            keepers := (c.reg.keepers.setKeeper keeper { info with stake := total }).addActiveKeeper
              keeper maxActiveKeepers
            windowsReset :=
              if c.reg.keepers.joins keeper maxActiveKeepers ||
                  !(ensureActiveKeeper c.reg.config info).isOk then
                c.now
              else
                c.reg.windowsReset } }).publish (.keeperStaked keeper amount total) := by
  simp only [stake, ensureNotPaused, bind_eq_ok, raise_eq_ok, rejectIf_eq_ok, requireAuth_eq_ok,
    orTrap_eq_ok, checkedInt_eq_some, pure_eq_ok, Prod.mk.injEq, Chain.transfer_eq_ok, exists_unit,
    Bool.not_eq_true, not_le, Option.isSome_eq_false_iff, Option.isNone_iff_eq_none] at h
  obtain ⟨hlive, hauth, hpos, hbonded, paid, ⟨⟨-, -, haccepts⟩, rfl⟩, _, ⟨⟨-, hfits⟩, rfl⟩, rfl,
      rfl⟩ := h
  exact ⟨⟨hlive, hauth, hpos⟩, haccepts, _, rfl, hbonded, rfl, hfits, rfl⟩

theorem beginUnbonding_eq_ok {release : Timestamp} :
    beginUnbonding host ctx c keeper = .ok (release, c') ↔
      (keeper ∈ ctx.signers ∧ keeper ≠ host.registry) ∧
      ∃ info, c.reg.keepers.infos.get keeper = some info ∧ info.unbondingAt = none ∧
        release = unbondingRelease c.now c.reg.config.unbondingPeriod c.reg.config.unbondingEpoch ∧
        c' = ({ c with
          reg := { c.reg with
            keepers := (c.reg.keepers.setKeeper keeper
              { info with unbondingAt := some release }).removeActiveKeeper keeper
            windowsReset := c.now } }).publish (.keeperUnbonding keeper release) := by
  simp only [beginUnbonding, bind_eq_ok, raise_eq_ok, rejectIf_eq_ok, okOr_eq_ok, requireAuth_eq_ok,
    pure_eq_ok, Prod.mk.injEq, exists_unit, Bool.not_eq_true, Option.isSome_eq_false_iff,
    Option.isNone_iff_eq_none]
  constructor
  · rintro ⟨hauth, info, hinfo, hbonded, rfl, rfl⟩
    exact ⟨hauth, info, hinfo, hbonded, rfl, rfl⟩
  · rintro ⟨hauth, info, hinfo, hbonded, rfl, rfl⟩
    exact ⟨hauth, info, hinfo, hbonded, rfl, rfl⟩

theorem releaseStake_eq_ok {amount : ℤ} :
    releaseStake host c keeper = .ok (amount, c') ↔
      ∃ info release paid, c.reg.keepers.infos.get keeper = some info ∧
        info.unbondingAt = some release ∧ release ≤ c.now ∧
        { c with reg := { c.reg with keepers := c.reg.keepers.removeKeeper keeper } }.payOut host
          c.reg.config.stakeToken keeper info.stake = .ok paid ∧
        amount = info.stake ∧ c' = paid.publish (.keeperWithdrawn keeper info.stake) := by
  simp only [releaseStake, bind_eq_ok, raise_eq_ok, rejectIf_eq_ok, okOr_eq_ok, pure_eq_ok,
    Prod.mk.injEq, exists_unit, not_lt]
  constructor
  · rintro ⟨info, hinfo, release, hrelease, hready, paid, hpaid, rfl, rfl⟩
    exact ⟨info, release, paid, hinfo, hrelease, hready, hpaid, rfl, rfl⟩
  · rintro ⟨info, release, paid, hinfo, hrelease, hready, hpaid, rfl, rfl⟩
    exact ⟨info, hinfo, release, hrelease, hready, paid, hpaid, rfl, rfl⟩

theorem withdrawStake_eq_ok {amount : ℤ} :
    withdrawStake host ctx c keeper = .ok (amount, c') ↔
      (keeper ∈ ctx.signers ∧ keeper ≠ host.registry) ∧
        releaseStake host c keeper = .ok (amount, c') := by
  simp only [withdrawStake, bind_eq_ok, requireAuth_eq_ok, exists_unit]

/-- The listed keepers whose stake `releaseStakes` pays out. -/
def releasesOf (host : Host World) : List Address → Chain World → List Address
  | [], _ => []
  | keeper :: rest, c =>
      match releaseStake host c keeper with
      | .ok (_, c') => keeper :: releasesOf host rest c'
      | .error _ => releasesOf host rest c

/-- What releasing one keeper preserves, relative to the keepers released so far, holds
after the whole list. -/
theorem releaseStakes_history {I : List Address → Chain World → Prop}
    (hrelease : ∀ past c c' keeper amount, I past c →
      releaseStake host c keeper = .ok (amount, c') → I (past ++ [keeper]) c')
    {keepers : List Address} {amounts : List ℤ} (past : List Address) (hstart : I past c)
    (h : releaseStakes host keepers c = .ok (amounts, c')) :
    I (past ++ releasesOf host keepers c) c' := by
  induction keepers generalizing past c amounts with
  | nil =>
      simp only [releaseStakes, Except.ok.injEq, Prod.mk.injEq] at h
      rw [← h.2, releasesOf, List.append_nil]
      exact hstart
  | cons keeper rest ih =>
      unfold releaseStakes at h
      unfold releasesOf
      cases hone : releaseStake host c keeper with
      | ok released =>
          obtain ⟨amount, middle⟩ := released
          simp only [hone, bind_eq_ok, Prod.exists, Except.ok.injEq, pure_eq_ok, Prod.mk.injEq] at h
          obtain ⟨_, _, ⟨rfl, rfl⟩, others, last, hrest, -, rfl⟩ := h
          have hmiddle := ih _ (hrelease past c middle keeper amount hstart hone) hrest
          rw [List.append_assoc] at hmiddle
          exact hmiddle
      | error reason =>
          cases reason with
          | rejected reason =>
              simp only [hone, bind_eq_ok, Prod.exists, Except.ok.injEq, pure_eq_ok,
                Prod.mk.injEq] at h
              obtain ⟨_, _, ⟨rfl, rfl⟩, others, last, hrest, -, rfl⟩ := h
              exact ih past hstart hrest
          | trap reason =>
              simp only [hone, bind_eq_ok, reduceCtorEq, false_and, exists_false] at h

theorem withdrawStakes_eq_ok {keepers : List Address} {amounts : List ℤ} :
    withdrawStakes host c keepers = .ok (amounts, c') ↔
      (keepers ≠ [] ∧ keepers.length ≤ maxBatch) ∧
        releaseStakes host keepers c = .ok (amounts, c') := by
  simp only [withdrawStakes, bind_eq_ok, raise_eq_ok, rejectIf_eq_ok, exists_unit, not_or, not_lt,
    ne_eq]

/-! ## Settling a call -/

/-- The balances after a call has paid its keeper and the treasury. -/
def settled (host : Host World) (config : Config) (keeper : Address) (payout : Payout) : Balances :=
  movedBy config.feeToken host.registry keeper payout.keeperFees +
    (config.treasury.elim 0 fun treasury =>
      movedBy config.feeToken host.registry treasury payout.protocolFees)

theorem settle_eq_ok {payout : Payout} (hkeeper : 0 ≤ payout.keeperFees)
    (hprotocol : 0 ≤ payout.protocolFees) (h : settle host c keeper payout = .ok c') :
    c' = { c with balances := c.balances + settled host c.reg.config keeper payout } := by
  simp only [settle, bind_eq_ok] at h
  obtain ⟨paid, hpaid, h⟩ := h
  have hfirst := Chain.payOut_eq_ok hkeeper hpaid
  subst hfirst
  unfold settled
  cases htreasury : c.reg.config.treasury with
  | none =>
      simp only [htreasury, pure_eq_ok] at h
      rw [← h, Option.elim_none, add_zero]
  | some treasury =>
      simp only [htreasury] at h
      rw [Chain.payOut_eq_ok hprotocol h, Option.elim_some, add_assoc]

/-- What a call that ran jobs leaves, once its record is written back and it has paid. -/
theorem finish_eq_ok {b : Batch World} (hkeeper : 0 ≤ b.payout.keeperFees)
    (hprotocol : 0 ≤ b.payout.protocolFees) (h : finish host keeper b = .ok c') :
    c' = { b.chain with
      reg := { b.chain.reg with keepers := b.record.save b.chain.reg.keepers keeper }
      balances := b.chain.balances + settled host b.chain.reg.config keeper b.payout } :=
  settle_eq_ok hkeeper hprotocol h

theorem execute_eq_ok {jobId : JobId} :
    execute host ctx c keeper jobId = .ok c' ↔
      ∃ executor info b, authorizeKeeper host ctx c.reg keeper = .ok (executor, info) ∧
        runJob host executor keeper jobId (startBatch c keeper info) = .ok (.ok (), b) ∧
        finish host keeper b = .ok c' := by
  simp only [execute, bind_eq_ok, Prod.exists, raise_eq_ok, exists_unit]
  constructor
  · rintro ⟨executor, info, hauth, outcome, b, hrun, rfl, hfinish⟩
    exact ⟨executor, info, b, hauth, hrun, hfinish⟩
  · rintro ⟨executor, info, b, hauth, hrun, hfinish⟩
    exact ⟨executor, info, hauth, _, b, hrun, rfl, hfinish⟩

theorem executeBatch_eq_ok {jobIds : List JobId} {ran : List Bool} :
    executeBatch host ctx c keeper jobIds = .ok (ran, c') ↔
      (jobIds ≠ [] ∧ jobIds.length ≤ maxBatch) ∧ ∃ executor info b,
        authorizeKeeper host ctx c.reg keeper = .ok (executor, info) ∧
        runJobs host executor keeper jobIds (startBatch c keeper info) = .ok (ran, b) ∧
        finish host keeper b = .ok c' := by
  simp only [executeBatch, bind_eq_ok, Prod.exists, raise_eq_ok, rejectIf_eq_ok,
    exists_unit, not_or, not_lt, pure_eq_ok, Prod.mk.injEq, ne_eq]
  constructor
  · rintro ⟨hsize, executor, info, hauth, _, b, hruns, _, hfinish, rfl, rfl⟩
    exact ⟨hsize, executor, info, b, hauth, hruns, hfinish⟩
  · rintro ⟨hsize, executor, info, b, hauth, hruns, hfinish⟩
    exact ⟨hsize, executor, info, hauth, _, b, hruns, _, hfinish, rfl, rfl⟩

end SoroCron
