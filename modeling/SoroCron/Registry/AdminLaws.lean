import SoroCron.Registry.System

/-! # What admin operations do

An admin call changes settings and nothing else: no job, no keeper and no balance. One
lemma gives the guard each call passed and the registry it leaves.
-/

namespace SoroCron

open Outcome

variable {World : Type} {host : Host World} {ctx : Ctx} {c c' : Chain World}

/-- What the registry must be like for the call to be accepted. -/
def AdminCall.Accepted (reg : Registry) (now : Timestamp) : AdminCall → Prop
  | .setExecutor _ => reg.config.executor = none
  | .acceptAdmin => reg.pendingAdmin ≠ none
  | .cancelAdminProposal => reg.pendingAdmin ≠ none
  | .setMinStake minStake => 0 ≤ minStake
  | .setProtocolFee protocolFeeBps treasury =>
      protocolFeeBps ≤ maxBps ∧ (0 < protocolFeeBps → treasury ≠ none)
  | .setKeeperWindows gracePeriod => gracePeriod ≤ maxGracePeriod
  | .setUnbondingEpoch unbondingEpoch => unbondingEpoch ≤ maxUnbondingEpoch
  | .applyUpgrade => ∃ pending ∈ reg.pendingUpgrade, pending.availableAt ≤ now
  | .cancelUpgrade => reg.pendingUpgrade ≠ none
  | .setUpgradeDelay upgradeDelay => minUpgradeDelay reg.config ≤ upgradeDelay
  | _ => True

/-- The registry the call leaves. -/
def AdminCall.regAfter (reg : Registry) (now : Timestamp) : AdminCall → Registry
  | .setExecutor executor => { reg with config := { reg.config with executor := some executor } }
  | .proposeAdmin newAdmin => { reg with pendingAdmin := some newAdmin }
  | .acceptAdmin =>
      { reg with
        pendingAdmin := none
        config := { reg.config with admin := reg.pendingAdmin.getD reg.config.admin } }
  | .cancelAdminProposal => { reg with pendingAdmin := none }
  | .setPaused paused =>
      { reg with
        config := { reg.config with paused }
        windowsReset := if paused then reg.windowsReset else now }
  | .setTargetHalted target halted =>
      { reg.setTargetHalted target halted with
        targetResumed := if halted then reg.targetResumed else reg.targetResumed.set target now }
  | .setMinStake minStake =>
      { reg with config := { reg.config with minStake }, windowsReset := now }
  | .setMinInterval minInterval => { reg with config := { reg.config with minInterval } }
  | .setMaxArgs maxArgs => { reg with config := { reg.config with maxArgs } }
  | .setProtocolFee protocolFeeBps treasury =>
      { reg with config := { reg.config with protocolFeeBps, treasury } }
  | .setMaxFailures maxFailures => { reg with config := { reg.config with maxFailures } }
  | .setKeeperWindows gracePeriod =>
      { reg with config := { reg.config with gracePeriod, slashBps := 0 }, windowsReset := now }
  | .setUnbondingEpoch unbondingEpoch =>
      pushBackPendingUpgrade { reg with config := { reg.config with unbondingEpoch } }
  | .proposeUpgrade wasmHash =>
      { reg with
        pendingUpgrade := some
          { wasmHash, proposedAt := now, availableAt := satAdd64 now (upgradeDelayFor reg) } }
  | .applyUpgrade => { reg with pendingUpgrade := none }
  | .cancelUpgrade => { reg with pendingUpgrade := none }
  | .setUpgradeDelay upgradeDelay => pushBackPendingUpgrade { reg with upgradeDelay }

/-- The event the call publishes. -/
def AdminCall.event (reg : Registry) (now : Timestamp) : AdminCall → Event
  | .setExecutor executor => .executorSet executor
  | .proposeAdmin newAdmin => .adminProposed reg.config.admin newAdmin
  | .acceptAdmin => .adminChanged reg.config.admin (reg.pendingAdmin.getD reg.config.admin)
  | .cancelAdminProposal =>
      .adminProposalCancelled reg.config.admin (reg.pendingAdmin.getD reg.config.admin)
  | .setPaused paused => .pausedSet paused
  | .setTargetHalted target halted => .targetHaltSet target halted
  | .setMinStake minStake => .minStakeSet minStake
  | .setMinInterval minInterval => .minIntervalSet minInterval
  | .setMaxArgs maxArgs => .maxArgsSet maxArgs
  | .setProtocolFee protocolFeeBps treasury => .protocolFeeSet protocolFeeBps treasury
  | .setMaxFailures maxFailures => .maxFailuresSet maxFailures
  | .setKeeperWindows gracePeriod => .keeperWindowsSet gracePeriod
  | .setUnbondingEpoch unbondingEpoch => .unbondingEpochSet unbondingEpoch
  | .proposeUpgrade wasmHash => .upgradeProposed wasmHash (satAdd64 now (upgradeDelayFor reg))
  | .applyUpgrade => .upgraded ((reg.pendingUpgrade.map PendingUpgrade.wasmHash).getD ⟨0⟩) version
  | .cancelUpgrade => .upgradeCancelled ((reg.pendingUpgrade.map PendingUpgrade.wasmHash).getD ⟨0⟩)
  | .setUpgradeDelay upgradeDelay => .upgradeDelaySet upgradeDelay

/-- Who must have signed the call: the admin, or the proposed admin who takes over. -/
def AdminCall.signer (reg : Registry) : AdminCall → Option Address
  | .acceptAdmin => reg.pendingAdmin
  | _ => some reg.config.admin

theorem adminCall_eq_ok {call : AdminCall} (h : adminCall host ctx c call = .ok c') :
    (∃ who ∈ call.signer c.reg, who ∈ ctx.signers ∧ who ≠ host.registry) ∧
      call.Accepted c.reg c.now ∧
      c' = { c with reg := call.regAfter c.reg c.now }.publish (call.event c.reg c.now) := by
  cases call with
  -- Both values of a switch are looked at: turning it off restarts windows as well.
  | setPaused paused =>
      simp only [adminCall, setPaused, bind_eq_ok, requireAuth_eq_ok, exists_unit, pure_eq_ok] at h
      obtain ⟨hauth, rfl⟩ := h
      refine ⟨⟨_, rfl, hauth⟩, trivial, ?_⟩
      cases paused with
      | false => rfl
      | true => rfl
  | setTargetHalted target halted =>
      simp only [adminCall, setTargetHalted, bind_eq_ok, requireAuth_eq_ok, exists_unit,
        pure_eq_ok] at h
      obtain ⟨hauth, rfl⟩ := h
      refine ⟨⟨_, rfl, hauth⟩, trivial, ?_⟩
      cases halted with
      | false => rfl
      | true => rfl
  | acceptAdmin =>
      simp only [adminCall, acceptAdmin, bind_eq_ok, raise_eq_ok, okOr_eq_ok, requireAuth_eq_ok,
        exists_unit, pure_eq_ok] at h
      obtain ⟨pending, hpending, hauth, rfl⟩ := h
      refine ⟨⟨pending, hpending, hauth⟩, by simp [AdminCall.Accepted, hpending], ?_⟩
      simp only [AdminCall.regAfter, AdminCall.event, hpending, Option.getD_some]
  | cancelAdminProposal =>
      simp only [adminCall, cancelAdminProposal, bind_eq_ok, raise_eq_ok, okOr_eq_ok,
        requireAuth_eq_ok, exists_unit, pure_eq_ok] at h
      obtain ⟨hauth, pending, hpending, rfl⟩ := h
      refine ⟨⟨_, rfl, hauth⟩, by simp [AdminCall.Accepted, hpending], ?_⟩
      simp only [AdminCall.regAfter, AdminCall.event, hpending, Option.getD_some]
  | applyUpgrade =>
      simp only [adminCall, applyUpgrade, bind_eq_ok, raise_eq_ok, okOr_eq_ok, rejectIf_eq_ok,
        requireAuth_eq_ok, exists_unit, pure_eq_ok, not_lt] at h
      obtain ⟨hauth, pending, hpending, hready, rfl⟩ := h
      refine ⟨⟨_, rfl, hauth⟩, ⟨pending, hpending, hready⟩, ?_⟩
      simp only [AdminCall.regAfter, AdminCall.event, hpending, Option.map_some, Option.getD_some]
  | cancelUpgrade =>
      simp only [adminCall, cancelUpgrade, bind_eq_ok, raise_eq_ok, okOr_eq_ok, requireAuth_eq_ok,
        exists_unit, pure_eq_ok] at h
      obtain ⟨hauth, pending, hpending, rfl⟩ := h
      refine ⟨⟨_, rfl, hauth⟩, by simp [AdminCall.Accepted, hpending], ?_⟩
      simp only [AdminCall.regAfter, AdminCall.event, hpending, Option.map_some, Option.getD_some]
  | proposeUpgrade wasmHash =>
      simp only [adminCall, Result.chain_eq_ok, proposeUpgrade, bind_eq_ok, requireAuth_eq_ok,
        exists_unit, pure_eq_ok, Prod.mk.injEq] at h
      obtain ⟨_, hauth, rfl, rfl⟩ := h
      exact ⟨⟨_, rfl, hauth⟩, trivial, rfl⟩
  | setExecutor executor =>
      simp only [adminCall, setExecutor, bind_eq_ok, raise_eq_ok, rejectIf_eq_ok, requireAuth_eq_ok,
        exists_unit, pure_eq_ok, Bool.not_eq_true, Option.isSome_eq_false_iff,
        Option.isNone_iff_eq_none] at h
      obtain ⟨hauth, hnone, rfl⟩ := h
      exact ⟨⟨_, rfl, hauth⟩, hnone, rfl⟩
  | setProtocolFee protocolFeeBps treasury =>
      simp only [adminCall, setProtocolFee, bind_eq_ok, raise_eq_ok, rejectIf_eq_ok,
        requireAuth_eq_ok, exists_unit, pure_eq_ok, not_or, not_lt, not_and] at h
      obtain ⟨hauth, ⟨hcap, htreasury⟩, rfl⟩ := h
      exact ⟨⟨_, rfl, hauth⟩, ⟨hcap, by simpa using htreasury⟩, rfl⟩
  | proposeAdmin newAdmin =>
      simp only [adminCall, proposeAdmin, bind_eq_ok, requireAuth_eq_ok, exists_unit,
        pure_eq_ok] at h
      obtain ⟨hauth, rfl⟩ := h
      exact ⟨⟨_, rfl, hauth⟩, trivial, rfl⟩
  | setMinStake minStake =>
      simp only [adminCall, setMinStake, bind_eq_ok, raise_eq_ok, rejectIf_eq_ok, requireAuth_eq_ok,
        exists_unit, pure_eq_ok, not_lt] at h
      obtain ⟨hauth, hvalid, rfl⟩ := h
      exact ⟨⟨_, rfl, hauth⟩, hvalid, rfl⟩
  | setMinInterval minInterval =>
      simp only [adminCall, setMinInterval, bind_eq_ok, requireAuth_eq_ok, exists_unit,
        pure_eq_ok] at h
      obtain ⟨hauth, rfl⟩ := h
      exact ⟨⟨_, rfl, hauth⟩, trivial, rfl⟩
  | setMaxArgs maxArgs =>
      simp only [adminCall, setMaxArgs, bind_eq_ok, requireAuth_eq_ok, exists_unit, pure_eq_ok] at h
      obtain ⟨hauth, rfl⟩ := h
      exact ⟨⟨_, rfl, hauth⟩, trivial, rfl⟩
  | setMaxFailures maxFailures =>
      simp only [adminCall, setMaxFailures, bind_eq_ok, requireAuth_eq_ok, exists_unit,
        pure_eq_ok] at h
      obtain ⟨hauth, rfl⟩ := h
      exact ⟨⟨_, rfl, hauth⟩, trivial, rfl⟩
  | setKeeperWindows gracePeriod =>
      simp only [adminCall, setKeeperWindows, bind_eq_ok, raise_eq_ok, rejectIf_eq_ok,
        requireAuth_eq_ok, exists_unit, pure_eq_ok, not_lt] at h
      obtain ⟨hauth, hvalid, rfl⟩ := h
      exact ⟨⟨_, rfl, hauth⟩, hvalid, rfl⟩
  | setUnbondingEpoch unbondingEpoch =>
      simp only [adminCall, setUnbondingEpoch, bind_eq_ok, raise_eq_ok, rejectIf_eq_ok,
        requireAuth_eq_ok, exists_unit, pure_eq_ok, not_lt] at h
      obtain ⟨hauth, hvalid, rfl⟩ := h
      exact ⟨⟨_, rfl, hauth⟩, hvalid, rfl⟩
  | setUpgradeDelay upgradeDelay =>
      simp only [adminCall, setUpgradeDelay, bind_eq_ok, raise_eq_ok, rejectIf_eq_ok,
        requireAuth_eq_ok, exists_unit, pure_eq_ok, not_lt] at h
      obtain ⟨hauth, hvalid, rfl⟩ := h
      exact ⟨⟨_, rfl, hauth⟩, hvalid, rfl⟩

/-! ## What settings cannot reach -/

/-- The settings a deployment fixes for good. -/
structure SameTokens (reg reg' : Registry) : Prop where
  feeToken : reg'.config.feeToken = reg.config.feeToken
  stakeToken : reg'.config.stakeToken = reg.config.stakeToken
  unbondingPeriod : reg'.config.unbondingPeriod = reg.config.unbondingPeriod

/-- Everything but the settings. -/
structure SettingsOnly (reg reg' : Registry) : Prop extends SameTokens reg reg' where
  jobs : reg'.jobs = reg.jobs
  keepers : reg'.keepers = reg.keepers
  jobTouched : reg'.jobTouched = reg.jobTouched

theorem pushBack_eq (reg : Registry) :
    pushBackPendingUpgrade reg =
      { reg with pendingUpgrade := (pushBackPendingUpgrade reg).pendingUpgrade } := by
  unfold pushBackPendingUpgrade
  split
  · rfl
  next pending h =>
    dsimp only
    split
    · rfl
    · rfl

theorem adminCall_settingsOnly (call : AdminCall) (reg : Registry) (now : Timestamp) :
    SettingsOnly reg (call.regAfter reg now) := by
  cases call with
  | setUnbondingEpoch unbondingEpoch =>
      rw [AdminCall.regAfter, pushBack_eq]
      exact ⟨⟨rfl, rfl, rfl⟩, rfl, rfl, rfl⟩
  | setUpgradeDelay upgradeDelay =>
      rw [AdminCall.regAfter, pushBack_eq]
      exact ⟨⟨rfl, rfl, rfl⟩, rfl, rfl, rfl⟩
  | _ => exact ⟨⟨rfl, rfl, rfl⟩, rfl, rfl, rfl⟩

/-- Who receives the protocol fee is set by one call only. -/
theorem adminCall_treasury (call : AdminCall) (reg : Registry) (now : Timestamp) :
    (call.regAfter reg now).config.treasury = reg.config.treasury ∨
      ∃ bps treasury, call = .setProtocolFee bps treasury ∧
        (call.regAfter reg now).config.treasury = treasury := by
  cases call with
  | setProtocolFee bps treasury => exact .inr ⟨bps, treasury, rfl, rfl⟩
  | setUnbondingEpoch unbondingEpoch =>
      rw [AdminCall.regAfter, pushBack_eq]
      exact .inl rfl
  | setUpgradeDelay upgradeDelay =>
      rw [AdminCall.regAfter, pushBack_eq]
      exact .inl rfl
  | _ => exact .inl rfl

/-- Settings as validation leaves them. -/
structure Config.Sound (config : Config) : Prop where
  protocolFee : config.protocolFeeBps ≤ maxBps
  treasury : 0 < config.protocolFeeBps → config.treasury ≠ none
  gracePeriod : config.gracePeriod ≤ maxGracePeriod
  unbondingEpoch : config.unbondingEpoch ≤ maxUnbondingEpoch
  minStake : 0 ≤ config.minStake

theorem adminCall_config_sound {call : AdminCall} {reg : Registry} {now : Timestamp}
    (haccepted : call.Accepted reg now) (hsound : reg.config.Sound) :
    (call.regAfter reg now).config.Sound := by
  obtain ⟨hfee, htreasury, hgrace, hepoch, hstake⟩ := hsound
  cases call with
  | setMinStake minStake => exact ⟨hfee, htreasury, hgrace, hepoch, haccepted⟩
  | setProtocolFee protocolFeeBps treasury =>
      exact ⟨haccepted.1, haccepted.2, hgrace, hepoch, hstake⟩
  | setKeeperWindows gracePeriod => exact ⟨hfee, htreasury, haccepted, hepoch, hstake⟩
  | setUnbondingEpoch unbondingEpoch =>
      rw [AdminCall.regAfter, pushBack_eq]
      exact ⟨hfee, htreasury, hgrace, haccepted, hstake⟩
  | setUpgradeDelay upgradeDelay =>
      rw [AdminCall.regAfter, pushBack_eq]
      exact ⟨hfee, htreasury, hgrace, hepoch, hstake⟩
  | _ => exact ⟨hfee, htreasury, hgrace, hepoch, hstake⟩

end SoroCron
