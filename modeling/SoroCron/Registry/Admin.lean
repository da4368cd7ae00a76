import SoroCron.Registry.Keepers

/-! # Administration

The constructor, the admin's settings, the two-step admin handover and the upgrade
timelock.
-/

namespace SoroCron

open Outcome

/-- Upper bound for the protocol fee (10%). -/
def maxBps : ℕ := 1000

/-- Longest assigned window, in seconds. -/
def maxGracePeriod : ℕ := 86400

/-- Longest unbonding epoch, in seconds (30 days). -/
def maxUnbondingEpoch : ℕ := 30 * 86400

/-- Consecutive failures before a job pauses itself, until the admin changes it. -/
def defaultMaxFailures : ℕ := 3

def version : ℕ := 5

variable {World : Type}

/-- Initializes the registry. -/
def construct (admin feeToken stakeToken : Address) (minStake : ℤ) (unbondingPeriod : ℕ) :
    Except Error Registry := do
  rejectIf (minStake < 0) .invalidAmount
  return {
    config := {
      admin, feeToken, stakeToken, minStake, unbondingPeriod
      paused := false
      executor := none
      minInterval := 0
      maxArgs := 0
      protocolFeeBps := 0
      treasury := none
      maxFailures := defaultMaxFailures
      gracePeriod := 0
      slashBps := 0
      unbondingEpoch := 0 } }

/-- The chain with `config` stored. -/
def Chain.setConfig (c : Chain World) (config : Config) : Chain World :=
  { c with reg := { c.reg with config } }

def Chain.resetWindows (c : Chain World) : Chain World :=
  { c with reg := c.reg.resetWindows c.now }

/-! ## Admin handover -/

/-- Connects the executor contract, once. -/
def setExecutor (host : Host World) (ctx : Ctx) (c : Chain World) (executor : Address) :
    Result (Chain World) := do
  requireAuth host ctx c.reg.config.admin
  raise (rejectIf (c.reg.config.executor.isSome = true) .executorAlreadySet)
  let c := c.setConfig { c.reg.config with executor := some executor }
  return c.publish (.executorSet executor)

def proposeAdmin (host : Host World) (ctx : Ctx) (c : Chain World) (newAdmin : Address) :
    Result (Chain World) := do
  requireAuth host ctx c.reg.config.admin
  let current := c.reg.config.admin
  let c := { c with reg := { c.reg with pendingAdmin := some newAdmin } }
  return c.publish (.adminProposed current newAdmin)

/-- Completes an admin handover, signed by the proposed admin. -/
def acceptAdmin (host : Host World) (ctx : Ctx) (c : Chain World) : Result (Chain World) := do
  let pending ← raise (okOr c.reg.pendingAdmin .noPendingAdmin)
  requireAuth host ctx pending
  let previous := c.reg.config.admin
  let config := { c.reg.config with admin := pending }
  let c := { c with reg := { c.reg with pendingAdmin := none, config } }
  return c.publish (.adminChanged previous pending)

def cancelAdminProposal (host : Host World) (ctx : Ctx) (c : Chain World) :
    Result (Chain World) := do
  requireAuth host ctx c.reg.config.admin
  let pending ← raise (okOr c.reg.pendingAdmin .noPendingAdmin)
  let current := c.reg.config.admin
  let c := { c with reg := { c.reg with pendingAdmin := none } }
  return c.publish (.adminProposalCancelled current pending)

/-! ## Settings -/

/-- Emergency switch: while paused no jobs run and no new funds enter. -/
def setPaused (host : Host World) (ctx : Ctx) (c : Chain World) (paused : Bool) :
    Result (Chain World) := do
  requireAuth host ctx c.reg.config.admin
  let c := c.setConfig { c.reg.config with paused }
  -- Windows count from when runs were possible again.
  let c := if paused then c else c.resetWindows
  return c.publish (.pausedSet paused)

/-- Circuit breaker for one contract: while halted, no job that calls `target` can run. -/
def setTargetHalted (host : Host World) (ctx : Ctx) (c : Chain World) (target : Address)
    (halted : Bool) : Result (Chain World) := do
  requireAuth host ctx c.reg.config.admin
  let reg := c.reg.setTargetHalted target halted
  -- Jobs of the target could not run until now.
  let reg := if halted then reg else reg.setTargetResumed target c.now
  return { c with reg }.publish (.targetHaltSet target halted)

def setMinStake (host : Host World) (ctx : Ctx) (c : Chain World) (minStake : ℤ) :
    Result (Chain World) := do
  requireAuth host ctx c.reg.config.admin
  raise (rejectIf (minStake < 0) .invalidAmount)
  let c := c.setConfig { c.reg.config with minStake }
  -- Who is eligible, and so who is assigned, may have changed.
  return c.resetWindows.publish (.minStakeSet minStake)

def setMinInterval (host : Host World) (ctx : Ctx) (c : Chain World) (minInterval : ℕ) :
    Result (Chain World) := do
  requireAuth host ctx c.reg.config.admin
  let c := c.setConfig { c.reg.config with minInterval }
  return c.publish (.minIntervalSet minInterval)

def setMaxArgs (host : Host World) (ctx : Ctx) (c : Chain World) (maxArgs : ℕ) :
    Result (Chain World) := do
  requireAuth host ctx c.reg.config.admin
  let c := c.setConfig { c.reg.config with maxArgs }
  return c.publish (.maxArgsSet maxArgs)

/-- Sends `protocolFeeBps` of every run's fee to `treasury`. -/
def setProtocolFee (host : Host World) (ctx : Ctx) (c : Chain World) (protocolFeeBps : ℕ)
    (treasury : Option Address) : Result (Chain World) := do
  requireAuth host ctx c.reg.config.admin
  raise (rejectIf (maxBps < protocolFeeBps ∨ (0 < protocolFeeBps ∧ treasury.isNone = true))
    .invalidSetting)
  let c := c.setConfig { c.reg.config with protocolFeeBps, treasury }
  return c.publish (.protocolFeeSet protocolFeeBps treasury)

def setMaxFailures (host : Host World) (ctx : Ctx) (c : Chain World) (maxFailures : ℕ) :
    Result (Chain World) := do
  requireAuth host ctx c.reg.config.admin
  let c := c.setConfig { c.reg.config with maxFailures }
  return c.publish (.maxFailuresSet maxFailures)

/-- Turns on assigned keeper windows of `gracePeriod` seconds, or off with `0`. -/
def setKeeperWindows (host : Host World) (ctx : Ctx) (c : Chain World) (gracePeriod : ℕ) :
    Result (Chain World) := do
  requireAuth host ctx c.reg.config.admin
  raise (rejectIf (maxGracePeriod < gracePeriod) .invalidSetting)
  let c := c.setConfig { c.reg.config with gracePeriod, slashBps := 0 }
  return c.resetWindows.publish (.keeperWindowsSet gracePeriod)

/-! ## Upgrades -/

/-- The longest a keeper can need to unbond and withdraw. -/
def minUpgradeDelay (config : Config) : ℕ := satAdd64 config.unbondingPeriod config.unbondingEpoch

def upgradeDelayFor (reg : Registry) : ℕ := max reg.upgradeDelay (minUpgradeDelay reg.config)

/-- A longer epoch or delay set after an announcement pushes the upgrade back; shortening
them again does not bring it forward. -/
def pushBackPendingUpgrade (reg : Registry) : Registry :=
  match reg.pendingUpgrade with
  | none => reg
  | some pending =>
      let later := satAdd64 pending.proposedAt (upgradeDelayFor reg)
      if pending.availableAt < later then
        { reg with pendingUpgrade := some { pending with availableAt := later } }
      else
        reg

/-- Groups unbonding into epochs of this many seconds. -/
def setUnbondingEpoch (host : Host World) (ctx : Ctx) (c : Chain World) (unbondingEpoch : ℕ) :
    Result (Chain World) := do
  requireAuth host ctx c.reg.config.admin
  raise (rejectIf (maxUnbondingEpoch < unbondingEpoch) .invalidSetting)
  let c := c.setConfig { c.reg.config with unbondingEpoch }
  let c := { c with reg := pushBackPendingUpgrade c.reg }
  return c.publish (.unbondingEpochSet unbondingEpoch)

/-- Announces new registry code; proposing again replaces the pending upgrade. -/
def proposeUpgrade (host : Host World) (ctx : Ctx) (c : Chain World) (wasmHash : Digest) :
    Result (Timestamp × Chain World) := do
  requireAuth host ctx c.reg.config.admin
  let availableAt := satAdd64 c.now (upgradeDelayFor c.reg)
  let pending : PendingUpgrade := { wasmHash, proposedAt := c.now, availableAt }
  let c := { c with reg := { c.reg with pendingUpgrade := some pending } }
  return (availableAt, c.publish (.upgradeProposed wasmHash availableAt))

/-- Installs the pending upgrade once its delay has passed. The storage stays; later calls
are again calls of the code modelled here. -/
def applyUpgrade (host : Host World) (ctx : Ctx) (c : Chain World) : Result (Chain World) := do
  requireAuth host ctx c.reg.config.admin
  let pending ← raise (okOr c.reg.pendingUpgrade .noPendingUpgrade)
  raise (rejectIf (c.now < pending.availableAt) .upgradeNotReady)
  let c := { c with reg := { c.reg with pendingUpgrade := none } }
  return c.publish (.upgraded pending.wasmHash version)

def cancelUpgrade (host : Host World) (ctx : Ctx) (c : Chain World) : Result (Chain World) := do
  requireAuth host ctx c.reg.config.admin
  let pending ← raise (okOr c.reg.pendingUpgrade .noPendingUpgrade)
  let c := { c with reg := { c.reg with pendingUpgrade := none } }
  return c.publish (.upgradeCancelled pending.wasmHash)

/-- Sets how many seconds a proposed upgrade waits, never less than unbonding takes. -/
def setUpgradeDelay (host : Host World) (ctx : Ctx) (c : Chain World) (upgradeDelay : ℕ) :
    Result (Chain World) := do
  requireAuth host ctx c.reg.config.admin
  raise (rejectIf (upgradeDelay < minUpgradeDelay c.reg.config) .invalidSetting)
  let c := { c with reg := pushBackPendingUpgrade { c.reg with upgradeDelay } }
  return c.publish (.upgradeDelaySet upgradeDelay)

end SoroCron
