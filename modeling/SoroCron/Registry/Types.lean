import Mathlib.Data.Nat.Notation
import Mathlib.Data.Int.Notation
import SoroCron.Foundation.Bounded

/-! # Data of the registry

The contract's types, errors and events. Unsigned words (`u64`, `u32`) are naturals and
`i128` amounts are integers; every operation that could leave its range is written with
the saturating or checked operations of `Bounded` at the bounds below.
-/

namespace SoroCron

/-! ## Machine words -/

def u32Max : ℕ := 2 ^ 32 - 1

def u64Max : ℕ := 2 ^ 64 - 1

def i128Max : ℤ := 2 ^ 127 - 1

def i128Min : ℤ := -2 ^ 127

abbrev satAdd32 := Bounded.satAdd u32Max

abbrev satAdd64 := Bounded.satAdd u64Max

abbrev satMul64 := Bounded.satMul u64Max

abbrev checkedAdd64 := Bounded.checkedAdd u64Max

abbrev checkedMul64 := Bounded.checkedMul u64Max

/-- An `i128` result; nothing when the arithmetic would overflow. -/
abbrev i128 := Bounded.checkedInt i128Min i128Max

/-- Seconds since the unix epoch, in UTC. -/
abbrev Timestamp := ℕ

abbrev JobId := ℕ

/-- An account or contract. -/
structure Address where
  key : ℕ
  deriving DecidableEq, Repr

/-- A host value passed to or returned by a target. -/
structure Val where
  bits : ℕ
  deriving DecidableEq, Repr

/-- A 32-byte digest. -/
structure Digest where
  bits : ℕ
  deriving DecidableEq, Repr

/-! ## Configuration and jobs -/

structure Config where
  admin : Address
  feeToken : Address
  stakeToken : Address
  minStake : ℤ
  unbondingPeriod : ℕ
  paused : Bool
  executor : Option Address
  minInterval : ℕ
  maxArgs : ℕ
  protocolFeeBps : ℕ
  treasury : Option Address
  maxFailures : ℕ
  gracePeriod : ℕ
  slashBps : ℕ
  unbondingEpoch : ℕ
  deriving DecidableEq

/-- When a job runs: every `interval` seconds, or at a UTC calendar time with Monday as
weekday `0`. -/
inductive Schedule where
  | interval
  | daily (hour minute : ℕ)
  | weekly (weekday hour minute : ℕ)
  deriving DecidableEq

/-- Input to `createJob`. -/
structure JobParams where
  target : Address
  function : String
  args : List Val
  interval : ℕ
  schedule : Schedule
  startAt : Timestamp
  feePerRun : ℤ
  maxFeePerRun : ℤ
  maxRuns : ℕ
  endAt : Timestamp
  resolver : Option Address
  keepers : Option (List Address)
  after : Option JobId

/-- Input to `updateJob`: every mutable setting at once. -/
structure JobUpdate where
  function : String
  args : List Val
  interval : ℕ
  schedule : Schedule
  feePerRun : ℤ
  maxFeePerRun : ℤ
  maxRuns : ℕ
  endAt : Timestamp
  resolver : Option Address
  keepers : Option (List Address)
  after : Option JobId

/-- A job's settings. -/
structure JobSpec where
  owner : Address
  target : Address
  function : String
  args : List Val
  interval : ℕ
  schedule : Schedule
  feePerRun : ℤ
  maxFeePerRun : ℤ
  maxRuns : ℕ
  endAt : Timestamp
  resolver : Option Address
  keepers : Option (List Address)
  after : Option JobId
  deriving DecidableEq

/-- The part of a job that changes on every run. -/
structure JobState where
  nextRun : Timestamp
  balance : ℤ
  runs : ℕ
  failures : ℕ
  active : Bool
  leaderRuns : ℕ
  deriving DecidableEq

/-! ## Keepers and upgrades -/

structure Keeper where
  stake : ℤ
  unbondingAt : Option Timestamp
  executions : ℕ
  totalLateness : ℕ
  missed : ℕ
  slashed : ℤ
  deriving DecidableEq

/-- Eight times the moving averages of a keeper's lateness and misses. -/
structure KeeperRecent where
  lateness : ℕ := 0
  misses : ℕ := 0
  deriving DecidableEq

structure PendingUpgrade where
  wasmHash : Digest
  proposedAt : Timestamp
  availableAt : Timestamp
  deriving DecidableEq

/-! ## Errors -/

inductive Error where
  | paused
  | jobNotFound
  | invalidInterval
  | invalidFee
  | invalidAmount
  | forbiddenTarget
  | jobNotDue
  | insufficientJobBalance
  | maxRunsReached
  | resolverRejected
  | keeperNotFound
  | insufficientStake
  | keeperUnbonding
  | unbondingNotStarted
  | unbondingNotFinished
  | executorNotSet
  | executorAlreadySet
  | noPendingAdmin
  | jobPaused
  | jobExpired
  | intervalTooShort
  | tooManyArgs
  | targetFailed
  | invalidBatchSize
  | lengthMismatch
  | keeperNotAllowed
  | notAssignedKeeper
  | targetHalted
  | invalidCalendar
  | invalidSetting
  | tooManyKeepers
  | awaitingDependency
  | noPendingUpgrade
  | upgradeNotReady
  | noPendingOwner
  deriving DecidableEq, Repr

/-! ## Events -/

inductive Event where
  | jobCreated (jobId : JobId) (owner target : Address) (interval : ℕ) (feePerRun deposit : ℤ)
  | jobFunded (jobId : JobId) (payer : Address) (amount balance : ℤ)
  | jobExecuted (jobId : JobId) (keeper : Address) (success : Bool) (fee protocolFee : ℤ)
      (run : ℕ) (nextRun : Timestamp) (lateness failures : ℕ) (resultHash : Digest)
  | jobDeactivated (jobId : JobId) (failures : ℕ)
  | keeperMissedWindow (keeper : Address) (jobId : JobId) (ranBy : Address)
  | jobExhausted (jobId : JobId) (balance : ℤ)
  | jobCancelled (jobId : JobId) (refund : ℤ)
  | jobWithdrawn (jobId : JobId) (amount balance : ℤ)
  | jobActiveSet (jobId : JobId) (active : Bool)
  | jobUpdated (jobId : JobId) (interval : ℕ) (feePerRun : ℤ) (maxRuns : ℕ) (endAt : Timestamp)
  | jobOwnerProposed (jobId : JobId) (owner proposed : Address)
  | jobOwnerChanged (jobId : JobId) (previous newOwner : Address)
  | keeperStaked (keeper : Address) (amount total : ℤ)
  | keeperUnbonding (keeper : Address) (withdrawableAt : Timestamp)
  | keeperWithdrawn (keeper : Address) (amount : ℤ)
  | adminProposed (current proposed : Address)
  | adminProposalCancelled (current cancelled : Address)
  | adminChanged (previous newAdmin : Address)
  | executorSet (executor : Address)
  | pausedSet (paused : Bool)
  | targetHaltSet (target : Address) (halted : Bool)
  | minStakeSet (minStake : ℤ)
  | minIntervalSet (minInterval : ℕ)
  | maxArgsSet (maxArgs : ℕ)
  | protocolFeeSet (protocolFeeBps : ℕ) (treasury : Option Address)
  | maxFailuresSet (maxFailures : ℕ)
  | keeperWindowsSet (gracePeriod : ℕ)
  | unbondingEpochSet (unbondingEpoch : ℕ)
  | upgradeProposed (wasmHash : Digest) (availableAt : Timestamp)
  | upgradeCancelled (wasmHash : Digest)
  | upgraded (wasmHash : Digest) (previousVersion : ℕ)
  | upgradeDelaySet (upgradeDelay : ℕ)

end SoroCron
