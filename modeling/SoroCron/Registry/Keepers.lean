import SoroCron.Registry.Execution

/-! # Keeper operations

Staking, unbonding and withdrawing. Nothing but these moves stake.
-/

namespace SoroCron

open Outcome

/-- Maximum number of keepers in the assigned-window rotation. -/
def maxActiveKeepers : ℕ := 64

variable {World : Type}

/-- The record of a keeper that has never staked. -/
def Keeper.fresh : Keeper where
  stake := 0
  unbondingAt := none
  executions := 0
  totalLateness := 0
  missed := 0
  slashed := 0

/-- Stakes `amount`. Registers the keeper on its first call and adds it to the rotation
while there is room. -/
def stake (host : Host World) (ctx : Ctx) (c : Chain World) (keeper : Address) (amount : ℤ) :
    Result (ℤ × Chain World) := do
  raise (ensureNotPaused c.reg.config)
  requireAuth host ctx keeper
  raise (rejectIf (amount ≤ 0) .invalidAmount)
  let info := (c.reg.keepers.infos.get keeper).getD Keeper.fresh
  raise (rejectIf (info.unbondingAt.isSome = true) .keeperUnbonding)
  let wasEligible := (ensureActiveKeeper c.reg.config info).isOk
  let c ← c.transfer host c.reg.config.stakeToken keeper host.registry amount
  let total ← orTrap (i128 (info.stake + amount)) .overflow
  let keepers := c.reg.keepers.setKeeper keeper { info with stake := total }
  -- Joining the rotation or becoming eligible reassigns some runs.
  let joined := keepers.joins keeper maxActiveKeepers
  let reg := { c.reg with
    keepers := keepers.addActiveKeeper keeper maxActiveKeepers
    windowsReset := if joined || !wasEligible then c.now else c.reg.windowsReset }
  return (total, { c with reg }.publish (.keeperStaked keeper amount total))

/-- Starts the unbonding period: the keeper stops being eligible and leaves the rotation.
Returns when its stake is withdrawable. -/
def beginUnbonding (host : Host World) (ctx : Ctx) (c : Chain World) (keeper : Address) :
    Result (Timestamp × Chain World) := do
  requireAuth host ctx keeper
  let info ← raise (okOr (c.reg.keepers.infos.get keeper) .keeperNotFound)
  raise (rejectIf (info.unbondingAt.isSome = true) .keeperUnbonding)
  let withdrawableAt := unbondingRelease c.now c.reg.config.unbondingPeriod
    c.reg.config.unbondingEpoch
  let keepers := c.reg.keepers.setKeeper keeper { info with unbondingAt := some withdrawableAt }
  let reg := { c.reg with keepers := keepers.removeActiveKeeper keeper }.resetWindows c.now
  return (withdrawableAt, { c with reg }.publish (.keeperUnbonding keeper withdrawableAt))

/-- Removes a keeper whose unbonding has finished and pays out its stake. -/
def releaseStake (host : Host World) (c : Chain World) (keeper : Address) :
    Result (ℤ × Chain World) := do
  let info ← raise (okOr (c.reg.keepers.infos.get keeper) .keeperNotFound)
  let withdrawableAt ← raise (okOr info.unbondingAt .unbondingNotStarted)
  raise (rejectIf (c.now < withdrawableAt) .unbondingNotFinished)
  let c := { c with reg := { c.reg with keepers := c.reg.keepers.removeKeeper keeper } }
  let c ← c.payOut host c.reg.config.stakeToken keeper info.stake
  return (info.stake, c.publish (.keeperWithdrawn keeper info.stake))

/-- Withdraws the full stake once unbonding has finished. -/
def withdrawStake (host : Host World) (ctx : Ctx) (c : Chain World) (keeper : Address) :
    Result (ℤ × Chain World) := do
  requireAuth host ctx keeper
  releaseStake host c keeper

/-- Releases the listed keepers in order, counting `0` for one that is not ready. -/
def releaseStakes (host : Host World) :
    List Address → Chain World → Result (List ℤ × Chain World)
  | [], c => .ok ([], c)
  | keeper :: rest, c => do
      let (amount, c) ← (match releaseStake host c keeper with
        | .ok released => .ok released
        -- Unknown, not unbonding or not ready yet.
        | .error (.rejected _) => .ok (0, c)
        | .error (.trap why) => .error (.trap why))
      let (amounts, c) ← releaseStakes host rest c
      return (amount :: amounts, c)

/-- Pays out every listed keeper whose unbonding has finished, to that keeper. Anyone may
call it. -/
def withdrawStakes (host : Host World) (c : Chain World) (keepers : List Address) :
    Result (List ℤ × Chain World) := do
  raise (rejectIf (keepers = [] ∨ maxBatch < keepers.length) .invalidBatchSize)
  releaseStakes host keepers c

end SoroCron
