import Mathlib.Tactic.Simps.Basic
import SoroCron.Foundation.Outcome
import SoroCron.Foundation.Store
import SoroCron.Registry.Types

/-! # Registry storage

A job is two entries, its spec and its state; the per-owner lists and pending owners are
kept beside them. Keeper records, their recent averages and the window rotation form a
second table. What remains is instance data, the halted targets and the two kinds of
temporary timestamps, an absent timestamp reading as `0`.
-/

namespace SoroCron

open Outcome

/-- Why a call can fail without returning one of the contract's errors. -/
inductive Trap where
  | notAuthorized
  | tokenRefused
  | overflow
  deriving DecidableEq, Repr

abbrev Failure := Fault Error Trap

/-- What a contract call returns. -/
abbrev Result (α : Type) := Except Failure α

/-! ## Jobs -/

structure JobTable where
  nextJobId : JobId := 0
  specs : Store JobId JobSpec := ∅
  states : Store JobId JobState := ∅
  pendingOwners : Store JobId Address := ∅
  ownerJobs : Store Address (List JobId) := ∅

namespace JobTable

/-- Both halves of a job, or nothing if it does not exist. -/
def getJobParts (jobs : JobTable) (id : JobId) : Option (JobSpec × JobState) := do
  let state ← jobs.states.get id
  let spec ← jobs.specs.get id
  return (spec, state)

/-- The next free id and the table that reserves it. -/
def takeNextJobId (jobs : JobTable) : Result (JobId × JobTable) := do
  let next ← orTrap (checkedAdd64 jobs.nextJobId 1) .overflow
  return (jobs.nextJobId, { jobs with nextJobId := next })

@[simps] def setSpec (jobs : JobTable) (id : JobId) (spec : JobSpec) : JobTable :=
  { jobs with specs := jobs.specs.set id spec }

@[simps] def setState (jobs : JobTable) (id : JobId) (state : JobState) : JobTable :=
  { jobs with states := jobs.states.set id state }

@[simps] def removePendingOwner (jobs : JobTable) (id : JobId) : JobTable :=
  { jobs with pendingOwners := jobs.pendingOwners.remove id }

@[simps] def setPendingOwner (jobs : JobTable) (id : JobId) (owner : Address) : JobTable :=
  { jobs with pendingOwners := jobs.pendingOwners.set id owner }

@[simps] def removeJob (jobs : JobTable) (id : JobId) : JobTable :=
  { jobs.removePendingOwner id with
    specs := jobs.specs.remove id
    states := jobs.states.remove id }

def jobsByOwner (jobs : JobTable) (owner : Address) : List JobId :=
  (jobs.ownerJobs.get owner).getD []

@[simps] def addOwnerJob (jobs : JobTable) (owner : Address) (id : JobId) : JobTable :=
  { jobs with ownerJobs := jobs.ownerJobs.set owner (jobs.jobsByOwner owner ++ [id]) }

@[simps] def removeOwnerJob (jobs : JobTable) (owner : Address) (id : JobId) : JobTable :=
  { jobs with
    ownerJobs :=
      if id ∈ jobs.jobsByOwner owner then
        jobs.ownerJobs.set owner ((jobs.jobsByOwner owner).erase id)
      else
        jobs.ownerJobs }

theorem getJobParts_eq_some {jobs : JobTable} {id : JobId} {spec : JobSpec} {state : JobState} :
    jobs.getJobParts id = some (spec, state) ↔
      jobs.specs.get id = some spec ∧ jobs.states.get id = some state := by
  unfold getJobParts
  cases hstate : jobs.states.get id <;> cases hspec : jobs.specs.get id <;> simp

@[simp] theorem takeNextJobId_eq_ok {jobs jobs' : JobTable} {id : JobId} :
    jobs.takeNextJobId = .ok (id, jobs') ↔
      jobs.nextJobId + 1 ≤ u64Max ∧ id = jobs.nextJobId ∧
        jobs' = { jobs with nextJobId := jobs.nextJobId + 1 } := by
  simp only [takeNextJobId, bind_eq_ok, orTrap_eq_ok, Bounded.checkedAdd_eq_some, pure_eq_ok,
    Prod.mk.injEq]
  constructor
  · rintro ⟨next, ⟨hfits, rfl⟩, rfl, rfl⟩
    exact ⟨hfits, rfl, rfl⟩
  · rintro ⟨hfits, rfl, rfl⟩
    exact ⟨_, ⟨hfits, rfl⟩, rfl, rfl⟩

end JobTable

/-! ## Keepers -/

structure KeeperTable where
  infos : Store Address Keeper := ∅
  recents : Store Address KeeperRecent := ∅
  active : List Address := []

namespace KeeperTable

def getKeeperRecent (keepers : KeeperTable) (keeper : Address) : KeeperRecent :=
  (keepers.recents.get keeper).getD {}

/-- A keeper's stake and, once it is unbonding, its release time. -/
def bondOf (keepers : KeeperTable) (keeper : Address) : Option (ℤ × Option Timestamp) :=
  (keepers.infos.get keeper).map fun info => (info.stake, info.unbondingAt)

@[simps] def setKeeper (keepers : KeeperTable) (keeper : Address) (info : Keeper) : KeeperTable :=
  { keepers with infos := keepers.infos.set keeper info }

@[simps] def setKeeperRecent (keepers : KeeperTable) (keeper : Address) (recent : KeeperRecent) :
    KeeperTable :=
  { keepers with recents := keepers.recents.set keeper recent }

@[simps] def removeKeeper (keepers : KeeperTable) (keeper : Address) : KeeperTable :=
  { keepers with infos := keepers.infos.remove keeper, recents := keepers.recents.remove keeper }

/-- Whether there is room in the rotation for a keeper that is not in it yet. -/
def joins (keepers : KeeperTable) (keeper : Address) (room : ℕ) : Bool :=
  !(keeper ∈ keepers.active || room ≤ keepers.active.length)

/-- Adds `keeper` to the rotation if there is room. -/
@[simps] def addActiveKeeper (keepers : KeeperTable) (keeper : Address) (room : ℕ) : KeeperTable :=
  { keepers with
    active := if keepers.joins keeper room then keepers.active ++ [keeper] else keepers.active }

@[simps] def removeActiveKeeper (keepers : KeeperTable) (keeper : Address) : KeeperTable :=
  { keepers with active := keepers.active.erase keeper }

end KeeperTable

/-! ## The whole contract -/

structure Registry where
  config : Config
  jobs : JobTable := {}
  keepers : KeeperTable := {}
  haltedTargets : Store Address Bool := ∅
  pendingAdmin : Option Address := none
  upgradeDelay : ℕ := 0
  pendingUpgrade : Option PendingUpgrade := none
  windowsReset : Timestamp := 0
  jobTouched : Store JobId Timestamp := ∅
  targetResumed : Store Address Timestamp := ∅

namespace Registry

def isTargetHalted (reg : Registry) (target : Address) : Bool := reg.haltedTargets.has target

@[simps] def setTargetHalted (reg : Registry) (target : Address) (halted : Bool) : Registry :=
  { reg with
    haltedTargets :=
      if halted then reg.haltedTargets.set target true else reg.haltedTargets.remove target }

/-- Last time the owner or a funder changed something that can stop the job's run. -/
def touchedAt (reg : Registry) (id : JobId) : Timestamp := (reg.jobTouched.get id).getD 0

/-- Last time the admin un-halted the target. -/
def resumedAt (reg : Registry) (target : Address) : Timestamp :=
  (reg.targetResumed.get target).getD 0

@[simps] def setTargetResumed (reg : Registry) (target : Address) (now : Timestamp) : Registry :=
  { reg with targetResumed := reg.targetResumed.set target now }

@[simps] def resetWindows (reg : Registry) (now : Timestamp) : Registry :=
  { reg with windowsReset := now }

/-- Notes that something that can stop the job's run just changed. -/
@[simps] def touch (reg : Registry) (id : JobId) (now : Timestamp) : Registry :=
  { reg with
    jobTouched := if 0 < reg.config.gracePeriod then reg.jobTouched.set id now else reg.jobTouched }

end Registry

end SoroCron
