import SoroCron.KeeperBot.Tick

/-! # The Rust keeper's batches

One batch of the Rust keeper: simulated, checked against the fees that its jobs would pay now,
and sent. Reads are simulations of their own, answered one after another.
-/

namespace SoroCron.KeeperRs

open KeeperBot (Prepared Submission)

structure Config where
  keeper : Address
  inclusionFee : ℕ
  minProfit : ℤ
  maxCostPerJob : ℤ
  dryRun : Bool

/-- A keeper that asks for nothing beyond its costs. -/
def plainConfig : Config where
  keeper := ⟨4⟩
  inclusionFee := 100
  minProfit := 0
  maxCostPerJob := 0
  dryRun := false

/-- What happened to one `executeBatch` attempt. -/
inductive BatchOutcome where
  | executed (ran : List JobId) (earned : ℤ)
  | simulated (ran : List JobId)
  | skipped
  | unprofitable (ran : List JobId) (earned cost : ℤ)
  | jobProblem

/-- A simulation that did not succeed, as far as the keeper tells reasons apart. -/
inductive Rejection where
  | registryError
  | other

/-- What the network answers during one attempt. A call without an answer ends the attempt. -/
structure Answers (View : Type) where
  simulation : Option (Except Rejection (Prepared View))
  /-- Whether the simulated call asks for no authorization but its own. -/
  authorized : Bool
  /-- The fee read for each job, 0 when it can't be read. -/
  currentFee : JobId → Option ℤ
  send : Option Unit

section Attempt

variable {View : Type}

/-- Per job, whether it would run. -/
def ranFlags (result : List Bool) (len : ℕ) : List Bool :=
  (List.range len).map fun i => result.getD i false

/-- Whether the fees, less the network cost, reach `minProfit`. -/
def profitable (earned cost minProfit : ℤ) : Bool := minProfit ≤ earned - cost

/-- The fees of the jobs that would run, read one by one. -/
def readFees (currentFee : JobId → Option ℤ) : List JobId → Option ℤ
  | [] => some 0
  | id :: rest => do
      let fee ← currentFee id
      let others ← readFees currentFee rest
      return fee + others

/-- Runs every listed job that may run now in one transaction, if that pays. -/
def executeBatch (config : Config) (jobIds : List JobId) (feeIsNative : Bool)
    (answers : Answers View) : Option BatchOutcome × List (Submission View) :=
  match answers.simulation with
  | none => (none, [])
  | some (.error .registryError) => (some .skipped, [])
  | some (.error .other) => (some .jobProblem, [])
  | some (.ok prepared) =>
      if answers.authorized = false then
        (some .jobProblem, [])
      else
        let ran := ranOf jobIds (ranFlags prepared.result jobIds.length)
        if ran = [] then
          (some .skipped, [])
        else
          match readFees answers.currentFee ran with
          | none => (none, [])
          | some earned =>
              let cost := prepared.resourceFee + config.inclusionFee
              let tooCostly := !feeIsNative && config.maxCostPerJob > 0 &&
                config.maxCostPerJob * ran.length < cost
              if tooCostly || (feeIsNative && !profitable earned cost config.minProfit) then
                (some (.unprofitable ran earned cost), [])
              else if config.dryRun then
                (some (.simulated ran), [])
              else
                (answers.send.map fun _ => .executed ran earned,
                  [{ ids := jobIds, prepared, inclusionFee := config.inclusionFee }])

end Attempt

end SoroCron.KeeperRs
