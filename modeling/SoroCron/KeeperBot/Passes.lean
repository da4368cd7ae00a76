import SoroCron.KeeperBot.Alerts

/-! # The keeper's passes

The loop of the keeper node, seen by what it reports: every pass reads the balances of its accounts,
the keeper's stake and the upgrade that is pending, works off what is due, and either completes or
throws. The webhook accepts a post or refuses it.
-/

namespace SoroCron.KeeperBot

/-- Consecutive failed passes before the RPC is reported down. -/
def rpcDownAfter : ℕ := 3

/-- Consecutive passes in which every send failed before that is reported. -/
def runsFailingAfter : ℕ := 3

/-! ## Reports -/

/-- What the loop does with the alerter, and what the webhook answers if it is asked. -/
inductive AlertOp where
  | notify (key : AlertKey) (now : ℤ) (accepted : Bool)
  | clear (key : AlertKey)

/-- A post to the webhook. -/
structure Post where
  key : AlertKey
  time : ℤ
  accepted : Bool
  deriving DecidableEq

namespace Alerter

def apply (alerter : Alerter) : AlertOp → Alerter
  | .notify key now accepted => (alerter.notify key now accepted).1
  | .clear key => alerter.clear key

/-- What is posted, accepted or not. -/
def posts (alerter : Alerter) : AlertOp → List Post
  | .notify key time accepted => if alerter.Fires key time then [{ key, time, accepted }] else []
  | .clear _ => []

end Alerter

def reports : Machine Alerter AlertOp Post where
  step := Alerter.apply
  out := Alerter.posts

/-! ## Passes -/

/-- A balance, with the time of its report and the webhook's answer to it. -/
structure AccountReading where
  address : Address
  /-- Nothing if it could not be read. -/
  balance : Option ℤ
  now : ℤ
  accepted : Bool

structure StakeReading where
  eligible : Bool
  stake : ℤ
  now : ℤ
  accepted : Bool

inductive UpgradeReading where
  /-- The registry announces no upgrades. -/
  | missing
  | read (pending : Option PendingUpgrade) (now : ℤ) (accepted : Bool)

inductive PassEnd where
  | threw (now : ℤ) (accepted : Bool)
  | done (executed failed : ℕ) (now : ℤ) (accepted : Bool)

structure Pass where
  accounts : List AccountReading
  /-- Nothing if the pass threw before. -/
  stake : Option StakeReading
  /-- Nothing if the pass threw before. -/
  upgrade : Option UpgradeReading
  ended : PassEnd

/-- What the loop compares with. The registry's minimum stake is read once, at the start. -/
structure LoopSettings where
  minBalance : ℤ
  minStake : ℤ

structure KeeperLoop where
  failedTicks : ℕ := 0
  failedSends : ℕ := 0
  upgrades : UpgradeWatch := {}
  watchUpgrades : Bool := true
  alerter : Alerter

def checkAccount (settings : LoopSettings) (reading : AccountReading) : List AlertOp :=
  match reading.balance with
  | none => []
  | some balance =>
      if balance < settings.minBalance then
        [.notify (.account .lowBalance reading.address) reading.now reading.accepted]
      else
        [.clear (.account .lowBalance reading.address)]

def checkStake (settings : LoopSettings) (reading : StakeReading) : List AlertOp :=
  if reading.eligible = false then
    [.notify (.kind .keeperIneligible) reading.now reading.accepted]
  else if reading.stake < settings.minStake * 11 / 10 then
    [.notify (.kind .lowStake) reading.now reading.accepted]
  else
    []

namespace KeeperLoop

variable (settings : LoopSettings) (keeper : KeeperLoop)

/-- What the watch reports of a reading, with the watch after it and whether it goes on. A registry
without announcements is not asked again. -/
def checkUpgrade : Option UpgradeReading → (UpgradeWatch × Bool) × List AlertOp
  | some (.read pending now accepted) =>
      if keeper.watchUpgrades = true then
        (((keeper.upgrades.update pending).1, true),
          match keeper.upgrades.announced pending with
          | some upgrade => [.notify (.upgrade upgrade.wasmHash) now accepted]
          | none => [])
      else
        ((keeper.upgrades, false), [])
  | some .missing => ((keeper.upgrades, false), [])
  | none => ((keeper.upgrades, keeper.watchUpgrades), [])

/-- What the end of a pass reports, with the counts after it. -/
def finish : PassEnd → (ℕ × ℕ) × List AlertOp
  | .threw now accepted =>
      let failedTicks := keeper.failedTicks + 1
      ((failedTicks, keeper.failedSends),
        if rpcDownAfter ≤ failedTicks then [.notify (.kind .rpcDown) now accepted] else [])
  | .done executed failed now accepted =>
      let failedSends := if 0 < failed ∧ executed = 0 then keeper.failedSends + 1 else 0
      ((0, failedSends), .clear (.kind .rpcDown) ::
        if runsFailingAfter ≤ failedSends then [.notify (.kind .runsFailing) now accepted] else [])

/-- What a pass reports before it ends, in order. -/
def readings (pass : Pass) : List AlertOp :=
  pass.accounts.flatMap (checkAccount settings) ++
    pass.stake.toList.flatMap (checkStake settings) ++
    (keeper.checkUpgrade pass.upgrade).2

/-- All reports of a pass, in order. -/
def ops (pass : Pass) : List AlertOp :=
  keeper.readings settings pass ++ (keeper.finish pass.ended).2

def step (pass : Pass) : KeeperLoop where
  failedTicks := (keeper.finish pass.ended).1.1
  failedSends := (keeper.finish pass.ended).1.2
  upgrades := (keeper.checkUpgrade pass.upgrade).1.1
  watchUpgrades := (keeper.checkUpgrade pass.upgrade).1.2
  alerter := reports.run keeper.alerter (keeper.ops settings pass)

end KeeperLoop

/-- The loop with everything it posts. -/
def passes (settings : LoopSettings) : Machine KeeperLoop Pass Post where
  step := KeeperLoop.step settings
  out keeper pass := reports.outputs keeper.alerter (keeper.ops settings pass)

/-- The loop as it starts. -/
def KeeperLoop.new (url : String) (cooldownMs : ℤ) : KeeperLoop where
  alerter := { url, cooldownMs }

end SoroCron.KeeperBot
