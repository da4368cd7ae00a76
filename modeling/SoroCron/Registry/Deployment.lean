import SoroCron.Registry.Payments

/-! # A plain environment

Tokens that move exactly what they are asked to, targets that succeed and resolvers that
agree, around a registry at a fixed address. It meets the laws of a host and everything the
guarantees ask of one, the constructor gives a deployment in it for any parameters it
accepts, and a first job can be run there.
-/

namespace SoroCron

def registryAddress : Address := ⟨0⟩

def feeAsset : Address := ⟨1⟩

def stakeAsset : Address := ⟨2⟩

def plainHost : Host Unit where
  registry := registryAddress
  shouldRun _ _ _ := { answer := true, world := (), moved := 0 }
  tryExecute _ _ _ _ _ := { answer := .value ⟨0⟩, world := (), moved := 0 }
  acceptsTransfer around token sender receiver amount :=
    sender = registryAddress ∨ around.balances token receiver + amount ≤ i128Max
  sha256Head jobId runs := jobId + runs
  sha256 _ := ⟨0⟩
  shouldRun_spares around resolver jobId token := by simp
  tryExecute_spares around executor target function args token := by simp
  accepts_fits around token sender amount hsender haccepts := by simpa [hsender] using haccepts

/-- A registry whose constructor just ran at `now`; everybody else holds `funds` of every token. -/
def deployment (admin : Address) (now : Timestamp) (minStake : ℤ) (unbondingPeriod : ℕ)
    (funds : ℤ) : Chain Unit where
  now := now
  world := ()
  balances _ holder := if holder = registryAddress then 0 else funds
  reg := { config := {
    admin
    feeToken := feeAsset
    stakeToken := stakeAsset
    minStake
    unbondingPeriod
    paused := false
    executor := none
    minInterval := 0
    maxArgs := 0
    protocolFeeBps := 0
    treasury := none
    maxFailures := defaultMaxFailures
    gracePeriod := 0
    slashBps := 0
    unbondingEpoch := 0 } }

theorem deployment_deployed (admin : Address) {now : Timestamp} {minStake : ℤ} (unbondingPeriod : ℕ)
    (funds : ℤ) (hnow : now ≤ u64Max) (hstake : 0 ≤ minStake) :
    Deployed plainHost (deployment admin now minStake unbondingPeriod funds) := by
  refine ⟨⟨admin, feeAsset, stakeAsset, minStake, unbondingPeriod, ?_⟩, hnow, ?_, rfl⟩
  · rw [construct, Outcome.rejectIf, if_neg (Int.not_lt.mpr hstake)]
    rfl
  · intro token
    have hfits : (0 : ℤ) ≤ i128Max := by decide
    exact ⟨le_rfl, hfits⟩

theorem plainHost_noGifts : NoGifts plainHost := ⟨fun _ _ _ _ => rfl, fun _ _ _ _ _ _ => rfl⟩

theorem plainHost_paysOut : PaysOut plainHost := by
  intro around token receiver amount _ _
  simp [plainHost]

/-! ## A first run -/

/-- A job that calls `⟨7⟩` every minute for a fee of `10`. -/
def minutely : JobParams where
  target := ⟨7⟩
  function := "tick"
  args := []
  interval := 60
  schedule := .interval
  startAt := 0
  feePerRun := 10
  maxFeePerRun := 0
  maxRuns := 0
  endAt := 0
  resolver := none
  keepers := none
  after := none

/-- An update to a run every day at 7:15. -/
def moveToDaily : JobUpdate where
  function := "tick"
  args := []
  interval := 0
  schedule := .daily 7 15
  feePerRun := 10
  maxFeePerRun := 0
  maxRuns := 0
  endAt := 0
  resolver := none
  keepers := none
  after := none

/-- A keeper stakes, an owner creates a job, and the keeper runs it with a protocol fee. -/
def firstRun : List (Action Unit) :=
  [.call ⟨[⟨3⟩]⟩ (.admin (.setExecutor ⟨6⟩)),
    .call ⟨[⟨3⟩]⟩ (.admin (.setProtocolFee 1000 (some ⟨8⟩))),
    .call ⟨[⟨4⟩]⟩ (.keeper (.stake ⟨4⟩ 100)),
    .call ⟨[⟨5⟩]⟩ (.job (.createJob ⟨5⟩ minutely 50)),
    .advance 1060,
    .call ⟨[⟨4⟩]⟩ (.run (.execute ⟨4⟩ 0))]

theorem firstRun_admissible (c : Chain Unit) :
    (machine plainHost).Along (Admissible plainHost) c firstRun := by
  simp [firstRun, Machine.Along, Admissible, Call.WellTyped, JobParams.WellTyped, minutely, u64Max,
    i128Max]

end SoroCron
