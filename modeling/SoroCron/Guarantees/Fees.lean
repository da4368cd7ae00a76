import SoroCron.Registry.Deployment
import SoroCron.Sdk.Schedule

/-! # Fees

What a run costs never overflows, lies between the base fee and the ceiling, never falls while
a run gets later, and is split exactly. Clients compute the same fee, except where the registry
has no room for the product of the ramp.
-/

namespace SoroCron

open Bounded

variable {World : Type} {host : Host World} {c : Chain World} {spec : JobSpec} {state : JobState}
  {now later : Timestamp}

/-! ## The ramp -/

/-- The part of the ramp charged for being `late`, as the registry computes it. -/
def lateShare (span : ℤ) (late interval : ℕ) : ℤ :=
  match i128 (span * late) with
  | some v => v.tdiv interval
  | none => span

theorem lateShare_mem {span : ℤ} {late interval : ℕ} (hspan : 0 ≤ span) (hearly : late < interval) :
    0 ≤ lateShare span late interval ∧ lateShare span late interval ≤ span :=
  lateShare_bounds span hspan hearly

/-- The fee of a run before it is capped at the balance. -/
def uncapped (spec : JobSpec) (due now : Timestamp) : ℤ :=
  if spec.maxFeePerRun ≤ spec.feePerRun then
    spec.feePerRun
  else if spec.interval ≤ now - due then
    spec.maxFeePerRun
  else
    spec.feePerRun + lateShare (spec.maxFeePerRun - spec.feePerRun) (now - due) spec.interval

/-- Within `i128` the fee of a run is the capped ramp. -/
theorem rampedFee_eq (hspec : spec.Sound) (state : JobState) (now : Timestamp) :
    rampedFee spec state now = some (min (uncapped spec state.nextRun now) state.balance) := by
  obtain ⟨fee, hfee⟩ := Option.isSome_iff_exists.mp
    (rampedFee_isSome state now hspec.fee_pos hspec.ceiling_fits)
  have hinterval : spec.interval ≠ 0 := Nat.pos_iff_ne_zero.mp hspec.interval_pos
  rw [hfee]
  unfold rampedFee at hfee
  unfold uncapped
  simp only [Option.bind_eq_bind, Option.bind_eq_some_iff, Option.pure_def,
    Option.some.injEq] at hfee
  obtain ⟨full, hfull, rfl⟩ := hfee
  congr 2
  split at hfull
  next hflat =>
    rw [if_pos (hflat.resolve_right hinterval)]
    exact (Option.some.inj hfull).symm
  next hramp =>
    push Not at hramp
    rw [if_neg (not_le.mpr hramp.1)]
    simp only [Option.bind_eq_some_iff, checkedInt_eq_some] at hfull
    obtain ⟨span, ⟨-, rfl⟩, hfull⟩ := hfull
    split at hfull
    next hfully =>
      rw [if_pos hfully]
      exact (Option.some.inj hfull).symm
    next hpartly =>
      rw [if_neg hpartly]
      exact (checkedInt_eq_some.mp hfull).2

/-- The late share grows with the lateness, also where the product stops fitting. -/
theorem lateShare_mono {span : ℤ} {late later interval : ℕ} (hspan : 0 ≤ span) (hle : late ≤ later)
    (hearly : later < interval) : lateShare span late interval ≤ lateShare span later interval := by
  have hproduct : span * late ≤ span * later := Int.mul_le_mul_of_nonneg_left (by omega) hspan
  have hnonneg : 0 ≤ span * (late : ℤ) := Int.mul_nonneg hspan (by omega)
  have hmin : i128Min ≤ 0 := by decide
  unfold lateShare
  cases hlater : i128 (span * later) with
  | none => exact (lateShare_mem hspan (hle.trans_lt hearly)).2
  | some w =>
      obtain ⟨⟨-, hfits⟩, rfl⟩ := checkedInt_eq_some.mp hlater
      have hlate : i128 (span * late) = some (span * late) :=
        checkedInt_of_mem (hmin.trans hnonneg) (hproduct.trans hfits)
      rw [hlate]
      dsimp only
      rw [Int.tdiv_eq_ediv_of_nonneg hnonneg, Int.tdiv_eq_ediv_of_nonneg (hnonneg.trans hproduct)]
      exact Int.ediv_le_ediv (by omega) hproduct

theorem uncapped_mono (spec : JobSpec) (due : Timestamp) (hle : now ≤ later) :
    uncapped spec due now ≤ uncapped spec due later := by
  have hlate : now - due ≤ later - due := Nat.sub_le_sub_right hle due
  unfold uncapped
  split
  · exact le_rfl
  next hramp =>
    have hspan : 0 ≤ spec.maxFeePerRun - spec.feePerRun := by omega
    split
    next hfully => rw [if_pos (hfully.trans hlate)]
    next hpartly =>
      have hbounds := lateShare_mem hspan (Nat.not_le.mp hpartly)
      split
      · omega
      next hlater =>
        have hmono := lateShare_mono hspan hlate (Nat.not_le.mp hlater)
        omega

/-! ## What a run costs -/

/-- The amounts of one run of a job at `now`, all computed within range. -/
structure SafeRun (config : Config) (spec : JobSpec) (state : JobState) (now : Timestamp)
    (fee keeperPart protocolPart : ℤ) : Prop where
  charged : rampedFee spec state now = some fee
  divided : splitFee fee config.protocolFeeBps = some (keeperPart, protocolPart)
  left : i128 (state.balance - fee) = some (state.balance - fee)
  bounds : spec.feePerRun ≤ fee ∧ fee ≤ max spec.feePerRun spec.maxFeePerRun
  covered : fee ≤ state.balance ∧ 0 ≤ state.balance - fee
  parts : keeperPart + protocolPart = fee
  floor : protocolPart = fee * config.protocolFeeBps / 10000

theorem run_safe {config : Config} (hconfig : config.Sound) (hspec : spec.Sound)
    (hstate : state.Sound) (hdue : ensureDue spec state now = .ok ()) :
    ∃ fee keeperPart protocolPart, SafeRun config spec state now fee keeperPart protocolPart := by
  have hfee := rampedFee_eq hspec state now
  obtain ⟨-, -, -, hfunded, -⟩ := ensureDue_eq_ok.mp hdue
  obtain ⟨hbase, hcovered⟩ := rampedFee_bounds hfunded hfee
  have hpos := hspec.fee_pos.trans_le hbase
  have hbps : config.protocolFeeBps ≤ 10000 := hconfig.protocolFee.trans (by decide)
  obtain ⟨⟨keeperPart, protocolPart⟩, hsplit⟩ := Option.isSome_iff_exists.mp
    (splitFee_isSome hpos (hcovered.trans hstate.balance_fits) hbps)
  obtain ⟨hshare, hrest⟩ := splitFee_eq_some hpos hsplit
  have hbalance : i128Min ≤
      state.balance - min (uncapped spec state.nextRun now) state.balance := by
    have hmin : i128Min ≤ 0 := by decide
    omega
  have hfits := hstate.balance_fits
  refine ⟨_, keeperPart, protocolPart, hfee, hsplit, checkedInt_of_mem hbalance (by omega),
    ⟨hbase, rampedFee_le hfee⟩, ⟨hcovered, by omega⟩, by omega, hshare⟩

/-- What holds of the stored jobs and of every run they can make. -/
structure SafeFees (c : Chain World) : Prop where
  specs : ∀ id spec, c.reg.jobs.specs.get id = some spec →
    1 ≤ spec.interval ∧ 0 < spec.feePerRun ∧
      (spec.maxFeePerRun = 0 ∨ spec.feePerRun ≤ spec.maxFeePerRun)
  rate : c.reg.config.protocolFeeBps ≤ 1000 ∧
    (0 < c.reg.config.protocolFeeBps → c.reg.config.treasury.isSome = true)
  runs : ∀ id spec state now, c.reg.jobs.getJobParts id = some (spec, state) →
    ensureDue spec state now = .ok () →
      ∃ fee keeperPart protocolPart, SafeRun c.reg.config spec state now fee keeperPart protocolPart
  grows : ∀ id spec state now later, c.reg.jobs.getJobParts id = some (spec, state) → now ≤ later →
    ∃ fee laterFee, rampedFee spec state now = some fee ∧ rampedFee spec state later =
      some laterFee ∧
      fee ≤ laterFee

/-- In every reachable chain, fees are exact and safe at every time. -/
theorem fees_are_safe (hreach : Reachable host c) : SafeFees c := by
  have hsound := hreach.sound
  refine ⟨?_, ?_, ?_, ?_⟩
  · intro id spec hget
    have hspec := hsound.jobs.specs id spec hget
    exact ⟨hspec.interval_pos, hspec.fee_pos, hspec.ceiling⟩
  · refine ⟨hsound.config.protocolFee, ?_⟩
    intro hcharges
    exact Option.isSome_iff_ne_none.mpr (hsound.config.treasury hcharges)
  · intro id spec state now hparts hdue
    have hspec := hsound.jobs.specs id spec (JobTable.specs_get_of_parts hparts)
    have hstate := hsound.jobs.states id state (JobTable.states_get_of_parts hparts)
    exact run_safe hsound.config hspec hstate hdue
  · intro id spec state now later hparts hle
    have hspec := hsound.jobs.specs id spec (JobTable.specs_get_of_parts hparts)
    refine ⟨_, _, rampedFee_eq hspec state now, rampedFee_eq hspec state later, ?_⟩
    exact min_le_min_right _ (uncapped_mono spec state.nextRun hle)

/-- They are after a first run with a protocol fee. -/
theorem fees_are_safe_firstRun :
    SafeFees ((machine plainHost).run (deployment ⟨3⟩ 1000 100 10 1000) firstRun) :=
  fees_are_safe ⟨_, _, deployment_deployed ⟨3⟩ 10 1000 (by decide) (by decide),
    firstRun_admissible _, rfl⟩

/-! ## The fee that clients compute -/

/-- The documented ramp, before it is capped at the balance. -/
def linearFee (job : Job) (now : Timestamp) : ℤ :=
  if job.maxFeePerRun = 0 then
    job.feePerRun
  else if now - job.nextRun < job.interval then
    job.feePerRun + (job.maxFeePerRun - job.feePerRun) * ((now - job.nextRun : ℕ) : ℤ) /
      job.interval
  else
    job.maxFeePerRun

/-- The SDK and the registry charge the documented fee of a job. -/
structure Mirrors (c : Chain World) (job : Job) : Prop where
  registry : currentFee c job.id = some (some (Sdk.currentFee job c.now))
  linear : Sdk.currentFee job c.now = min job.balance (linearFee job c.now)

/-- The product of the ramp does not fit an `i128`, on a job that could pay more than its ramp. -/
def RampOverflows (job : Job) (now : Timestamp) : Prop :=
  now - job.nextRun < job.interval ∧
    i128Max < (job.maxFeePerRun - job.feePerRun) * ((now - job.nextRun : ℕ) : ℤ) ∧
    linearFee job now < job.balance

instance (job : Job) (now : Timestamp) : Decidable (RampOverflows job now) :=
  inferInstanceAs (Decidable (_ ∧ _ ∧ _))

section Mirror

variable {id : JobId}

theorem linearFee_jobView (id : JobId) (spec : JobSpec) (state : JobState) (now : Timestamp) :
    linearFee (jobView id spec state) now =
      if spec.maxFeePerRun = 0 then
        spec.feePerRun
      else if now - state.nextRun < spec.interval then
        spec.feePerRun + (spec.maxFeePerRun - spec.feePerRun) * ((now - state.nextRun : ℕ) : ℤ) /
          spec.interval
      else
        spec.maxFeePerRun := rfl

/-- With unbounded integers the ramp is the documented one. -/
theorem sdkFee_eq (hspec : spec.Sound) (id : JobId) (state : JobState) (now : Timestamp) :
    Sdk.currentFee (jobView id spec state) now =
      min state.balance (linearFee (jobView id spec state) now) := by
  have hpos := hspec.fee_pos
  have hinterval := hspec.interval_pos
  have hlate : (if state.nextRun < now then now - state.nextRun else 0) = now - state.nextRun := by
    split
    · rfl
    next hearly => exact (Nat.sub_eq_zero_of_le (Nat.not_lt.mp hearly)).symm
  have hcap : ∀ fee : ℤ, (if fee < state.balance then fee else state.balance) =
      min state.balance fee := by
    intro fee
    rw [min_comm]
    split
    next hlt => exact (min_eq_left hlt.le).symm
    next hge => exact (min_eq_right (not_lt.mp hge)).symm
  have hfee : (if spec.feePerRun < spec.maxFeePerRun ∧ 0 < spec.interval then
      if spec.interval ≤ now - state.nextRun then spec.maxFeePerRun
      else spec.feePerRun + ((spec.maxFeePerRun - spec.feePerRun) *
        ((now - state.nextRun : ℕ) : ℤ)).tdiv spec.interval
      else spec.feePerRun) = linearFee (jobView id spec state) now := by
    rw [linearFee_jobView]
    rcases hspec.ceiling with hflat | hceiling
    · rw [if_pos hflat, if_neg (by omega)]
    · rw [if_neg (show ¬ spec.maxFeePerRun = 0 by omega)]
      rcases hceiling.eq_or_lt with heq | hlt
      · rw [if_neg (by omega), heq]
        simp
      · rw [if_pos ⟨hlt, hinterval⟩]
        split
        next hfully => rw [if_neg (Nat.not_lt.mpr hfully)]
        next hpartly =>
          rw [if_pos (Nat.not_le.mp hpartly), Int.tdiv_eq_ediv_of_nonneg]
          exact Int.mul_nonneg (by omega) (by omega)
  rw [← hfee, ← hcap, ← hlate]
  rfl

/-- The registry charges the documented ramp where its product fits. -/
theorem uncapped_eq_linear (hspec : spec.Sound) (id : JobId) (state : JobState)
    (hfits : ¬ (now - state.nextRun < spec.interval ∧
      i128Max < (spec.maxFeePerRun - spec.feePerRun) * ((now - state.nextRun : ℕ) : ℤ))) :
    uncapped spec state.nextRun now = linearFee (jobView id spec state) now := by
  have hpos := hspec.fee_pos
  have hmin : i128Min ≤ 0 := by decide
  rw [uncapped, linearFee_jobView]
  rcases hspec.ceiling with hflat | hceiling
  · rw [if_pos (by omega), if_pos hflat]
  · rw [if_neg (show ¬ spec.maxFeePerRun = 0 by omega)]
    rcases hceiling.eq_or_lt with heq | hlt
    · rw [if_pos heq.ge, heq]
      simp
    · rw [if_neg (not_le.mpr hlt)]
      split
      next hfully => rw [if_neg (Nat.not_lt.mpr hfully)]
      next hpartly =>
        have hearly := Nat.not_le.mp hpartly
        have hnonneg : 0 ≤ (spec.maxFeePerRun - spec.feePerRun) * ((now - state.nextRun : ℕ) : ℤ) :=
          Int.mul_nonneg (by omega) (by omega)
        have hproduct := not_lt.mp fun hbig => hfits ⟨hearly, hbig⟩
        rw [if_pos hearly, lateShare, i128, checkedInt_of_mem (hmin.trans hnonneg) hproduct]
        dsimp only
        rw [Int.tdiv_eq_ediv_of_nonneg hnonneg]

/-- Where it does not fit, the registry charges the ceiling before a full interval has passed. -/
theorem uncapped_of_overflow (hspec : spec.Sound) (id : JobId)
    (hearly : now - state.nextRun < spec.interval)
    (hbig : i128Max < (spec.maxFeePerRun - spec.feePerRun) * ((now - state.nextRun : ℕ) : ℤ)) :
    uncapped spec state.nextRun now = spec.maxFeePerRun ∧
      linearFee (jobView id spec state) now < spec.maxFeePerRun := by
  have hpos := hspec.fee_pos
  have hmax : 0 ≤ i128Max := by decide
  have hspan : 0 < spec.maxFeePerRun - spec.feePerRun := by
    by_contra hflat
    have hsmall := Int.mul_nonpos_of_nonpos_of_nonneg (not_lt.mp hflat)
      (Int.natCast_nonneg (now - state.nextRun))
    omega
  refine ⟨?_, ?_⟩
  · rw [uncapped, if_neg (by omega), if_neg (Nat.not_le.mpr hearly), lateShare]
    have hnone :
        i128 ((spec.maxFeePerRun - spec.feePerRun) * ((now - state.nextRun : ℕ) : ℤ)) = none :=
      checkedInt_eq_none.mpr fun h => absurd h.2 (not_le.mpr hbig)
    rw [hnone]
    dsimp only
    omega
  · rw [linearFee_jobView, if_neg (show ¬ spec.maxFeePerRun = 0 by omega), if_pos hearly]
    have hshare : (spec.maxFeePerRun - spec.feePerRun) * ((now - state.nextRun : ℕ) : ℤ) /
        spec.interval <
        spec.maxFeePerRun - spec.feePerRun := by
      have hlate : ((now - state.nextRun : ℕ) : ℤ) < spec.interval := Int.ofNat_lt.mpr hearly
      apply Int.ediv_lt_of_lt_mul (by omega)
      exact Int.mul_lt_mul_of_pos_left hlate hspan
    omega

/-- Clients and the registry agree on a job's fee unless the ramp overflows on a job whose
balance is above it. -/
theorem sdkFee_mirrors_iff {c : Chain World} {job : Job} (hjobs : c.reg.jobs.Sound)
    (hjob : c.reg.jobs.getJob id = some job) : Mirrors c job ↔ ¬ RampOverflows job c.now := by
  obtain ⟨⟨spec, state⟩, hparts, rfl⟩ := Option.map_eq_some_iff.mp hjob
  have hspec := hjobs.specs id spec (JobTable.specs_get_of_parts hparts)
  have hsdk := sdkFee_eq hspec id state c.now
  have hregistry : currentFee c id =
      some (some (min (uncapped spec state.nextRun c.now) state.balance)) := by
    simp only [currentFee, hparts, Option.bind_eq_bind, Option.bind_some, Option.pure_def]
    rw [rampedFee_eq hspec state c.now]
  have hagree : Mirrors c (jobView id spec state) ↔
      min (uncapped spec state.nextRun c.now) state.balance =
      min (linearFee (jobView id spec state) c.now) state.balance := by
    constructor
    · rintro ⟨hmirror, -⟩
      have hsame := hregistry.symm.trans hmirror
      simp only [Option.some.injEq] at hsame
      rw [hsame, hsdk, min_comm]
    · intro hsame
      refine ⟨hregistry.trans ?_, hsdk⟩
      rw [hsame, hsdk, min_comm]
  rw [hagree]
  constructor
  · rintro hsame ⟨hearly, hbig, hfunded⟩
    obtain ⟨hceiling, hlinear⟩ := uncapped_of_overflow hspec id hearly hbig
    have hfunded' : linearFee (jobView id spec state) c.now < state.balance := hfunded
    rw [hceiling, min_eq_left hfunded'.le] at hsame
    omega
  · intro hramp
    by_cases hfits : c.now - state.nextRun < spec.interval ∧
        i128Max < (spec.maxFeePerRun - spec.feePerRun) * ((c.now - state.nextRun : ℕ) : ℤ)
    · obtain ⟨hceiling, hlinear⟩ := uncapped_of_overflow hspec id hfits.1 hfits.2
      have hpoor : state.balance ≤ linearFee (jobView id spec state) c.now :=
        not_lt.mp fun hfunded => hramp ⟨hfits.1, hfits.2, hfunded⟩
      rw [hceiling, min_eq_right hpoor, min_eq_right (hpoor.trans hlinear.le)]
    · rw [uncapped_eq_linear hspec id state hfits]

/-- A job whose fee rises from `10` to `40` over a minute, a third of which has passed. -/
def rampingRun : List (Action Unit) :=
  [.call ⟨[⟨5⟩]⟩ (.job (.createJob ⟨5⟩ { minutely with maxFeePerRun := 40 } 50)), .advance 1020]

/-- A third of the ramp later, the registry and clients ask for a third of the rise. -/
theorem sdkFee_mirrors_iff_ramping :
    let c := (machine plainHost).run (deployment ⟨3⟩ 1000 100 10 1000) rampingRun
    ∃ job, c.reg.jobs.getJob 0 = some job ∧ Mirrors c job ∧ linearFee job c.now = 20 := by
  intro c
  have hadmissible : (machine plainHost).Along (Admissible plainHost)
      (deployment ⟨3⟩ 1000 100 10 1000) rampingRun := by
    simp [rampingRun, Machine.Along, Admissible, Call.WellTyped, JobParams.WellTyped, minutely,
      u64Max, i128Max]
  have hreach : Reachable plainHost c :=
    ⟨_, _, deployment_deployed ⟨3⟩ 10 1000 (by decide) (by decide), hadmissible, rfl⟩
  obtain ⟨job, hjob⟩ : ∃ job, c.reg.jobs.getJob 0 = some job := ⟨_, rfl⟩
  refine ⟨job, hjob, (sdkFee_mirrors_iff hreach.sound.jobs hjob).mpr ?_, ?_⟩
  all_goals
    cases hjob
    decide

/-- A job whose fee rises to everything it has within three seconds. -/
def steepRun : List (Action Unit) :=
  [.call ⟨[⟨5⟩]⟩
    (.job (.createJob ⟨5⟩ { minutely with
    interval := 3, feePerRun := 1, maxFeePerRun := i128Max } i128Max)),
    .advance 1002]

/-- Two seconds late, the registry already charges all of it, and clients expect two thirds. -/
theorem sdkFee_diverges :
    let c := (machine plainHost).run (deployment ⟨3⟩ 1000 100 10 i128Max) steepRun
    Reachable plainHost c ∧ ∃ job, c.reg.jobs.getJob 0 = some job ∧ ¬ Mirrors c job := by
  intro c
  have hadmissible : (machine plainHost).Along (Admissible plainHost)
      (deployment ⟨3⟩ 1000 100 10 i128Max)
      steepRun := by
    simp [steepRun, Machine.Along, Admissible, Call.WellTyped, JobParams.WellTyped, minutely,
      u64Max, i128Max]
  have hreach : Reachable plainHost c :=
    ⟨_, _, deployment_deployed ⟨3⟩ 10 i128Max (by decide) (by decide), hadmissible, rfl⟩
  obtain ⟨job, hjob⟩ : ∃ job, c.reg.jobs.getJob 0 = some job := ⟨_, rfl⟩
  refine ⟨hreach, job, hjob, ?_⟩
  rintro ⟨hregistry, -⟩
  cases hjob
  revert hregistry
  decide

end Mirror

end SoroCron
