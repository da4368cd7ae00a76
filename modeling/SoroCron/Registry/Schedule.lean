import Mathlib.Tactic.Linarith
import Mathlib.Tactic.Ring
import SoroCron.Foundation.Grid
import SoroCron.Registry.Types

/-! # Schedule and fee arithmetic

Pure functions on times and amounts. A function that uses unchecked source arithmetic
returns `none` where the contract's build, which has overflow checks on, would panic.
-/

namespace SoroCron

open Bounded

def day : ℕ := 86400

def week : ℕ := 7 * day

/-- 1970-01-01 was a Thursday; Monday 1970-01-05 is 4 days in. -/
def firstMondayOffsetDays : ℕ := 4

def scheduleIsValid : Schedule → Bool
  | .interval => true
  | .daily hour minute => hour < 24 && minute < 60
  | .weekly weekday hour minute => weekday < 7 && hour < 24 && minute < 60

/-- Seconds between runs of a calendar schedule. -/
def calendarPeriod : Schedule → Option ℕ
  | .interval => none
  | .daily _ _ => some day
  | .weekly _ _ _ => some week

/-- Position of the calendar's time within its period, counted from the unix epoch. -/
def calendarOffset : Schedule → ℕ
  | .interval => 0
  | .daily hour minute => hour * 3600 + minute * 60
  | .weekly weekday hour minute =>
      ((weekday + firstMondayOffsetDays) % 7) * day + hour * 3600 + minute * 60

/-- The first time at or after `start` that matches a calendar schedule, and `start`
itself for an interval schedule. -/
def firstCalendarRun (schedule : Schedule) (start : Timestamp) : Timestamp :=
  match calendarPeriod schedule with
  | none => start
  | some period =>
      let offset := calendarOffset schedule
      let intoPeriod := start % period
      let periodStart := start - intoPeriod
      if intoPeriod ≤ offset then
        satAdd64 periodStart offset
      else
        satAdd64 (satAdd64 periodStart period) offset

/-- Next run after one at `scheduled` executes at `now`, on the grid
`scheduled + k * interval`. -/
def nextRunAfter (scheduled : Timestamp) (interval : ℕ) (now : Timestamp) : Option Timestamp :=
  if interval = 0 then
    some (max scheduled now)
  else do
    let elapsed := now - scheduled
    let steps ← checkedAdd64 (elapsed / interval) 1
    match checkedMul64 steps interval with
    | some delta => return satAdd64 scheduled delta
    | none => return u64Max

/-- Fee for a run executed at `now`: flat, or rising from `feePerRun` to `maxFeePerRun`
over one interval of lateness, and never more than the job's balance. -/
def rampedFee (spec : JobSpec) (state : JobState) (now : Timestamp) : Option ℤ := do
  let base := spec.feePerRun
  let fee ← (if spec.maxFeePerRun ≤ base ∨ spec.interval = 0 then
      some base
    else do
      let late := now - state.nextRun
      let span ← i128 (spec.maxFeePerRun - base)
      (if spec.interval ≤ late then
        some spec.maxFeePerRun
      else
        let extra := match i128 (span * late) with
          | some v => v.tdiv spec.interval
          | none => span
        i128 (base + extra)))
  return min fee state.balance

/-- Splits `amount` into the rest and the share `amount * bps / 10_000`, rounded down. -/
def splitFee (amount : ℤ) (bps : ℕ) : Option (ℤ × ℤ) :=
  if amount ≤ 0 ∨ bps = 0 then
    some (amount, 0)
  else do
    let high ← i128 (amount.tdiv 10000 * bps)
    let low ← i128 (amount.tmod 10000 * bps)
    let share ← i128 (high + low.tdiv 10000)
    let rest ← i128 (amount - share)
    return (rest, share)

/-- Adds `sample` to a moving average kept scaled by 8. -/
def smooth (scaled sample : ℕ) : ℕ := satAdd64 (scaled - scaled / 8) sample

/-- When stake becomes withdrawable for a keeper that starts unbonding at `now`: with
epochs, the unbonding period starts at the end of the current epoch. -/
def unbondingRelease (now : Timestamp) (period epoch : ℕ) : Timestamp :=
  let start := if epoch = 0 then now else satMul64 (satAdd64 (now / epoch) 1) epoch
  satAdd64 start period

/-! ## Fees -/

/-- The two halves of the split add up to the exact floor. -/
theorem share_eq {amount : ℤ} (bps : ℕ) (hpos : 0 < amount) :
    amount.tdiv 10000 * bps + (amount.tmod 10000 * bps).tdiv 10000 = amount * bps / 10000 := by
  have hlow : 0 ≤ amount % 10000 * bps :=
    Int.mul_nonneg (Int.emod_nonneg _ (by norm_num)) (by positivity)
  have hsplit : amount * bps = 10000 * (amount / 10000 * bps) + amount % 10000 * bps := by
    calc amount * bps = (10000 * (amount / 10000) + amount % 10000) * bps := by
          rw [Int.mul_ediv_add_emod]
      _ = 10000 * (amount / 10000 * bps) + amount % 10000 * bps := by ring
  rw [Int.tdiv_eq_ediv_of_nonneg hpos.le, Int.tmod_eq_emod_of_nonneg hpos.le,
    Int.tdiv_eq_ediv_of_nonneg hlow]
  omega

theorem share_nonneg {amount : ℤ} (bps : ℕ) (hpos : 0 < amount) : 0 ≤ amount * bps / 10000 :=
  Int.ediv_nonneg (by positivity) (by norm_num)

theorem share_le {amount : ℤ} {bps : ℕ} (hpos : 0 < amount) (hbps : bps ≤ 10000) :
    amount * bps / 10000 ≤ amount := by
  have hrate : (bps : ℤ) ≤ 10000 := by exact_mod_cast hbps
  have hall : amount * bps ≤ amount * 10000 := Int.mul_le_mul_of_nonneg_left hrate hpos.le
  omega

theorem splitFee_eq_some {amount rest share : ℤ} {bps : ℕ} (hpos : 0 < amount)
    (h : splitFee amount bps = some (rest, share)) :
    share = amount * bps / 10000 ∧ rest = amount - share := by
  unfold splitFee at h
  split at h
  next hflat =>
    have hzero : bps = 0 := by omega
    simp only [Option.some.injEq, Prod.mk.injEq] at h
    obtain ⟨rfl, rfl⟩ := h
    simp [hzero]
  next =>
    simp only [Option.bind_eq_bind, Option.bind_eq_some_iff, checkedInt_eq_some, Option.pure_def,
      Option.some.injEq, Prod.mk.injEq] at h
    obtain ⟨high, ⟨-, hhigh⟩, low, ⟨-, hlow⟩, part, ⟨-, hpart⟩, remain, ⟨-, hremain⟩, hrest,
        hshare⟩ := h
    rw [← share_eq bps hpos]
    subst high low part remain rest share
    exact ⟨rfl, rfl⟩

/-- A split of a positive amount at a rate of at most everything gives two parts, neither
negative, that add up to the amount. -/
theorem splitFee_parts {amount rest share : ℤ} {bps : ℕ} (hpos : 0 < amount) (hbps : bps ≤ 10000)
    (h : splitFee amount bps = some (rest, share)) :
    0 ≤ rest ∧ 0 ≤ share ∧ rest + share = amount := by
  obtain ⟨hshare, hrest⟩ := splitFee_eq_some hpos h
  have hnonneg := share_nonneg bps hpos
  have hle := share_le hpos hbps
  omega

/-- Within `i128`, the split of a positive amount never overflows. -/
theorem splitFee_isSome {amount : ℤ} {bps : ℕ} (hpos : 0 < amount) (hfits : amount ≤ i128Max)
    (hbps : bps ≤ 10000) : (splitFee amount bps).isSome := by
  have hmax : i128Max = 170141183460469231731687303715884105727 := by decide
  have hmin : i128Min = -170141183460469231731687303715884105728 := by decide
  have hhigh : 0 ≤ amount.tdiv 10000 * bps :=
    Int.mul_nonneg (Int.tdiv_nonneg hpos.le (by norm_num)) (by positivity)
  have hlow : 0 ≤ amount.tmod 10000 * bps :=
    Int.mul_nonneg (Int.tmod_nonneg _ hpos.le) (by positivity)
  have hlowle : amount.tmod 10000 * bps ≤ 9999 * 10000 := by
    have hrem : amount.tmod 10000 ≤ 9999 := by
      rw [Int.tmod_eq_emod_of_nonneg hpos.le]
      omega
    have hrate : (bps : ℤ) ≤ 10000 := by exact_mod_cast hbps
    exact Int.mul_le_mul hrem hrate (by positivity) (by norm_num)
  have hpart : 0 ≤ (amount.tmod 10000 * bps).tdiv 10000 := Int.tdiv_nonneg hlow (by norm_num)
  have hshare := share_eq bps hpos
  have hshareNonneg := share_nonneg bps hpos
  have hshareLe := share_le hpos hbps
  unfold splitFee
  split
  · rfl
  · simp only [i128, checkedInt_of_mem (show i128Min ≤ amount.tdiv 10000 * bps by omega)
        (show amount.tdiv 10000 * bps ≤ i128Max by omega),
      checkedInt_of_mem (show i128Min ≤ amount.tmod 10000 * bps by omega)
        (show amount.tmod 10000 * bps ≤ i128Max by omega), Option.bind_eq_bind,
          Option.bind_some, hshare]
    rw [checkedInt_of_mem (by omega) (by omega), Option.bind_some,
      checkedInt_of_mem (by omega) (by omega)]
    rfl

/-- The late share of a fee's span is at most the span, whichever branch computes it. -/
theorem lateShare_bounds (span : ℤ) {late interval : ℕ} (hspan : 0 ≤ span)
    (hearly : late < interval) : 0 ≤ (match i128 (span * late) with
        | some v => v.tdiv interval
        | none => span) ∧
      (match i128 (span * late) with
        | some v => v.tdiv interval
        | none => span) ≤ span := by
  split
  next v hv =>
    rw [checkedInt_eq_some] at hv
    obtain ⟨-, rfl⟩ := hv
    have hnonneg : 0 ≤ span * (late : ℤ) := Int.mul_nonneg hspan (by positivity)
    refine ⟨Int.tdiv_nonneg hnonneg (by positivity), ?_⟩
    rw [Int.tdiv_eq_ediv_of_nonneg hnonneg]
    have hlate : (late : ℤ) ≤ interval := by omega
    have hmul := Int.mul_le_mul_of_nonneg_left hlate hspan
    calc span * (late : ℤ) / interval
        ≤ span * interval / interval := Int.ediv_le_ediv (by omega) hmul
      _ = span := Int.mul_ediv_cancel _ (by omega)
  next => exact ⟨hspan, le_rfl⟩

/-- The unclipped fee of a run: between the base fee and the ceiling. -/
theorem rampedFee_eq_min {spec : JobSpec} {state : JobState} {now : Timestamp} {fee : ℤ}
    (h : rampedFee spec state now = some fee) :
    ∃ full, fee = min full state.balance ∧ spec.feePerRun ≤ full ∧
      full ≤ max spec.feePerRun spec.maxFeePerRun := by
  unfold rampedFee at h
  simp only [Option.bind_eq_bind, Option.bind_eq_some_iff, Option.pure_def, Option.some.injEq] at h
  obtain ⟨full, hfull, hfee⟩ := h
  refine ⟨full, hfee.symm, ?_⟩
  split at hfull
  next =>
    cases hfull
    exact ⟨le_rfl, le_max_left _ _⟩
  next hramp =>
    push Not at hramp
    simp only [Option.bind_eq_some_iff, checkedInt_eq_some] at hfull
    obtain ⟨span, ⟨-, hspan⟩, hfull⟩ := hfull
    split at hfull
    next =>
      cases hfull
      exact ⟨hramp.1.le, le_max_right _ _⟩
    next hearly =>
      rw [checkedInt_eq_some] at hfull
      have hextra := lateShare_bounds span (by omega) (Nat.not_le.mp hearly)
      refine ⟨by omega, le_trans ?_ (le_max_right _ _)⟩
      omega

/-- A run that the job can afford costs at least the base fee and at most its balance. -/
theorem rampedFee_bounds {spec : JobSpec} {state : JobState} {now : Timestamp} {fee : ℤ}
    (hfunded : spec.feePerRun ≤ state.balance) (h : rampedFee spec state now = some fee) :
    spec.feePerRun ≤ fee ∧ fee ≤ state.balance := by
  obtain ⟨full, rfl, hbase, -⟩ := rampedFee_eq_min h
  exact ⟨le_min hbase hfunded, min_le_right _ _⟩

/-- No run costs more than the base fee or the ceiling, whichever is higher. -/
theorem rampedFee_le {spec : JobSpec} {state : JobState} {now : Timestamp} {fee : ℤ}
    (h : rampedFee spec state now = some fee) : fee ≤ max spec.feePerRun spec.maxFeePerRun := by
  obtain ⟨full, rfl, -, hceiling⟩ := rampedFee_eq_min h
  exact (min_le_left _ _).trans hceiling

/-- With amounts a registry can hold, the fee ramp never overflows. -/
theorem rampedFee_isSome {spec : JobSpec} (state : JobState) (now : Timestamp)
    (hpos : 0 < spec.feePerRun) (hfits : spec.maxFeePerRun ≤ i128Max) :
    (rampedFee spec state now).isSome := by
  have hmin : i128Min = -170141183460469231731687303715884105728 := by decide
  unfold rampedFee
  dsimp only
  split
  · rfl
  next hramp =>
    push Not at hramp
    have hspan : 0 < spec.maxFeePerRun - spec.feePerRun := by omega
    simp only [i128, checkedInt_of_mem (show i128Min ≤ spec.maxFeePerRun - spec.feePerRun by omega)
      (show spec.maxFeePerRun - spec.feePerRun ≤ i128Max by omega), Option.bind_eq_bind,
        Option.bind_some]
    split
    · rfl
    next hearly =>
      obtain ⟨hlow, hhigh⟩ := lateShare_bounds _ hspan.le (Nat.not_le.mp hearly)
      simp only [i128] at hlow hhigh
      rw [checkedInt_of_mem (by omega) (by omega)]
      rfl

/-! ## First runs -/

theorem calendarPeriod_pos {schedule : Schedule} {period : ℕ}
    (hperiod : calendarPeriod schedule = some period) : 0 < period := by
  cases schedule with
  | interval => cases hperiod
  | daily hour minute =>
      cases hperiod
      decide
  | weekly weekday hour minute =>
      cases hperiod
      decide

/-- The first matching time of a calendar, or the largest time when that does not fit. -/
theorem firstCalendarRun_eq {schedule : Schedule} {period : ℕ} (start : Timestamp)
    (hperiod : calendarPeriod schedule = some period) :
    firstCalendarRun schedule start =
      min (Grid.ceil period (calendarOffset schedule) start) u64Max := by
  unfold firstCalendarRun Grid.ceil
  rw [hperiod]
  dsimp only
  split
  · rfl
  · exact satAdd_satAdd_left _ _ _

theorem firstCalendarRun_fits {schedule : Schedule} {start : Timestamp} (hstart : start ≤ u64Max) :
    firstCalendarRun schedule start ≤ u64Max := by
  cases hperiod : calendarPeriod schedule with
  | none =>
      rw [firstCalendarRun, hperiod]
      exact hstart
  | some period =>
      rw [firstCalendarRun_eq start hperiod]
      exact min_le_right _ _

/-- A first run is never before its start, nor before any earlier time that fits. -/
theorem le_firstCalendarRun_of_le {schedule : Schedule} {time start : Timestamp}
    (hle : time ≤ start) (hfits : time ≤ u64Max) : time ≤ firstCalendarRun schedule start := by
  cases hperiod : calendarPeriod schedule with
  | none =>
      rw [firstCalendarRun, hperiod]
      exact hle
  | some period =>
      rw [firstCalendarRun_eq start hperiod]
      exact le_min (hle.trans (Grid.le_ceil _ (calendarPeriod_pos hperiod))) hfits

theorem le_firstCalendarRun {schedule : Schedule} {start : Timestamp} (hstart : start ≤ u64Max) :
    start ≤ firstCalendarRun schedule start :=
  le_firstCalendarRun_of_le le_rfl hstart

/-! ## Next runs -/

/-- With a positive interval the next run is the next grid point, or the largest time
when that does not fit. -/
theorem nextRunAfter_eq_some {scheduled interval now next : ℕ} (hinterval : 0 < interval)
    (h : nextRunAfter scheduled interval now = some next) :
    next = min (Grid.next scheduled interval now) u64Max := by
  unfold nextRunAfter at h
  rw [if_neg (by omega)] at h
  simp only [Option.bind_eq_bind, Option.bind_eq_some_iff, checkedAdd_eq_some] at h
  obtain ⟨steps, ⟨-, rfl⟩, h⟩ := h
  unfold Grid.next
  split at h
  next delta hdelta =>
    rw [checkedMul_eq_some] at hdelta
    obtain ⟨-, rfl⟩ := hdelta
    exact (Option.some.inj h).symm
  next hbig =>
    rw [checkedMul_eq_none] at hbig
    have hnext : u64Max = next := Option.some.inj h
    omega

/-- The step count overflows in one case only: a job due at time `0`, every second, that
nobody ran until the last representable moment. -/
theorem nextRunAfter_eq_none {scheduled interval now : ℕ} (hnow : now ≤ u64Max) :
    nextRunAfter scheduled interval now = none ↔ interval = 1 ∧ scheduled = 0 ∧ now = u64Max := by
  unfold nextRunAfter
  split
  next hzero => simp [hzero]
  next hpos =>
    have hstop : ∀ steps, (match checkedMul64 steps interval with
        | some delta => some (satAdd64 scheduled delta)
        | none => some u64Max) ≠ none := by
      intro steps
      split <;> simp
    simp only [Option.bind_eq_bind, Option.pure_def, Option.bind_eq_none_iff, checkedAdd_eq_some]
    constructor
    · intro hnone
      have hbig : u64Max < (now - scheduled) / interval + 1 := by
        by_contra hfits
        exact hstop _ (hnone _ ⟨by omega, rfl⟩)
      have hquot : (now - scheduled) / interval ≤ now - scheduled := Nat.div_le_self _ _
      have hone : interval = 1 := by
        by_contra hne
        have hhalf : (now - scheduled) / interval ≤ (now - scheduled) / 2 :=
          Nat.div_le_div_left (by omega) (by omega)
        have hmax : 1 < u64Max := by decide
        omega
      subst hone
      have hmax : 0 < u64Max := by decide
      omega
    · rintro ⟨rfl, rfl, rfl⟩ steps ⟨hfits, -⟩
      simp at hfits

/-! ## Unbonding -/

/-- Two times in one unbonding epoch; without epochs every time is its own. -/
def SameEpoch (epoch : ℕ) (time time' : Timestamp) : Prop :=
  if epoch = 0 then time = time' else time / epoch = time' / epoch

instance (epoch : ℕ) (time time' : Timestamp) : Decidable (SameEpoch epoch time time') :=
  inferInstanceAs (Decidable (if epoch = 0 then time = time' else time / epoch = time' / epoch))

/-- A keeper that starts unbonding in the epoch of `time` is out one period and one epoch
after `time`. -/
theorem unbondingRelease_le_delay {now time : Timestamp} {period epoch : ℕ}
    (h : SameEpoch epoch now time) :
    unbondingRelease now period epoch ≤ satAdd64 time (satAdd64 period epoch) := by
  unfold SameEpoch at h
  have hlimit : satAdd64 time (satAdd64 period epoch) = min (time + period + epoch) u64Max :=
    satAdd_satAdd _ _ _
  rw [hlimit]
  unfold unbondingRelease
  dsimp only
  split at h
  next hoff =>
    subst h
    rw [if_pos hoff]
    exact le_min ((satAdd_le _ _).trans (Nat.le_add_right _ _)) (satAdd_le_top _ _)
  next hon =>
    rw [if_neg hon, h]
    have hfloor : time / epoch * epoch ≤ time := Nat.div_mul_le_self time epoch
    have hend : satMul64 (satAdd64 (time / epoch) 1) epoch ≤ time + epoch := by
      calc satMul64 (satAdd64 (time / epoch) 1) epoch
          ≤ satAdd64 (time / epoch) 1 * epoch := satMul_le _ _
        _ ≤ (time / epoch + 1) * epoch := Nat.mul_le_mul_right epoch (satAdd_le _ _)
        _ = time / epoch * epoch + epoch := Nat.succ_mul _ _
        _ ≤ time + epoch := Nat.add_le_add_right hfloor epoch
    exact le_min ((satAdd_le _ _).trans (by omega)) (satAdd_le_top _ _)

end SoroCron
