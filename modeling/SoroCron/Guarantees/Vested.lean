import Mathlib.Algebra.Order.Ring.Int
import Mathlib.Data.Int.Order.Basic
import SoroCron.Contracts.Vesting
import SoroCron.Registry.Funds

/-! # Vesting pays out

The vesting contract always holds what it still owes. A release pays exactly what has vested and was
not paid yet, so that what a beneficiary has been paid depends on the time of the last release and
not on how many there were; and after the end of a schedule one release completes it.
-/

namespace SoroCron.VestingContract

open Outcome Bounded

variable {this : Instance} {accepts : TokenAccepts} {s s' : State} {who : Address}
  {schedule : VestingSchedule}

/-! ## What has vested -/

namespace VestingSchedule

/-- What has vested at a time, with no bound on the arithmetic. -/
def vested (schedule : VestingSchedule) (now : ℕ) : ℤ :=
  if now < schedule.startTime + schedule.cliffDuration then
    0
  else if schedule.startTime + schedule.totalDuration ≤ now then
    schedule.totalAmount
  else
    schedule.totalAmount * ((now - schedule.startTime : ℕ) : ℤ) / schedule.totalDuration

variable (schedule : VestingSchedule) {now later : ℕ} {amount : ℤ}

theorem vested_nonneg : 0 ≤ schedule.vested now := by
  unfold vested
  split
  · exact le_rfl
  · split
    · exact schedule.total_pos.le
    · exact Int.ediv_nonneg (mul_nonneg schedule.total_pos.le (Int.natCast_nonneg _))
        (Int.natCast_nonneg _)

theorem vested_le : schedule.vested now ≤ schedule.totalAmount := by
  have hduration : (0 : ℤ) < schedule.totalDuration := by exact_mod_cast schedule.duration_pos
  unfold vested
  split
  · exact schedule.total_pos.le
  · split
    · exact le_rfl
    next hrunning =>
      have helapsed : ((now - schedule.startTime : ℕ) : ℤ) ≤ schedule.totalDuration := by omega
      apply Int.ediv_le_of_le_mul hduration
      exact mul_le_mul_of_nonneg_left helapsed schedule.total_pos.le

/-- Time never takes back what has vested. -/
theorem vested_mono (hle : now ≤ later) : schedule.vested now ≤ schedule.vested later := by
  by_cases hcliff : now < schedule.startTime + schedule.cliffDuration
  · rw [vested, if_pos hcliff]
    exact schedule.vested_nonneg
  · by_cases hend : schedule.startTime + schedule.totalDuration ≤ later
    · have hwhole : schedule.vested later = schedule.totalAmount := by
        have hpast : ¬ later < schedule.startTime + schedule.cliffDuration := by
          have := schedule.cliff_le
          omega
        rw [vested, if_neg hpast, if_pos hend]
      rw [hwhole]
      exact schedule.vested_le
    · have hrunning : ¬ schedule.startTime + schedule.totalDuration ≤ now := by omega
      have hpast : ¬ later < schedule.startTime + schedule.cliffDuration := by omega
      rw [vested, vested, if_neg hcliff, if_neg hrunning, if_neg hpast, if_neg hend]
      have hduration : (0 : ℤ) ≤ schedule.totalDuration := Int.natCast_nonneg _
      apply Int.ediv_le_ediv (by exact_mod_cast schedule.duration_pos)
      apply mul_le_mul_of_nonneg_left _ schedule.total_pos.le
      omega

/-- The contract computes this, where it computes anything. -/
theorem vestedAt_eq (hrevoked : schedule.revoked = false)
    (h : schedule.vestedAt now = some amount) : amount = schedule.vested now := by
  unfold vestedAt at h
  rw [hrevoked, if_neg Bool.false_ne_true] at h
  obtain ⟨cliff, hcliff, h⟩ := Option.bind_eq_some_iff.mp h
  obtain ⟨-, rfl⟩ := checkedAdd_eq_some.mp hcliff
  unfold vested
  split at h
  next hearly =>
    rw [if_pos hearly]
    exact (Option.some.inj h).symm
  next hpast =>
    rw [if_neg hpast]
    obtain ⟨finish, hfinish, h⟩ := Option.bind_eq_some_iff.mp h
    obtain ⟨-, rfl⟩ := checkedAdd_eq_some.mp hfinish
    split at h
    next hover =>
      rw [if_pos hover]
      exact (Option.some.inj h).symm
    next hrunning =>
      rw [if_neg hrunning]
      obtain ⟨scaled, hscaled, h⟩ := Option.bind_eq_some_iff.mp h
      obtain ⟨-, rfl⟩ := checkedInt_eq_some.mp hscaled
      exact (Option.some.inj h).symm

/-- After a schedule whose end is a time everything has vested. -/
theorem vestedAt_end (hrevoked : schedule.revoked = false)
    (hfits : schedule.startTime + schedule.totalDuration ≤ u64Max)
    (hend : schedule.startTime + schedule.totalDuration ≤ now) :
    schedule.vestedAt now = some schedule.totalAmount := by
  have hcliff := schedule.cliff_le
  have hfirst : checkedAdd64 schedule.startTime schedule.cliffDuration =
      some (schedule.startTime + schedule.cliffDuration) := checkedAdd_eq_some.mpr ⟨by omega, rfl⟩
  have hsecond : checkedAdd64 schedule.startTime schedule.totalDuration =
      some (schedule.startTime + schedule.totalDuration) := checkedAdd_eq_some.mpr ⟨hfits, rfl⟩
  unfold vestedAt
  rw [hrevoked, if_neg Bool.false_ne_true, hfirst, Option.bind_eq_bind, Option.bind_some,
    if_neg (by omega), hsecond, Option.bind_eq_bind, Option.bind_some, if_pos hend]

end VestingSchedule

/-! ## Calls -/

theorem transfer_eq_ok {sender receiver : Address} {amount : ℤ} :
    transfer this accepts s sender receiver amount = .ok s' ↔
      (0 ≤ amount ∧ amount ≤ s.balances this.token sender ∧
        accepts s.balances sender receiver amount = true) ∧
        s' = { s with balances := s.balances + movedBy this.token sender receiver amount } := by
  simp only [transfer, bind_eq_ok, okOr_eq_ok, Balances.transfer_eq_some, pure_eq_ok]
  constructor
  · rintro ⟨balances, ⟨hcovers, rfl⟩, rfl⟩
    exact ⟨hcovers, rfl⟩
  · rintro ⟨hcovers, rfl⟩
    exact ⟨_, ⟨hcovers, rfl⟩, rfl⟩

/-- What is still to be paid under a schedule. -/
def VestingSchedule.left (schedule : VestingSchedule) : ℤ :=
  schedule.totalAmount - schedule.releasedAmount

/-- Everything the contract still has to pay. -/
def State.owed (s : State) : ℤ := s.schedules.total VestingSchedule.left

/-- A schedule is paid up to some moment. -/
structure Fair (now : Timestamp) (schedule : VestingSchedule) : Prop where
  revoked : schedule.revoked = false
  fits : schedule.totalAmount ≤ i128Max
  paid : schedule.releasedAmount = 0 ∨ ∃ time ≤ now, schedule.releasedAmount = schedule.vested time

theorem Fair.bounds {now : Timestamp} (h : Fair now schedule) :
    0 ≤ schedule.releasedAmount ∧ schedule.releasedAmount ≤ schedule.totalAmount := by
  rcases h.paid with hzero | ⟨time, -, htime⟩
  · rw [hzero]
    exact ⟨le_rfl, schedule.total_pos.le⟩
  · rw [htime]
    exact ⟨schedule.vested_nonneg, schedule.vested_le⟩

theorem Fair.left_nonneg {now : Timestamp} (h : Fair now schedule) : 0 ≤ schedule.left := by
  have := h.bounds.2
  unfold VestingSchedule.left
  omega

theorem Fair.later {now later : Timestamp} (h : Fair now schedule) (hle : now ≤ later) :
    Fair later schedule :=
  ⟨h.revoked, h.fits, h.paid.imp_right fun ⟨time, htime, hpaid⟩ => ⟨time, htime.trans hle, hpaid⟩⟩

/-- The contract holds what it owes, and every schedule is fair. -/
structure Sound (this : Instance) (s : State) : Prop where
  covered : s.owed ≤ s.balances this.token this.self
  fair : ∀ who schedule, s.schedules.get who = some schedule → Fair s.now schedule

/-- On a schedule that is paid fairly the subtraction never saturates. -/
theorem releasableAmount_eq (hsound : Sound this s)
    (hschedule : s.schedules.get who = some schedule) :
    releasableAmount s who = (schedule.vestedAt s.now).map fun vested =>
      vested - schedule.releasedAmount := by
  have hfair := hsound.fair who schedule hschedule
  have hbounds := hfair.bounds
  have hfits := hfair.fits
  simp only [releasableAmount, vestedAmount, hschedule]
  cases hvest : schedule.vestedAt s.now with
  | none => rfl
  | some vested =>
      have hwhole := schedule.vestedAt_eq hfair.revoked hvest
      have hnonneg : 0 ≤ vested := hwhole ▸ schedule.vested_nonneg
      have hle : vested ≤ schedule.totalAmount := hwhole ▸ schedule.vested_le
      have hexact : saturatingSub vested schedule.releasedAmount =
          vested - schedule.releasedAmount := by
        unfold saturatingSub
        simp only [i128Min, i128Max] at hfits ⊢
        omega
      rw [Option.map_some, Option.map_some, hexact]

/-- A release pays what has vested and was not paid yet. -/
theorem release_eq_ok {amount : ℤ} (hsound : Sound this s)
    (hschedule : s.schedules.get who = some schedule) :
    releaseVested this accepts s who = .ok (amount, s') ↔
      (schedule.vestedAt s.now = some (schedule.releasedAmount + amount) ∧ 0 < amount ∧
        accepts s.balances this.self who amount = true) ∧ s' = { s with
          schedules := s.schedules.set who { schedule with
            releasedAmount := schedule.releasedAmount + amount }
          balances := s.balances + movedBy this.token this.self who amount } := by
  have hfair := hsound.fair who schedule hschedule
  have hbounds := hfair.bounds
  have hleft : schedule.left ≤ s.owed :=
    Store.le_total (fun other found hfound =>
      (hsound.fair other found hfound).left_nonneg) hschedule
  simp only [releaseVested, hschedule, releasableAmount_eq hsound hschedule, bind_eq_ok, okOr_eq_ok,
    rejectIf_eq_ok,
    exists_unit, transfer_eq_ok, pure_eq_ok, Prod.mk.injEq, not_le, checkedInt_eq_some,
      Option.map_eq_some_iff,
    Option.some.injEq]
  constructor
  · rintro ⟨found, rfl, releasable, ⟨vested, hvest, hsub⟩, hpos, released, ⟨-, rfl⟩, last,
      ⟨⟨-, -, haccepts⟩, rfl⟩, rfl, rfl⟩
    have hamount : vested = schedule.releasedAmount + releasable := by omega
    exact ⟨⟨hamount ▸ hvest, hpos, haccepts⟩, rfl⟩
  · rintro ⟨⟨hvest, hpos, haccepts⟩, rfl⟩
    have hle : schedule.releasedAmount + amount ≤ schedule.totalAmount :=
      schedule.vestedAt_eq hfair.revoked hvest ▸ schedule.vested_le
    have hfits := hfair.fits
    have hcovered := hsound.covered
    refine ⟨schedule, rfl, amount, ⟨_, hvest, ?_⟩, hpos, _, ⟨⟨?_, hle.trans hfits⟩, rfl⟩, _,
      ⟨⟨hpos.le, ?_, haccepts⟩, rfl⟩, rfl, rfl⟩
    · omega
    · simp only [i128Min]
      omega
    · unfold VestingSchedule.left at hleft
      omega

/-- The resolver advises a run exactly when a release works, if the token accepts it. -/
theorem shouldRunFor_iff (hsound : Sound this s)
    (haccepts : ∀ amount, accepts s.balances this.self who amount = true) :
    shouldRunFor s who = some true ↔
      ∃ amount s', releaseVested this accepts s who = .ok (amount, s') := by
  cases hschedule : s.schedules.get who with
  | none => simp [shouldRunFor, releasableAmount, releaseVested, hschedule, bind_eq_ok, okOr_eq_ok]
  | some schedule =>
      simp only [shouldRunFor, releasableAmount_eq hsound hschedule, Option.map_map,
        Option.map_eq_some_iff,
        Function.comp_apply, decide_eq_true_eq, release_eq_ok hsound hschedule]
      constructor
      · rintro ⟨vested, hvest, hpos⟩
        have hamount : vested = schedule.releasedAmount + (vested - schedule.releasedAmount) := by
          omega
        exact ⟨vested - schedule.releasedAmount, _, ⟨hamount ▸ hvest, hpos, haccepts _⟩, rfl⟩
      · rintro ⟨amount, s', ⟨hvest, hpos, -⟩, -⟩
        exact ⟨_, hvest, by omega⟩

/-! ## One action -/

variable {amount : ℤ} {params : Params} {ctx : Ctx}

theorem create_eq_ok (h : createSchedule this accepts s ctx who params = .ok s') :
    this.admin ≠ this.self ∧ s.schedules.get who = none ∧ ∃ schedule : VestingSchedule,
      schedule.totalAmount = params.totalAmount ∧ schedule.releasedAmount = 0 ∧
        schedule.revoked = false ∧
        s' = { s with
          balances := s.balances + movedBy this.token this.admin this.self params.totalAmount
          schedules := s.schedules.set who schedule } := by
  simp only [createSchedule, bind_eq_ok, rejectIf_eq_ok, not_not, exists_unit] at h
  obtain ⟨⟨-, hadmin⟩, h⟩ := h
  split at h
  next hvalid =>
    simp only [bind_eq_ok, rejectIf_eq_ok, exists_unit, transfer_eq_ok, pure_eq_ok] at h
    obtain ⟨hnew, middle, ⟨-, rfl⟩, rfl⟩ := h
    refine ⟨hadmin, by simpa [Store.has] using hnew, _, rfl, rfl, rfl, rfl⟩
  next => cases h

/-- What was released to one beneficiary. -/
def releasedTo (who : Address) (past : List Release) : ℤ :=
  (past.map fun release => if release.1 = who then release.2 else 0).sum

theorem releasedTo_append (first second : List Release) :
    releasedTo who (first ++ second) = releasedTo who first + releasedTo who second := by
  rw [releasedTo, List.map_append, List.sum_append]
  rfl

/-- The schedules say what was released. -/
structure Settled (this : Instance) (past : List Release) (s : State) : Prop where
  sound : Sound this s
  released : ∀ who, releasedTo who past = s.schedules.amount VestingSchedule.releasedAmount who

theorem Settled.created {past : List Release} (h : Settled this past s)
    (hfits : params.totalAmount ≤ i128Max)
    (hcreate : createSchedule this accepts s ctx who params = .ok s') : Settled this past s' := by
  obtain ⟨hadmin, hnew, schedule, htotal, hreleased, hrevoked, rfl⟩ := create_eq_ok hcreate
  refine ⟨⟨?_, ?_⟩, ?_⟩
  · have hcovered := h.sound.covered
    have hleft : schedule.left = params.totalAmount := by
      rw [VestingSchedule.left, htotal, hreleased, sub_zero]
    unfold State.owed at hcovered
    change (s.schedules.set who schedule).total VestingSchedule.left ≤
      s.balances this.token this.self +
      movedBy this.token this.admin this.self params.totalAmount this.token this.self
    rw [Store.total_set, Store.amount_of_none hnew, hleft, movedBy_in hadmin, if_pos rfl]
    omega
  · intro other found hfound
    rw [Store.get_set] at hfound
    split at hfound
    · cases hfound
      exact ⟨hrevoked, htotal ▸ hfits, .inl hreleased⟩
    · exact h.sound.fair other found hfound
  · intro other
    have hsame := h.released other
    rw [hsame]
    by_cases heq : other = who
    · rw [heq, Store.amount_of_none hnew, Store.amount_of_get (Store.get_set_self _ _ _), hreleased]
    · rw [Store.amount, Store.amount, Store.get_set_of_ne _ _ heq]

theorem Settled.released_one {past : List Release} (h : Settled this past s)
    (hrelease : releaseVested this accepts s who = .ok (amount, s')) :
    Settled this (past ++ [(who, amount)]) s' := by
  have hfound : ∃ schedule, s.schedules.get who = some schedule := by
    simp only [releaseVested, bind_eq_ok, okOr_eq_ok] at hrelease
    obtain ⟨schedule, hschedule, -⟩ := hrelease
    exact ⟨schedule, hschedule⟩
  obtain ⟨schedule, hschedule⟩ := hfound
  obtain ⟨⟨hvest, hpos, -⟩, rfl⟩ := (release_eq_ok h.sound hschedule).mp hrelease
  have hfair := h.sound.fair who schedule hschedule
  refine ⟨⟨?_, ?_⟩, ?_⟩
  · have hcovered := h.sound.covered
    unfold State.owed at hcovered
    change (s.schedules.set who _).total VestingSchedule.left ≤ s.balances this.token this.self +
      movedBy this.token this.self who amount this.token this.self
    rw [Store.total_set, Store.amount_of_get hschedule]
    simp only [VestingSchedule.left]
    by_cases hself : who = this.self
    · rw [movedBy_apply, if_pos ⟨rfl, hself.symm⟩, if_pos ⟨rfl, rfl⟩]
      omega
    · rw [movedBy_out hself, if_pos rfl]
      omega
  · intro other found hother
    rw [Store.get_set] at hother
    split at hother
    · cases hother
      exact ⟨hfair.revoked, hfair.fits,
        .inr ⟨s.now, le_rfl, schedule.vestedAt_eq hfair.revoked hvest⟩⟩
    · exact h.sound.fair other found hother
  · intro other
    rw [releasedTo_append, h.released other]
    by_cases heq : other = who
    · subst heq
      rw [Store.amount_of_get hschedule, Store.amount_of_get (Store.get_set_self _ _ _)]
      simp [releasedTo]
    · rw [Store.amount, Store.amount, Store.get_set_of_ne _ _ heq]
      simp [releasedTo, Ne.symm heq]

theorem Settled.step {past : List Release} (h : Settled this past s) (action : Action)
    (hadm : Admissible this s action) :
    Settled this (past ++ (system this accepts).out s action)
      ((system this accepts).step s action) := by
  have hnothing : past ++ ([] : List Release) = past := List.append_nil past
  simp only [system]
  cases action with
  | createSchedule ctx beneficiary params =>
      simp only [act]
      cases hcall : VestingContract.createSchedule this accepts s ctx beneficiary params with
      | error why => exact hnothing.symm ▸ h
      | ok s' => exact hnothing.symm ▸ h.created hadm hcall
  | releaseVested beneficiary =>
      simp only [act]
      cases hcall : VestingContract.releaseVested this accepts s beneficiary with
      | error why => exact hnothing.symm ▸ h
      | ok result => exact h.released_one hcall
  | move balances =>
      simp only [act]
      rw [hnothing]
      exact ⟨⟨h.sound.covered.trans hadm, h.sound.fair⟩, h.released⟩
  | pass seconds =>
      simp only [act]
      rw [hnothing]
      refine ⟨⟨h.sound.covered, ?_⟩, h.released⟩
      intro other found hfound
      exact (h.sound.fair other found hfound).later (Nat.le_add_right _ _)

/-! ## Over a run -/

/-- In any run the contract holds what it owes; a beneficiary has been paid what its schedule says
is released, which is what had vested at the last release; it can be paid exactly the rest of what
has vested, where the arithmetic and the token allow it, and its balance rises by that; and after
the end of a schedule that is all of it. -/
theorem vesting_pays_out {now : Timestamp} {balances : Balances} {actions : List Action}
    (hbalance : 0 ≤ balances this.token this.self)
    (halong : (system this accepts).Along (Admissible this) (.deployed now balances) actions) :
    let start := State.deployed now balances
    let final := (system this accepts).run start actions
    let released := (system this accepts).outputs start actions
    final.owed ≤ final.balances this.token this.self ∧
    (∀ who, final.schedules.get who = none → releasedTo who released = 0) ∧
    ∀ who schedule, final.schedules.get who = some schedule →
      releasedTo who released = schedule.releasedAmount ∧
      (schedule.releasedAmount = 0 ∨ ∃ time ≤ final.now,
        schedule.releasedAmount = schedule.vested time) ∧
      (∀ time later, time ≤ later → 0 ≤ schedule.vested time ∧
        schedule.vested time ≤ schedule.vested later ∧
        schedule.vested later ≤ schedule.totalAmount) ∧
      (∀ amount, (∃ s', releaseVested this accepts final who = .ok (amount, s')) ↔
        schedule.vestedAt final.now = some (schedule.releasedAmount + amount) ∧ 0 < amount ∧
          accepts final.balances this.self who amount = true) ∧
      (∀ amount s', releaseVested this accepts final who = .ok (amount, s') →
        s'.balances = final.balances + movedBy this.token this.self who amount) ∧
      (∀ amount, schedule.vestedAt final.now = some amount → amount = schedule.vested final.now) ∧
      (schedule.startTime + schedule.totalDuration ≤ u64Max →
        schedule.startTime + schedule.totalDuration ≤ final.now →
          schedule.vestedAt final.now = some schedule.totalAmount) := by
  have hstart : Settled this [] (.deployed now balances) := by
    refine ⟨⟨?_, ?_⟩, ?_⟩
    · change (∅ : Store Address VestingSchedule).total _ ≤ _
      rw [Store.total_empty]
      exact hbalance
    · rintro who schedule hschedule
      cases (Store.get_empty who).symm.trans hschedule
    · intro who
      rfl
  have hlast := Machine.history_run (J := fun past s => Settled this past s)
    (fun past s action h hadm => h.step action hadm) [] hstart halong
  refine ⟨hlast.sound.covered, ?_, ?_⟩
  · intro who hnone
    exact (hlast.released who).trans (Store.amount_of_none hnone)
  · intro who schedule hschedule
    have hfair := hlast.sound.fair who schedule hschedule
    refine ⟨(hlast.released who).trans (Store.amount_of_get hschedule), hfair.paid, ?_, ?_,
      ?_, ?_, ?_⟩
    · intro time later hle
      exact ⟨schedule.vested_nonneg, schedule.vested_mono hle, schedule.vested_le⟩
    · intro amount
      constructor
      · rintro ⟨s', hrelease⟩
        exact ((release_eq_ok hlast.sound hschedule).mp hrelease).1
      · intro hpays
        exact ⟨_, (release_eq_ok hlast.sound hschedule).mpr ⟨hpays, rfl⟩⟩
    · intro amount s' hrelease
      rw [((release_eq_ok hlast.sound hschedule).mp hrelease).2]
    · intro amount hvest
      exact schedule.vestedAt_eq hfair.revoked hvest
    · intro hfits hend
      exact schedule.vestedAt_end hfair.revoked hfits hend

def vestingInstance : Instance where
  self := ⟨1⟩
  admin := ⟨2⟩
  token := ⟨3⟩

/-- A hundred tokens over a hundred seconds, released once after half of them. -/
def halfway : List Action :=
  [.createSchedule ⟨[⟨2⟩]⟩ ⟨5⟩ {
      totalAmount := 100
      startTime := 0
      cliffDuration := 10
      totalDuration := 100
      revocable := false },
    .pass 50, .releaseVested ⟨5⟩]

theorem vesting_pays_out_halfway :
    let contract := system vestingInstance fun _ _ _ _ => true
    let start := State.deployed 0 fun _ holder => if holder = ⟨2⟩ then 1000 else 0
    releasedTo ⟨5⟩ (contract.outputs start halfway) = 50 ∧
      (contract.run start halfway).owed ≤ (contract.run start halfway).balances ⟨3⟩ ⟨1⟩ := by
  have hpays := @vesting_pays_out vestingInstance (fun _ _ _ _ => true) 0
    (fun _ holder => if holder = ⟨2⟩ then 1000 else 0) halfway (by decide)
    ⟨by simp [Admissible, i128Max], trivial, trivial, trivial⟩
  refine ⟨?_, hpays.1⟩
  obtain ⟨schedule, hschedule, hreleased⟩ :
      ∃ schedule, ((system vestingInstance fun _ _ _ _ => true).run
      (.deployed 0 fun _ holder => if holder = ⟨2⟩ then 1000 else 0) halfway).schedules.get ⟨5⟩ =
        some schedule ∧
        schedule.releasedAmount = 50 := ⟨_, rfl, by decide⟩
  exact (hpays.2.2 ⟨5⟩ schedule hschedule).1.trans hreleased

end SoroCron.VestingContract
