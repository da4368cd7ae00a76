import SoroCron.Guarantees.Settlement

/-! # Unbonding epochs

Keepers that begin unbonding in one epoch are released at one time, after those of earlier
epochs and before those of later ones, so one settlement at that time releases exactly them
and the ones before.
-/

namespace SoroCron

open Outcome Bounded

variable {World : Type} {host : Host World} {ctx : Ctx} {c c' : Chain World}

/-! ## Release times -/

/-- When the unbonding period of a keeper that begins to unbond at `now` starts. -/
def periodStart (now epoch : ℕ) : ℕ := if epoch = 0 then now else (now / epoch + 1) * epoch

theorem periodStart_of_pos (now : ℕ) {epoch : ℕ} (hpos : 0 < epoch) :
    periodStart now epoch = (now / epoch + 1) * epoch := if_neg hpos.ne'

/-- A release time is the exact one, truncated once. -/
theorem unbondingRelease_eq (now period epoch : ℕ) :
    unbondingRelease now period epoch = min (periodStart now epoch + period) u64Max := by
  unfold unbondingRelease periodStart
  dsimp only
  split
  · rfl
  next hne =>
    rw [satMul64, satMul_satAdd _ _ (Nat.pos_of_ne_zero hne)]
    exact satAdd_satAdd_left _ 0 _

theorem periodStart_mono (epoch : ℕ) {now later : ℕ} (hle : now ≤ later) :
    periodStart now epoch ≤ periodStart later epoch := by
  unfold periodStart
  split
  · exact hle
  · have hepochs : now / epoch ≤ later / epoch := Nat.div_le_div_right hle
    exact Nat.mul_le_mul_right epoch (Nat.succ_le_succ hepochs)

/-- The unbonding period starts at the end of the epoch. -/
theorem periodStart_bounds (now epoch : ℕ) :
    now ≤ periodStart now epoch ∧ periodStart now epoch ≤ now + epoch := by
  unfold periodStart
  split
  · omega
  next hne =>
    have hnext := Nat.lt_mul_of_div_lt (Nat.lt_succ_self (now / epoch)) (Nat.pos_of_ne_zero hne)
    have hfloor := Nat.div_mul_le_self now epoch
    rw [Nat.succ_eq_add_one] at hnext
    rw [Nat.add_one_mul] at hnext ⊢
    omega

/-- What a release time is, for one period and one length of the epochs. -/
structure ReleaseTimes (period epoch : ℕ) : Prop where
  fits : ∀ now, unbondingRelease now period epoch ≤ u64Max
  lower : ∀ now, min u64Max (now + period) ≤ unbondingRelease now period epoch
  upper : ∀ now, unbondingRelease now period epoch ≤ min u64Max (now + epoch + period)
  mono : ∀ now later, now ≤ later →
    unbondingRelease now period epoch ≤ unbondingRelease later period epoch
  together : ∀ now other, 0 < epoch → now / epoch = other / epoch →
    unbondingRelease now period epoch = unbondingRelease other period epoch
  apart : ∀ now later, 0 < epoch → now / epoch < later / epoch →
    unbondingRelease now period epoch ≠ u64Max →
      unbondingRelease now period epoch < unbondingRelease later period epoch

theorem releaseTimes (period epoch : ℕ) : ReleaseTimes period epoch := by
  refine ⟨?_, ?_, ?_, ?_, ?_, ?_⟩
  · intro now
    exact satAdd_le_top _ _
  · intro now
    have hstart := (periodStart_bounds now epoch).1
    rw [unbondingRelease_eq, min_comm]
    exact min_le_min_right _ (Nat.add_le_add_right hstart period)
  · intro now
    have hstart := (periodStart_bounds now epoch).2
    rw [unbondingRelease_eq, min_comm u64Max]
    exact min_le_min_right _ (Nat.add_le_add_right hstart period)
  · intro now later hle
    rw [unbondingRelease_eq, unbondingRelease_eq]
    exact min_le_min_right _ (Nat.add_le_add_right (periodStart_mono epoch hle) period)
  · intro now other hpos hsame
    rw [unbondingRelease_eq, unbondingRelease_eq, periodStart_of_pos now hpos,
      periodStart_of_pos other hpos, hsame]
  · intro now later hpos hbefore hfits
    have hsteps : (now / epoch + 1) * epoch < (later / epoch + 1) * epoch :=
      Nat.mul_lt_mul_of_pos_right (Nat.succ_lt_succ hbefore) hpos
    have hexact : (now / epoch + 1) * epoch + period < u64Max := by
      rw [unbondingRelease_eq, periodStart_of_pos now hpos] at hfits
      by_contra hbig
      exact hfits (min_eq_right (Nat.not_lt.mp hbig))
    rw [unbondingRelease_eq, unbondingRelease_eq, periodStart_of_pos now hpos,
      periodStart_of_pos later hpos, min_eq_left hexact.le]
    exact lt_min (Nat.add_lt_add_right hsteps period) hexact

/-- At the release time of one epoch, exactly the keepers of that epoch and of earlier ones are
ready. -/
theorem ReleaseTimes.ready_iff {period epoch : ℕ} (h : ReleaseTimes period epoch) (hpos : 0 < epoch)
    {time began : ℕ} (hfits : unbondingRelease time period epoch ≠ u64Max) :
    unbondingRelease began period epoch ≤ unbondingRelease time period epoch ↔
      began / epoch ≤ time / epoch := by
  constructor
  · intro hready
    by_contra hlater
    exact absurd hready (not_le.mpr (h.apart time began hpos (Nat.not_le.mp hlater) hfits))
  · intro hepoch
    rcases hepoch.eq_or_lt with hsame | hbefore
    · exact (h.together began time hpos hsame).le
    · have horder : began ≤ time := by
        by_contra hafter
        have hquot : time / epoch ≤ began / epoch := Nat.div_le_div_right (Nat.le_of_not_le hafter)
        exact absurd hquot (Nat.not_le.mpr hbefore)
      exact h.mono began time horder

/-! ## Keepers in one run -/

/-- In a run, `who` began to unbond at `time` and was not paid since. -/
def BeganAt (host : Host World) (start : Chain World) (actions : List (Action World))
    (who : Address) (time : Timestamp) : Prop :=
  ∃ before ctx after release middle,
    actions = before ++ .call ctx (.keeper (.beginUnbonding who)) :: after ∧
      ((machine host).run start before).now = time ∧
      beginUnbonding host ctx ((machine host).run start before) who = .ok (release, middle) ∧
      .withdrawn ∉ keeperActs who ((machine host).outputs middle after)

/-- The length of the unbonding period is set once. -/
theorem run_unbondingPeriod {actions : List (Action World)} (hsound : c.Sound host)
    (halong : (machine host).Along (Admissible host) c actions) :
    ((machine host).run c actions).reg.config.unbondingPeriod = c.reg.config.unbondingPeriod := by
  have hlast := Machine.invariant_run
    (I := fun c' : Chain World =>
      c'.Sound host ∧ c'.reg.config.unbondingPeriod = c.reg.config.unbondingPeriod)
    ?_ ⟨hsound, rfl⟩ halong
  · exact hlast.2
  · rintro c' action ⟨hsound', hperiod⟩ hadm
    refine ⟨step_sound hsound' hadm, ?_⟩
    rcases step_settings hsound' action with hkept | ⟨ctx, call, -, -, hreg⟩
    · exact hkept.config ▸ hperiod
    · have hfixed := (adminCall_settingsOnly call c'.reg c'.now).toSameTokens.unbondingPeriod
      rw [← hperiod, ← hfixed, ← hreg]
      rfl

section Run

variable {start : Chain World} {actions : List (Action World)} {epoch : ℕ} {who : Address}
  {began : Timestamp}

/-- With epochs of one length, an unbonding keeper is released at the time of its epoch. -/
theorem BeganAt.release (h : BeganAt host start actions who began) (hsound : start.Sound host)
    (halong : (machine host).Along (Admissible host) start actions)
    (hconstant : (machine host).Along
      (fun c _ => c.reg.config.unbondingEpoch = epoch) start actions) :
    ∃ info, ((machine host).run start actions).reg.keepers.infos.get who = some info ∧
      info.unbondingAt = some (unbondingRelease began
        ((machine host).run start actions).reg.config.unbondingPeriod epoch) := by
  obtain ⟨before, ctx, after, release, middle, rfl, rfl, hbegin, hstays⟩ := h
  have hstep : (machine host).step ((machine host).run start before)
      (.call ctx (.keeper (.beginUnbonding who))) = middle :=
    step_call_ok (Result.chain_eq_ok.mpr ⟨release, hbegin⟩)
  obtain ⟨hbefore, hadm, hafter⟩ := Machine.along_append.mp halong
  obtain ⟨-, hepoch, -⟩ := Machine.along_append.mp hconstant
  have hsound₁ : ((machine host).run start before).Sound host :=
    Machine.invariant_run (fun _ _ => step_sound) hsound hbefore
  have hsound₂ : middle.Sound host := by
    rw [← hstep]
    exact step_sound hsound₁ hadm
  rw [hstep] at hafter
  have hperiod := run_unbondingPeriod hsound halong
  have hperiod₁ := run_unbondingPeriod hsound hbefore
  have hrun : (machine host).run start
      (before ++ .call ctx (.keeper (.beginUnbonding who)) :: after) =
      (machine host).run middle after := by
    rw [Machine.run_append, Machine.run_cons, hstep]
  have hrelease : release = unbondingRelease ((machine host).run start before).now
      ((machine host).run start before).reg.config.unbondingPeriod epoch := by
    obtain ⟨-, info, -, -, hrelease, -⟩ := beginUnbonding_eq_ok.mp hbegin
    rw [hrelease, hepoch]
  obtain ⟨stake, -, hbonds⟩ := beginUnbonding_bondOf hbegin
  have hkept := bond_kept hsound₂ ((hbonds who).trans (if_pos rfl)) hafter hstays
  obtain ⟨info, hinfo, hbond⟩ := Option.map_eq_some_iff.mp hkept
  rw [hperiod, hrun, ← hperiod₁, ← hrelease]
  exact ⟨info, hinfo, (Prod.mk.inj hbond).2⟩

/-- `who` was paid its stake where it is first listed, and is gone. -/
def Released (c : Chain World) (keepers : List Address) (amounts : List ℤ) (c' : Chain World)
    (who : Address) : Prop :=
  ∃ info, c.reg.keepers.infos.get who = some info ∧ 0 < info.stake ∧
    c'.reg.keepers.infos.get who = none ∧
    ∀ i : ℕ, keepers[i]? = some who →
      amounts[i]? = some (if who ∈ keepers.take i then 0 else info.stake)

/-- `who` was paid nothing and is as it was. -/
def PassedOver (c : Chain World) (keepers : List Address) (amounts : List ℤ) (c' : Chain World)
    (who : Address) : Prop :=
  c'.reg.keepers.infos.get who = c.reg.keepers.infos.get who ∧
    ∀ i : ℕ, keepers[i]? = some who → amounts[i]? = some 0

theorem SettledOnce.released {keepers : List Address} {amounts : List ℤ} (hsound : c.Sound host)
    (h : SettledOnce host c keepers amounts c') (hlisted : who ∈ keepers) (hready : Matured c who) :
    Released c keepers amounts c' who := by
  have hfound := hready
  obtain ⟨info, release, hinfo, -, -⟩ := hfound
  have hworth := releasable_of_matured hinfo hready
  refine ⟨info, hinfo, hworth ▸ releasable_pos hsound hready, (h.removed who hlisted hready).1, ?_⟩
  intro i hget
  rw [h.reported i who hget, hworth]

theorem SettledOnce.untouched {keepers : List Address} {amounts : List ℤ} {info : Keeper}
    {release : Timestamp} (h : SettledOnce host c keepers amounts c')
    (hinfo : c.reg.keepers.infos.get who = some info) (hrelease : info.unbondingAt = some release)
    (hearly : ¬ release ≤ c.now) : PassedOver c keepers amounts c' who := by
  have hzero : releasable c who = 0 := by
    simp [releasable, bondOf_of_info hinfo, hrelease, hearly]
  have hnot : ¬ Matured c who := by
    rintro ⟨stored, time, hstored, htime, hle⟩
    rw [hinfo] at hstored
    cases hstored
    rw [hrelease] at htime
    cases htime
    exact hearly hle
  refine ⟨(h.kept who fun hboth => hnot hboth.2).1, ?_⟩
  intro i hget
  rw [h.reported i who hget, hzero, ite_self]

/-- Release times are exact, and with epochs of one length a settlement at the release time of
one epoch releases the listed keepers of it and of earlier epochs, and nobody of later ones. -/
theorem epochs_release_together {time : Timestamp} {keepers : List Address} (hpays : PaysOut host)
    (hreach : Reachable host start) (halong : (machine host).Along (Admissible host) start actions)
    (hpos : 0 < epoch)
    (hconstant : (machine host).Along
      (fun c _ => c.reg.config.unbondingEpoch = epoch) start actions)
    (hclock : ((machine host).run start actions).now =
      unbondingRelease time ((machine host).run start actions).reg.config.unbondingPeriod epoch)
    (hfits : ((machine host).run start actions).now ≠ u64Max)
    (hsize : keepers ≠ [] ∧ keepers.length ≤ maxBatch) :
    (∀ period epoch, ReleaseTimes period epoch) ∧
      ∃ amounts c', withdrawStakes host ((machine host).run start actions) keepers =
        .ok (amounts, c') ∧
        SettledOnce host ((machine host).run start actions) keepers amounts c' ∧
        ∀ who ∈ keepers, ∀ began, BeganAt host start actions who began →
          (began / epoch ≤ time / epoch →
            Released ((machine host).run start actions) keepers amounts c' who) ∧
          (time / epoch < began / epoch →
            PassedOver ((machine host).run start actions) keepers amounts c' who) := by
  refine ⟨releaseTimes, ?_⟩
  have hsolvent := (hreach.run halong).solvent
  have hsigned : ∀ who ∈ keepers, who ∈ (⟨keepers⟩ : Ctx).signers := fun _ hwho => hwho
  obtain ⟨amounts, hlist, hsettled⟩ := releaseStakes_settles hpays hsolvent hsigned
  refine ⟨amounts, _, withdrawStakes_eq_ok.mpr ⟨hsize, hlist⟩, hsettled, ?_⟩
  intro who hlisted began hbegan
  obtain ⟨info, hinfo, hrelease⟩ := hbegan.release hreach.sound halong hconstant
  rw [hclock] at hfits
  have hready : unbondingRelease began _ epoch ≤ unbondingRelease time _ epoch ↔
      began / epoch ≤ time / epoch := (releaseTimes _ epoch).ready_iff hpos hfits
  refine ⟨?_, ?_⟩
  · intro hepoch
    refine hsettled.released hsolvent.sound hlisted ⟨info, _, hinfo, hrelease, ?_⟩
    rw [hclock]
    exact hready.mpr hepoch
  · intro hepoch
    refine hsettled.untouched hinfo hrelease ?_
    rw [hclock]
    exact fun hle => absurd (hready.mp hle) (Nat.not_le.mpr hepoch)

/-- The registry of two keepers with epochs of `100` seconds. -/
def epochsChain : Chain Unit :=
  (machine plainHost).run (deployment ⟨3⟩ 1000 100 10 1000)
    [.call ⟨[⟨4⟩]⟩ (.keeper (.stake ⟨4⟩ 100)), .call ⟨[⟨9⟩]⟩ (.keeper (.stake ⟨9⟩ 200)),
      .call ⟨[⟨3⟩]⟩ (.admin (.setUnbondingEpoch 100))]

/-- One of them leaves in the epoch of `1000`, the other in the next. -/
def leaveInTurn : List (Action Unit) :=
  [.advance 1010, .call ⟨[⟨4⟩]⟩ (.keeper (.beginUnbonding ⟨4⟩)), .advance 1105,
    .call ⟨[⟨9⟩]⟩ (.keeper (.beginUnbonding ⟨9⟩)), .advance 1110]

theorem epochs_release_together_inTurn :
    ∃ amounts c', withdrawStakes plainHost
      ((machine plainHost).run epochsChain leaveInTurn) [⟨9⟩, ⟨4⟩] =
        .ok (amounts, c') ∧
      Released ((machine plainHost).run epochsChain leaveInTurn) [⟨9⟩, ⟨4⟩] amounts c' ⟨4⟩ ∧
      PassedOver ((machine plainHost).run epochsChain leaveInTurn) [⟨9⟩, ⟨4⟩] amounts c' ⟨9⟩ := by
  have halong : (machine plainHost).Along (Admissible plainHost) (deployment ⟨3⟩ 1000 100 10 1000)
      [.call ⟨[⟨4⟩]⟩ (.keeper (.stake ⟨4⟩ 100)), .call ⟨[⟨9⟩]⟩ (.keeper (.stake ⟨9⟩ 200)),
        .call ⟨[⟨3⟩]⟩ (.admin (.setUnbondingEpoch 100))] := ⟨trivial, trivial, trivial, trivial⟩
  have hreach : Reachable plainHost epochsChain :=
    ⟨_, _, deployment_deployed ⟨3⟩ 10 1000 (by decide) (by decide), halong, rfl⟩
  have hadmissible : (machine plainHost).Along (Admissible plainHost) epochsChain leaveInTurn := by
    simp [leaveInTurn, Machine.Along, Admissible, Call.WellTyped, u64Max]
  have hconstant : (machine plainHost).Along
      (fun c _ => c.reg.config.unbondingEpoch = 100) epochsChain
      leaveInTurn := ⟨rfl, rfl, rfl, rfl, rfl, trivial⟩
  have hclock : ((machine plainHost).run epochsChain leaveInTurn).now =
      unbondingRelease 1000
        ((machine plainHost).run epochsChain leaveInTurn).reg.config.unbondingPeriod 100 := rfl
  have hsize : ([⟨9⟩, ⟨4⟩] : List Address) ≠ [] ∧
      ([⟨9⟩, ⟨4⟩] : List Address).length ≤ maxBatch := by decide
  have hfits : ((machine plainHost).run epochsChain leaveInTurn).now ≠ u64Max := by decide
  obtain ⟨-, amounts, c', hcall, -, hall⟩ :=
    epochs_release_together plainHost_paysOut hreach hadmissible
    (by decide) hconstant hclock hfits hsize
  have hfirst : BeganAt plainHost epochsChain leaveInTurn ⟨4⟩ 1010 := by
    refine ⟨leaveInTurn.take 1, ⟨[⟨4⟩]⟩, leaveInTurn.drop 2, 1110,
      (machine plainHost).run epochsChain (leaveInTurn.take 2), rfl, rfl, rfl, ?_⟩
    exact List.not_mem_nil
  have hsecond : BeganAt plainHost epochsChain leaveInTurn ⟨9⟩ 1105 := by
    refine ⟨leaveInTurn.take 3, ⟨[⟨9⟩]⟩, leaveInTurn.drop 4, 1210,
      (machine plainHost).run epochsChain (leaveInTurn.take 4), rfl, rfl, rfl, ?_⟩
    exact List.not_mem_nil
  exact ⟨amounts, c', hcall, (hall ⟨4⟩ (by simp) 1010 hfirst).1 (by decide),
    (hall ⟨9⟩ (by simp) 1105 hsecond).2 (by decide)⟩

end Run

end SoroCron
