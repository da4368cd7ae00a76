import SoroCron.Registry.Soundness

/-! # The upgrade timelock

What a step can do to the pending upgrade: leave it, push it back, replace it or end it. The
pending upgrade never becomes available before the longest delay of its life has passed, and
that delay is never shorter than a keeper needs to leave.
-/

namespace SoroCron

open Outcome Bounded

variable {World : Type} {host : Host World} {ctx : Ctx} {c c' : Chain World}

/-! ## Pushing back -/

/-- The pending upgrade when it has to wait `delay` seconds in total, if it did not already. -/
def PendingUpgrade.pushedBack (pending : PendingUpgrade) (delay : ℕ) : PendingUpgrade :=
  { pending with availableAt := max pending.availableAt (satAdd64 pending.proposedAt delay) }

theorem pushBack_pending (reg : Registry) :
    (pushBackPendingUpgrade reg).pendingUpgrade =
      reg.pendingUpgrade.map fun pending => pending.pushedBack (upgradeDelayFor reg) := by
  unfold pushBackPendingUpgrade
  cases hpending : reg.pendingUpgrade with
  | none => simp [hpending]
  | some pending =>
      dsimp only
      split
      next hearlier => simp [PendingUpgrade.pushedBack, max_eq_right hearlier.le]
      next hlater => simp [hpending, PendingUpgrade.pushedBack, max_eq_left (Nat.not_lt.mp hlater)]

theorem pushBack_delay (reg : Registry) :
    upgradeDelayFor (pushBackPendingUpgrade reg) = upgradeDelayFor reg := by
  rw [pushBack_eq]
  rfl

/-! ## What a step can do -/

/-- What one step at time `now` can do to the pending upgrade; `ends` tells whether the
proposal that was pending is over. -/
inductive UpgradeChange (now : Timestamp) (reg reg' : Registry) : (ends : Bool) → Prop where
  | kept (hpending : reg'.pendingUpgrade = reg.pendingUpgrade)
      (hdelay : upgradeDelayFor reg' = upgradeDelayFor reg) : UpgradeChange now reg reg' false
  | pushed (hpending : reg'.pendingUpgrade =
        reg.pendingUpgrade.map fun pending => pending.pushedBack (upgradeDelayFor reg')) :
      UpgradeChange now reg reg' false
  | proposed (wasmHash : Digest) (hpending : reg'.pendingUpgrade =
        some { wasmHash, proposedAt := now, availableAt := satAdd64 now (upgradeDelayFor reg') }) :
      UpgradeChange now reg reg' true
  | ended (hpending : reg'.pendingUpgrade = none) : UpgradeChange now reg reg' true

/-- The calls after which the pending upgrade is another one or none. -/
def AdminCall.endsProposal : AdminCall → Bool
  | .proposeUpgrade _ | .applyUpgrade | .cancelUpgrade => true
  | _ => false

/-- The pending upgrade is neither applied, nor cancelled, nor replaced. -/
def KeepsProposal (host : Host World) (c : Chain World) : Action World → Prop
  | .call ctx (.admin call) => call.endsProposal = true → ∀ c', adminCall host ctx c call ≠ .ok c'
  | _ => True

theorem adminCall_upgradeChange (call : AdminCall) (reg : Registry) (now : Timestamp) :
    UpgradeChange now reg (call.regAfter reg now) call.endsProposal := by
  cases call with
  | setUnbondingEpoch unbondingEpoch =>
      refine .pushed ?_
      rw [AdminCall.regAfter, pushBack_pending, pushBack_delay]
  | setUpgradeDelay upgradeDelay =>
      refine .pushed ?_
      rw [AdminCall.regAfter, pushBack_pending, pushBack_delay]
  | proposeUpgrade wasmHash => exact .proposed wasmHash rfl
  | applyUpgrade => exact .ended rfl
  | cancelUpgrade => exact .ended rfl
  | _ => exact .kept rfl rfl

/-- Only a successful admin call does more than leave the pending upgrade as it is. -/
theorem step_upgradeChange (hsound : c.Sound host) (action : Action World) :
    ∃ ends, UpgradeChange c.now c.reg (step host c action).reg ends ∧
      (KeepsProposal host c action → ends = false) := by
  rcases step_settings hsound action with ⟨hconfig, -, hdelay, hpending⟩ |
    ⟨ctx, call, rfl, hcall, hreg⟩
  · refine ⟨false, .kept hpending ?_, fun _ => rfl⟩
    rw [upgradeDelayFor, upgradeDelayFor, hconfig, hdelay]
  · refine ⟨call.endsProposal, ?_, ?_⟩
    · rw [hreg]
      exact adminCall_upgradeChange call c.reg c.now
    · intro hkeeps
      cases hends : call.endsProposal with
      | false => rfl
      | true => exact absurd hcall (hkeeps hends _)

/-! ## What holds of a pending upgrade -/

/-- A pending upgrade was announced in the past and waits at least the current delay. -/
def Timelocked (c : Chain World) : Prop :=
  ∀ pending ∈ c.reg.pendingUpgrade, pending.proposedAt ≤ c.now ∧
    satAdd64 pending.proposedAt (upgradeDelayFor c.reg) ≤ pending.availableAt

theorem step_timelocked (hsound : c.Sound host) (action : Action World) (h : Timelocked c) :
    Timelocked (step host c action) := by
  have hnow := step_now hsound action
  obtain ⟨ends, hchange, -⟩ := step_upgradeChange hsound action
  unfold Timelocked at h ⊢
  cases hchange with
  | kept hpending hdelay =>
      rw [hpending, hdelay]
      intro pending hmem
      obtain ⟨hpast, hwaits⟩ := h pending hmem
      exact ⟨hpast.trans hnow, hwaits⟩
  | pushed hpending =>
      rw [hpending]
      intro pushed hmem
      obtain ⟨pending, hstored, rfl⟩ := Option.mem_map.mp hmem
      exact ⟨(h pending hstored).1.trans hnow, le_max_right _ _⟩
  | proposed wasmHash hpending =>
      rw [hpending]
      intro pending hmem
      cases hmem
      exact ⟨hnow, le_rfl⟩
  | ended hpending =>
      rw [hpending]
      intro pending hmem
      cases hmem

theorem Reachable.timelocked (hreach : Reachable host c) : Timelocked c := by
  refine hreach.invariant ?_ ?_
  · intro c hdeployed
    obtain ⟨admin, feeToken, stakeToken, minStake, unbondingPeriod, hreg⟩ := hdeployed.constructed
    simp only [construct, bind_eq_ok, rejectIf_eq_ok, exists_unit, pure_eq_ok] at hreg
    intro pending hmem
    rw [← hreg.2] at hmem
    cases hmem
  · intro c action hreach hadm hlocked
    exact step_timelocked hreach.sound action hlocked

/-- The same proposal at a later moment: its time may have moved later. -/
structure PendingUpgrade.SamePushed (pending pending' : PendingUpgrade) : Prop where
  wasmHash : pending'.wasmHash = pending.wasmHash
  proposedAt : pending'.proposedAt = pending.proposedAt
  availableAt : pending.availableAt ≤ pending'.availableAt

theorem samePushed_refl (pending : Option PendingUpgrade) :
    Option.Rel PendingUpgrade.SamePushed pending pending := by
  cases pending with
  | none => exact .none
  | some pending => exact .some ⟨rfl, rfl, le_rfl⟩

theorem samePushed_map {pending pending' : Option PendingUpgrade}
    (h : Option.Rel PendingUpgrade.SamePushed pending pending') (delay : ℕ) :
    Option.Rel PendingUpgrade.SamePushed pending
      (pending'.map fun pending => pending.pushedBack delay) := by
  cases h with
  | none => exact .none
  | some hsame =>
      exact .some ⟨hsame.wasmHash, hsame.proposedAt, hsame.availableAt.trans (le_max_left _ _)⟩

theorem samePushed_next {pending pending' : Option PendingUpgrade} {earlier : PendingUpgrade}
    (h : Option.Rel PendingUpgrade.SamePushed pending pending')
    (hearlier : pending = some earlier) :
    ∃ later, pending' = some later ∧ earlier.SamePushed later := by
  subst hearlier
  cases h with
  | some hsame => exact ⟨_, rfl, hsame⟩

theorem samePushed_previous {pending pending' : Option PendingUpgrade} {later : PendingUpgrade}
    (h : Option.Rel PendingUpgrade.SamePushed pending pending') (hlater : pending' = some later) :
    ∃ earlier, pending = some earlier ∧ earlier.SamePushed later := by
  subst hlater
  cases h with
  | some hsame => exact ⟨_, rfl, hsame⟩

/-- While a proposal stays pending, its time only moves later, and none appears from nothing. -/
theorem run_keepsProposal {actions : List (Action World)} (hsound : c.Sound host)
    (halong : (machine host).Along
      (fun c action => Admissible host c action ∧ KeepsProposal host c action) c actions) :
    Option.Rel PendingUpgrade.SamePushed c.reg.pendingUpgrade
      ((machine host).run c actions).reg.pendingUpgrade := by
  let I : Chain World → Prop := fun last =>
    last.Sound host ∧ Option.Rel PendingUpgrade.SamePushed c.reg.pendingUpgrade
      last.reg.pendingUpgrade
  have hlast : I ((machine host).run c actions) := by
    refine Machine.invariant_run ?_ ⟨hsound, ?_⟩ halong
    · rintro middle action ⟨hmiddle, hrel⟩ ⟨hadm, hkeeps⟩
      refine ⟨step_sound hmiddle hadm, ?_⟩
      obtain ⟨ends, hchange, hends⟩ := step_upgradeChange hmiddle action
      rw [hends hkeeps] at hchange
      change Option.Rel _ _ (step host middle action).reg.pendingUpgrade
      cases hchange with
      | kept hpending hdelay =>
          rw [hpending]
          exact hrel
      | pushed hpending =>
          rw [hpending]
          exact samePushed_map hrel _
    · exact samePushed_refl _
  exact hlast.2

/-- What is pending later was not proposed earlier. -/
theorem run_proposedAt {actions : List (Action World)} {time : Timestamp} (hsound : c.Sound host)
    (hpast : time ≤ c.now) (hpending : ∀ pending ∈ c.reg.pendingUpgrade, time ≤ pending.proposedAt)
    (halong : (machine host).Along (Admissible host) c actions) :
    ∀ pending ∈ ((machine host).run c actions).reg.pendingUpgrade, time ≤ pending.proposedAt := by
  let I : Chain World → Prop := fun last =>
    last.Sound host ∧ time ≤ last.now ∧ ∀ pending ∈ last.reg.pendingUpgrade, time ≤
      pending.proposedAt
  have hlast : I ((machine host).run c actions) := by
    refine Machine.invariant_run ?_ ⟨hsound, hpast, hpending⟩ halong
    rintro middle action ⟨hmiddle, hbefore, hold⟩ hadm
    refine ⟨step_sound hmiddle hadm, hbefore.trans (step_now hmiddle action), ?_⟩
    obtain ⟨ends, hchange, -⟩ := step_upgradeChange hmiddle action
    change ∀ pending ∈ (step host middle action).reg.pendingUpgrade, _
    cases hchange with
    | kept hsame hdelay =>
        rw [hsame]
        exact hold
    | pushed hpushed =>
        rw [hpushed]
        intro pushed hmem
        obtain ⟨pending, hstored, rfl⟩ := Option.mem_map.mp hmem
        exact hold pending hstored
    | proposed wasmHash hproposed =>
        rw [hproposed]
        intro pending hmem
        cases hmem
        exact hbefore
    | ended hended =>
        rw [hended]
        intro pending hmem
        cases hmem
  exact hlast.2.2

/-- The delay covers the exact sum of period and epoch, up to the largest time. -/
theorem exact_le_delay (reg : Registry) (time : Timestamp) :
    min (time + max reg.upgradeDelay (reg.config.unbondingPeriod + reg.config.unbondingEpoch))
      u64Max ≤
      satAdd64 time (upgradeDelayFor reg) := by
  have hsum : ∀ now delay least top : ℕ,
      min (now + max delay least) top ≤ min (now + max delay (min least top)) top := by omega
  exact hsum time reg.upgradeDelay _ u64Max

end SoroCron
