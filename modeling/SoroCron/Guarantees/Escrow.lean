import SoroCron.Registry.Deployment

/-! # Escrow is conserved

While nobody donates to it, the registry holds exactly what it owes in every token, whatever
calls anyone makes in any order.
-/

namespace SoroCron

open Outcome Bounded

variable {World : Type} {host : Host World} {c : Chain World}

/-- Nothing else enters the registry: no donations, and no protocol fee paid to itself. -/
def Undonated (host : Host World) : Action World → Prop
  | .outside _ moved => ∀ token, moved token host.registry = 0
  | .call _ (.admin (.setProtocolFee _ treasury)) => treasury ≠ some host.registry
  | _ => True

/-- The invariant behind conservation. -/
structure Conserved (host : Host World) (c : Chain World) : Prop where
  sound : c.Sound host
  treasury : c.reg.config.treasury ≠ some host.registry
  exact : ∀ token, surplus host c token = 0

theorem step_conserved {action : Action World} (hgifts : NoGifts host) (h : Conserved host c)
    (hadm : Admissible host c action) (hundonated : Undonated host action) :
    Conserved host (step host c action) := by
  obtain ⟨hsound, htreasury, hexact⟩ := h
  refine ⟨step_sound hsound hadm, ?_, ?_⟩
  · rcases step_settings hsound action with hkept | ⟨ctx, admin, rfl, -, hreg⟩
    · rw [hkept.config]
      exact htreasury
    · rw [hreg]
      rcases adminCall_treasury admin c.reg c.now with hkept | ⟨bps, treasury, rfl, hset⟩
      · rw [hkept]
        exact htreasury
      · rw [hset]
        exact hundonated
  · intro token
    cases action with
    | call ctx call =>
        rcases step_call_cases host c ctx call with ⟨hcall, -⟩ | ⟨hsame, -⟩
        · rw [(call_surplus hsound hcall token).2 ⟨hgifts, htreasury⟩, hexact]
        · rw [hsame, hexact]
    | outside world moved =>
        have hmoved : moved token host.registry = 0 := hundonated token
        have hsum : surplus host (step host c (.outside world moved)) token =
            surplus host c token + moved token host.registry := add_sub_right_comm _ _ _
        rw [hsum, hmoved, hexact, add_zero]
    | _ => exact hexact token

theorem Deployed.treasury_eq (h : Deployed host c) : c.reg.config.treasury = none := by
  obtain ⟨config, hreg, -, htreasury⟩ := h.fresh
  rw [hreg]
  exact htreasury

/-- In every run from the constructor, no job balance and no stake is negative, and the
registry holds exactly what it owes in every token. -/
theorem escrow_conserved {actions : List (Action World)} (hgifts : NoGifts host)
    (hstart : Deployed host c) (hempty : ∀ token, c.balances token host.registry = 0)
    (halong : (machine host).Along
      (fun c action => Admissible host c action ∧ Undonated host action) c actions) :
    let last := (machine host).run c actions
    (∀ id spec state, last.reg.jobs.getJobParts id = some (spec, state) → 0 ≤ state.balance) ∧
      (∀ keeper info, last.reg.keepers.infos.get keeper = some info → 0 ≤ info.stake) ∧
      ∀ token, last.balances token host.registry = owed last.reg token := by
  have hconserved : Conserved host ((machine host).run c actions) := by
    refine Machine.invariant_run ?_ ⟨hstart.sound, ?_, ?_⟩ halong
    · intro c action h hguard
      exact step_conserved hgifts h hguard.1 hguard.2
    · rw [hstart.treasury_eq]
      simp
    · intro token
      rw [hstart.surplus_eq, hempty]
  obtain ⟨hsound, -, hexact⟩ := hconserved
  refine ⟨?_, ?_, ?_⟩
  · intro id spec state hparts
    exact (hsound.jobs.states _ _ (JobTable.states_get_of_parts hparts)).balance_nonneg
  · intro keeper info hinfo
    exact (hsound.keepers.stakes _ _ _ (bondOf_of_info hinfo)).1.le
  · intro token
    have hzero := hexact token
    rw [surplus_eq hsound.jobs] at hzero
    omega

theorem escrow_conserved_firstRun :
    let last := (machine plainHost).run (deployment ⟨3⟩ 1000 100 10 1000) firstRun
    last.balances feeAsset registryAddress = 40 ∧ last.balances stakeAsset registryAddress = 100 ∧
      ∀ token, last.balances token plainHost.registry = owed last.reg token := by
  refine ⟨by decide, by decide, ?_⟩
  refine (escrow_conserved plainHost_noGifts
    (deployment_deployed ⟨3⟩ 10 1000 (by decide) (by decide)) (fun _ => rfl) ?_).2.2
  simp [firstRun, Machine.Along, Admissible, Undonated, Call.WellTyped, JobParams.WellTyped,
    minutely, machine, plainHost, registryAddress, u64Max, i128Max]

end SoroCron
