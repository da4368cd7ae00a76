import SoroCron.Foundation.Handover
import SoroCron.Registry.Deployment
import SoroCron.Registry.Entries
import SoroCron.Registry.Index

/-! # Handovers move control as proposed

The registry and every job change hands in two steps: the holder names somebody, and that one
accepts. Only the last proposal counts, and only while whoever made it holds the office.
-/

namespace SoroCron

open Outcome Bounded

variable {World : Type} {host : Host World} {c : Chain World} {ctx : Ctx} {now : Timestamp}
  {jobs jobs' : JobTable} {id : JobId} {act : JobAct World} {past : List (JobId × JobAct World)}

/-! ## Moves of a job's ownership -/

/-- The calls that move the ownership of the job `id`. -/
def JobCall.MovesOwner (id : JobId) : JobCall → Prop
  | .proposeJobOwner jobId _ | .acceptJobOwner jobId | .cancelJob jobId => jobId = id
  | _ => False

/-- A step that proposed an owner for the job `id`, accepted the job, or cancelled it. -/
def OwnerMove (host : Host World) (id : JobId) (one : Chain World × Action World) : Prop :=
  ∃ ctx call c', one.2 = .call ctx (.job call) ∧ call.MovesOwner id ∧
    jobCall host ctx one.1 call = .ok c'

/-- A step in which the owner of the job `id` proposed `next`. -/
def OwnerOffer (host : Host World) (id : JobId) (next : Address)
    (one : Chain World × Action World) : Prop :=
  ∃ ctx owner c', one.2 = .call ctx (.job (.proposeJobOwner id next)) ∧
    proposeJobOwner host ctx one.1 id next = .ok c' ∧ one.1.reg.jobs.ownerOf id = some owner ∧
    owner ∈ ctx.signers

/-- Who owns a job and whom it is offered to depends on its entries only. -/
theorem office_of_entries (h : jobs'.entries id = jobs.entries id) :
    jobs'.pendingOwners.get id = jobs.pendingOwners.get id ∧
      jobs'.ownerOf id = jobs.ownerOf id := by
  simp only [JobTable.entries, Prod.mk.injEq] at h
  obtain ⟨hspec, -, hpending⟩ := h
  exact ⟨hpending, congrArg (Option.map JobSpec.owner) hspec⟩

/-- What is neither a handover nor a cancellation keeps who owns the job and whom it is offered
to. -/
theorem JobWrite.office_kept (h : JobWrite host ctx now (id, act) jobs jobs') (hsound : jobs.Sound)
    (hkept : act ≠ .handedOver ∧ act ≠ .cancelled) :
    jobs'.pendingOwners = jobs.pendingOwners ∧
      ∀ owner, jobs.ownerOf id = some owner → jobs'.ownerOf id = some owner := by
  cases h with
  | created =>
      refine ⟨rfl, ?_⟩
      intro owner howner
      rw [JobTable.ownerOf, (hsound.fresh le_rfl).1] at howner
      cases howner
  | @updated _ _ update spec state interval leaderRuns hparts =>
      refine ⟨rfl, ?_⟩
      intro owner howner
      rw [ownerOf_of_parts hparts] at howner
      exact (ownerOf_setSpec (update.applyTo spec interval) id).trans ((if_pos rfl).trans howner)
  | handedOver => exact absurd rfl hkept.1
  | cancelled => exact absurd rfl hkept.2
  | _ => exact ⟨rfl, fun _ howner => howner⟩

theorem office_of_life {steps : List (JobId × JobAct World)}
    (h : Life (Written host ctx now) steps jobs jobs')
    (hkept : ∀ step ∈ steps, step.1 = id → step.2 ≠ .handedOver ∧ step.2 ≠ .cancelled) :
    jobs'.pendingOwners.get id = jobs.pendingOwners.get id ∧
      ∀ owner, jobs.ownerOf id = some owner → jobs'.ownerOf id = some owner := by
  refine (h.restrict hkept).invariant (I := fun later =>
    later.pendingOwners.get id = jobs.pendingOwners.get id ∧
      ∀ owner, jobs.ownerOf id = some owner → later.ownerOf id = some owner) ?_
        ⟨rfl, fun _ howner => howner⟩
  rintro ⟨other, act⟩ before after ⟨hpending, howners⟩ ⟨hstep, hsound, hwrite⟩
  by_cases heq : other = id
  · subst heq
    obtain ⟨hsame, hkeeps⟩ := hwrite.office_kept hsound (hstep rfl)
    rw [hsame]
    exact ⟨hpending, fun owner howner => hkeeps owner (howners owner howner)⟩
  · obtain ⟨hsame, howner⟩ := office_of_entries (hwrite.entries_of_ne (Ne.symm heq))
    rw [hsame, howner]
    exact ⟨hpending, howners⟩

/-- Without a move the job keeps its owner and its pending owner. -/
theorem step_office_still {action : Action World} (hsound : c.Sound host)
    (hadm : Admissible host c action) (hstill : ¬ OwnerMove host id (c, action)) :
    (step host c action).reg.jobs.pendingOwners.get id = c.reg.jobs.pendingOwners.get id ∧
      ∀ owner, c.reg.jobs.ownerOf id = some owner → (step host c action).reg.jobs.ownerOf id =
        some owner := by
  rcases step_writes action hsound hadm with ⟨ctx, jobId, newOwner, spec, rfl, -, hoffered⟩ | hlife
  · rcases step_call_cases host c ctx (.job (.proposeJobOwner jobId newOwner)) with ⟨hcall, -⟩ |
      ⟨hsame, -⟩
    · have hne : id ≠ jobId := by
        rintro rfl
        exact hstill ⟨ctx, _, _, rfl, rfl, hcall⟩
      obtain ⟨hpending, howner⟩ := office_of_entries (hoffered.entries_of_ne hne)
      rw [hpending, howner]
      exact ⟨rfl, fun _ howner => howner⟩
    · rw [hsame]
      exact ⟨rfl, fun _ howner => howner⟩
  · apply office_of_life hlife
    rintro ⟨other, act⟩ hmem rfl
    obtain ⟨ctx, call, rfl, hdoes⟩ := does_of_mem hmem
    rcases step_call_cases host c ctx call with ⟨hcall, -⟩ | ⟨-, hacts⟩
    · refine ⟨?_, ?_⟩
      · rintro rfl
        cases hdoes.of_handedOver
        exact hstill ⟨ctx, _, _, rfl, rfl, hcall⟩
      · rintro rfl
        cases hdoes.of_cancelled
        exact hstill ⟨ctx, _, _, rfl, rfl, hcall⟩
    · rw [hacts] at hmem
      cases hmem

/-- What a move leaves: an offer by the owner or nobody's, or a new owner who accepted. -/
theorem step_office_moved {action : Action World} (hmoved : OwnerMove host id (c, action)) :
    (∀ next, (step host c action).reg.jobs.pendingOwners.get id = some next →
        OwnerOffer host id next (c, action) ∧
          (step host c action).reg.jobs.ownerOf id = c.reg.jobs.ownerOf id) ∧
      ∀ owner owner', c.reg.jobs.ownerOf id = some owner →
        (step host c action).reg.jobs.ownerOf id = some owner' → owner' ≠ owner →
        ∃ ctx, action = .call ctx (.job (.acceptJobOwner id)) ∧
          c.reg.jobs.pendingOwners.get id = some owner' ∧ owner' ∈ ctx.signers := by
  obtain ⟨ctx, call, c', rfl, hmoves, hcall⟩ := hmoved
  have hstep : step host c (.call ctx (.job call)) = c' := step_call_ok hcall
  rw [hstep]
  cases call with
  | proposeJobOwner jobId newOwner =>
      cases hmoves
      have hpropose : proposeJobOwner host ctx c id newOwner = .ok c' := hcall
      obtain ⟨spec, hspec, hauth, hc⟩ := proposeJobOwner_eq_ok hpropose
      have howner : c.reg.jobs.ownerOf id = some spec.owner := by
        rw [JobTable.ownerOf, hspec, Option.map_some]
      have hsame : c'.reg.jobs.ownerOf id = c.reg.jobs.ownerOf id := by
        rw [hc]
        change JobTable.ownerOf (if newOwner = spec.owner then _ else _) id = _
        split
        · rfl
        · rfl
      refine ⟨?_, ?_⟩
      · intro next hnext
        refine ⟨?_, hsame⟩
        rw [hc] at hnext
        change (if newOwner = spec.owner then c.reg.jobs.removePendingOwner id
          else c.reg.jobs.setPendingOwner id newOwner).pendingOwners.get id = _ at hnext
        -- Proposing the owner itself leaves no offer.
        split at hnext
        · simp at hnext
        · simp only [JobTable.setPendingOwner_pendingOwners, Store.get_set_self,
            Option.some.injEq] at hnext
          subst hnext
          exact ⟨ctx, spec.owner, c', rfl, hpropose, howner, hauth.1⟩
      · intro owner owner' hbefore hafter hne
        rw [hsame, hbefore, Option.some_inj] at hafter
        exact absurd hafter.symm hne
  | acceptJobOwner jobId =>
      cases hmoves
      obtain ⟨spec, newOwner, hspec, hoffered, hauth, hc⟩ := acceptJobOwner_eq_ok hcall
      refine ⟨?_, ?_⟩
      · intro next hnext
        rw [hc] at hnext
        change (c.reg.jobs.pendingOwners.remove id).get id = _ at hnext
        simp at hnext
      · intro owner owner' hbefore hafter hne
        rw [hc] at hafter
        change (((c.reg.jobs.specs.set id { spec with owner := newOwner }).get id).map
          JobSpec.owner) = _
          at hafter
        rw [Store.get_set_self] at hafter
        cases hafter
        exact ⟨ctx, rfl, hoffered, hauth.1⟩
  | cancelJob jobId =>
      cases hmoves
      obtain ⟨refund, hcancel⟩ := Result.chain_eq_ok.mp hcall
      obtain ⟨spec, state, paid, hparts, hauth, hpaid, -, hc⟩ := cancelJob_eq_ok.mp hcancel
      rw [hc, Chain.publish_reg, Chain.payOut_frame hpaid]
      refine ⟨?_, ?_⟩
      · intro next hnext
        change (c.reg.jobs.pendingOwners.remove id).get id = _ at hnext
        simp at hnext
      · intro owner owner' hbefore hafter hne
        change ((c.reg.jobs.specs.remove id).get id).map JobSpec.owner = _ at hafter
        simp at hafter
  | _ => cases hmoves

/-! ## Moves of the registry's admin -/

/-- A step that proposed an admin, withdrew the proposal, or accepted it. -/
def AdminMove (host : Host World) (one : Chain World × Action World) : Prop :=
  ∃ ctx call c', one.2 = .call ctx (.admin call) ∧ adminCall host ctx one.1 call = .ok c' ∧
    ((∃ next, call = .proposeAdmin next) ∨ call = .acceptAdmin ∨ call = .cancelAdminProposal)

/-- A step in which the admin in office proposed `next`. -/
def AdminOffer (host : Host World) (next : Address) (one : Chain World × Action World) : Prop :=
  ∃ ctx c', one.2 = .call ctx (.admin (.proposeAdmin next)) ∧
    proposeAdmin host ctx one.1 next = .ok c' ∧ one.1.reg.config.admin ∈ ctx.signers

/-- Settings other than the admin change only when the admin signs, and the admin itself only when
the pending admin does. -/
theorem step_config (action : Action World) (hsound : c.Sound host) :
    (∃ ctx, action = .call ctx (.admin .acceptAdmin) ∧
        ∃ next, c.reg.pendingAdmin = some next ∧ next ∈ ctx.signers ∧
          (step host c action).reg.config = { c.reg.config with admin := next }) ∨
      (step host c action).reg.config = c.reg.config ∨
      ∃ ctx call, action = .call ctx (.admin call) ∧ c.reg.config.admin ∈ ctx.signers ∧
        (step host c action).reg.config.admin = c.reg.config.admin := by
  rcases step_settings hsound action with hkept | ⟨ctx, call, rfl, hcall, hreg⟩
  · exact .inr (.inl hkept.config)
  · obtain ⟨⟨who, hsigner, hsigned, -⟩, haccepted, -⟩ := adminCall_eq_ok hcall
    rw [hreg]
    cases call with
    | acceptAdmin =>
        refine .inl ⟨ctx, rfl, who, hsigner, hsigned, ?_⟩
        change { c.reg.config with admin := c.reg.pendingAdmin.getD c.reg.config.admin } = _
        rw [show c.reg.pendingAdmin = some who from hsigner, Option.getD_some]
    | setUnbondingEpoch unbondingEpoch =>
        cases hsigner
        refine .inr (.inr ⟨ctx, _, rfl, hsigned, ?_⟩)
        rw [AdminCall.regAfter, pushBack_eq]
    | setUpgradeDelay upgradeDelay =>
        cases hsigner
        refine .inr (.inr ⟨ctx, _, rfl, hsigned, ?_⟩)
        rw [AdminCall.regAfter, pushBack_eq]
    | _ =>
        cases hsigner
        exact .inr (.inr ⟨ctx, _, rfl, hsigned, rfl⟩)

theorem step_admin_still {action : Action World} (hsound : c.Sound host)
    (hstill : ¬ AdminMove host (c, action)) :
    (step host c action).reg.pendingAdmin = c.reg.pendingAdmin ∧
      (step host c action).reg.config.admin = c.reg.config.admin := by
  rcases step_settings hsound action with hkept | ⟨ctx, call, rfl, hcall, hreg⟩
  · exact ⟨hkept.pendingAdmin, congrArg Config.admin hkept.config⟩
  · rw [hreg]
    cases call with
    | proposeAdmin next => exact absurd ⟨ctx, _, _, rfl, hcall, .inl ⟨next, rfl⟩⟩ hstill
    | acceptAdmin => exact absurd ⟨ctx, _, _, rfl, hcall, .inr (.inl rfl)⟩ hstill
    | cancelAdminProposal => exact absurd ⟨ctx, _, _, rfl, hcall, .inr (.inr rfl)⟩ hstill
    | setUnbondingEpoch unbondingEpoch =>
        rw [AdminCall.regAfter, pushBack_eq]
        exact ⟨rfl, rfl⟩
    | setUpgradeDelay upgradeDelay =>
        rw [AdminCall.regAfter, pushBack_eq]
        exact ⟨rfl, rfl⟩
    | _ => exact ⟨rfl, rfl⟩

theorem step_admin_moved {action : Action World} {next : Address}
    (hmoved : AdminMove host (c, action))
    (hnext : (step host c action).reg.pendingAdmin = some next) :
    AdminOffer host next (c, action) ∧ (step host c action).reg.config.admin =
      c.reg.config.admin := by
  obtain ⟨ctx, call, c', rfl, hcall, hmoves⟩ := hmoved
  have hstep : step host c (.call ctx (.admin call)) = c' := step_call_ok hcall
  obtain ⟨⟨who, hsigner, hsigned, -⟩, -, hc⟩ := adminCall_eq_ok hcall
  rw [hstep, hc] at hnext ⊢
  rcases hmoves with ⟨proposed, rfl⟩ | rfl | rfl
  · cases hsigner
    cases hnext
    exact ⟨⟨ctx, c', rfl, hcall, hsigned⟩, rfl⟩
  · cases hnext
  · cases hnext

/-! ## Along runs -/

section Run

variable {start found : Chain World} {actions : List (Action World)} {action : Action World}
  {before rest : List (Chain World × Action World)}

theorem owner_offered_since (hstart : Deployed host start)
    (halong : (machine host).Along (Admissible host) start actions)
    (htrace : (machine host).trace start actions = before ++ (found, action) :: rest)
    {next : Address} (hnext : found.reg.jobs.pendingOwners.get id = some next) :
    Since (fun one => OwnerOffer host id next one ∧ one.1.reg.jobs.ownerOf id =
      found.reg.jobs.ownerOf id)
      (fun one => ¬ OwnerMove host id one) before := by
  have hnone : start.reg.jobs.pendingOwners.get id = none := by
    obtain ⟨config, hreg, -, -⟩ := hstart.fresh
    rw [hreg]
    rfl
  refine Machine.offered_since (I := Reachable host) (fun c => c.reg.jobs.ownerOf id)
    (fun c => c.reg.jobs.pendingOwners.get id) (OwnerOffer host id) (OwnerMove host id) ?_ ?_ ?_
    hstart.reachable hnone halong htrace hnext
  · intro c action hreach hadm
    exact hreach.step hadm
  · intro c action hreach hadm hstill next hnext
    obtain ⟨hpending, howners⟩ := step_office_still hreach.sound hadm hstill
    change (step host c action).reg.jobs.pendingOwners.get id = some next at hnext
    rw [hpending] at hnext
    obtain ⟨past, hindexed⟩ := hreach.indexed
    obtain ⟨owner, howner, -⟩ := hindexed.offered id next hnext
    exact ⟨hnext, (howners owner howner).trans howner.symm⟩
  · intro c action hreach hadm hmoved next hnext
    exact (step_office_moved hmoved).1 next hnext

theorem admin_offered_since (hstart : Deployed host start)
    (halong : (machine host).Along (Admissible host) start actions)
    (htrace : (machine host).trace start actions = before ++ (found, action) :: rest)
    {next : Address} (hnext : found.reg.pendingAdmin = some next) :
    Since (fun one => AdminOffer host next one ∧ some one.1.reg.config.admin =
      some found.reg.config.admin)
      (fun one => ¬ AdminMove host one) before := by
  have hnone : start.reg.pendingAdmin = none := by
    obtain ⟨config, hreg, -, -⟩ := hstart.fresh
    rw [hreg]
  refine Machine.offered_since (I := Reachable host) (fun c => some c.reg.config.admin)
    (fun c => c.reg.pendingAdmin) (AdminOffer host) (AdminMove host) ?_ ?_ ?_
    hstart.reachable hnone halong htrace hnext
  · intro c action hreach hadm
    exact hreach.step hadm
  · intro c action hreach hadm hstill next hnext
    obtain ⟨hpending, hadmin⟩ := step_admin_still hreach.sound hstill
    exact ⟨hpending.symm.trans hnext, congrArg some hadmin⟩
  · intro c action hreach hadm hmoved next hnext
    obtain ⟨hoffer, hadmin⟩ := step_admin_moved hmoved hnext
    exact ⟨hoffer, congrArg some hadmin⟩

theorem found_reachable (hstart : Deployed host start)
    (halong : (machine host).Along (Admissible host) start actions)
    (htrace : (machine host).trace start actions = before ++ (found, action) :: rest) :
    Reachable host found ∧ Admissible host found action := by
  refine Machine.trace_history (J := fun _ => Reachable host) ?_ [] hstart.reachable halong htrace
  intro past c action hreach hadm
  exact hreach.step hadm

/-- Along every run, at every step: the admin changes only when somebody accepts whom the admin in
office proposed in the last move of that office, other settings change only when the admin in
office signs, and a job's owner changes only when somebody accepts whom the owner proposed in the
last move of that job's ownership. -/
theorem handovers_as_proposed (hstart : Deployed host start)
    (halong : (machine host).Along (Admissible host) start actions)
    (htrace : (machine host).trace start actions = before ++ (found, action) :: rest) :
    let left := step host found action
    (left.reg.config.admin ≠ found.reg.config.admin →
        ∃ ctx, action = .call ctx (.admin .acceptAdmin) ∧ left.reg.config.admin ∈ ctx.signers ∧
          Since (fun one => AdminOffer host left.reg.config.admin one ∧
              one.1.reg.config.admin = found.reg.config.admin)
            (fun one => ¬ AdminMove host one) before) ∧
      ({ left.reg.config with admin := found.reg.config.admin } ≠ found.reg.config →
        ∃ ctx call, action = .call ctx (.admin call) ∧ found.reg.config.admin ∈ ctx.signers) ∧
      ∀ id owner owner', found.reg.jobs.ownerOf id = some owner →
        left.reg.jobs.ownerOf id = some owner' →
        owner' ≠ owner →
        ∃ ctx, action = .call ctx (.job (.acceptJobOwner id)) ∧ owner' ∈ ctx.signers ∧
          Since (fun one => OwnerOffer host id owner' one ∧ one.1.reg.jobs.ownerOf id = some owner)
            (fun one => ¬ OwnerMove host id one) before := by
  intro left
  obtain ⟨hreach, hadm⟩ := found_reachable hstart halong htrace
  refine ⟨?_, ?_, ?_⟩
  · intro hchanged
    rcases step_config action hreach.sound with
      ⟨ctx, rfl, next, hnext, hsigned, hconfig⟩ | hkept | ⟨ctx, call, -, -, hkept⟩
    · have hadmin : left.reg.config.admin = next := congrArg Config.admin hconfig
      rw [hadmin]
      refine ⟨ctx, rfl, hsigned, (admin_offered_since hstart halong htrace hnext).mono ?_⟩
      rintro one ⟨hoffer, hsame⟩
      exact ⟨hoffer, Option.some_inj.mp hsame⟩
    · exact absurd (congrArg Config.admin hkept) hchanged
    · exact absurd hkept hchanged
  · intro hchanged
    rcases step_config action hreach.sound with
      ⟨ctx, rfl, next, -, -, hconfig⟩ | hkept | ⟨ctx, call, hcall, hsigned, -⟩
    · exact absurd (by rw [show left.reg.config = _ from hconfig]) hchanged
    · exact absurd (by rw [show left.reg.config = _ from hkept]) hchanged
    · exact ⟨ctx, call, hcall, hsigned⟩
  · intro id owner owner' howner howner' hne
    by_cases hmoved : OwnerMove host id (found, action)
    · obtain ⟨ctx, haccept, hpending, hsigned⟩ :=
        (step_office_moved hmoved).2 owner owner' howner howner' hne
      refine ⟨ctx, haccept, hsigned, (owner_offered_since hstart halong htrace hpending).mono ?_⟩
      rintro one ⟨hoffer, hsame⟩
      exact ⟨hoffer, hsame.trans howner⟩
    · have hkept := (step_office_still hreach.sound hadm hmoved).2 owner howner
      cases hkept.symm.trans howner'
      exact absurd rfl hne

end Run

/-- The first job and then the registry are handed over. -/
def officesRun : List (Action Unit) :=
  firstRun ++
    [.call ⟨[⟨5⟩]⟩ (.job (.proposeJobOwner 0 ⟨9⟩)), .call ⟨[⟨9⟩]⟩ (.job (.acceptJobOwner 0)),
      .call ⟨[⟨3⟩]⟩ (.admin (.proposeAdmin ⟨10⟩)), .call ⟨[⟨10⟩]⟩ (.admin .acceptAdmin)]

theorem officesRun_admissible (c : Chain Unit) :
    (machine plainHost).Along (Admissible plainHost) c officesRun := by
  refine Machine.along_append.mpr ⟨firstRun_admissible c, ?_⟩
  simp [Machine.Along, Admissible, Call.WellTyped]

def officesTrace : List (Chain Unit × Action Unit) :=
  (machine plainHost).trace (deployment ⟨3⟩ 1000 100 10 1000) officesRun

/-- The chain in which the new admin accepts. -/
def beforeAccept : Chain Unit :=
  (machine plainHost).run (deployment ⟨3⟩ 1000 100 10 1000) (officesRun.take 9)

theorem officesTrace_eq : officesTrace =
    officesTrace.take 9 ++ (beforeAccept, .call ⟨[⟨10⟩]⟩ (.admin .acceptAdmin)) :: [] := rfl

theorem handovers_as_proposed_officesRun :
    Since (fun one => AdminOffer plainHost ⟨10⟩ one ∧ one.1.reg.config.admin = ⟨3⟩)
      (fun one => ¬ AdminMove plainHost one) (officesTrace.take 9) := by
  have hlaws := handovers_as_proposed
    (deployment_deployed ⟨3⟩ 10 1000 (show 1000 ≤ u64Max by decide) (show 0 ≤ 100 by decide))
    (officesRun_admissible _) officesTrace_eq
  obtain ⟨ctx, -, -, hsince⟩ := hlaws.1 (by decide)
  exact hsince

end SoroCron
