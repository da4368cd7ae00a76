import SoroCron.Foundation.Filed
import SoroCron.Registry.Lives

/-! # The owner index

What the list kept for each owner holds: the live jobs it owns, in the order in which they
came to it. Beside it, ids are issued one after another, and whoever a job is offered to is not
its owner.
-/

namespace SoroCron

open Outcome Bounded Filing

variable {World : Type} {host : Host World} {c : Chain World} {ctx : Ctx} {now : Timestamp}
  {jobs jobs' : JobTable} {id : JobId} {past : List (JobId × JobAct World)} {act : JobAct World}

/-! ## What a run files -/

/-- The ids that creations issued, in order. -/
def issuedIds (done : List (JobId × JobAct World)) : List JobId :=
  done.filterMap fun
    | (id, .created _ _ _) => some id
    | _ => none

/-- The jobs that came to an owner, by creation or by handover, in order. -/
def arrivals (done : List (JobId × JobAct World)) : List JobId :=
  done.filterMap fun
    | (id, .created _ _ _) => some id
    | (id, .handedOver) => some id
    | _ => none

theorem issuedIds_append (first second : List (JobId × JobAct World)) :
    issuedIds (first ++ second) = issuedIds first ++ issuedIds second :=
  List.filterMap_append

theorem arrivals_append (first second : List (JobId × JobAct World)) :
    arrivals (first ++ second) = arrivals first ++ arrivals second :=
  List.filterMap_append

def JobTable.ownerOf (jobs : JobTable) (id : JobId) : Option Address :=
  (jobs.specs.get id).map JobSpec.owner

/-! ## The index against the entries -/

/-- What the index holds after `past`. -/
structure Indexed (past : List (JobId × JobAct World)) (jobs : JobTable) : Prop where
  issued : issuedIds past = List.range jobs.nextJobId
  arrived : ∀ id owner, jobs.ownerOf id = some owner → id ∈ arrivals past
  listed : ∀ owner, jobs.jobsByOwner owner = filed (arrivals past) jobs.ownerOf owner
  offered : ∀ id newOwner, jobs.pendingOwners.get id = some newOwner →
    ∃ owner, jobs.ownerOf id = some owner ∧ newOwner ≠ owner

theorem ownerOf_of_parts {spec : JobSpec} {state : JobState}
    (hparts : jobs.getJobParts id = some (spec, state)) : jobs.ownerOf id = some spec.owner := by
  rw [JobTable.ownerOf, JobTable.specs_get_of_parts hparts, Option.map_some]

theorem ownerOf_setSpec (spec : JobSpec) (other : JobId) :
    (jobs.setSpec id spec).ownerOf other = if other = id then some spec.owner
      else jobs.ownerOf other := by
  simp only [JobTable.ownerOf, JobTable.setSpec_specs, Store.get_set]
  split
  · rfl
  · rfl

theorem jobsByOwner_addOwnerJob (owner other : Address) :
    (jobs.addOwnerJob owner id).jobsByOwner other =
      jobs.jobsByOwner other ++ if other = owner then [id] else [] := by
  rw [JobTable.jobsByOwner, JobTable.addOwnerJob_ownerJobs, Store.get_set]
  split
  next heq =>
    rw [heq]
    rfl
  next => exact (List.append_nil _).symm

theorem jobsByOwner_removeOwnerJob (owner other : Address) :
    (jobs.removeOwnerJob owner id).jobsByOwner other =
      if other = owner then (jobs.jobsByOwner other).erase id else jobs.jobsByOwner other := by
  rw [JobTable.jobsByOwner, JobTable.removeOwnerJob_ownerJobs]
  by_cases hlisted : id ∈ jobs.jobsByOwner owner
  · rw [if_pos hlisted, Store.get_set]
    split
    next heq =>
      rw [heq]
      rfl
    next => rfl
  · rw [if_neg hlisted]
    split
    next heq =>
      rw [heq, List.erase_of_not_mem hlisted]
      rfl
    next => rfl

/-- What files nothing and moves nothing keeps the index. -/
theorem Indexed.kept (h : Indexed past jobs) (hissued : issuedIds [(id, act)] = [])
    (harrived : arrivals [(id, act)] = []) (hnext : jobs'.nextJobId = jobs.nextJobId)
    (howners : jobs'.ownerOf = jobs.ownerOf) (hlists : jobs'.ownerJobs = jobs.ownerJobs)
    (hpending : jobs'.pendingOwners = jobs.pendingOwners) :
    Indexed (past ++ [(id, act)]) jobs' := by
  obtain ⟨hids, harrivals, hlisted, hoffered⟩ := h
  refine ⟨?_, ?_, ?_, ?_⟩
  · rw [issuedIds_append, hissued, List.append_nil, hnext]
    exact hids
  · rw [arrivals_append, harrived, List.append_nil, howners]
    exact harrivals
  · intro owner
    rw [arrivals_append, harrived, List.append_nil, howners, ← hlisted owner,
      JobTable.jobsByOwner, hlists]
    rfl
  · rw [hpending, howners]
    exact hoffered

theorem Indexed.created {owner : Address} {params : JobParams} {deposit : ℤ} (h : Indexed past jobs)
    (hsound : jobs.Sound) :
    Indexed (past ++ [(jobs.nextJobId, .created owner params deposit)])
      (jobs.withJob now owner params deposit) := by
  obtain ⟨hids, harrivals, hlisted, hoffered⟩ := h
  have hfresh : jobs.ownerOf jobs.nextJobId = none := by
    rw [JobTable.ownerOf, (hsound.fresh le_rfl).1, Option.map_none]
  have howners : ∀ other, (jobs.withJob now owner params deposit).ownerOf other =
      if other = jobs.nextJobId then some owner else jobs.ownerOf other :=
    ownerOf_setSpec (params.toSpec owner)
  refine ⟨?_, ?_, ?_, ?_⟩
  · rw [issuedIds_append, hids]
    exact List.range_succ.symm
  · intro id owner' howner
    rw [arrivals_append]
    rw [howners] at howner
    split at howner
    next heq =>
      rw [heq]
      exact List.mem_append_right _ (List.mem_singleton_self _)
    next => exact List.mem_append_left _ (harrivals id owner' howner)
  · intro other
    have hfiled := filed_arrive (arrivals past) other
      ((howners jobs.nextJobId).trans (if_pos rfl)) fun id hne => (howners id).trans (if_neg hne)
    have hnew : jobs.nextJobId ∉ filed (arrivals past) jobs.ownerOf other := by
      rw [mem_filed, hfresh]
      exact fun hmem => nomatch hmem.2
    rw [List.erase_of_not_mem hnew, ← hlisted other] at hfiled
    rw [arrivals_append]
    exact (jobsByOwner_addOwnerJob owner other).trans hfiled.symm
  · intro id newOwner hpending
    obtain ⟨current, hcurrent, hne⟩ := hoffered id newOwner hpending
    refine ⟨current, ?_, hne⟩
    rw [howners, if_neg, hcurrent]
    rintro rfl
    rw [hfresh] at hcurrent
    cases hcurrent

/-- Taking a job off its owner's list takes it off every list. -/
theorem Indexed.taken {owner : Address} (h : Indexed past jobs)
    (howner : jobs.ownerOf id = some owner)
    (hlists : jobs'.ownerJobs = jobs.ownerJobs) (other : Address) :
    (jobs'.removeOwnerJob owner id).jobsByOwner other =
      (filed (arrivals past) jobs.ownerOf other).erase id := by
  have hsame : jobs'.jobsByOwner other = filed (arrivals past) jobs.ownerOf other := by
    rw [← h.listed other, JobTable.jobsByOwner, hlists]
    rfl
  rw [jobsByOwner_removeOwnerJob, hsame]
  split
  · rfl
  next hne =>
    rw [List.erase_of_not_mem]
    rw [mem_filed, howner, Option.some_inj]
    exact fun hmem => hne hmem.2.symm

/-- The offers that are left are to others than the owners. -/
theorem Indexed.offers_left {offered : Address} {key : JobId} (h : Indexed past jobs)
    (howners : ∀ other, other ≠ id → jobs'.ownerOf other = jobs.ownerOf other)
    (hpending : (jobs.pendingOwners.remove id).get key = some offered) :
    ∃ current, jobs'.ownerOf key = some current ∧ offered ≠ current := by
  rw [Store.get_remove] at hpending
  split at hpending
  · cases hpending
  next hne =>
    rw [howners key hne]
    exact h.offered key offered hpending

theorem Indexed.handedOver {newOwner : Address} {spec : JobSpec} {state : JobState}
    (h : Indexed past jobs) (hparts : jobs.getJobParts id = some (spec, state)) :
    Indexed (past ++ [(id, .handedOver)])
      ((((jobs.removePendingOwner id).removeOwnerJob spec.owner id).addOwnerJob newOwner id).setSpec
        id { spec with owner := newOwner }) := by
  have howners : ∀ other,
      ((((jobs.removePendingOwner id).removeOwnerJob spec.owner id).addOwnerJob newOwner id).setSpec
        id { spec with owner := newOwner }).ownerOf other =
          if other = id then some newOwner else jobs.ownerOf other :=
    ownerOf_setSpec { spec with owner := newOwner }
  refine ⟨?_, ?_, ?_, ?_⟩
  · rw [issuedIds_append]
    exact (List.append_nil _).trans h.issued
  · intro other owner' howner'
    rw [arrivals_append]
    rw [howners] at howner'
    split at howner'
    next heq =>
      rw [heq]
      exact List.mem_append_right _ (List.mem_singleton_self _)
    next => exact List.mem_append_left _ (h.arrived other owner' howner')
  · intro other
    have hfiled := filed_arrive (arrivals past) other
      ((howners id).trans (if_pos rfl)) fun other hne => (howners other).trans (if_neg hne)
    -- The job leaves the old list wherever it stood and comes last in the new one.
    have htaken :
        ((jobs.removePendingOwner id).removeOwnerJob spec.owner id).jobsByOwner other = _ :=
      h.taken (ownerOf_of_parts hparts) rfl other
    rw [← htaken] at hfiled
    rw [arrivals_append]
    exact (jobsByOwner_addOwnerJob newOwner other).trans hfiled.symm
  · intro other offered hpending
    exact h.offers_left (fun other hne => (howners other).trans (if_neg hne)) hpending

theorem Indexed.cancelled {spec : JobSpec} {state : JobState} (h : Indexed past jobs)
    (hparts : jobs.getJobParts id = some (spec, state)) :
    Indexed (past ++ [(id, .cancelled)]) ((jobs.removeJob id).removeOwnerJob spec.owner id) := by
  have howners : ∀ other, ((jobs.removeJob id).removeOwnerJob spec.owner id).ownerOf other =
      if other = id then none else jobs.ownerOf other := by
    intro other
    change ((jobs.specs.remove id).get other).map JobSpec.owner = _
    rw [Store.get_remove]
    split
    · rfl
    · rfl
  refine ⟨?_, ?_, ?_, ?_⟩
  · rw [issuedIds_append]
    exact (List.append_nil _).trans h.issued
  · intro other owner' howner'
    rw [arrivals_append]
    rw [howners] at howner'
    split at howner'
    · cases howner'
    · exact List.mem_append_left _ (h.arrived other owner' howner')
  · intro other
    have hfiled := filed_leave (arrivals past) other ((howners id).trans (if_pos rfl))
      fun other hne => (howners other).trans (if_neg hne)
    have hnone : arrivals (past ++ [(id, .cancelled)]) = arrivals past := by
      rw [arrivals_append]
      exact List.append_nil _
    rw [hnone, hfiled]
    exact h.taken (ownerOf_of_parts hparts) rfl other
  · intro other offered hpending
    exact h.offers_left (fun other hne => (howners other).trans (if_neg hne)) hpending

theorem JobWrite.indexed (h : JobWrite host ctx now (id, act) jobs jobs') (hsound : jobs.Sound)
    (hindexed : Indexed past jobs) : Indexed (past ++ [(id, act)]) jobs' := by
  cases h with
  | created hsigned hspec htyped hleader => exact hindexed.created hsound
  | handedOver hparts hoffered hsigned => exact hindexed.handedOver hparts
  | cancelled hparts hsigned => exact hindexed.cancelled hparts
  | @updated _ _ update spec state interval leaderRuns hparts hsigned hspec hleader =>
      refine hindexed.kept rfl rfl rfl ?_ rfl rfl
      funext other
      refine (ownerOf_setSpec (update.applyTo spec interval) other).trans ?_
      split
      next heq => exact heq ▸ (ownerOf_of_parts hparts).symm
      next => rfl
  | ran hnow hlive hconfig hsigned hran => exact hindexed.kept rfl rfl rfl rfl rfl rfl
  | funded hparts hpos => exact hindexed.kept rfl rfl rfl rfl rfl rfl
  | withdrawn hparts hsigned hpos hle => exact hindexed.kept rfl rfl rfl rfl rfl rfl
  | activeSet hparts hsigned => exact hindexed.kept rfl rfl rfl rfl rfl rfl

/-- An offer is for somebody else; naming the owner withdraws it. -/
theorem Offered.indexed {newOwner : Address} {spec : JobSpec}
    (h : Offered host ctx id newOwner spec jobs jobs') (hindexed : Indexed past jobs) :
    Indexed past jobs' := by
  obtain ⟨hids, harrivals, hlisted, hoffered⟩ := hindexed
  rw [h.result]
  split
  · refine ⟨hids, harrivals, hlisted, ?_⟩
    intro other offered hpending
    rw [JobTable.removePendingOwner_pendingOwners, Store.get_remove] at hpending
    split at hpending
    · cases hpending
    · exact hoffered other offered hpending
  next hne =>
    refine ⟨hids, harrivals, hlisted, ?_⟩
    intro other offered hpending
    rw [JobTable.setPendingOwner_pendingOwners, Store.get_set] at hpending
    split at hpending
    next heq =>
      cases hpending
      refine ⟨spec.owner, ?_, hne⟩
      rw [heq]
      change (jobs.specs.get id).map JobSpec.owner = _
      rw [h.found, Option.map_some]
    next => exact hoffered other offered hpending

/-! ## Along runs -/

theorem step_indexed {done : List (Act World)} (action : Action World) (hsound : c.Sound host)
    (hadm : Admissible host c action) (hindexed : Indexed (jobSteps done) c.reg.jobs) :
    Indexed (jobSteps (done ++ acts host c action)) (step host c action).reg.jobs := by
  rw [jobSteps_append]
  rcases step_writes action hsound hadm with ⟨ctx, jobId, newOwner, spec, -, hacts, hoffered⟩ |
    hlife
  · rw [hacts]
    exact (List.append_nil (jobSteps done)).symm ▸ hoffered.indexed hindexed
  · apply hlife.history (J := Indexed) ?_ (jobSteps done) hindexed
    rintro past ⟨id, act⟩ before after hbefore ⟨hsound, hwrite⟩
    exact hwrite.indexed hsound hbefore

theorem Deployed.indexed (h : Deployed host c) :
    Indexed ([] : List (JobId × JobAct World)) c.reg.jobs := by
  obtain ⟨config, hreg, -, -⟩ := h.fresh
  rw [hreg]
  refine ⟨rfl, ?_, fun owner => rfl, ?_⟩
  · intro id owner howner
    cases howner
  · intro id newOwner hpending
    cases hpending

theorem run_indexed {start : Chain World} {actions : List (Action World)}
    (hstart : Deployed host start) (halong : (machine host).Along (Admissible host) start actions) :
    Indexed (jobSteps ((machine host).outputs start actions))
      ((machine host).run start actions).reg.jobs := by
  have hboth := Machine.history_run
    (J := fun past c => Chain.Sound host c ∧ Indexed (jobSteps past) c.reg.jobs) ?_ []
    ⟨hstart.sound, hstart.indexed⟩ halong
  · exact hboth.2
  · rintro past c action ⟨hsound, hindexed⟩ hadm
    exact ⟨step_sound hsound hadm, step_indexed action hsound hadm hindexed⟩

theorem Reachable.indexed (hreach : Reachable host c) :
    ∃ past : List (JobId × JobAct World), Indexed past c.reg.jobs := by
  obtain ⟨start, actions, hstart, halong, rfl⟩ := hreach
  exact ⟨_, run_indexed hstart halong⟩

/-! ## Ids in range -/

/-- Every id that is issued is a word. -/
theorem insertJobs_idsFit {c' : Chain World} {owner : Address} {pairs : List (JobParams × ℤ)}
    {ids : List JobId}
    (h : insertJobs owner pairs c = .ok (ids, c')) (hfits : c.reg.jobs.nextJobId ≤ u64Max) :
    c'.reg.jobs.nextJobId ≤ u64Max := by
  refine insertJobs_invariant (I := fun _ c => c.reg.jobs.nextJobId ≤ u64Max) ?_ hfits h
  intro params deposit rest c hroom _
  exact hroom

theorem jobCall_idsFit {c' : Chain World} {call : JobCall} (h : jobCall host ctx c call = .ok c')
    (hfits : c.reg.jobs.nextJobId ≤ u64Max) : c'.reg.jobs.nextJobId ≤ u64Max := by
  cases call with
  | createJob owner params deposit =>
      obtain ⟨id, h⟩ := Result.chain_eq_ok.mp h
      obtain ⟨-, -, -, paid, hpaid, hinsert⟩ := createJob_eq_ok h
      obtain ⟨-, rfl⟩ := Chain.transfer_eq_ok.mp hpaid
      apply insertJobs_idsFit (insertJobs_one hinsert)
      exact hfits
  | createJobs owner jobs deposits =>
      obtain ⟨ids, h⟩ := Result.chain_eq_ok.mp h
      obtain ⟨-, -, -, -, paid, hpaid, hinsert⟩ := createJobs_eq_ok h
      obtain ⟨-, rfl⟩ := Chain.transfer_eq_ok.mp hpaid
      apply insertJobs_idsFit hinsert
      exact hfits
  | updateJob jobId update =>
      obtain ⟨-, spec, state, interval, leaderRuns, -, -, -, -, rfl⟩ := updateJob_eq_ok h
      exact hfits
  | fundJob payer jobId amount =>
      obtain ⟨balance, h⟩ := Result.chain_eq_ok.mp h
      obtain ⟨-, -, state, -, -, -, rfl⟩ := fundJob_eq_ok h
      exact hfits
  | cancelJob jobId =>
      obtain ⟨refund, h⟩ := Result.chain_eq_ok.mp h
      obtain ⟨spec, state, paid, -, -, hpaid, -, rfl⟩ := cancelJob_eq_ok.mp h
      rw [Chain.payOut_frame hpaid]
      exact hfits
  | withdrawJobBalance jobId amount =>
      obtain ⟨balance, h⟩ := Result.chain_eq_ok.mp h
      obtain ⟨spec, state, -, -, -, -, -, -, -, paid, hpaid, rfl⟩ := withdrawJobBalance_eq_ok.mp h
      obtain ⟨-, rfl⟩ := Chain.transfer_eq_ok.mp hpaid
      exact hfits
  | setJobActive jobId active =>
      obtain ⟨spec, state, -, -, rfl⟩ := setJobActive_eq_ok h
      exact hfits
  | proposeJobOwner jobId newOwner =>
      obtain ⟨spec, -, -, rfl⟩ := proposeJobOwner_eq_ok h
      dsimp only [Chain.publish_reg]
      split
      · exact hfits
      · exact hfits
  | acceptJobOwner jobId =>
      obtain ⟨spec, newOwner, -, -, -, rfl⟩ := acceptJobOwner_eq_ok h
      exact hfits

theorem step_idsFit (action : Action World) (hsound : c.Sound host)
    (hfits : c.reg.jobs.nextJobId ≤ u64Max) : (step host c action).reg.jobs.nextJobId ≤ u64Max := by
  cases action with
  | call ctx call =>
      rcases step_call_cases host c ctx call with ⟨hcall, -⟩ | ⟨hsame, -⟩
      · cases call with
        | job call => exact jobCall_idsFit hcall hfits
        | run call =>
            obtain ⟨executor, info, ran, b, -, hruns, hfinish, -⟩ := runCall_eq_ok hcall
            have hunder := runJobs_underway hsound.config hsound.jobs hruns
            rw [finish_eq_ok hunder.keeperFees hunder.protocolFees hfinish]
            refine runJobs_invariant (I := fun b => b.chain.reg.jobs.nextJobId ≤ u64Max) ?_ ?_
              hfits hruns
            · exact fun b jobId spec hunder => hunder
            · intro b b' jobId r hunder hran
              rw [hran.reg]
              exact hunder
        | keeper call =>
            rw [(keeperCall_keepersOnly hcall).reg]
            exact hfits
        | admin call =>
            obtain ⟨-, -, hc⟩ := adminCall_eq_ok hcall
            rw [hc, Chain.publish_reg, (adminCall_settingsOnly call c.reg c.now).jobs]
            exact hfits
      · rw [hsame]
        exact hfits
  | _ => exact hfits

theorem Reachable.idsFit (hreach : Reachable host c) : c.reg.jobs.nextJobId ≤ u64Max := by
  refine hreach.invariant (I := fun c => c.reg.jobs.nextJobId ≤ u64Max) ?_ ?_
  · intro c hdeployed
    obtain ⟨config, hreg, -, -⟩ := hdeployed.fresh
    rw [hreg]
    exact Nat.zero_le _
  · intro c action hreach hadm hfits
    exact step_idsFit action hreach.sound hfits

end SoroCron
