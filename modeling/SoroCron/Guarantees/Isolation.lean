import SoroCron.Registry.Deployment
import SoroCron.Registry.Entries

/-! # Jobs are isolated

Without its owner a job changes only by being funded, by being run, and by whoever it was
offered to taking it over; and no call changes a job that it does not name.
-/

namespace SoroCron

open Outcome Bounded

variable {World : Type} {host : Host World} {c : Chain World} {ctx : Ctx} {now : Timestamp}
  {jobs jobs' : JobTable} {id : JobId} {act : JobAct World} {spec : JobSpec}
    {state state' : JobState}

/-! ## One write -/

/-- What anybody can do to the state of a job with settings `spec`. -/
inductive StrangerChange (spec : JobSpec) : JobAct World → JobState → JobState → Prop where
  | funded {amount : ℤ} {state : JobState} :
      StrangerChange spec (.funded amount) state { state with balance := state.balance + amount }
  | ran {execution : Execution World} {state state' : JobState}
      (hceiling : execution.fee ≤ max spec.feePerRun spec.maxFeePerRun)
      (hcharged : state'.balance = state.balance - execution.fee) :
      StrangerChange spec (.ran execution) state state'

/-- A write that neither the owner nor the job's next owner signed. -/
theorem JobWrite.stranger (h : JobWrite host ctx now (id, act) jobs jobs') (hsound : jobs.Sound)
    (hparts : jobs.getJobParts id = some (spec, state)) (howner : spec.owner ∉ ctx.signers)
    (hnext : act = .handedOver → ∀ next ∈ jobs.pendingOwners.get id, next ∉ ctx.signers) :
    ∃ state', jobs'.entries id = (some spec, some state', jobs.pendingOwners.get id) ∧
      StrangerChange spec act state state' := by
  have hspec := JobTable.specs_get_of_parts hparts
  have hset : ∀ state', (jobs.setState id state').entries id =
      (some spec, some state', jobs.pendingOwners.get id) := by
    intro state'
    simp [JobTable.entries, hspec]
  cases h with
  | created =>
      rw [(hsound.fresh le_rfl).1] at hspec
      cases hspec
  | updated hfound hsigned =>
      cases hparts.symm.trans hfound
      exact absurd hsigned howner
  | withdrawn hfound hsigned =>
      cases hparts.symm.trans hfound
      exact absurd hsigned howner
  | activeSet hfound hsigned =>
      cases hparts.symm.trans hfound
      exact absurd hsigned howner
  | cancelled hfound hsigned =>
      cases hparts.symm.trans hfound
      exact absurd hsigned howner
  | handedOver hfound hoffered hsigned => exact absurd hsigned.1 (hnext rfl _ hoffered)
  | funded hfound hpos =>
      cases hparts.symm.trans hfound
      exact ⟨_, hset _, .funded⟩
  | ran hnow hlive hconfig hsigned hran =>
      cases hparts.symm.trans hran.admitted.parts
      refine ⟨_, hset _, .ran ?_ ?_⟩
      · rw [hran.fee hsound hconfig]
        exact rampedFee_le hran.priced.fee
      · rw [hran.fee hsound hconfig]
        exact hran.balance_eq

/-! ## One step -/

/-- A step that neither the owner nor the job's next owner signed. -/
theorem step_stranger {action : Action World} (hsound : c.Sound host)
    (hadm : Admissible host c action) (hparts : c.reg.jobs.getJobParts id = some (spec, state))
    (howner : spec.owner ∉ action.signedBy.signers)
    (hnext : ∀ ctx, action = .call ctx (.job (.acceptJobOwner id)) →
      ∀ next ∈ c.reg.jobs.pendingOwners.get id, next ∉ ctx.signers) :
    ∃ state', (step host c action).reg.jobs.entries id =
        (some spec, some state', c.reg.jobs.pendingOwners.get id) ∧
      Life (StrangerChange spec) (jobActs id (acts host c action)) state state' := by
  have hentries : c.reg.jobs.entries id =
      (some spec, some state, c.reg.jobs.pendingOwners.get id) := by
    rw [JobTable.entries, JobTable.specs_get_of_parts hparts, JobTable.states_get_of_parts hparts]
  rcases step_writes action hsound hadm with ⟨ctx, jobId, newOwner, found, rfl, hacts, hoffered⟩ |
    hlife
  · refine ⟨state, ?_, ?_⟩
    · rw [hoffered.entries_of_ne, hentries]
      rintro rfl
      have hsame := hoffered.found.symm.trans (JobTable.specs_get_of_parts hparts)
      cases hsame
      exact howner hoffered.signed.1
    · rw [hacts]
      exact .nil state
  · have htaken : ∀ step ∈ jobSteps (acts host c action), step = (id, .handedOver) →
        ∀ next ∈ c.reg.jobs.pendingOwners.get id, next ∉ action.signedBy.signers := by
      rintro step hmem rfl
      obtain ⟨ctx, call, rfl, hdoes⟩ := does_of_mem hmem
      cases hdoes.of_handedOver
      exact hnext ctx rfl
    rw [jobActs_eq]
    refine (hlife.restrict htaken).history (J := fun past later => ∃ state',
      later.entries id = (some spec, some state', c.reg.jobs.pendingOwners.get id) ∧
        Life (StrangerChange spec) (doneTo id past) state state') ?_ []
          ⟨state, hentries, .nil state⟩
    rintro past ⟨other, act⟩ before after ⟨found, hfound, hpast⟩ ⟨hkept, hsound, hwrite⟩
    rw [doneTo_append]
    by_cases heq : other = id
    · subst heq
      simp only [JobTable.entries, Prod.mk.injEq] at hfound
      obtain ⟨hspec, hstate, hpending⟩ := hfound
      have hboth := hwrite.stranger hsound
        (JobTable.getJobParts_eq_some.mpr ⟨hspec, hstate⟩) howner ?_
      · obtain ⟨state', hafter, hchange⟩ := hboth
        rw [hpending] at hafter
        rw [doneTo_cons_self]
        exact ⟨state', hafter, hpast.append (.single hchange)⟩
      · rintro rfl
        rw [hpending]
        exact hkept rfl
    · rw [doneTo_cons_of_ne act [] heq]
      refine ⟨found, (hwrite.entries_of_ne (Ne.symm heq)).trans hfound, ?_⟩
      exact (List.append_nil (doneTo id past)).symm ▸ hpast

/-! ## What a stranger can do -/

theorem charged_of_runs {done : List (JobAct World)}
    (h : Life (StrangerChange spec) done state state')
    (hruns : ∀ act ∈ done, ∃ execution, act = .ran execution) :
    state'.balance = state.balance - ((runsIn done).map Execution.fee).sum ∧
      ∀ execution ∈ runsIn done, execution.fee ≤ max spec.feePerRun spec.maxFeePerRun := by
  induction h with
  | nil => simp [runsIn]
  | cons hone _ ih =>
      obtain ⟨hcharged, hceiling⟩ := ih fun act hmem => hruns act (List.mem_cons_of_mem _ hmem)
      cases hone with
      | funded =>
          obtain ⟨execution, hact⟩ := hruns _ List.mem_cons_self
          cases hact
      | ran hfee hbalance =>
          rw [runsIn_ran, List.map_cons, List.sum_cons, hcharged, hbalance]
          refine ⟨by omega, ?_⟩
          intro execution hmem
          rcases List.mem_cons.mp hmem with rfl | hmem
          · exact hfee
          · exact hceiling execution hmem

/-- Without a run and without funding nothing happened. -/
theorem same_of_stranger {done : List (JobAct World)}
    (h : Life (StrangerChange spec) done state state')
    (hnone : ∀ act ∈ done, (∀ amount, act ≠ .funded amount) ∧ ∀ execution, act ≠ .ran execution) :
    state' = state := by
  cases h with
  | nil => rfl
  | cons hone _ =>
      obtain ⟨hfunded, hran⟩ := hnone _ List.mem_cons_self
      cases hone with
      | funded => exact absurd rfl (hfunded _)
      | ran => exact absurd rfl (hran _)

/-- What can happen to the state of a job in a step that neither its owner nor its next owner
signed: nothing, a funding, or runs in a call that lists it. -/
def Untouched (host : Host World) (c : Chain World) (action : Action World) (id : JobId)
    (spec : JobSpec) (state state' : JobState) : Prop :=
  state' = state ∨
    (∃ ctx payer amount, action = .call ctx (.job (.fundJob payer id amount)) ∧
      state' = { state with balance := state.balance + amount }) ∨
    ∃ ctx call, action = .call ctx (.run call) ∧ id ∈ call.jobIds ∧
      runsIn (jobActs id (acts host c action)) ≠ [] ∧
      state'.balance =
        state.balance - ((runsIn (jobActs id (acts host c action))).map Execution.fee).sum ∧
      ∀ execution ∈ runsIn (jobActs id (acts host c action)),
        execution.fee ≤ max spec.feePerRun spec.maxFeePerRun

theorem untouched_of_life {action : Action World}
    (h : Life (StrangerChange spec) (jobActs id (acts host c action)) state state') :
    Untouched host c action id spec state state' := by
  by_cases hnone : ∀ act ∈ jobActs id (acts host c action),
      (∀ amount, act ≠ .funded amount) ∧ ∀ execution, act ≠ .ran execution
  · exact .inl (same_of_stranger h hnone)
  · push Not at hnone
    obtain ⟨act, hmem, hact⟩ := hnone
    obtain ⟨ctx, call, rfl, hdoes⟩ := does_of_mem (mem_jobSteps_of_jobActs hmem)
    cases call with
    | run call =>
        -- One call that runs jobs does nothing but run them.
        obtain ⟨hlisted, execution, rfl⟩ := hdoes
        have hruns : ∀ act ∈ jobActs id (acts host c (.call ctx (.run call))),
            ∃ execution, act = .ran execution := by
          intro act hmem
          obtain ⟨_, _, hsame, hdoes⟩ := does_of_mem (mem_jobSteps_of_jobActs hmem)
          cases hsame
          exact hdoes.2
        obtain ⟨hcharged, hceiling⟩ := charged_of_runs h hruns
        refine .inr (.inr ⟨ctx, call, rfl, hlisted, ?_, hcharged, hceiling⟩)
        exact List.ne_nil_of_mem (List.mem_filterMap.mpr ⟨_, hmem, rfl⟩)
    | keeper call => cases hdoes
    | admin call => cases hdoes
    | job call =>
        cases call with
        | fundJob payer jobId amount =>
            obtain ⟨rfl, rfl⟩ := hdoes
            have hacts : jobActs jobId
                (acts host c (.call ctx (.job (.fundJob payer jobId amount)))) =
                [.funded amount] := by
              rcases step_call_cases host c ctx
                (.job (.fundJob payer jobId amount)) with ⟨-, hacts⟩ | ⟨-, hacts⟩
              · rw [hacts]
                simp [actsOf, jobActs]
              · rw [hacts] at hmem
                cases hmem
            rw [hacts] at h
            cases h with
            | cons hone hrest =>
                cases hone
                cases hrest
                exact .inr (.inl ⟨ctx, payer, amount, rfl, rfl⟩)
        | createJob owner params deposit =>
            obtain ⟨-, _, _, _, rfl⟩ := hdoes
            obtain ⟨execution, hran⟩ := hact fun amount hfund => by cases hfund
            cases hran
        | createJobs owner jobs deposits =>
            obtain ⟨-, _, _, _, rfl⟩ := hdoes
            obtain ⟨execution, hran⟩ := hact fun amount hfund => by cases hfund
            cases hran
        | proposeJobOwner jobId newOwner => cases hdoes
        | _ =>
            obtain ⟨-, rfl⟩ := hdoes
            obtain ⟨execution, hran⟩ := hact fun amount hfund => by cases hfund
            cases hran

/-- In every reachable chain, for every live job and whatever happens next: if neither the owner
nor, where it accepts the job, the pending owner signed, the job keeps its settings and its pending
owner, and its state changes only by a funding of exactly the amount or by runs in a call that
lists it, each charging at most the higher of its two fees. What does not name the job, whoever
signed it, changes nothing of it. -/
theorem job_isolated (hreach : Reachable host c) {action : Action World}
    (hadm : Admissible host c action) (hparts : c.reg.jobs.getJobParts id = some (spec, state)) :
    (spec.owner ∉ action.signedBy.signers →
        (∀ ctx, action = .call ctx (.job (.acceptJobOwner id)) →
          ∀ next ∈ c.reg.jobs.pendingOwners.get id, next ∉ ctx.signers) →
        ∃ state', (step host c action).reg.jobs.entries id =
            (some spec, some state', c.reg.jobs.pendingOwners.get id) ∧
          Untouched host c action id spec state state') ∧
      (¬ action.Names id → (step host c action).reg.jobs.entries id = c.reg.jobs.entries id) := by
  have hsound := hreach.sound
  refine ⟨?_, ?_⟩
  · intro howner hnext
    obtain ⟨state', hentries, hlife⟩ := step_stranger hsound hadm hparts howner hnext
    exact ⟨state', hentries, untouched_of_life hlife⟩
  · intro hunnamed
    have hissued := hsound.jobs.issued id
      (JobTable.mem_states_keys (JobTable.states_get_of_parts hparts))
    exact entries_of_unnamed hsound hadm hissued hunnamed

/-- The first job after its first run. -/
def ranState : JobState where
  nextRun := 1120
  balance := 40
  runs := 1
  failures := 0
  active := true
  leaderRuns := 0

/-- Somebody else runs the first job again. -/
theorem job_isolated_strangerRuns :
    let c := (machine plainHost).run (deployment ⟨3⟩ 1000 100 10 1000) (firstRun ++ [.advance 1130])
    let action := Action.call ⟨[⟨4⟩]⟩ (.run (.execute ⟨4⟩ 0))
    ∃ state', (step plainHost c action).reg.jobs.entries 0 =
      (some (minutely.toSpec ⟨5⟩), some state', none) ∧
      Untouched plainHost c action 0 (minutely.toSpec ⟨5⟩) ranState state' := by
  intro c action
  have hadm : (machine plainHost).Along (Admissible plainHost) (deployment ⟨3⟩ 1000 100 10 1000)
      (firstRun ++ [.advance 1130]) := by
    refine Machine.along_append.mpr ⟨firstRun_admissible _, ?_⟩
    simp [Machine.Along, Admissible, u64Max]
  have hreach : Reachable plainHost c :=
    ⟨_, _, deployment_deployed ⟨3⟩ 10 1000 (by decide) (by decide), hadm, rfl⟩
  have hparts : c.reg.jobs.getJobParts 0 = some (minutely.toSpec ⟨5⟩, ranState) := rfl
  have hadmitted : Admissible plainHost c action := trivial
  have hnot : ∀ ctx, action = .call ctx (.job (.acceptJobOwner 0)) →
      ∀ next ∈ c.reg.jobs.pendingOwners.get 0, next ∉ ctx.signers := by
    intro ctx hcall
    simp [action] at hcall
  exact (job_isolated hreach hadmitted hparts).1 (by decide) hnot

end SoroCron
