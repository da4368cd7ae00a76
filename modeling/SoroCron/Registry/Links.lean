import SoroCron.Registry.Lives

/-! # Links between jobs

What a job records of the run count of the job it follows: at the moment it is linked the
leader's runs so far, and then at each of its own runs the leader's runs again.
-/

namespace SoroCron

open Outcome Bounded

variable {World : Type} {host : Host World} {ctx : Ctx} {now : Timestamp} {jobs jobs' : JobTable}
  {id : JobId} {act : JobAct World}

/-! ## What one write records -/

/-- The link of a job after something was done to it, given the table and the job's phase before. -/
def JobAct.Links (jobs : JobTable) (id : JobId) (before : JobPhase) (spec' : JobSpec)
    (state' : JobState) : JobAct World → Prop
  | .created _ params _ =>
      spec'.after = params.after ∧ (∀ leader ∈ params.after, jobs.states.get leader ≠ none) ∧
        state'.leaderRuns = initialLeaderRuns jobs params.after
  | .updated update =>
      ∃ spec state, before = .live spec state ∧ spec'.after = update.after ∧
        Relinked jobs id spec state update.after state'.leaderRuns
  | .ran _ =>
      ∃ spec state, before = .live spec state ∧ spec'.after = spec.after ∧
        dependencyMet jobs spec state = .ok state'.leaderRuns
  | .cancelled => False
  | _ =>
      ∃ spec state, before = .live spec state ∧ spec'.after = spec.after ∧
        state'.leaderRuns = state.leaderRuns

theorem JobWrite.links (h : JobWrite host ctx now (id, act) jobs jobs') (hsound : jobs.Sound)
    {spec' : JobSpec} {state' : JobState} (hafter : jobs'.phase id = .live spec' state') :
    act.Links jobs id (jobs.phase id) spec' state' := by
  obtain ⟨hchange, -⟩ := h.change hsound
  cases h with
  | @created _ owner params deposit hsigned hspec htyped hleader =>
      cases (phase_withJob jobs now owner params deposit).symm.trans hafter
      exact ⟨rfl, hleader, rfl⟩
  | updated hparts hsigned hspec hleader =>
      rw [phase_setState _ (Store.get_set_self _ _ _)] at hafter
      cases hafter
      exact ⟨_, _, phase_of_parts hparts, rfl, hleader⟩
  | @handedOver _ _ newOwner spec state hparts hoffered hsigned =>
      cases (phase_handedOver newOwner hparts).symm.trans hafter
      exact ⟨_, _, phase_of_parts hparts, rfl, rfl⟩
  | cancelled hparts hsigned =>
      rw [hchange.gone_of_cancelled] at hafter
      cases hafter
  | ran hnow hlive hconfig hsigned hran =>
      have hparts := hran.admitted.parts
      rw [phase_setState _ (JobTable.specs_get_of_parts hparts)] at hafter
      cases hafter
      exact ⟨_, _, phase_of_parts hparts, rfl, hran.admitted.dependency⟩
  | funded hparts hpos =>
      rw [phase_setState _ (JobTable.specs_get_of_parts hparts)] at hafter
      cases hafter
      exact ⟨_, _, phase_of_parts hparts, rfl, rfl⟩
  | withdrawn hparts hsigned hpos hle =>
      rw [phase_setState _ (JobTable.specs_get_of_parts hparts)] at hafter
      cases hafter
      exact ⟨_, _, phase_of_parts hparts, rfl, rfl⟩
  | activeSet hparts hsigned =>
      rw [phase_setState _ (JobTable.specs_get_of_parts hparts)] at hafter
      cases hafter
      exact ⟨_, _, phase_of_parts hparts, rfl, rfl⟩

/-- What one thing done to a job makes of its run count. -/
theorem JobChange.runs {before after : JobPhase} {spec spec' : JobSpec} {state state' : JobState}
    (h : JobChange host now act before after) (hbefore : before = .live spec state)
    (hafter : after = .live spec' state') : state'.runs = min (state.runs + runCount [act]) u32Max ∨
      (runCount [act] = 0 ∧ state'.runs = state.runs) := by
  cases h with
  | ran hnow hlive hconfig hjobs hran =>
      cases hbefore
      cases hafter
      exact .inl rfl
  | created howner hspec => cases hbefore
  | cancelled => cases hafter
  | _ =>
      cases hbefore
      cases hafter
      exact .inr ⟨rfl, rfl⟩

/-! ## One link -/

/-- A leader's run count as seen through its phase. -/
theorem states_of_phase {jobs : JobTable} {leader : JobId} {spec : JobSpec} {state : JobState}
    (h : jobs.phase leader = .live spec state) : jobs.states.get leader = some state :=
  JobTable.states_get_of_parts (parts_of_phase h)

theorem JobTable.Sound.phase_of_state (hsound : jobs.Sound) {state : JobState}
    (hstate : jobs.states.get id = some state) : ∃ spec, jobs.phase id = .live spec state := by
  obtain ⟨spec, hspec⟩ := hsound.spec_of_state hstate
  exact ⟨spec, phase_live hspec hstate⟩

/-- `follower` follows `leader` and has not run more often than the leader since they were
linked, `ran` and `led` being the runs of each since then. -/
def Follows (follower leader : JobId) (phases : JobId → JobPhase) (ran led : ℕ) : Prop :=
  ran ≤ led ∧
    match phases follower with
    | .future => False
    | .live spec state =>
        spec.after = some leader ∧
          match phases leader with
          | .future => False
          | .live _ leading => ran + (leading.runs - state.leaderRuns) ≤ led
          | .gone => True
    | .gone => True

/-- A run of the follower needs a run of the leader that it has not recorded yet. -/
theorem dependencyMet_of_link {spec : JobSpec} {state : JobState} {leader : JobId} {leaderRuns : ℕ}
    (h : dependencyMet jobs spec state = .ok leaderRuns) (hlink : spec.after = some leader) :
    ∃ leading, jobs.states.get leader = some leading ∧ state.leaderRuns < leading.runs ∧
      leaderRuns = leading.runs := by
  unfold dependencyMet at h
  rw [hlink] at h
  dsimp only at h
  split at h
  next leading hleading =>
    split at h
    next hmore =>
      cases h
      exact ⟨leading, hleading, hmore, rfl⟩
    next => cases h
  next => cases h

/-- What one write does to a link that it does not replace. -/
theorem Follows.step {follower leader : JobId} {ran led : ℕ} {done : JobId × JobAct World}
    {before after : JobId → JobPhase} (hother : leader ≠ follower)
    (h : Follows follower leader before ran led) (hchange : PhasesChange host now done before after)
    (hkept : ∀ update, done = (follower, .updated update) → update.after = some leader) :
    Follows follower leader after (ran + runCount (doneTo follower [done]))
      (led + runCount (doneTo leader [done])) := by
  obtain ⟨ctx, jobs, jobs', ⟨hsound, hwrite⟩, rfl, rfl⟩ := hchange
  obtain ⟨id, act⟩ := done
  obtain ⟨hchange, hothers⟩ := hwrite.change hsound
  obtain ⟨-, hissued, hended⟩ := hchange.gone
  obtain ⟨hle, hlink⟩ := h
  -- Written is the follower, its leader, or neither of them.
  by_cases hid : id = follower
  · subst hid
    have hleader := hothers leader hother
    have hcounts : runCount (doneTo id [(id, act)]) = runCount [act] ∧
        runCount (doneTo leader [(id, act)]) = 0 := by
      rw [doneTo_cons_self, doneTo_cons_of_ne _ _ hother.symm]
      exact ⟨rfl, rfl⟩
    rw [hcounts.1, hcounts.2]
    unfold Follows
    cases hafter : jobs'.phase id with
    | future => exact absurd hafter hissued
    | gone =>
        rw [hended hafter]
        exact ⟨hle, trivial⟩
    -- The follower is still there; the leader did not change.
    | live spec' state' =>
        have hlinks := hwrite.links hsound hafter
        rw [hleader]
        dsimp only
        cases act with
        | created owner params deposit =>
            rw [hchange.before_of_created] at hlink
            cases hlink
        | cancelled => cases hlinks
        | updated update =>
            obtain ⟨spec, state, hbefore, hsame, hrelinked⟩ := hlinks
            rw [hbefore] at hlink
            obtain ⟨hspec, hruns⟩ := hlink
            -- Every update names the same leader, so what is recorded of it stays.
            have hupdate := hkept update rfl
            unfold Relinked at hrelinked
            rw [if_pos (hupdate.trans hspec.symm)] at hrelinked
            rw [hsame, hrelinked]
            exact ⟨hle, hupdate, hruns⟩
        | ran execution =>
            obtain ⟨spec, state, hbefore, hsame, hmet⟩ := hlinks
            rw [hbefore] at hlink
            obtain ⟨hspec, hruns⟩ := hlink
            obtain ⟨leading, hleading, hmore, hrecorded⟩ := dependencyMet_of_link hmet hspec
            obtain ⟨leaderSpec, hphase⟩ := hsound.phase_of_state hleading
            rw [hphase] at hruns ⊢
            dsimp only at hruns ⊢
            -- A run is let through only if the leader was ahead, and catches up with it.
            have hone : runCount [JobAct.ran execution] = 1 := rfl
            rw [hsame, hrecorded, hone]
            exact ⟨by omega, hspec, by omega⟩
        | _ =>
            obtain ⟨spec, state, hbefore, hsame, hrecorded⟩ := hlinks
            rw [hbefore] at hlink
            rw [hsame, hrecorded]
            exact ⟨hle, hlink⟩
  · have hfollower := hothers follower (Ne.symm hid)
    have hnone : runCount (doneTo follower [(id, act)]) = 0 := by
      rw [doneTo_cons_of_ne _ _ hid]
      rfl
    rw [hnone]
    unfold Follows
    rw [hfollower]
    refine ⟨hle.trans (Nat.le_add_right _ _), ?_⟩
    cases hphase : jobs.phase follower with
    | future =>
        rw [hphase] at hlink
        cases hlink
    | gone => trivial
    | live spec state =>
        rw [hphase] at hlink
        obtain ⟨hspec, hruns⟩ := hlink
        refine ⟨hspec, ?_⟩
        by_cases hled : id = leader
        · -- Each run of the leader adds one to what its follower may still record.
          subst hled
          have hself : doneTo id [(id, act)] = [act] := doneTo_cons_self id act []
          rw [hself]
          cases hafter : jobs'.phase id with
          | future => exact absurd hafter hissued
          | gone => trivial
          | live leaderSpec' leading' =>
              cases hbefore : jobs.phase id with
              | future =>
                  rw [hbefore] at hruns
                  cases hruns
              | gone => exact absurd hbefore hchange.gone.1
              | live leaderSpec leading =>
                  rw [hbefore] at hruns
                  dsimp only at hruns ⊢
                  rcases hchange.runs hbefore hafter with hmore | ⟨-, hsame⟩
                  · omega
                  · omega
        · have hleader := hothers leader (Ne.symm hled)
          have hnoLead : runCount (doneTo leader [(id, act)]) = 0 := by
            rw [doneTo_cons_of_ne _ _ hled]
            rfl
          rw [hleader, hnoLead]
          exact hruns

theorem Follows.life {follower leader : JobId} {ran led : ℕ} {acts : List (JobId × JobAct World)}
    {before after : Timestamp × (JobId → JobPhase)} (hother : leader ≠ follower)
    (h : Follows follower leader before.2 ran led)
    (hlife : Life (Timed (PhasesChange host)) acts before after)
    (hkept : ∀ update, (follower, .updated update) ∈ acts → update.after = some leader) :
    Follows follower leader after.2 (ran + runCount (doneTo follower acts))
      (led + runCount (doneTo leader acts)) := by
  have hall : ∀ done ∈ acts, ∀ update, done = (follower, .updated update) →
      update.after = some leader := by
    rintro done hmem update rfl
    exact hkept update hmem
  refine (hlife.restrict hall).history (J := fun past phases =>
    Follows follower leader phases.2 (ran + runCount (doneTo follower past))
      (led + runCount (doneTo leader past))) ?_ [] h
  rintro past done before after hbefore ⟨hdone, -, hchange⟩
  have hstep := hbefore.step hother hchange hdone
  rw [doneTo_append, doneTo_append, runCount_append,
    runCount_append, ← Nat.add_assoc, ← Nat.add_assoc]
  exact hstep

/-- A link whose follower has recorded all of its leader's runs. -/
theorem follows_fresh {follower leader : JobId} {phases : JobId → JobPhase} {spec : JobSpec}
    {state : JobState} (hlive : phases follower = .live spec state)
    (hlink : spec.after = some leader) (hissued : phases leader ≠ .future)
    (hrecorded : ∀ leaderSpec leading, phases leader = .live leaderSpec leading →
      state.leaderRuns = leading.runs) : Follows follower leader phases 0 0 := by
  unfold Follows
  rw [hlive]
  refine ⟨le_rfl, hlink, ?_⟩
  cases hphase : phases leader with
  | future => exact absurd hphase hissued
  | gone => trivial
  | live leaderSpec leading =>
      dsimp only
      rw [hrecorded leaderSpec leading hphase]
      omega

theorem JobWrite.ran_before {execution : Execution World}
    (h : JobWrite host ctx now (id, .ran execution) jobs jobs') :
    jobs = execution.before.chain.reg.jobs := by
  cases h
  rfl

/-- A run of the follower is behind the leader's runs, finds the leader live, and starts the
count again. -/
theorem Follows.ran {follower leader : JobId} {ran led : ℕ} {execution : Execution World}
    {before after : JobId → JobPhase} (hother : leader ≠ follower)
    (h : Follows follower leader before ran led)
    (hchange : PhasesChange host now (follower, .ran execution) before after) :
    ran < led ∧ (execution.before.chain.reg.jobs.states.get leader).isSome = true ∧
      Follows follower leader after 0 0 := by
  have hstep := h.step hother hchange nofun
  rw [doneTo_cons_self, doneTo_cons_of_ne _ _ hother.symm] at hstep
  have hmore : ran + 1 ≤ led := hstep.1
  obtain ⟨ctx, jobs, jobs', ⟨hsound, hwrite⟩, rfl, rfl⟩ := hchange
  obtain ⟨hchange, hothers⟩ := hwrite.change hsound
  obtain ⟨r, -, -, -, -, -, -, hbefore, hafter⟩ := hchange.ran_inv
  obtain ⟨spec, state, hfound, hsame, hmet⟩ := hwrite.links hsound hafter
  have hlink := h.2
  rw [hfound] at hlink
  obtain ⟨leading, hleading, -, hrecorded⟩ := dependencyMet_of_link hmet hlink.1
  obtain ⟨leaderSpec, hphase⟩ := hsound.phase_of_state hleading
  refine ⟨hmore, ?_, follows_fresh hafter (hsame.trans hlink.1) ?_ ?_⟩
  · rw [← hwrite.ran_before, hleading]
    rfl
  · rw [hothers leader hother, hphase]
    nofun
  · intro leaderSpec' leading' hleader
    rw [hothers leader hother, hphase] at hleader
    cases hleader
    exact hrecorded

/-! ## All links -/

/-- Every live job follows another job that was there, and has recorded no run that its
leader did not make. -/
def Linked (phases : JobId → JobPhase) : Prop :=
  ∀ follower leader spec state, phases follower = .live spec state → spec.after = some leader →
    leader ≠ follower ∧ phases leader ≠ .future ∧
      ∀ leaderSpec leading, phases leader = .live leaderSpec leading →
        state.leaderRuns ≤ leading.runs

theorem initialLeaderRuns_of_phase {leader : JobId} {spec : JobSpec} {state : JobState}
    (h : jobs.phase leader = .live spec state) :
    initialLeaderRuns jobs (some leader) = state.runs := by
  simp [initialLeaderRuns, states_of_phase h]

/-- What a job has just been linked to: another live job, at its present run count. -/
theorem JobWrite.linked_now {leader : JobId} {spec' : JobSpec} {state' : JobState}
    (h : JobWrite host ctx now (id, act) jobs jobs') (hsound : jobs.Sound)
    (hafter : jobs'.phase id = .live spec' state') (hlink : spec'.after = some leader)
    (hnew : ∀ spec state, jobs.phase id = .live spec state → spec.after ≠ some leader) :
    leader ≠ id ∧ ∃ leaderSpec leading, jobs'.phase leader = .live leaderSpec leading ∧
      state'.leaderRuns = leading.runs := by
  obtain ⟨hchange, hothers⟩ := h.change hsound
  -- Creating and updating record the leader's run count in the same way.
  have hrecorded : ∀ {after : Option JobId}, spec'.after = after →
      (leader ≠ id ∧ jobs.states.get leader ≠ none) →
      state'.leaderRuns = initialLeaderRuns jobs after →
      leader ≠ id ∧ ∃ leaderSpec leading, jobs'.phase leader = .live leaderSpec leading ∧
        state'.leaderRuns = leading.runs := by
    rintro after hsame ⟨hother, hlive⟩ hruns
    obtain ⟨leading, hleading⟩ := Option.ne_none_iff_exists'.mp hlive
    obtain ⟨leaderSpec, hphase⟩ := hsound.phase_of_state hleading
    refine ⟨hother, leaderSpec, leading, (hothers leader hother).trans hphase, ?_⟩
    rw [hruns, ← hsame, hlink, initialLeaderRuns_of_phase hphase]
  have hlinks := h.links hsound hafter
  cases act with
  | created owner params deposit =>
      obtain ⟨hsame, hlive, hruns⟩ := hlinks
      have hleader := hlive leader (hsame.symm.trans hlink)
      refine hrecorded hsame ⟨?_, hleader⟩ hruns
      -- A new job was nowhere before, so it is not its own leader.
      rintro rfl
      obtain ⟨leading, hleading⟩ := Option.ne_none_iff_exists'.mp hleader
      obtain ⟨leaderSpec, hphase⟩ := hsound.phase_of_state hleading
      rw [hchange.before_of_created] at hphase
      cases hphase
  | updated update =>
      obtain ⟨spec, state, hbefore, hsame, hrelinked⟩ := hlinks
      unfold Relinked at hrelinked
      rw [if_neg] at hrelinked
      · exact hrecorded hsame (hrelinked.1 leader (hsame.symm.trans hlink)) hrelinked.2
      · intro hkept
        exact hnew spec state hbefore (hkept.symm.trans (hsame.symm.trans hlink))
  | cancelled => cases hlinks
  | ran execution =>
      obtain ⟨spec, state, hbefore, hsame, -⟩ := hlinks
      exact absurd (hsame.symm.trans hlink) (hnew spec state hbefore)
  | _ =>
      obtain ⟨spec, state, hbefore, hsame, -⟩ := hlinks
      exact absurd (hsame.symm.trans hlink) (hnew spec state hbefore)

/-- What one write makes of a link that was there before it. -/
theorem JobAct.Links.kept {leader : JobId} {before : JobPhase} {spec spec' : JobSpec}
    {state state' : JobState}
    (h : act.Links jobs id before spec' state') (hbefore : before = .live spec state)
    (hcreated : ∀ owner params deposit, act ≠ .created owner params deposit)
    (hlink : spec.after = some leader) (hlink' : spec'.after = some leader) :
    state'.leaderRuns = state.leaderRuns ∨
      ∃ leading, jobs.states.get leader = some leading ∧ state'.leaderRuns = leading.runs := by
  subst hbefore
  cases act with
  | created owner params deposit => exact absurd rfl (hcreated owner params deposit)
  | cancelled => cases h
  | updated update =>
      obtain ⟨_, _, hbefore, hsame, hrelinked⟩ := h
      cases hbefore
      unfold Relinked at hrelinked
      rw [if_pos (hsame.symm.trans (hlink'.trans hlink.symm))] at hrelinked
      exact .inl hrelinked
  | ran execution =>
      obtain ⟨_, _, hbefore, -, hmet⟩ := h
      cases hbefore
      obtain ⟨leading, hleading, -, hrecorded⟩ := dependencyMet_of_link hmet hlink
      exact .inr ⟨leading, hleading, hrecorded⟩
  | _ =>
      obtain ⟨_, _, hbefore, -, hrecorded⟩ := h
      cases hbefore
      exact .inl hrecorded

/-- Every write keeps all links. -/
theorem Linked.step {done : JobId × JobAct World} {before after : JobId → JobPhase}
    (h : Linked before) (hchange : PhasesChange host now done before after) : Linked after := by
  obtain ⟨ctx, jobs, jobs', ⟨hsound, hwrite⟩, rfl, rfl⟩ := hchange
  obtain ⟨id, act⟩ := done
  obtain ⟨hchange, hothers⟩ := hwrite.change hsound
  obtain ⟨-, hissued, -⟩ := hchange.gone
  intro follower leader spec' state' hfollower hlink
  by_cases hid : follower = id
  · subst hid
    by_cases hnew : ∀ spec state, jobs.phase follower = .live spec state → spec.after ≠ some leader
    · obtain ⟨hother, leaderSpec, leading, hleader, hrecorded⟩ :=
        hwrite.linked_now hsound hfollower hlink hnew
      rw [hleader]
      refine ⟨hother, nofun, ?_⟩
      intro _ _ hsame
      cases hsame
      exact hrecorded.le
    -- The link was there before the write.
    · push Not at hnew
      obtain ⟨spec, state, hbefore, hspec⟩ := hnew
      obtain ⟨hother, hthere, hruns⟩ := h follower leader spec state hbefore hspec
      rw [hothers leader hother]
      refine ⟨hother, hthere, ?_⟩
      intro leaderSpec leading hleader
      have hlinks := hwrite.links hsound hfollower
      have hcreated : ∀ owner params deposit, act ≠ .created owner params deposit := by
        rintro owner params deposit rfl
        rw [hchange.before_of_created] at hbefore
        cases hbefore
      rcases hlinks.kept hbefore hcreated hspec hlink with hsame | ⟨stored, hstored, hrecorded⟩
      · rw [hsame]
        exact hruns leaderSpec leading hleader
      · rw [states_of_phase hleader] at hstored
        cases hstored
        exact hrecorded.le
  · rw [hothers follower hid] at hfollower
    obtain ⟨hother, hthere, hruns⟩ := h follower leader spec' state' hfollower hlink
    refine ⟨hother, ?_⟩
    by_cases hled : leader = id
    -- A leader never loses runs while it lives.
    · subst hled
      refine ⟨hissued, ?_⟩
      intro leaderSpec' leading' hafter
      cases hbefore : jobs.phase leader with
      | future => exact absurd hbefore hthere
      | gone => exact absurd hbefore hchange.gone.1
      | live leaderSpec leading =>
          have hle := hruns leaderSpec leading hbefore
          have hfits := (hsound.states leader leading (states_of_phase hbefore)).runs_fits
          rcases hchange.runs hbefore hafter with hmore | ⟨-, hsame⟩
          · omega
          · omega
    · rw [hothers leader hled]
      exact ⟨hthere, hruns⟩

/-! ## Setting a link -/

/-- The leader a job follows after one more thing was done to it. -/
def JobAct.relink : JobAct World → Option JobId → Option JobId
  | .created _ params _, _ => params.after
  | .updated update, _ => update.after
  | _, link => link

/-- The leader a job follows, told from what was done to it. -/
def linkAfter (done : List (JobAct World)) : Option JobId :=
  done.foldl (fun link act => act.relink link) none

theorem linkAfter_append_one (done : List (JobAct World)) (act : JobAct World) :
    linkAfter (done ++ [act]) = act.relink (linkAfter done) := by
  rw [linkAfter, List.foldl_append]
  rfl

/-- The `after` of a live job is the one it was last given. -/
def JobPhase.FollowsAs (link : Option JobId) : JobPhase → Prop
  | .live spec _ => spec.after = link
  | _ => True

theorem JobChange.followsAs {link : Option JobId} {before after : JobPhase}
    (h : JobChange host now act before after) (hbefore : before.FollowsAs link) :
    after.FollowsAs (act.relink link) := by
  cases h with
  | created => rfl
  | updated => rfl
  | cancelled => trivial
  | _ => exact hbefore

theorem followsAs_of_life {acts : List (JobId × JobAct World)}
    {before after : Timestamp × (JobId → JobPhase)}
    (h : Life (Timed (PhasesChange host)) acts before after) (hbefore : before.2 id = .future) :
    (after.2 id).FollowsAs (linkAfter (doneTo id acts)) := by
  refine h.history (J := fun past phases =>
    (phases.2 id).FollowsAs (linkAfter (doneTo id past))) ?_ [] ?_
  · rintro past ⟨other, act⟩ before after hfollows ⟨-, hchange⟩
    obtain ⟨hchange, hothers⟩ := hchange.change
    rw [doneTo_append]
    by_cases heq : other = id
    · subst heq
      rw [doneTo_cons_self]
      exact (linkAfter_append_one _ act).symm ▸ hchange.followsAs hfollows
    · rw [doneTo_cons_of_ne act [] heq, hothers id (Ne.symm heq)]
      exact (List.append_nil (doneTo id past)).symm ▸ hfollows
  · rw [hbefore]
    trivial

/-- What sets a link leaves the follower with all of its new leader's runs recorded. -/
theorem follows_of_relink {follower leader : JobId} {link : Option JobId}
    {before after : JobId → JobPhase} (hchange : PhasesChange host now (follower, act) before after)
    (hbefore : (before follower).FollowsAs link) (hnew : link ≠ some leader)
    (hset : act.relink link = some leader) :
    leader ≠ follower ∧ Follows follower leader after 0 0 := by
  obtain ⟨ctx, jobs, jobs', ⟨hsound, hwrite⟩, rfl, rfl⟩ := hchange
  obtain ⟨hchange, -⟩ := hwrite.change hsound
  have hafter := hchange.followsAs hbefore
  have hnot : ∀ spec state, jobs.phase follower = .live spec state → spec.after ≠ some leader := by
    intro spec state hphase
    rw [hphase] at hbefore
    rwa [show spec.after = link from hbefore]
  cases hphase : jobs'.phase follower with
  | future => exact absurd hphase hchange.gone.2.1
  | gone =>
      cases hchange.cancelled_of_gone hphase
      exact absurd hset hnew
  | live spec' state' =>
      rw [hphase] at hafter
      have hlink : spec'.after = some leader := Eq.trans hafter hset
      obtain ⟨hother, leaderSpec, leading, hleader, hrecorded⟩ :=
        hwrite.linked_now hsound hphase hlink hnot
      refine ⟨hother, follows_fresh hphase hlink ?_ ?_⟩
      · rw [hleader]
        nofun
      · intro leaderSpec' leading' hsame
        rw [hleader] at hsame
        cases hsame
        exact hrecorded

end SoroCron
