import SoroCron.Registry.Deployment
import SoroCron.Registry.Links

/-! # Followers wait for their leader

A job that follows another one runs at most once for each run of its leader, counted from
the moment the link was set, whatever else is linked to what and in whatever order a call
runs its jobs.
-/

namespace SoroCron

open Outcome Bounded

variable {World : Type} {host : Host World} {c : Chain World} {follower leader : JobId}

/-! ## From the deployment -/

theorem Deployed.linked (h : Deployed host c) : Linked c.reg.jobs.phase := by
  intro follower leader spec state hlive
  rw [h.phase_eq follower] at hlive
  cases hlive

theorem linked_of_life {done : List (JobId × JobAct World)}
    {before after : Timestamp × (JobId → JobPhase)}
    (h : Life (Timed (PhasesChange host)) done before after) (hbefore : Linked before.2) :
    Linked after.2 := by
  refine h.invariant (I := fun phases => Linked phases.2) ?_ hbefore
  rintro act before after hlinked ⟨-, hchange⟩
  exact hlinked.step hchange

/-! ## The runs since a link was set -/

/-- What holds of the things done since `follower` was last linked to `leader`. -/
structure Waits (follower leader : JobId) (since : List (JobId × JobAct World)) : Prop where
  /-- No more runs than the leader made. -/
  count : runCount (doneTo follower since) ≤ runCount (doneTo leader since)
  /-- The leader ran first, and is there. -/
  first : ∀ past execution rest, since = past ++ (follower, .ran execution) :: rest →
    0 < runCount (doneTo leader past) ∧ (leader, .cancelled) ∉ past ∧
      (execution.before.chain.reg.jobs.states.get leader).isSome = true
  /-- The leader ran again between two runs. -/
  between : ∀ past execution middle execution' rest,
    since = past ++ (follower, .ran execution) :: middle ++ (follower, .ran execution') :: rest →
      0 < runCount (doneTo leader middle)

theorem waits_of_life {since : List (JobId × JobAct World)}
    {before after : Timestamp × (JobId → JobPhase)}
    (hother : leader ≠ follower) (hfresh : Follows follower leader before.2 0 0)
    (h : Life (Timed (PhasesChange host)) since before after)
    (hkept : ∀ update, (follower, .updated update) ∈ since → update.after = some leader) :
    Waits follower leader since := by
  refine ⟨?_, ?_, ?_⟩
  · have hcount := (hfresh.life hother h hkept).1
    rwa [Nat.zero_add, Nat.zero_add] at hcount
  · rintro past execution rest rfl
    obtain ⟨found, left, hpast, ⟨-, hran⟩, -⟩ := h.split_at
    have hfound := hfresh.life hother hpast fun update hmem =>
      hkept update (List.mem_append_left _ hmem)
    rw [Nat.zero_add, Nat.zero_add] at hfound
    obtain ⟨hmore, hthere, -⟩ := hfound.ran hother hran
    refine ⟨Nat.zero_lt_of_lt hmore, ?_, hthere⟩
    intro hcancelled
    have hgone := gone_of_cancelled_mem hpast hcancelled
    obtain ⟨ctx, jobs, jobs', ⟨hsound, hwrite⟩, hjobs, -⟩ := hran
    obtain ⟨leading, hleading⟩ := Option.isSome_iff_exists.mp hthere
    rw [← hwrite.ran_before] at hleading
    obtain ⟨leaderSpec, hphase⟩ := hsound.phase_of_state hleading
    rw [hjobs, hphase] at hgone
    cases hgone
  · rintro past execution middle execution' rest rfl
    obtain ⟨_, _, hbefore, ⟨-, hran'⟩, -⟩ := h.split_at
    obtain ⟨_, _, hpast, ⟨-, hran⟩, hmiddle⟩ := hbefore.split_at
    have hfound := hfresh.life hother hpast fun update hmem =>
      hkept update (List.mem_append_left _ (List.mem_append_left _ hmem))
    rw [Nat.zero_add, Nat.zero_add] at hfound
    obtain ⟨-, -, hagain⟩ := hfound.ran hother hran
    have hfound' := hagain.life hother hmiddle fun update hmem =>
      hkept update (List.mem_append_left _ (List.mem_append_right _ (List.mem_cons_of_mem _ hmem)))
    rw [Nat.zero_add, Nat.zero_add] at hfound'
    exact Nat.zero_lt_of_lt (hfound'.ran hother hran').1

/-! ## Along runs -/

/-- Along every run, for every two jobs: whenever the first was just linked to the second, at its
creation or by an update, and as long as updates keep that link, it runs only after the second
ran, at most as often, and at most once between two of the second's runs. A live job follows the
job it was last linked to and has never recorded more runs than that one made. -/
theorem follower_waits_for_leader {start : Chain World} {actions : List (Action World)}
    (hstart : Deployed host start) (halong : (machine host).Along (Admissible host) start actions)
    (follower leader : JobId) :
    let done := jobSteps ((machine host).outputs start actions)
    let last := ((machine host).run start actions).reg.jobs
    (∀ earlier act since later, done = earlier ++ (follower, act) :: since ++ later →
      linkAfter (doneTo follower earlier) ≠ some leader →
      linkAfter (doneTo follower earlier ++ [act]) = some leader →
      (∀ update, (follower, .updated update) ∈ since → update.after = some leader) →
      Waits follower leader since) ∧
      ∀ spec state, last.getJobParts follower = some (spec, state) →
        spec.after = linkAfter (doneTo follower done) ∧
          ∀ leaderSpec leading, spec.after = some leader →
            last.getJobParts leader = some (leaderSpec, leading) →
              state.leaderRuns ≤ leading.runs := by
  intro done last
  obtain ⟨now, -, hlife⟩ := jobs_life hstart.sound halong
  have hfuture := hstart.phase_eq follower
  refine ⟨?_, ?_⟩
  · intro earlier act since later hdone hnew hset hkept
    rw [show jobSteps _ = _ from hdone] at hlife
    obtain ⟨_, hlife, -⟩ := hlife.split
    obtain ⟨found, left, hearlier, ⟨-, hlinked⟩, hsince⟩ := hlife.split_at
    rw [linkAfter_append_one] at hset
    obtain ⟨hother, hfresh⟩ :=
      follows_of_relink hlinked (followsAs_of_life hearlier hfuture) hnew hset
    exact waits_of_life hother hfresh hsince hkept
  · intro spec state hparts
    have hfollows : (last.phase follower).FollowsAs (linkAfter (doneTo follower done)) :=
      followsAs_of_life hlife hfuture
    rw [phase_of_parts hparts] at hfollows
    refine ⟨hfollows, ?_⟩
    intro leaderSpec leading hlink hleader
    have hlinked := linked_of_life hlife hstart.linked
    exact (hlinked follower leader spec state (phase_of_parts hparts) hlink).2.2 leaderSpec leading
      (phase_of_parts hleader)

/-- A job that follows the first one is created; then one call runs it before and after its
leader. -/
def followingRun : List (Action Unit) :=
  firstRun ++
    [.call ⟨[⟨5⟩]⟩ (.job (.createJob ⟨5⟩ { minutely with after := some 0 } 50)), .advance 1130,
      .call ⟨[⟨4⟩]⟩ (.run (.executeBatch ⟨4⟩ [1, 0, 1]))]

theorem followingRun_admissible (c : Chain Unit) :
    (machine plainHost).Along (Admissible plainHost) c followingRun := by
  refine Machine.along_append.mpr ⟨firstRun_admissible c, ?_⟩
  simp [Machine.Along, Admissible, Call.WellTyped, JobParams.WellTyped, minutely, u64Max, i128Max]

def followingActs : List (JobId × JobAct Unit) :=
  jobSteps ((machine plainHost).outputs (deployment ⟨3⟩ 1000 100 10 1000) followingRun)

theorem followingActs_eq : followingActs = followingActs.take 2 ++
    (1, .created ⟨5⟩ { minutely with after := some 0 } 50) :: followingActs.drop 3 ++ [] := rfl

theorem followingActs_keep (update : JobUpdate) : (1, .updated update) ∉ followingActs.drop 3 := by
  have hkept : (followingActs.drop 3).all (fun done => match done.2 with
      | .updated _ => false
      | _ => true) = true := rfl
  intro hmem
  exact absurd (List.all_eq_true.mp hkept _ hmem) Bool.false_ne_true

theorem follower_waits_for_leader_followingRun :
    followingActs.map Prod.fst = [0, 0, 1, 0, 1] ∧ runCount (doneTo 1 (followingActs.drop 3)) = 1 ∧
      Waits 1 0 (followingActs.drop 3) := by
  refine ⟨by decide, by decide, ?_⟩
  have hdeployed := deployment_deployed ⟨3⟩ 10 1000
    (show 1000 ≤ u64Max by decide) (show 0 ≤ 100 by decide)
  apply (follower_waits_for_leader hdeployed (followingRun_admissible _) 1 0).1 _ _ _ _
    followingActs_eq
  · decide
  · decide
  · intro update hmem
    exact absurd hmem (followingActs_keep update)

end SoroCron
